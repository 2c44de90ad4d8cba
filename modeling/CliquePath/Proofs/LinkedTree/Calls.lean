import CliquePath.Graph.Lemmas
import CliquePath.Proofs.Graph.History
import CliquePath.Proofs.LinkedTree.Readouts
import Mathlib

set_option autoImplicit false

/-!
# Any sequence of insertions

This module shows what a linked tree answers to any sequence of calls of `insert`, each with a graph of
its own, as long as none was rejected. The only failures are those that name a vertex which the graph
does not have or which is in the tree already; a call that fails so changes nothing that can be seen
later. The step lemma says what one call does to a sound tree; the induction on the calls says what any
sequence of them does.
-/

namespace CliquePath

namespace LinkedTree

/-- A call of `insert`. -/
structure Call where
  graph : Graph
  vertex : Vertex

/-- What a tree answers to several calls. -/
def answers (t : LinkedTree) : List Call → List (Except Failure Insertion)
  | [] => []
  | c :: rest => (t.insert c.graph c.vertex).1 :: (t.insert c.graph c.vertex).2.answers rest

/-- The tree after several calls. -/
def after (t : LinkedTree) (calls : List Call) : LinkedTree :=
  calls.foldl (fun t c => (t.insert c.graph c.vertex).2) t

/-- The vertices that several calls put in. -/
def insertedBy (t : LinkedTree) : List Call → List Vertex
  | [] => []
  | c :: rest =>
      match t.insert c.graph c.vertex with
      | (.ok .inserted, t) => c.vertex :: t.insertedBy rest
      | (_, t) => t.insertedBy rest

variable {t : LinkedTree} {S : Set Vertex} {g : Graph} {u : Vertex} {b : Nat}

/-! ## One call -/

/-- A new tree is sound. -/
theorem sound_new (b : Nat) : (new b).Sound ∅ := by
  refine ⟨⟨0, ⟨rfl, ?_, ?_⟩, .nil, ?_, ?_⟩, by simp⟩
  · simp
  · simp
  · intro v
    simp [new, Slots.get_empty, Slot.Fits]
  · simp [new, Slots.get_empty]

/-- A tree has its vertices below its bound. -/
def Bounded (t : LinkedTree) : Prop := ∀ v, t.slots.get v ≠ .absent → v < t.bound

theorem Sound.bounded (h : t.Sound S) : t.Bounded := by
  intro v hv
  obtain ⟨M, hM⟩ := h.tree
  exact h.below v ((hM.agree.placed v).1 hv)

/-- What one call does to a sound tree. -/
theorem Sound.insert_cases (h : t.Sound S) (g : Graph) (u : Vertex) :
    (g.contains u = false ∧ t.insert g u =
        (.error (.noSuchVertex u), { t with bound := max t.bound g.bound })) ∨
      (g.contains u = true ∧ u ∈ S ∧ t.insert g u =
        (.error (.internal (.insertedTwice u)), { t with bound := max t.bound g.bound })) ∨
      g.contains u = true ∧ u ∉ S ∧ ∃ t', t'.Bounded ∧ (t.insert g u = (.ok .rejected, t') ∨
        t.insert g u = (.ok .inserted, t') ∧ t'.Sound (Insert.insert u S)) := by
  obtain ⟨M, hM⟩ := h.tree
  have hS : ∀ v, t.slots.get v ≠ .absent ↔ v ∈ S := hM.agree.placed
  unfold LinkedTree.insert
  -- a vertex that the graph does not have, one that is in the tree already, and a new one
  by_cases hlive : g.contains u = true
  · by_cases hu : u ∈ S
    · refine Or.inr (Or.inl ⟨hlive, hu, ?_⟩)
      have htwice : t.slots.get u ≠ .absent := (hS u).2 hu
      simp [hlive, LinkedTree.contains, htwice]
    · refine Or.inr (Or.inr ⟨hlive, hu, ?_⟩)
      have hnew : t.slots.get u = .absent := by
        by_contra hne
        exact hu ((hS u).1 hne)
      have hn : ∀ v ∈ (g.neighbors u).filter
          (LinkedTree.contains { t with bound := max t.bound g.bound }), v ∈ S := by
        intro v hv
        refine (hS v).1 ?_
        simpa [LinkedTree.contains] using (List.mem_filter.1 hv).2
      obtain ⟨w', done, hadd, hwithin, hsound⟩ := hM.add rfl hu hn
      -- the call raises the bound before it puts the vertex in
      have hbound : ∀ v ∈ Insert.insert u S, v < max t.bound g.bound := by
        obtain ⟨record, hrecord⟩ := Graph.contains_iff.1 hlive
        rintro v (rfl | hv)
        · exact lt_of_lt_of_le (Graph.lt_bound_of_record? hrecord) (le_max_right _ _)
        · exact lt_of_lt_of_le (h.below v hv) (le_max_left _ _)
      simp only [hlive, LinkedTree.contains, hnew, Bool.not_true, Bool.false_eq_true, if_false,
        bne_self_eq_false]
      rw [hadd]
      cases done with
      | false => exact ⟨_, fun v hv => hbound v (hwithin v hv), Or.inl rfl⟩
      | true =>
          obtain ⟨M', hM'⟩ := hsound rfl
          exact ⟨_, fun v hv => hbound v (hwithin v hv), Or.inr ⟨rfl,
            ⟨⟨M', ⟨hM'.owns, hM'.trees, hM'.agree⟩⟩, hbound⟩⟩⟩
  · refine Or.inl ⟨by simpa using hlive, ?_⟩
    simp [hlive]

/-! ## The bound of a tree -/

/-- Vertices without a slot have no interval. -/
theorem intervals_append_absent (l : Layout) (slots : Slots) (vs : List Vertex) {ws : List Vertex}
    (hws : ∀ v ∈ ws, slots.get v = .absent) :
    l.intervals slots (vs ++ ws) = l.intervals slots vs := by
  induction vs with
  | nil =>
      rw [List.nil_append]
      induction ws with
      | nil => rfl
      | cons w rest ih =>
          simp only [Layout.intervals, hws w List.mem_cons_self, Layout.interval?, pure_eq_ok, ok_bind]
          exact ih fun v hv => hws v (List.mem_cons_of_mem _ hv)
  | cons v rest ih => simp only [List.cons_append, Layout.intervals, ih]

/-- A greater bound gives the same intervals. -/
theorem Bounded.intervals_eq (h : t.Bounded) (hb : t.bound ≤ b) :
    LinkedTree.intervals { t with bound := b } = t.intervals := by
  have hrange : List.range b = List.range t.bound ++
      (List.range (b - t.bound)).map (t.bound + ·) := by
    rw [← List.range_add, Nat.add_sub_cancel' hb]
  -- no vertex beyond the old bound has a slot
  have habsent : ∀ v ∈ (List.range (b - t.bound)).map (t.bound + ·), t.slots.get v = .absent := by
    intro v hv
    obtain ⟨i, -, rfl⟩ := List.mem_map.1 hv
    by_contra hne
    exact absurd (h _ hne) (Nat.not_lt.2 (Nat.le_add_right _ _))
  unfold LinkedTree.intervals
  simp only [hrange, intervals_append_absent _ _ _ habsent]

/-- A call answers the same whatever the bound of the tree, and changes everything else alike. -/
theorem insert_bound (t : LinkedTree) (b : Nat) (g : Graph) (u : Vertex) :
    LinkedTree.insert { t with bound := b } g u =
      ((t.insert g u).1, { (t.insert g u).2 with bound := max b g.bound }) := by
  have hcontains : ∀ b, LinkedTree.contains { t with bound := b } = t.contains := fun _ => rfl
  simp only [LinkedTree.insert, hcontains]
  cases g.contains u with
  | false => rfl
  | true =>
      cases t.contains u with
      | true => rfl
      | false =>
          simp only [Bool.not_true, Bool.false_eq_true, if_false]
          rcases (Work.mk t.arena t.slots []).add u ((g.neighbors u).filter t.contains) with
            fault | ⟨w, _ | _⟩ <;> rfl

/-- The bound of a tree after a call. -/
theorem bound_insert (t : LinkedTree) (g : Graph) (u : Vertex) :
    (t.insert g u).2.bound = max t.bound g.bound := by
  have h := congrArg (fun out => out.2.bound) (insert_bound t t.bound g u)
  exact h

theorem answers_bound (t : LinkedTree) (b : Nat) (calls : List Call) :
    LinkedTree.answers { t with bound := b } calls = t.answers calls := by
  induction calls generalizing t b with
  | nil => rfl
  | cons c rest ih => simp only [answers, insert_bound, ih]

theorem after_bound (t : LinkedTree) (calls : List Call) (hb : t.bound ≤ b) :
    ∃ b', (t.after calls).bound ≤ b' ∧
      LinkedTree.after { t with bound := b } calls = { t.after calls with bound := b' } := by
  induction calls generalizing t b with
  | nil => exact ⟨b, hb, rfl⟩
  | cons c rest ih =>
      -- one call keeps the order of the two bounds
      obtain ⟨b', hle, hafter⟩ := ih (t.insert c.graph c.vertex).2 (b := max b c.graph.bound) (by
        rw [bound_insert]
        exact max_le_max_right _ hb)
      refine ⟨b', hle, ?_⟩
      show LinkedTree.after (LinkedTree.insert { t with bound := b } c.graph c.vertex).2 rest = _
      rw [insert_bound]
      exact hafter

/-! ## Several calls -/

theorem Sound.of_bound (h : t.Sound S) (hb : t.bound ≤ b) :
    Sound { t with bound := b } S :=
  ⟨h.tree, fun v hv => lt_of_lt_of_le (h.below v hv) hb⟩

theorem Bounded.of_bound (h : t.Bounded) (hb : t.bound ≤ b) :
    Bounded { t with bound := b } :=
  fun v hv => lt_of_lt_of_le (h v hv) hb

/-- A call that is not rejected leaves a sound tree. -/
theorem Sound.step (h : t.Sound S) (c : Call)
    (hne : (t.insert c.graph c.vertex).1 ≠ .ok .rejected) :
    (t.insert c.graph c.vertex).2.Sound (S ∪ {v | v ∈ t.insertedBy [c]}) := by
  rcases h.insert_cases c.graph c.vertex with ⟨-, hc⟩ | ⟨-, -, hc⟩ | ⟨-, -, t', -, hc | ⟨hc, hsound⟩⟩
  · simpa [insertedBy, hc] using h.of_bound (le_max_left t.bound c.graph.bound)
  · simpa [insertedBy, hc] using h.of_bound (le_max_left t.bound c.graph.bound)
  · exact absurd (by rw [hc]) hne
  · simpa [insertedBy, hc] using hsound

/-- What the first of several calls puts in, and what the others do. -/
theorem insertedBy_cons (t : LinkedTree) (c : Call) (rest : List Call) :
    t.insertedBy (c :: rest) =
      t.insertedBy [c] ++ (t.insert c.graph c.vertex).2.insertedBy rest := by
  simp only [insertedBy]
  rcases t.insert c.graph c.vertex with ⟨_ | (_ | _), t'⟩ <;> rfl

/-- A tree is sound after any calls of which none was rejected. -/
theorem Sound.run (h : t.Sound S) {calls : List Call}
    (hcalls : .ok .rejected ∉ t.answers calls) :
    (t.after calls).Sound (S ∪ {v | v ∈ t.insertedBy calls}) := by
  induction calls generalizing t S with
  | nil => simpa [insertedBy, LinkedTree.after] using h
  | cons c rest ih =>
      rw [answers, List.mem_cons, not_or] at hcalls
      have hrest := ih (h.step c (Ne.symm hcalls.1)) hcalls.2
      rw [insertedBy_cons]
      simpa [LinkedTree.after, Set.union_assoc, Set.ofPred_or] using hrest

/-- No vertex has a slot at or beyond the bound, not even after a call that was rejected. -/
theorem Sound.bounded_after (h : t.Sound S) {calls : List Call}
    (hcalls : .ok .rejected ∉ (t.answers calls).dropLast) : (t.after calls).Bounded := by
  induction calls generalizing t S with
  | nil => exact h.bounded
  | cons c rest ih =>
      -- only the last call may be rejected
      cases rest with
      | nil =>
          show (t.insert c.graph c.vertex).2.Bounded
          rcases h.insert_cases c.graph c.vertex with
            ⟨-, hc⟩ | ⟨-, -, hc⟩ | ⟨-, -, t', ht', hc | ⟨hc, -⟩⟩
          · simpa [hc] using h.bounded.of_bound (le_max_left t.bound c.graph.bound)
          · simpa [hc] using h.bounded.of_bound (le_max_left t.bound c.graph.bound)
          · simpa [hc] using ht'
          · simpa [hc] using ht'
      | cons d rest =>
          rw [answers, answers, List.dropLast_cons_cons, List.mem_cons, not_or] at hcalls
          exact ih (h.step c (Ne.symm hcalls.1)) hcalls.2

/-- Whatever is put into a new tree next to whatever else: up to the first rejection the tree can be
read out, a call fails only with a vertex that the graph does not have or that was put in before, and
a call that fails makes no difference later. -/
theorem insert_total (b : Nat) (calls : List Call)
    (hcalls : .ok .rejected ∉ (new b).answers calls) (g : Graph) (u : Vertex) :
    let t := (new b).after calls
    let next := t.insert g u
    (∃ cliques, t.cliques = .ok cliques) ∧ (∃ intervals, t.intervals = .ok intervals) ∧
      (next.1 = .ok .inserted ∨ next.1 = .ok .rejected ∨ next.1 = .error (.noSuchVertex u) ∨
        next.1 = .error (.internal (.insertedTwice u))) ∧
      (next.1 = .error (.noSuchVertex u) ↔ g.contains u = false) ∧
      (next.1 = .error (.internal (.insertedTwice u)) ↔
        g.contains u = true ∧ u ∈ (new b).insertedBy calls) ∧
      ∀ failure, next.1 = .error failure → ∀ later,
        next.2.answers later = t.answers later ∧
        (next.2.after later).size = (t.after later).size ∧
        (next.2.after later).isEmpty = (t.after later).isEmpty ∧
        (next.2.after later).cliques = (t.after later).cliques ∧
        (.ok .rejected ∉ (t.answers later).dropLast →
          (next.2.after later).intervals = (t.after later).intervals) := by
  intro t next
  have ht : t.Sound {v | v ∈ (new b).insertedBy calls} := by
    simpa using (sound_new b).run hcalls
  refine ⟨ht.cliques_ok, ht.intervals_ok, ?_⟩
  -- A call that fails changes the bound of the tree only.
  have hinert : next.2 = { t with bound := max t.bound g.bound } → ∀ later,
      next.2.answers later = t.answers later ∧
      (next.2.after later).size = (t.after later).size ∧
      (next.2.after later).isEmpty = (t.after later).isEmpty ∧
      (next.2.after later).cliques = (t.after later).cliques ∧
      (.ok .rejected ∉ (t.answers later).dropLast →
        (next.2.after later).intervals = (t.after later).intervals) := by
    intro hnext later
    obtain ⟨b', hle, hafter⟩ := after_bound t later (le_max_left t.bound g.bound)
    rw [hnext, hafter]
    exact ⟨answers_bound t _ later, rfl, rfl, rfl, fun hlater =>
      (ht.bounded_after hlater).intervals_eq hle⟩
  rcases ht.insert_cases g u with ⟨hlive, hc⟩ | ⟨hlive, hu, hc⟩ | ⟨hlive, hu, t', -, hc⟩
  · have hnext : next = (.error (.noSuchVertex u), { t with bound := max t.bound g.bound }) := hc
    refine ⟨?_, ?_, ?_, fun _ _ => hinert (by rw [hnext])⟩ <;> simp [hnext, hlive]
  · have hnext : next =
        (.error (.internal (.insertedTwice u)), { t with bound := max t.bound g.bound }) := hc
    refine ⟨?_, ?_, ?_, fun _ _ => hinert (by rw [hnext])⟩ <;> simp [hnext, hlive]
    exact hu
  · have hnext : next.1 = .ok .rejected ∨ next.1 = .ok .inserted :=
      hc.imp (congrArg Prod.fst) fun h => congrArg Prod.fst h.1
    have hnot : u ∉ (new b).insertedBy calls := hu
    rcases hnext with hnext | hnext <;> simp [hnext, hlive, hnot]

/-- The path on three vertices, put in from one end to the other, and its middle vertex once more. -/
theorem insert_total_threePath :
    let t := (new 0).after [⟨.threePath, 0⟩, ⟨.threePath, 1⟩, ⟨.threePath, 2⟩]
    let next := t.insert .threePath 1
    (∃ cliques, t.cliques = .ok cliques) ∧ (∃ intervals, t.intervals = .ok intervals) ∧
      next.1 = .error (.internal (.insertedTwice 1)) ∧
      ∀ later, next.2.answers later = t.answers later := by
  have hanswers : (new 0).answers [⟨.threePath, 0⟩, ⟨.threePath, 1⟩, ⟨.threePath, 2⟩] =
      [.ok .inserted, .ok .inserted, .ok .inserted] := by cbv
  have hinserted : (new 0).insertedBy [⟨.threePath, 0⟩, ⟨.threePath, 1⟩, ⟨.threePath, 2⟩] =
      [0, 1, 2] := by cbv
  obtain ⟨hcliques, hintervals, -, -, htwice, hinert⟩ :=
    insert_total 0 [⟨.threePath, 0⟩, ⟨.threePath, 1⟩, ⟨.threePath, 2⟩]
      (by rw [hanswers]; decide) .threePath 1
  have hnext := htwice.2 ⟨rfl, by rw [hinserted]; decide⟩
  exact ⟨hcliques, hintervals, hnext, fun later => (hinert _ hnext later).1⟩

end LinkedTree

end CliquePath
