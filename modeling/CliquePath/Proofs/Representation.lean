import CliquePath.Proofs.Graph.Linked
import CliquePath.Proofs.IntervalGraphs
import CliquePath.Representation

set_option autoImplicit false

/-!
# The check of a representation

This module defines the check of an assignment against a graph by adjacency and says what it goes
through. The pairs of entries
that the sweep meets are the overlapping ones, each with the entry in front that starts first: an
interval is met by the next ones until one of them starts behind its end, and from there on all do.
The answer of the check depends on these pairs alone.

An assignment that agrees with the graph passes the check, whether or not it has all vertices.
-/

namespace CliquePath

variable {g : Graph} {a intervals : Assignment} {entries : List (Vertex × Interval)}

namespace Assignment

/-- The entries sorted for the check start one after the other. -/
theorem pairwise_byStart (a : Assignment) :
    a.byStart.Pairwise fun e f => e.2.start ≤ f.2.start := by
  have hsorted : a.byStart.Pairwise fun p q =>
      (p.2.start < q.2.start || (p.2.start == q.2.start && p.1 ≤ q.1) : Bool) = true := by
    refine List.pairwise_mergeSort (fun p q r hpq hqr => ?_) (fun p q => ?_) a
    · simp only [Bool.or_eq_true, Bool.and_eq_true, decide_eq_true_eq, beq_iff_eq] at hpq hqr ⊢
      grind
    · simp only [Bool.or_eq_true, Bool.and_eq_true, decide_eq_true_eq, beq_iff_eq]
      grind
  refine hsorted.imp fun {e f} h => ?_
  simp only [Bool.or_eq_true, Bool.and_eq_true, decide_eq_true_eq, beq_iff_eq] at h
  omega

theorem mem_byStart {a : Assignment} {e : Vertex × Interval} : e ∈ a.byStart ↔ e ∈ a :=
  List.mem_mergeSort

/-- The pairs of vertices that the sweep meets, in the order in which it meets them. -/
def crossings : List (Vertex × Interval) → List (Vertex × Vertex)
  | [] => []
  | (v, i) :: rest =>
      ((rest.takeWhile fun e => e.2.start < i.stop).map fun e => (v, e.1)) ++ crossings rest

/-- The entries are fit for the sweep: they stand in the order of their starts, no vertex has two of
them, and their intervals are not empty. -/
structure Swept (entries : List (Vertex × Interval)) : Prop where
  sorted : entries.Pairwise fun e f => e.2.start ≤ f.2.start
  distinct : entries.Pairwise fun e f => e.1 ≠ f.1
  nonempty : ∀ e ∈ entries, e.2.start < e.2.stop

theorem swept_byStart (hkeys : (a.map Prod.fst).Nodup) (hnonempty : ∀ e ∈ a, e.2.start < e.2.stop) :
    Swept a.byStart := by
  have hperm : a.byStart.Perm a := List.mergeSort_perm a _
  refine ⟨a.pairwise_byStart, ?_, fun e he => hnonempty e (mem_byStart.1 he)⟩
  exact List.pairwise_map.1 ((hperm.map Prod.fst).nodup_iff.2 hkeys)

namespace Swept

variable {first e f : Vertex × Interval} {rest : List (Vertex × Interval)}

theorem tail (h : Swept (first :: rest)) : Swept rest :=
  ⟨(List.pairwise_cons.1 h.sorted).2, (List.pairwise_cons.1 h.distinct).2,
    fun e he => h.nonempty e (List.mem_cons_of_mem _ he)⟩

theorem start_le (h : Swept (first :: rest)) (he : e ∈ rest) : first.2.start ≤ e.2.start :=
  (List.pairwise_cons.1 h.sorted).1 e he

theorem ne_first (h : Swept (first :: rest)) (he : e ∈ rest) : first.1 ≠ e.1 :=
  (List.pairwise_cons.1 h.distinct).1 e he

/-- The sweep breaks off where nothing more overlaps. -/
theorem mem_takeWhile_iff (h : Swept rest) {stop : Nat} :
    e ∈ rest.takeWhile (fun e => e.2.start < stop) ↔ e ∈ rest ∧ e.2.start < stop := by
  induction rest with
  | nil => simp
  | cons first rest ih =>
      rw [List.takeWhile_cons]
      split
      next hfirst =>
        rw [List.mem_cons, ih h.tail, List.mem_cons]
        constructor
        · rintro (rfl | ⟨he, hlt⟩)
          · exact ⟨Or.inl rfl, of_decide_eq_true hfirst⟩
          · exact ⟨Or.inr he, hlt⟩
        · rintro ⟨rfl | he, hlt⟩
          · exact Or.inl rfl
          · exact Or.inr ⟨he, hlt⟩
      next hfirst =>
        -- The entries are sorted by their starts, so behind this one nothing starts earlier.
        have hle : stop ≤ first.2.start := Nat.le_of_not_lt fun hlt => hfirst (decide_eq_true hlt)
        refine iff_of_false List.not_mem_nil ?_
        rintro ⟨he, hlt⟩
        rcases List.mem_cons.1 he with rfl | he
        · exact Nat.not_lt.2 hle hlt
        · exact Nat.not_lt.2 (hle.trans (h.start_le he)) hlt

/-- The first entry meets the later ones that it overlaps. -/
theorem mem_met_iff (h : Swept (first :: rest)) :
    e ∈ rest.takeWhile (fun e => e.2.start < first.2.stop) ↔
      e ∈ rest ∧ first.2.overlaps e.2 = true := by
  rw [h.tail.mem_takeWhile_iff, Interval.overlaps_iff]
  refine and_congr_right fun he => ?_
  have hstart := h.start_le he
  have hpos := h.nonempty e (List.mem_cons_of_mem _ he)
  exact ⟨fun hlt => ⟨Nat.lt_of_le_of_lt hstart hpos, hlt⟩, fun hover => hover.2⟩

/-- Every pair that is met consists of two entries that overlap. -/
theorem exists_of_mem_crossings (h : Swept entries) {p : Vertex × Vertex}
    (hp : p ∈ crossings entries) : ∃ e ∈ entries, ∃ f ∈ entries,
      p = (e.1, f.1) ∧ e.1 ≠ f.1 ∧ e.2.overlaps f.2 = true := by
  induction entries with
  | nil => cases hp
  | cons first rest ih =>
      rw [crossings, List.mem_append, List.mem_map] at hp
      rcases hp with ⟨f, hf, rfl⟩ | hp
      · obtain ⟨hrest, hover⟩ := h.mem_met_iff.1 hf
        exact ⟨first, List.mem_cons_self, f, List.mem_cons_of_mem _ hrest, rfl,
          h.ne_first hrest, hover⟩
      · obtain ⟨e, he, f, hf, hpair⟩ := ih h.tail hp
        exact ⟨e, List.mem_cons_of_mem _ he, f, List.mem_cons_of_mem _ hf, hpair⟩

/-- Two entries that overlap are met, the one that comes first in front. -/
theorem pairwise_crossings (h : Swept entries) : entries.Pairwise fun e f =>
    e.2.overlaps f.2 = true → (e.1, f.1) ∈ crossings entries := by
  induction entries with
  | nil => exact .nil
  | cons first rest ih =>
      refine List.pairwise_cons.2 ⟨fun f hf hover => ?_, (ih h.tail).imp fun hmet hover => ?_⟩
      · exact List.mem_append_left _
          (List.mem_map_of_mem (f := fun f => (first.1, f.1)) (h.mem_met_iff.2 ⟨hf, hover⟩))
      · exact List.mem_append_right _ (hmet hover)

/-- Two overlapping entries are met in one order or the other. -/
theorem mem_crossings_or (h : Swept entries) (he : e ∈ entries) (hf : f ∈ entries)
    (hne : e.1 ≠ f.1) (hover : e.2.overlaps f.2 = true) :
    (e.1, f.1) ∈ crossings entries ∨ (f.1, e.1) ∈ crossings entries := by
  have hmet := h.pairwise_crossings
  refine List.Pairwise.forall_of_forall_of_flip (R := fun e f => e.1 ≠ f.1 →
    e.2.overlaps f.2 = true → (e.1, f.1) ∈ crossings entries ∨ (f.1, e.1) ∈ crossings entries)
    ?_ ?_ ?_ he hf hne hover
  · exact fun e _ hne _ => absurd rfl hne
  · exact hmet.imp fun hmet _ hover => Or.inl (hmet hover)
  · refine hmet.imp fun {e f} hmet _ hover => Or.inr (hmet ?_)
    rwa [Interval.overlaps_comm]

end Swept

end Assignment

namespace Graph

open Assignment

/-- Counts the overlapping pairs of entries that are sorted by their start, or gives the first such
pair that is not adjacent. -/
def countOverlaps (g : Graph) : List (Vertex × Interval) → Except (Vertex × Vertex) Nat
  | [] => .ok 0
  | (v, i) :: rest =>
      let overlapping := rest.takeWhile fun e => e.2.start < i.stop
      match overlapping.find? fun e => !g.adjacent v e.1 with
      | some (w, _) => .error (v, w)
      | none => (g.countOverlaps rest).map (· + overlapping.length)

/-- The first pair of vertices whose adjacency disagrees with their intervals, if there is
one: the check by adjacency. -/
def disagreement? (g : Graph) (a : Assignment) : Option (Vertex × Vertex) :=
  match g.countOverlaps a.byStart with
  | .error pair => some pair
  | .ok count =>
      if count = g.edgeCount then none else g.edges.find? fun e => !edgeOverlaps a e

/-- The answer of the sweep is the first pair met that is not adjacent, or the number of pairs. -/
theorem countOverlaps_eq (g : Graph) (entries : List (Vertex × Interval)) :
    g.countOverlaps entries =
      match (crossings entries).find? fun p => !g.adjacent p.1 p.2 with
      | some pair => .error pair
      | none => .ok (crossings entries).length := by
  induction entries with
  | nil => rfl
  | cons first rest ih =>
      have hmet : ∀ met : List (Vertex × Interval),
          (met.map fun e => (first.1, e.1)).find? (fun p => !g.adjacent p.1 p.2) =
            (met.find? fun e => !g.adjacent first.1 e.1).map fun e => (first.1, e.1) :=
        fun _ => List.find?_map
      simp only [countOverlaps, crossings, List.find?_append, hmet, ih]
      cases (rest.takeWhile fun e => e.2.start < first.2.stop).find?
          fun e => !g.adjacent first.1 e.1 with
      | some e => rfl
      | none =>
          cases (crossings rest).find? fun p => !g.adjacent p.1 p.2 with
          | some pair => rfl
          | none => simp [Except.map, Nat.add_comm]

/-- The intervals of an assignment agree with the graph: two of them overlap exactly when their
vertices are joined by an edge, and both ends of every edge have one. -/
structure Agrees (g : Graph) (a : Assignment) : Prop where
  overlaps : ∀ e ∈ a, ∀ f ∈ a, e.1 ≠ f.1 →
    (e.2.overlaps f.2 = true ↔ g.hasEdge e.1 f.1 = true)
  covered : ∀ u v, g.hasEdge u v = true → ∃ i j, (u, i) ∈ a ∧ (v, j) ∈ a

/-- The pairs met in an assignment that agrees with the graph are adjacent. -/
theorem Agrees.adjacent_of_mem_crossings (h : g.Agrees a) (hg : g.Consistent)
    (hswept : Swept a.byStart) {p : Vertex × Vertex} (hp : p ∈ crossings a.byStart) :
    g.adjacent p.1 p.2 = true := by
  obtain ⟨e, he, f, hf, rfl, hne, hover⟩ := hswept.exists_of_mem_crossings hp
  have hedge := (h.overlaps e (mem_byStart.1 he) f (mem_byStart.1 hf) hne).1 hover
  exact adjacent_iff.2 ((hg.edge e.1 f.1).1 hedge)

/-- The intervals of every edge overlap in an assignment that agrees with the graph. -/
theorem Agrees.edgeOverlaps (h : g.Agrees a) (hg : g.Consistent) (hkeys : (a.map Prod.fst).Nodup)
    {e : Vertex × Vertex} (he : e ∈ g.edges) : edgeOverlaps a e = true := by
  obtain ⟨hlinked, hlt⟩ := mem_edges.1 he
  have hedge := (hg.edge e.1 e.2).2 hlinked
  obtain ⟨i, j, hi, hj⟩ := h.covered e.1 e.2 hedge
  have hget : a.get? e.1 = some i := Assignment.get?_of_mem hkeys hi
  have hget' : a.get? e.2 = some j := Assignment.get?_of_mem hkeys hj
  simpa [Graph.edgeOverlaps, hget, hget'] using (h.overlaps _ hi _ hj (Nat.ne_of_lt hlt)).2 hedge

/-- An assignment that agrees with the graph passes the check. -/
theorem Agrees.disagreement?_eq_none (h : g.Agrees a) (hg : g.Consistent)
    (hkeys : (a.map Prod.fst).Nodup) (hnonempty : ∀ e ∈ a, e.2.start < e.2.stop) :
    g.disagreement? a = none := by
  have hmet : ((crossings a.byStart).find? fun p => !g.adjacent p.1 p.2) = none := by
    refine List.find?_eq_none.2 fun p hp => ?_
    rw [h.adjacent_of_mem_crossings hg (swept_byStart hkeys hnonempty) hp]
    exact Bool.false_ne_true
  have hedges : (g.edges.find? fun e => !Graph.edgeOverlaps a e) = none := by
    refine List.find?_eq_none.2 fun e he => ?_
    rw [h.edgeOverlaps hg hkeys he]
    exact Bool.false_ne_true
  rw [disagreement?, countOverlaps_eq, hmet]
  simp only [hedges, ite_self]

/-- An assignment that represents the graph agrees with it. -/
theorem Consistent.agrees_of_represents (hg : g.Consistent)
    (h : Represents intervals g.vertices g.Linked) : g.Agrees intervals := by
  refine ⟨fun e he f hf hne => ?_, fun u v hedge => ?_⟩
  · rw [h.overlaps e he f hf hne, hg.edge]
  · obtain ⟨hu, hv⟩ := hg.mem_vertices_of_linked ((hg.edge u v).1 hedge)
    obtain ⟨i, hi, -⟩ := h.exists_get? hu
    obtain ⟨j, hj, -⟩ := h.exists_get? hv
    exact ⟨i, j, hi, hj⟩

/-- An assignment that represents the graph passes the check. -/
theorem Consistent.disagreement?_eq_none (hg : g.Consistent)
    (h : Represents intervals g.vertices g.Linked) : g.disagreement? intervals = none := by
  refine (hg.agrees_of_represents h).disagreement?_eq_none hg ?_ h.nonempty
  rw [h.keys]
  exact nodup_vertices g

end Graph

end CliquePath
