import CliquePath.Proofs.Graph.Edits

set_option autoImplicit false

/-!
# What a sequence of edits leaves

This module carries the effect of one call to whole sequences, by induction with the last call split
off. `Follows` compares a graph with a later one: removed vertices do not return, so the neighbours
that a vertex keeps stand before those it gained since. `Records` states everything that the
sequence tells of the graph, the failures of a next call included, and `built_records` proves it of
every sequence.
-/

namespace CliquePath

namespace Graph

variable {g h : Graph} {c : Edit} {calls : List Edit} {u v w : Vertex}

theorem Reachable.edited (hg : g.Reachable) (c : Edit) : (g.edited c).Reachable := by
  cases c with
  | push label => exact .push label hg
  | pushNumbered => exact .pushNumbered hg
  | eraseVertex v => exact .eraseVertex hg rfl
  | connect u v => exact .connect hg rfl
  | insertEdge u v => exact .insertEdge hg rfl
  | relabel v label => exact .relabel hg rfl

theorem reachable_built (calls : List Edit) : (built calls).Reachable := by
  induction calls using List.reverseRecOn with
  | nil => exact .empty
  | append_singleton calls c ih =>
      rw [built_concat]
      exact ih.edited c

/-! ## Vertices and edges -/

theorem bound_built (calls : List Edit) : (built calls).bound = calls.countP Edit.creates := by
  induction calls using List.reverseRecOn with
  | nil => rfl
  | append_singleton calls c ih =>
      rw [built_concat, (effect_edited _ c).bound_eq, ih, List.countP_append, List.countP_singleton]

/-- The vertices of a graph are those that live after the calls. -/
theorem contains_built (calls : List Edit) (v : Vertex) :
    (built calls).contains v = true ↔ Lives calls v := by
  induction calls using List.reverseRecOn with
  | nil =>
      have hnone : ¬ Lives [] v := since_nil
      simp [built, contains, hnone]
  | append_singleton calls c ih =>
      rw [built_concat, (effect_edited _ c).contains_iff, Lives, since_concat, ← bound_built,
        ← Lives, ih]

/-- The edges of a graph are those that stand after the calls. -/
theorem linked_built (calls : List Edit) (u v : Vertex) :
    (built calls).Linked u v ↔ Stands calls u v := by
  induction calls using List.reverseRecOn with
  | nil =>
      have hnone : ¬ Stands [] u v := since_nil
      simp [built, Linked, neighbors, hnone]
  | append_singleton calls c ih =>
      rw [built_concat, (effect_edited _ c).linked_iff (reachable_built calls).consistent, Stands,
        since_concat, ← Stands, ih, contains_built, contains_built]

/-! ## The order of the neighbours -/

/-- The second graph is what edits make of the first: numbers are not given out again, and what
stays of a list of neighbours stays in front. -/
structure Follows (g h : Graph) : Prop where
  bound : g.bound ≤ h.bound
  gone : ∀ v < g.bound, h.contains v = true → g.contains v = true
  kept : ∀ u, (g.neighbors u).filter (fun v => h.contains u && h.contains v) <+: h.neighbors u

/-- As long as no vertex is removed the lists keep all they have. -/
theorem Consistent.filter_neighbors (hg : g.Consistent)
    (hkeep : ∀ v, g.contains v = true → h.contains v = true) (u : Vertex) :
    (g.neighbors u).filter (fun v => h.contains u && h.contains v) = g.neighbors u := by
  refine List.filter_eq_self.2 fun v hv => ?_
  simp [hkeep u (contains_of_mem_neighbors hv), hkeep v (hg.live u v hv)]

theorem Follows.refl (hg : g.Consistent) : Follows g g :=
  ⟨Nat.le_refl _, fun _ _ hv => hv, fun u => by rw [hg.filter_neighbors fun _ hv => hv]⟩

theorem Follows.trans {k : Graph} (hg : g.Consistent) (hgh : Follows g h) (hhk : Follows h k) :
    Follows g k := by
  -- What is left in the last graph was there in the one between, or its number would be new.
  have hback : ∀ v, g.contains v = true → k.contains v = true → h.contains v = true := by
    intro v hv hk
    obtain ⟨r, hr⟩ := contains_iff.1 hv
    exact hhk.gone v (Nat.lt_of_lt_of_le (lt_bound_of_record? hr) hgh.bound) hk
  refine ⟨Nat.le_trans hgh.bound hhk.bound, fun v hlt hv => ?_, fun u => ?_⟩
  · exact hgh.gone v hlt (hhk.gone v (Nat.lt_of_lt_of_le hlt hgh.bound) hv)
  · have htwice : (g.neighbors u).filter (fun v => k.contains u && k.contains v) =
        ((g.neighbors u).filter fun v => h.contains u && h.contains v).filter
          (fun v => k.contains u && k.contains v) := by
      rw [List.filter_filter]
      refine List.filter_congr fun v hv => ?_
      by_cases hk : k.contains u = true ∧ k.contains v = true
      · have hu := hback u (contains_of_mem_neighbors hv) hk.1
        have hv := hback v (hg.live u v hv) hk.2
        simp [hk, hu, hv]
      · by_cases hku : k.contains u = true
        · have hkv : k.contains v = false := by simpa [hku] using hk
          simp [hkv]
        · simp [hku]
    rw [htwice]
    exact ((hgh.kept u).filter _).trans (hhk.kept u)

theorem Effect.follows (he : Effect g c h) (hg : g.Consistent) : Follows g h := by
  refine ⟨by rw [he.bound_eq]; omega, fun v hlt hv => ?_, fun u => ?_⟩
  · -- A vertex below the old bound is not the one that was created.
    rcases (he.contains_iff v).1 hv with ⟨-, rfl⟩ | ⟨hv, -⟩
    · exact absurd hlt (Nat.lt_irrefl _)
    · exact hv
  · cases he with
    | idle ha =>
        rw [hg.filter_neighbors (fun v hv => by rwa [ha.contains]), ha.neighbors]
    | push label =>
        rw [hg.filter_neighbors (fun v hv => by simp [contains_push, hv]), neighbors_push]
    | @erased h x hc he =>
        -- Erasing filters the lists, which keeps their order.
        rw [he.neighbors_eq hg]
        by_cases hux : u = x
        · simp [he.contains_eq, hux]
        · rw [if_neg hux]
          have hsame : (g.neighbors u).filter (fun v => h.contains u && h.contains v) =
              (g.neighbors u).filter (· != x) := by
            refine List.filter_congr fun v hv => ?_
            simp [he.contains_eq, hux, contains_of_mem_neighbors hv, hg.live u v hv]
          rw [hsame]
    | @join a b hj ha hb hne =>
        -- Joining adds at the end of two lists.
        rw [hg.filter_neighbors (fun v hv => by rwa [contains_join hne]),
          neighbors_join ha hb hne]
        split
        next heq =>
          subst heq
          exact List.prefix_append _ _
        next =>
          split
          next heq =>
            subst heq
            exact List.prefix_append _ _
          next => exact List.prefix_refl _

theorem follows_built (earlier later : List Edit) :
    Follows (built earlier) (built (earlier ++ later)) := by
  have hearlier := (reachable_built earlier).consistent
  induction later using List.reverseRecOn with
  | nil =>
      rw [List.append_nil]
      exact Follows.refl hearlier
  | append_singleton later c ih =>
      rw [← List.append_assoc, built_concat]
      exact ih.trans hearlier
        ((effect_edited _ c).follows (reachable_built (earlier ++ later)).consistent)

/-- The neighbours that a vertex had earlier and still has stand before those it gained since. -/
theorem Follows.prefix_neighbors (hf : Follows g h) (hh : h.Consistent) (u : Vertex) :
    (g.neighbors u).filter (h.adjacent u) <+: h.neighbors u := by
  have hsame : (g.neighbors u).filter (h.adjacent u) =
      (g.neighbors u).filter fun v => h.contains u && h.contains v := by
    refine List.filter_congr fun v hv => ?_
    rw [Bool.eq_iff_iff, adjacent_iff, Bool.and_eq_true]
    constructor
    · intro hm
      exact ⟨contains_of_mem_neighbors hm, hh.live u v hm⟩
    · intro hends
      exact (hf.kept u).subset (List.mem_filter.2 ⟨hv, by simp [hends]⟩)
  rw [hsame]
  exact hf.kept u

/-! ## Failures -/

/-- The first missing vertex of the ones that a call names. -/
def Missing (calls : List Edit) (vs : List Vertex) (e : Failure) : Prop :=
  ∃ before v after, vs = before ++ v :: after ∧ (∀ w ∈ before, Lives calls w) ∧ ¬ Lives calls v ∧
    e = .noSuchVertex v

theorem missing_nil {e : Failure} : ¬ Missing calls [] e := by
  rintro ⟨before, v, after, hsplit, -⟩
  simp at hsplit

theorem missing_cons {vs : List Vertex} {e : Failure} : Missing calls (v :: vs) e ↔
    (¬ Lives calls v ∧ e = .noSuchVertex v) ∨ Lives calls v ∧ Missing calls vs e := by
  constructor
  · rintro ⟨before, x, after, hsplit, hbefore, hx, he⟩
    cases before with
    | nil =>
        obtain ⟨rfl, rfl⟩ := List.cons.inj hsplit
        exact Or.inl ⟨hx, he⟩
    | cons w before =>
        obtain ⟨rfl, rfl⟩ := List.cons.inj hsplit
        exact Or.inr ⟨hbefore v (by simp), before, x, after, rfl,
          fun y hy => hbefore y (by simp [hy]), hx, he⟩
  · rintro (⟨hv, he⟩ | ⟨hv, before, x, after, rfl, hbefore, hx, he⟩)
    · exact ⟨[], v, vs, rfl, by simp, hv, he⟩
    · exact ⟨v :: before, x, after, rfl, by simpa [hv] using hbefore, hx, he⟩

theorem refused_iff {e : Failure} : Refused calls c e ↔ Missing calls c.named e ∨
    (∃ u, c.Joins u u ∧ Lives calls u ∧ e = .loop u) ∨
      ∃ u v, c = .connect u v ∧ Stands calls u v ∧ e = .edgeExists u v := by
  constructor
  · rintro (⟨hsplit, hbefore, hv⟩ | ⟨hj, hu⟩ | ⟨hc, hs⟩)
    · exact Or.inl ⟨_, _, _, hsplit, hbefore, hv, rfl⟩
    · exact Or.inr (Or.inl ⟨_, hj, hu, rfl⟩)
    · exact Or.inr (Or.inr ⟨_, _, hc, hs, rfl⟩)
  · rintro (⟨before, v, after, hsplit, hbefore, hv, rfl⟩ | ⟨u, hj, hu, rfl⟩ | ⟨u, v, hc, hs, rfl⟩)
    · exact .noSuchVertex hsplit hbefore hv
    · exact .loop hj hu
    · exact .edgeExists hc hs

/-- Why `insertEdge` fails. -/
theorem insertEdge_error_iff {e : Failure} : ((built calls).insertEdge u v).1 = .error e ↔
    Missing calls [u, v] e ∨ u = v ∧ Lives calls u ∧ e = .loop u := by
  have hlives : ∀ x, (built calls).contains x = false ↔ ¬ Lives calls x := fun x => by
    rw [← contains_built, Bool.not_eq_true]
  simp only [missing_cons, missing_nil, and_false, or_false]
  rcases insertEdge_cases (built calls) u v with ⟨hu, hins⟩ | ⟨hu, hv, hins⟩ |
    ⟨hu, hv, heq, hins⟩ | ⟨hu, hv, hne, -, hins⟩ | ⟨hu, hv, hne, -, hins⟩
  · simp [hins, (hlives u).1 hu, eq_comm]
  · have hne : u ≠ v := by
      rintro rfl
      simp [hu] at hv
    simp [hins, (contains_built calls u).1 hu, (hlives v).1 hv, hne, eq_comm]
  · subst heq
    simp [hins, (contains_built calls u).1 hu, eq_comm]
  · simp [hins, (contains_built calls u).1 hu, (contains_built calls v).1 hv, hne]
  · simp [hins, (contains_built calls u).1 hu, (contains_built calls v).1 hv, hne]

/-- Of an edge that is there already `insertEdge` tells so. -/
theorem Consistent.insertEdge_eq_false_iff (hg : g.Consistent) :
    (g.insertEdge u v).1 = .ok false ↔ g.Linked u v := by
  rw [Linked, ← hg.edge]
  rcases insertEdge_cases g u v with ⟨hu, hins⟩ | ⟨hu, hv, hins⟩ | ⟨hu, hv, heq, hins⟩ |
    ⟨hu, hv, hne, hedge, hins⟩ | ⟨hu, hv, hne, hedge, hins⟩
  · -- An edge has its ends in the graph, and they are two.
    have hno : g.hasEdge u v ≠ true := by
      intro hedge
      simp [contains_of_mem_neighbors ((hg.edge u v).1 hedge)] at hu
    simp [hins, hno]
  · have hno : g.hasEdge u v ≠ true := by
      intro hedge
      simp [hg.live u v ((hg.edge u v).1 hedge)] at hv
    simp [hins, hno]
  · have hno : g.hasEdge u v ≠ true := by
      intro hedge
      exact hg.irrefl u (heq ▸ (hg.edge u v).1 hedge)
    simp [hins, hno]
  · simp [hins, hedge]
  · simp [hins, hedge]

/-- Why `connect` fails: an edge that stands already is refused here, where inserting it again is
not. -/
theorem Consistent.connect_error_iff (hg : g.Consistent) {e : Failure} :
    (g.connect u v).1 = .error e ↔
      (g.insertEdge u v).1 = .error e ∨ g.Linked u v ∧ e = .edgeExists u v := by
  rw [← hg.insertEdge_eq_false_iff, Graph.connect]
  rcases g.insertEdge u v with ⟨answer, h⟩
  cases answer with
  | error cause => simp
  | ok new => cases new <;> simp [eq_comm]

/-- A call fails exactly for the reasons that the calls before it give. -/
theorem apply_error_iff (calls : List Edit) (c : Edit) (e : Failure) :
    (c.apply (built calls)).1 = .error e ↔ Refused calls c e := by
  rw [refused_iff]
  cases c with
  | push label => simp [Edit.apply, Edit.named, missing_nil, Edit.Joins]
  | pushNumbered => simp [Edit.apply, Edit.named, missing_nil, Edit.Joins]
  | eraseVertex v =>
      have hlives := contains_built calls v
      simp only [Edit.apply, Edit.named, missing_cons, missing_nil, Edit.Joins, reduceCtorEq]
      rcases eraseVertex_cases (built calls) v with ⟨hno, herase⟩ | ⟨h, herased, herase⟩
      · simp [herase, ← hlives, hno, eq_comm]
      · simp [herase, ← hlives, herased.contained]
  | relabel v label =>
      have hlives := contains_built calls v
      simp only [Edit.apply, Edit.named, missing_cons, missing_nil, Edit.Joins, reduceCtorEq]
      by_cases hv : (built calls).contains v = true
      · simp [Graph.relabel, hv, ← hlives]
      · simp [Graph.relabel, hv, ← hlives, eq_comm]
  | insertEdge u v =>
      have hloop : (∃ x, (Edit.insertEdge u v).Joins x x ∧ Lives calls x ∧ e = .loop x) ↔
          u = v ∧ Lives calls u ∧ e = .loop u := by
        simp only [Edit.Joins, reduceCtorEq, false_or, or_self, Edit.insertEdge.injEq]
        grind
      rw [hloop]
      simp only [reduceCtorEq, false_and, exists_false, or_false, Edit.named,
        ← insertEdge_error_iff]
      cases hins : ((built calls).insertEdge u v).1 <;> simp [Edit.apply, hins, Except.map]
  | connect u v =>
      have hloop : (∃ x, (Edit.connect u v).Joins x x ∧ Lives calls x ∧ e = .loop x) ↔
          u = v ∧ Lives calls u ∧ e = .loop u := by
        simp only [Edit.Joins, reduceCtorEq, or_false, or_self, Edit.connect.injEq]
        grind
      have hedge : (∃ x y, Edit.connect u v = .connect x y ∧ Stands calls x y ∧
          e = .edgeExists x y) ↔ (built calls).Linked u v ∧ e = .edgeExists u v := by
        simp only [Edit.connect.injEq, linked_built]
        grind
      rw [hloop, hedge, ← or_assoc, Edit.apply, (reachable_built calls).consistent.connect_error_iff,
        Edit.named, ← insertEdge_error_iff]

/-- A call that fails has changed nothing. -/
theorem edited_of_apply_error {e : Failure} (herror : (c.apply g).1 = .error e) :
    g.edited c = g := by
  cases c with
  | push label => cases herror
  | pushNumbered => cases herror
  | eraseVertex v =>
      rcases eraseVertex_cases g v with ⟨-, herase⟩ | ⟨h, -, herase⟩
      · exact congrArg Prod.snd herase
      · rw [Edit.apply, herase] at herror
        cases herror
  | insertEdge u v =>
      rcases insertEdge_snd g u v with hsame | ⟨hu, hv, hne, hnew, -⟩
      · exact hsame
      · -- An edge that is new is inserted without a failure.
        simp [Edit.apply, Graph.insertEdge, hu, hv, hne, hnew, Except.map] at herror
  | connect u v =>
      rcases insertEdge_snd g u v with hsame | ⟨hu, hv, hne, hnew, -⟩
      · exact (connect_snd g u v).trans hsame
      · simp [Edit.apply, Graph.connect, Graph.insertEdge, hu, hv, hne, hnew] at herror
  | relabel v label =>
      rw [Edit.apply, Graph.relabel] at herror
      split at herror
      next => cases herror
      next hv => rw [edited, Edit.apply, Graph.relabel, if_neg hv]

/-! ## The records of a graph -/

/-- What a sequence of calls tells of the graph that it leaves. -/
structure Records (calls : List Edit) (g : Graph) : Prop where
  /-- The set of edges and both lists of neighbours have the edges that stand. -/
  edge : ∀ u v, (g.hasEdge u v = true ↔ Stands calls u v) ∧
    (v ∈ g.neighbors u ↔ Stands calls u v) ∧ (u ∈ g.neighbors v ↔ Stands calls u v)
  nodup : ∀ u, (g.neighbors u).Nodup
  irrefl : ∀ u, u ∉ g.neighbors u
  live : ∀ u, ∀ v ∈ g.neighbors u, Lives calls v
  /-- The neighbours that a vertex had after the first calls and still has stand before those that
  the later calls brought. -/
  inOrder : ∀ u earlier later, calls = earlier ++ later →
    ((built earlier).neighbors u).filter (g.adjacent u) <+: g.neighbors u
  ascending : g.vertices.Pairwise (· < ·)
  mem_vertices : ∀ v, v ∈ g.vertices ↔ Lives calls v
  vertexCount : g.vertexCount = g.vertices.length
  nodup_edges : g.edges.Nodup
  mem_edges : ∀ u v, (u, v) ∈ g.edges ↔ u < v ∧ Stands calls u v
  edgeCount : g.edgeCount = g.edges.length
  /-- The next vertex is numbered by the bound. -/
  created : ∀ c, c.creates = true →
    (g.edited c).vertices = g.vertices ++ [g.bound] ∧ (g.edited c).bound = g.bound + 1
  refused : ∀ c e, (c.apply g).1 = .error e ↔ Refused calls c e
  /-- A call that is refused changes neither the records above nor a label. -/
  unchanged : ∀ c e, Refused calls c e → g.edited c = g

/-- After every sequence of calls, those that fail included, the records of the graph are those that
the sequence tells. -/
theorem built_records (calls : List Edit) : Records calls (built calls) := by
  have hreach := reachable_built calls
  have hc := hreach.consistent
  have hedge : ∀ u v, v ∈ (built calls).neighbors u ↔ Stands calls u v := linked_built calls
  refine
    { edge := fun u v => ⟨(hc.edge u v).trans (hedge u v), hedge u v, ?_⟩
      nodup := hc.nodup
      irrefl := hc.irrefl
      live := fun u v hv => (contains_built calls v).1 (hc.live u v hv)
      inOrder := ?_
      ascending := pairwise_vertices _
      mem_vertices := fun v => Graph.mem_vertices.trans (contains_built calls v)
      vertexCount := hc.count
      nodup_edges := hc.nodup_edges
      mem_edges := fun u v => ?_
      edgeCount := (hreach.chronicled.perm_edges hc).length_eq.symm
      created := ?_
      refused := apply_error_iff calls
      unchanged := ?_ }
  · rw [← hedge]
    exact ⟨hc.symm v u, hc.symm u v⟩
  · -- What is left of a list of neighbours after more calls is a prefix of the later list.
    rintro u earlier later rfl
    exact (follows_built earlier later).prefix_neighbors hc u
  · rw [Graph.mem_edges, ← hedge, and_comm]
  · intro c hcreates
    cases c with
    | push label => exact ⟨vertices_push _ label, bound_push _ label⟩
    | pushNumbered => exact ⟨vertices_push _ _, bound_push _ _⟩
    | _ => cases hcreates
  · intro c e he
    exact edited_of_apply_error ((apply_error_iff calls c e).2 he)

end Graph

end CliquePath
