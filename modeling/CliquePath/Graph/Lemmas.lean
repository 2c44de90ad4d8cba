import CliquePath.Graph.Basic

set_option autoImplicit false

/-!
# What the edits do to a graph

This module says what each edit of a graph does to the record of every vertex, to the bound and to
the set of edges. The statements read records by `Graph.record?`; after them no proof about a
history of edits needs the slots.
-/

namespace CliquePath.Graph

/-! ## The records -/

theorem lt_bound_of_record? {g : Graph} {v : Vertex} {r : VertexRecord}
    (h : g.record? v = some r) : v < g.bound := by
  refine Nat.lt_of_not_le fun hv => ?_
  have hnone : g.slots[v]? = none := Array.getElem?_eq_none hv
  simp [record?, hnone] at h

theorem contains_iff {g : Graph} {v : Vertex} : g.contains v = true ↔ ∃ r, g.record? v = some r :=
by   simp [contains, Option.isSome_iff_exists]

@[simp]
theorem mem_vertices {g : Graph} {v : Vertex} : v ∈ g.vertices ↔ g.contains v = true := by
  constructor
  · intro h
    exact (List.mem_filter.1 h).2
  · intro h
    obtain ⟨r, hr⟩ := contains_iff.1 h
    exact List.mem_filter.2 ⟨List.mem_range.2 (lt_bound_of_record? hr), h⟩

theorem pairwise_vertices (g : Graph) : g.vertices.Pairwise (· < ·) :=
  List.Pairwise.filter _ List.pairwise_lt_range

theorem neighbors_of_record? {g : Graph} {v : Vertex} {r : VertexRecord}
    (h : g.record? v = some r) : g.neighbors v = r.neighbors := by
  simp [neighbors, h]

theorem neighbors_eq_nil {g : Graph} {v : Vertex} (h : g.contains v = false) :
    g.neighbors v = [] := by
  have hnone : g.record? v = none := by
    simpa [contains] using h
  simp [neighbors, hnone]

@[simp]
theorem adjacent_iff {g : Graph} {u v : Vertex} : g.adjacent u v = true ↔ v ∈ g.neighbors u := by
  simp [adjacent]

/-! ## The edits -/

@[simp]
theorem record?_empty (v : Vertex) : empty.record? v = none := by
  simp [record?, empty]

theorem record?_push (g : Graph) (label : String) (v : Vertex) :
    (g.push label).record? v = if v = g.bound then some { label } else g.record? v := by
  simp only [record?, push, bound, Array.getElem?_push]
  by_cases h : v = g.slots.size
  · simp [h]
  · simp [h]

@[simp]
theorem bound_push (g : Graph) (label : String) : (g.push label).bound = g.bound + 1 := by
  simp [push, bound]

theorem record?_modifyRecord (g : Graph) (u v : Vertex) (f : VertexRecord → VertexRecord) :
    (g.modifyRecord u f).record? v = if u = v then (g.record? v).map f else g.record? v := by
  simp only [record?, modifyRecord, Array.getElem?_modify]
  split
  next h =>
    subst h
    cases g.slots[u]? with
    | none => rfl
    | some slot => cases slot <;> rfl
  next => rfl

@[simp]
theorem bound_modifyRecord (g : Graph) (u : Vertex) (f : VertexRecord → VertexRecord) :
    (g.modifyRecord u f).bound = g.bound := by
  simp [modifyRecord, bound]

theorem record?_join {g : Graph} {u v : Vertex} (h : u ≠ v) (w : Vertex) :
    (g.join u v).record? w =
      (g.record? w).map fun r =>
        if w = u then r.append v else if w = v then r.append u else r := by
  have hjoin : (g.join u v).record? w =
      ((g.modifyRecord u (VertexRecord.append v)).modifyRecord v
        (VertexRecord.append u)).record? w := rfl
  rw [hjoin, record?_modifyRecord, record?_modifyRecord]
  by_cases hu : u = w
  · subst hu
    simp [Ne.symm h]
  · by_cases hv : v = w
    · subst hv
      simp [Ne.symm hu, hu]
    · simp [hu, hv, Ne.symm hu, Ne.symm hv]

theorem record?_forgetIntervals (g : Graph) (v : Vertex) :
    g.forgetIntervals.record? v = (g.record? v).map fun r => { r with interval := none } := by
  simp only [record?, forgetIntervals, Array.getElem?_map]
  cases g.slots[v]? with
  | none => rfl
  | some slot => cases slot <;> rfl

theorem record?_storeInterval (g : Graph) (u v : Vertex) (i : Interval) :
    (g.storeInterval u i).record? v =
      if u = v then (g.record? v).map fun r => { r with interval := some i } else g.record? v :=
  record?_modifyRecord g u v _

end CliquePath.Graph
