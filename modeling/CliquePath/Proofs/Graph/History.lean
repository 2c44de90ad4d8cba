import CliquePath.Graph.Lemmas
import CliquePath.Recognition
import Mathlib.Tactic

set_option autoImplicit false

/-!
# Graphs with a history

This module defines the graphs that edits lead to from the graph without vertices, and shows by
induction on the edits that the three records of such a graph agree: the lists of neighbours are
symmetric and without repetition, the set of edges has an edge exactly when its ends are neighbours,
and the number of vertices is right.
-/

namespace CliquePath.Graph

/-- The graphs that edits, those that fail included, lead to from the graph without vertices. -/
inductive Reachable : Graph → Prop
  | empty : Reachable empty
  | push {g : Graph} (label : String) : Reachable g → Reachable (g.push label)
  | pushNumbered {g : Graph} : Reachable g → Reachable g.pushNumbered
  | eraseVertex {g h : Graph} {v : Vertex} : Reachable g → (g.eraseVertex v).2 = h → Reachable h
  | insertEdge {g h : Graph} {u v : Vertex} : Reachable g → (g.insertEdge u v).2 = h → Reachable h
  | connect {g h : Graph} {u v : Vertex} : Reachable g → (g.connect u v).2 = h → Reachable h
  | relabel {g h : Graph} {v : Vertex} {label : String} :
      Reachable g → (g.relabel v label).2 = h → Reachable h
  | recognizeAndStore {g : Graph} (options : Options) :
      Reachable g → Reachable (g.recognizeAndStore options).2

/-- The records of the graph agree. -/
structure Consistent (g : Graph) : Prop where
  nodup : ∀ v, (g.neighbors v).Nodup
  symm : ∀ v w, w ∈ g.neighbors v → v ∈ g.neighbors w
  irrefl : ∀ v, v ∉ g.neighbors v
  live : ∀ v w, w ∈ g.neighbors v → g.contains w = true
  edge : ∀ v w, g.hasEdge v w = true ↔ w ∈ g.neighbors v
  count : g.vertexCount = g.vertices.length

variable {g h : Graph} {u v w : Vertex}

/-! ## Neighbours and vertices after an edit -/

theorem contains_of_mem_neighbors (hw : w ∈ g.neighbors v) : g.contains v = true := by
  by_contra hno
  rw [neighbors_eq_nil (by simpa using hno)] at hw
  simp at hw

theorem not_contains_bound (g : Graph) : g.contains g.bound = false := by
  rw [Bool.eq_false_iff]
  intro hc
  obtain ⟨r, hr⟩ := contains_iff.1 hc
  exact Nat.lt_irrefl _ (lt_bound_of_record? hr)

/-- An edit that changes no list of neighbours, no edge and no vertex. -/
theorem Consistent.congr (hg : g.Consistent)
    (hrecord : ∀ v, (h.record? v).map VertexRecord.neighbors =
      (g.record? v).map VertexRecord.neighbors)
    (hedges : h.edgeSet = g.edgeSet) (hlive : h.live = g.live) (hbound : h.bound = g.bound) :
    h.Consistent := by
  have hneighbors : ∀ v, h.neighbors v = g.neighbors v := by
    intro v
    rw [neighbors, neighbors, hrecord]
  have hcontains : ∀ v, h.contains v = g.contains v := by
    intro v
    have := congrArg Option.isSome (hrecord v)
    simpa [contains] using this
  -- The vertices are read off the same slots.
  have hvertices : h.vertices = g.vertices := by
    rw [vertices, vertices, hbound]
    exact List.filter_congr fun v _ => hcontains v
  refine ⟨?_, ?_, ?_, ?_, ?_, ?_⟩
  · intro v
    rw [hneighbors]
    exact hg.nodup v
  · intro v w
    rw [hneighbors, hneighbors]
    exact hg.symm v w
  · intro v
    rw [hneighbors]
    exact hg.irrefl v
  · intro v w
    rw [hneighbors, hcontains]
    exact hg.live v w
  · intro v w
    rw [hneighbors, ← hg.edge, hasEdge, hasEdge, hedges]
  · rw [hvertices, ← hg.count]
    exact hlive

theorem consistent_empty : empty.Consistent := by
  have hnil : ∀ v, empty.neighbors v = [] := fun v => by simp [neighbors]
  refine ⟨?_, ?_, ?_, ?_, ?_, rfl⟩
  · intro v
    simp [hnil]
  · intro v w hw
    simp [hnil] at hw
  · intro v
    simp [hnil]
  · intro v w hw
    simp [hnil] at hw
  · intro v w
    rw [hnil]
    simp [hasEdge, empty]

/-! ## A new vertex -/

theorem neighbors_push (g : Graph) (label : String) (v : Vertex) :
    (g.push label).neighbors v = g.neighbors v := by
  by_cases hv : v = g.bound
  · subst hv
    rw [neighbors_eq_nil (not_contains_bound g), neighbors, record?_push, if_pos rfl]
    rfl
  · rw [neighbors, record?_push, if_neg hv, neighbors]

theorem contains_push (g : Graph) (label : String) (v : Vertex) :
    (g.push label).contains v = (v == g.bound || g.contains v) := by
  by_cases hv : v = g.bound
  · subst hv
    simp [contains, record?_push]
  · simp [contains, record?_push, hv]

theorem vertices_push (g : Graph) (label : String) :
    (g.push label).vertices = g.vertices ++ [g.bound] := by
  rw [vertices, bound_push, List.range_succ, List.filter_append]
  congr 1
  · refine List.filter_congr fun v hv => ?_
    have hne : v ≠ g.bound := Nat.ne_of_lt (List.mem_range.1 hv)
    rw [contains_push]
    simp [hne]
  · simp [contains_push]

theorem Consistent.push (hg : g.Consistent) (label : String) : (g.push label).Consistent := by
  refine ⟨?_, ?_, ?_, ?_, ?_, ?_⟩
  · intro v
    rw [neighbors_push]
    exact hg.nodup v
  · intro v w
    rw [neighbors_push, neighbors_push]
    exact hg.symm v w
  · intro v
    rw [neighbors_push]
    exact hg.irrefl v
  · intro v w hw
    rw [neighbors_push] at hw
    rw [contains_push, hg.live v w hw, Bool.or_true]
  · intro v w
    rw [neighbors_push, ← hg.edge]
    rfl
  · rw [vertices_push, List.length_append, ← hg.count]
    rfl

/-! ## A vertex removed -/

theorem record?_detach (v : Vertex) (g : Graph) (w x : Vertex) :
    (detach v g w).record? x =
      if w = x then (g.record? x).map (VertexRecord.drop v) else g.record? x :=
  record?_modifyRecord g w x _

theorem edgeSet_detach (v : Vertex) (g : Graph) (w : Vertex) :
    (detach v g w).edgeSet = g.edgeSet.filter (· != sortedEnds v w) := rfl

theorem record?_foldl_detach (ws : List Vertex) (g : Graph) (v x : Vertex) :
    (ws.foldl (detach v) g).record? x =
      if x ∈ ws then (g.record? x).map (VertexRecord.drop v) else g.record? x := by
  induction ws generalizing g with
  | nil => simp
  | cons w ws ih =>
      rw [List.foldl_cons, ih, record?_detach]
      by_cases hxw : w = x
      · subst hxw
        by_cases hx : w ∈ ws
        · have htwice : VertexRecord.drop v ∘ VertexRecord.drop v = VertexRecord.drop v := by
            funext r
            simp [VertexRecord.drop]
          simp [hx, htwice]
        · simp [hx]
      · have hxw' : x ≠ w := fun h => hxw h.symm
        simp [hxw, hxw']

/-- Exactly the edges to the listed vertices are taken out. -/
theorem edgeSet_foldl_detach (ws : List Vertex) (g : Graph) (v : Vertex) :
    (ws.foldl (detach v) g).edgeSet =
      g.edgeSet.filter fun e => ws.all fun w => e != sortedEnds v w := by
  induction ws generalizing g with
  | nil => simp
  | cons w ws ih =>
      rw [List.foldl_cons, ih, edgeSet_detach, List.filter_filter]
      refine List.filter_congr fun e _ => ?_
      rw [List.all_cons, Bool.and_comm]

theorem foldl_detach_counters (ws : List Vertex) (g : Graph) (v : Vertex) :
    (ws.foldl (detach v) g).live = g.live ∧ (ws.foldl (detach v) g).bound = g.bound := by
  induction ws generalizing g with
  | nil => exact ⟨rfl, rfl⟩
  | cons w ws ih =>
      obtain ⟨hlive, hbound⟩ := ih (detach v g w)
      exact ⟨hlive, hbound.trans (bound_modifyRecord _ w _)⟩

theorem sortedEnds_eq_iff (a b c d : Vertex) :
    sortedEnds a b = sortedEnds c d ↔ a = c ∧ b = d ∨ a = d ∧ b = c := by
  unfold sortedEnds
  grind

theorem mem_edgeSet_iff (hg : g.Consistent) {e : Vertex × Vertex} {v w : Vertex}
    (he : e = sortedEnds v w) : e ∈ g.edgeSet ↔ w ∈ g.neighbors v := by
  rw [← hg.edge, hasEdge, he, List.contains_iff_mem]

/-- What the removal of a vertex leaves of a graph. Of the edges it takes those to the neighbours that
are listed. -/
structure Erased (g : Graph) (v : Vertex) (h : Graph) : Prop where
  contained : g.contains v = true
  record : ∀ x, h.record? x = if x = v then none
    else if x ∈ g.neighbors v then (g.record? x).map (VertexRecord.drop v) else g.record? x
  edges : h.edgeSet = g.edgeSet.filter fun e => (g.neighbors v).all fun w => e != sortedEnds v w
  live : h.live = g.live - 1
  bound : h.bound = g.bound

/-- Emptying a slot that holds nothing changes nothing. -/
theorem setIfInBounds_of_record?_eq_none (hv : g.record? v = none) :
    g.slots.setIfInBounds v none = g.slots := by
  refine Array.ext_getElem? fun i => ?_
  rw [Array.getElem?_setIfInBounds]
  split
  next heq =>
    subst heq
    split
    next hlt =>
      rw [record?, Array.getElem?_eq_getElem hlt, Option.join_some] at hv
      rw [Array.getElem?_eq_getElem hlt, hv]
    next hge => rw [Array.getElem?_eq_none (Nat.le_of_not_lt hge)]
  next => rfl

/-- A vertex is removed, or the graph does not have it and stays as it was. -/
theorem eraseVertex_cases (g : Graph) (v : Vertex) :
    (g.contains v = false ∧ g.eraseVertex v = (.error (.noSuchVertex v), g)) ∨
      ∃ h, Erased g v h ∧ g.eraseVertex v = (.ok (), h) := by
  unfold Graph.eraseVertex
  cases hv : g.record? v with
  | none =>
      refine .inl ⟨by simp [contains, hv], ?_⟩
      simp only [setIfInBounds_of_record?_eq_none hv]
  | some r =>
      refine .inr ⟨_, ?_, rfl⟩
      -- The slot of the vertex is emptied first; then the vertex is dropped from the lists of its neighbours.
      have hcleared : ∀ x, record? { g with slots := g.slots.setIfInBounds v none } x =
          if x = v then none else g.record? x := by
        intro x
        simp only [record?, Array.getElem?_setIfInBounds]
        by_cases hx : x = v
        · subst hx
          simp
          split <;> rfl
        · simp [hx, Ne.symm hx]
      obtain ⟨hlive, hbound⟩ := foldl_detach_counters r.neighbors
        { g with slots := g.slots.setIfInBounds v none } v
      refine ⟨contains_iff.2 ⟨r, hv⟩, fun x => ?_, ?_, congrArg (· - 1) hlive, ?_⟩
      · refine (record?_foldl_detach r.neighbors _ v x).trans ?_
        rw [hcleared, neighbors_of_record? hv]
        by_cases hx : x = v
        · simp [hx]
        · simp [hx]
      · rw [neighbors_of_record? hv]
        exact edgeSet_foldl_detach r.neighbors _ v
      · refine Eq.trans hbound ?_
        simp only [Graph.bound, Array.size_setIfInBounds]

theorem Erased.contains_eq (he : Erased g v h) (x : Vertex) :
    h.contains x = (x != v && g.contains x) := by
  rw [contains, he.record]
  by_cases hx : x = v
  · simp [hx]
  · by_cases hxn : x ∈ g.neighbors v
    · simp [hx, hxn, contains]
    · simp [hx, hxn, contains]

/-- The list of every other vertex loses the removed one. -/
theorem Erased.neighbors_eq (he : Erased g v h) (hg : g.Consistent) (x : Vertex) :
    h.neighbors x = if x = v then [] else (g.neighbors x).filter (· != v) := by
  rw [neighbors, he.record]
  by_cases hx : x = v
  · simp [hx]
  · by_cases hxn : x ∈ g.neighbors v
    · rw [if_neg hx, if_pos hxn, if_neg hx, neighbors]
      cases g.record? x with
      | none => rfl
      | some s => rfl
    · -- The lists are symmetric, so there is nothing to lose.
      have hno : v ∉ g.neighbors x := fun hm => hxn (hg.symm x v hm)
      simp only [hx, hxn, if_false]
      rw [List.filter_eq_self.2]
      · rfl
      · intro y hy
        have : y ≠ v := fun hyv => hno (hyv ▸ hy)
        simpa using this

theorem Erased.mem_neighbors (he : Erased g v h) (hg : g.Consistent) {x y : Vertex} :
    y ∈ h.neighbors x ↔ x ≠ v ∧ y ≠ v ∧ y ∈ g.neighbors x := by
  rw [he.neighbors_eq hg]
  by_cases hx : x = v
  · simp [hx]
  · simp [hx, and_comm]

theorem Erased.mem_edgeSet (he : Erased g v h) {e : Vertex × Vertex} :
    e ∈ h.edgeSet ↔ e ∈ g.edgeSet ∧ ∀ w ∈ g.neighbors v, e ≠ sortedEnds v w := by
  rw [he.edges, List.mem_filter, List.all_eq_true]
  simp only [bne_iff_ne]

theorem Erased.vertices_eq (he : Erased g v h) : h.vertices = g.vertices.erase v := by
  have hnodup : g.vertices.Nodup := (pairwise_vertices g).imp Nat.ne_of_lt
  rw [hnodup.erase_eq_filter, vertices, vertices, he.bound, List.filter_filter]
  exact List.filter_congr fun x _ => he.contains_eq x

theorem Erased.consistent (he : Erased g v h) (hg : g.Consistent) : h.Consistent := by
  refine ⟨?_, ?_, ?_, ?_, ?_, ?_⟩
  · intro x
    rw [he.neighbors_eq hg]
    split
    · exact List.nodup_nil
    · exact (hg.nodup x).filter _
  · intro x y hy
    obtain ⟨hx, hyv, hyx⟩ := (he.mem_neighbors hg).1 hy
    exact (he.mem_neighbors hg).2 ⟨hyv, hx, hg.symm x y hyx⟩
  · intro x hx
    exact hg.irrefl x ((he.mem_neighbors hg).1 hx).2.2
  · intro x y hy
    obtain ⟨-, hyv, hyx⟩ := (he.mem_neighbors hg).1 hy
    rw [he.contains_eq, hg.live x y hyx]
    simpa using hyv
  · intro x y
    rw [hasEdge, List.contains_iff_mem, he.mem_edgeSet, mem_edgeSet_iff hg rfl, he.mem_neighbors hg]
    constructor
    · -- An edge that ends in the removed vertex leads to a neighbour that its list has.
      rintro ⟨hxy, hkept⟩
      refine ⟨?_, ?_, hxy⟩
      · rintro rfl
        exact hkept y hxy rfl
      · rintro rfl
        exact hkept x (hg.symm x y hxy) (sortedEnds_comm x y)
    · rintro ⟨hx, hy, hxy⟩
      refine ⟨hxy, fun w _ heq => ?_⟩
      rcases (sortedEnds_eq_iff x y v w).1 heq with ⟨hxv, -⟩ | ⟨-, hyv⟩
      · exact hx hxv
      · exact hy hyv
  · show h.live = _
    rw [he.vertices_eq, List.length_erase_of_mem (mem_vertices.2 he.contained), ← hg.count, he.live]
    rfl

/-! ## A new edge -/

theorem contains_join (hne : u ≠ v) (x : Vertex) : (g.join u v).contains x = g.contains x := by
  simp [contains, record?_join hne]

theorem vertices_join (hne : u ≠ v) : (g.join u v).vertices = g.vertices := by
  have hbound : (g.join u v).bound = g.bound := by simp [Graph.join, modifyRecord, bound]
  rw [vertices, vertices, hbound]
  exact List.filter_congr fun x _ => contains_join hne x

theorem neighbors_join (hu : g.contains u = true) (hv : g.contains v = true) (hne : u ≠ v)
    (x : Vertex) : (g.join u v).neighbors x =
      if x = u then g.neighbors u ++ [v] else if x = v then g.neighbors v ++ [u]
      else g.neighbors x := by
  obtain ⟨ru, hru⟩ := contains_iff.1 hu
  obtain ⟨rv, hrv⟩ := contains_iff.1 hv
  by_cases hxu : x = u
  · subst hxu
    rw [neighbors, record?_join hne, hru, neighbors_of_record? hru]
    simp [VertexRecord.append]
  · by_cases hxv : x = v
    · subst hxv
      rw [neighbors, record?_join hne, hrv, neighbors_of_record? hrv]
      simp [VertexRecord.append, hxu]
    · simp [neighbors, record?_join hne, hxu, hxv]

theorem mem_neighbors_join (hu : g.contains u = true) (hv : g.contains v = true) (hne : u ≠ v)
    {x y : Vertex} : y ∈ (g.join u v).neighbors x ↔
      y ∈ g.neighbors x ∨ x = u ∧ y = v ∨ x = v ∧ y = u := by
  rw [neighbors_join hu hv hne]
  by_cases hxu : x = u
  · subst hxu
    simp [hne]
  · by_cases hxv : x = v
    · subst hxv
      simp [hxu]
    · simp [hxu, hxv]

/-- An edge that is new stands in front of the others. -/
theorem edgeSet_join (hnew : g.hasEdge u v = false) :
    (g.join u v).edgeSet = sortedEnds u v :: g.edgeSet := by
  have habsent : sortedEnds u v ∉ g.edgeSet := by simpa [hasEdge] using hnew
  exact List.insert_of_not_mem habsent

theorem Consistent.join (hg : g.Consistent) (hu : g.contains u = true) (hv : g.contains v = true)
    (hne : u ≠ v) (hnew : g.hasEdge u v = false) : (g.join u v).Consistent := by
  -- The ends are not joined yet, so their lists stay without repetition.
  have huv : v ∉ g.neighbors u := by
    rw [← hg.edge, hnew]
    simp
  have hvu : u ∉ g.neighbors v := fun hm => huv (hg.symm v u hm)
  refine ⟨?_, ?_, ?_, ?_, ?_, ?_⟩
  · intro x
    rw [neighbors_join hu hv hne]
    split
    · rw [← List.concat_eq_append]
      exact (hg.nodup u).concat huv
    · split
      · rw [← List.concat_eq_append]
        exact (hg.nodup v).concat hvu
      · exact hg.nodup x
  · intro x y hy
    rw [mem_neighbors_join hu hv hne] at hy ⊢
    rcases hy with hy | ⟨rfl, rfl⟩ | ⟨rfl, rfl⟩
    · exact Or.inl (hg.symm x y hy)
    · exact Or.inr (Or.inr ⟨rfl, rfl⟩)
    · exact Or.inr (Or.inl ⟨rfl, rfl⟩)
  · intro x hx
    rw [mem_neighbors_join hu hv hne] at hx
    rcases hx with hx | ⟨hxu, hxv⟩ | ⟨hxv, hxu⟩
    · exact hg.irrefl x hx
    · exact hne (hxu ▸ hxv)
    · exact hne (hxu ▸ hxv)
  · intro x y hy
    rw [contains_join hne]
    rcases (mem_neighbors_join hu hv hne).1 hy with hy | ⟨-, rfl⟩ | ⟨-, rfl⟩
    · exact hg.live x y hy
    · exact hv
    · exact hu
  · intro x y
    rw [hasEdge, List.contains_iff_mem, edgeSet_join hnew, List.mem_cons, mem_edgeSet_iff hg rfl,
      mem_neighbors_join hu hv hne, sortedEnds_eq_iff]
    exact or_comm
  · rw [vertices_join hne, ← hg.count]
    rfl

/-- What `insertEdge` does, the reasons for which it fails first. -/
theorem insertEdge_cases (g : Graph) (u v : Vertex) :
    (g.contains u = false ∧ g.insertEdge u v = (.error (.noSuchVertex u), g)) ∨
      (g.contains u = true ∧ g.contains v = false ∧
        g.insertEdge u v = (.error (.noSuchVertex v), g)) ∨
      (g.contains u = true ∧ g.contains v = true ∧ u = v ∧
        g.insertEdge u v = (.error (.loop u), g)) ∨
      (g.contains u = true ∧ g.contains v = true ∧ u ≠ v ∧ g.hasEdge u v = true ∧
        g.insertEdge u v = (.ok false, g)) ∨
      g.contains u = true ∧ g.contains v = true ∧ u ≠ v ∧ g.hasEdge u v = false ∧
        g.insertEdge u v = (.ok true, g.join u v) := by
  -- The four tests are made in the order of the cases.
  unfold Graph.insertEdge
  by_cases hu : g.contains u = true
  · by_cases hv : g.contains v = true
    · by_cases hne : u = v
      · simp [hv, hne]
      · by_cases hedge : g.hasEdge u v = true
        · simp [hu, hv, hne, hedge]
        · simp [hu, hv, hne, hedge]
    · simp [hu, hv]
  · simp [hu]

/-- Asking for an edge changes nothing, or the edge is possible and new. -/
theorem insertEdge_snd (g : Graph) (u v : Vertex) : (g.insertEdge u v).2 = g ∨
    g.contains u = true ∧ g.contains v = true ∧ u ≠ v ∧ g.hasEdge u v = false ∧
      (g.insertEdge u v).2 = g.join u v := by
  rcases insertEdge_cases g u v with ⟨-, hins⟩ | ⟨-, -, hins⟩ | ⟨-, -, -, hins⟩ |
    ⟨-, -, -, -, hins⟩ | ⟨hu, hv, hne, hnew, hins⟩
  · exact .inl (congrArg Prod.snd hins)
  · exact .inl (congrArg Prod.snd hins)
  · exact .inl (congrArg Prod.snd hins)
  · exact .inl (congrArg Prod.snd hins)
  · exact .inr ⟨hu, hv, hne, hnew, congrArg Prod.snd hins⟩

/-- Both ways of asking for an edge leave the same graph. -/
theorem connect_snd (g : Graph) (u v : Vertex) : (g.connect u v).2 = (g.insertEdge u v).2 := by
  unfold Graph.connect
  split
  next hins => rw [hins]
  next hins => rw [hins]
  next hins => rw [hins]

/-- A new label changes the record of a vertex, if there is one. -/
theorem relabel_snd (g : Graph) (v : Vertex) (label : String) : (g.relabel v label).2 = g ∨
    (g.relabel v label).2 = g.modifyRecord v fun r => { r with label } := by
  unfold Graph.relabel
  split
  next => exact .inr rfl
  next => exact .inl rfl

theorem Consistent.insertEdge (hg : g.Consistent) (u v : Vertex) :
    (g.insertEdge u v).2.Consistent := by
  rcases insertEdge_snd g u v with hsame | ⟨hu, hv, hne, hnew, hjoin⟩
  · rwa [hsame]
  · rw [hjoin]
    exact hg.join hu hv hne hnew

theorem Consistent.modifyRecord (hg : g.Consistent) {f : VertexRecord → VertexRecord}
    (hf : ∀ r, (f r).neighbors = r.neighbors) : (g.modifyRecord v f).Consistent := by
  refine hg.congr (fun x => ?_) rfl rfl (bound_modifyRecord g v f)
  rw [record?_modifyRecord]
  split
  · rw [Option.map_map]
    exact congrArg (fun k => (g.record? x).map k) (funext hf)
  · rfl

theorem Consistent.relabel (hg : g.Consistent) (v : Vertex) (label : String) :
    (g.relabel v label).2.Consistent := by
  rcases relabel_snd g v label with hsame | hnew
  · rwa [hsame]
  · rw [hnew]
    exact hg.modifyRecord fun r => rfl

theorem Consistent.eraseVertex (hg : g.Consistent) (v : Vertex) :
    (g.eraseVertex v).2.Consistent := by
  rcases eraseVertex_cases g v with ⟨-, herase⟩ | ⟨h, herased, herase⟩
  · rwa [herase]
  · rw [herase]
    exact herased.consistent hg

theorem Consistent.forgetIntervals (hg : g.Consistent) : g.forgetIntervals.Consistent := by
  refine hg.congr (fun x => ?_) rfl rfl (by simp [Graph.forgetIntervals, bound])
  rw [record?_forgetIntervals, Option.map_map]
  rfl

theorem Consistent.store (hg : g.Consistent) (verdict : Verdict) : (g.store verdict).Consistent := by
  cases verdict with
  | represented order intervals =>
      show (intervals.foldl (fun g e => g.storeInterval e.1 e.2) g).Consistent
      induction intervals generalizing g with
      | nil => exact hg
      | cons e rest ih => exact ih (hg.modifyRecord fun r => rfl)
  | hole cycle => exact hg
  | asteroidal triple => exact hg

theorem Consistent.recognizeAndStore (hg : g.Consistent) (options : Options) :
    (g.recognizeAndStore options).2.Consistent := by
  unfold Graph.recognizeAndStore
  dsimp only
  split
  next => exact hg.forgetIntervals
  next => exact hg.forgetIntervals.store _

/-- The records of a graph that edits lead to agree. -/
theorem Reachable.consistent (hg : g.Reachable) : g.Consistent := by
  induction hg with
  | empty => exact consistent_empty
  | push label _ ih => exact ih.push label
  | pushNumbered _ ih => exact ih.push _
  | eraseVertex _ he ih => exact he ▸ ih.eraseVertex _
  | insertEdge _ he ih => exact he ▸ ih.insertEdge _ _
  | connect _ he ih =>
      rw [← he, connect_snd]
      exact ih.insertEdge _ _
  | relabel _ he ih => exact he ▸ ih.relabel _ _
  | recognizeAndStore options _ ih => exact ih.recognizeAndStore options

/-! ## Small graphs -/

theorem reachable_edgeless (n : Nat) : (edgeless n).Reachable := by
  induction n with
  | zero => exact .empty
  | succ n ih => exact .pushNumbered ih

/-- The path on three vertices. -/
def threePath : Graph := ((edgeless 3).join 0 1).join 1 2

theorem reachable_threePath : threePath.Reachable := by
  have h : ((edgeless 3).join 0 1).Reachable :=
    .insertEdge (reachable_edgeless 3) (u := 0) (v := 1) rfl
  exact .insertEdge h (u := 1) (v := 2) rfl

/-- The cycle on six vertices. -/
def hexagon : Graph :=
  ((((((edgeless 6).join 0 1).join 1 2).join 2 3).join 3 4).join 4 5).join 5 0

theorem reachable_hexagon : hexagon.Reachable := by
  have h : ((((edgeless 6).join 0 1).join 1 2).join 2 3).Reachable :=
    .insertEdge (.insertEdge (.insertEdge (reachable_edgeless 6) (u := 0) (v := 1) rfl)
      (u := 1) (v := 2) rfl) (u := 2) (v := 3) rfl
  exact .insertEdge (.insertEdge (.insertEdge h (u := 3) (v := 4) rfl) (u := 4) (v := 5) rfl)
    (u := 5) (v := 0) rfl

end CliquePath.Graph
