import CliquePath.Proofs.Graph.Linked

set_option autoImplicit false

/-!
# The edges in the order of their arrival

The set of edges of a graph keeps the latest edge first. This module shows by induction on the edits
that it tells everything about the lists of neighbours: each list names the other ends of the edges
of its vertex in the order in which the edges came. The set has no edge twice, so its length is the
number of the edges that `edges` lists.
-/

namespace CliquePath

namespace Graph

variable {g h : Graph} {u v w : Vertex}

/-- The end of an edge other than the given one. -/
def partner? (v : Vertex) (e : Vertex × Vertex) : Option Vertex :=
  if e.1 = v then some e.2 else if e.2 = v then some e.1 else none

/-- The set of edges has each edge once, and the lists of neighbours follow it. -/
structure Chronicled (g : Graph) : Prop where
  sorted : ∀ e ∈ g.edgeSet, e.1 < e.2
  distinct : g.edgeSet.Nodup
  listed : ∀ v, g.neighbors v = g.edgeSet.reverse.filterMap (partner? v)

/-! ## Edits that change no edge -/

/-- Two graphs have the same numbers, the same vertices and the same edges. -/
structure Alike (g h : Graph) : Prop where
  record : ∀ v, (h.record? v).map VertexRecord.neighbors =
    (g.record? v).map VertexRecord.neighbors
  edgeSet : h.edgeSet = g.edgeSet
  bound : h.bound = g.bound

theorem Alike.refl (g : Graph) : Alike g g := ⟨fun _ => rfl, rfl, rfl⟩

theorem Alike.neighbors (ha : Alike g h) (v : Vertex) : h.neighbors v = g.neighbors v := by
  rw [Graph.neighbors, Graph.neighbors, ha.record]

theorem Alike.contains (ha : Alike g h) (v : Vertex) : h.contains v = g.contains v := by
  have hsome := congrArg Option.isSome (ha.record v)
  simpa [Graph.contains] using hsome

theorem Alike.trans {k : Graph} (ha : Alike g h) (hb : Alike h k) : Alike g k :=
  ⟨fun v => (hb.record v).trans (ha.record v), hb.edgeSet.trans ha.edgeSet,
    hb.bound.trans ha.bound⟩

theorem alike_modifyRecord (g : Graph) (v : Vertex) {f : VertexRecord → VertexRecord}
    (hf : ∀ r, (f r).neighbors = r.neighbors) : Alike g (g.modifyRecord v f) := by
  refine ⟨fun x => ?_, rfl, bound_modifyRecord g v f⟩
  rw [record?_modifyRecord]
  split
  · rw [Option.map_map]
    exact congrArg (fun k => (g.record? x).map k) (funext hf)
  · rfl

theorem alike_forgetIntervals (g : Graph) : Alike g g.forgetIntervals := by
  refine ⟨fun v => ?_, rfl, by simp [forgetIntervals, Graph.bound]⟩
  rw [record?_forgetIntervals, Option.map_map]
  rfl

theorem alike_store (g : Graph) (verdict : Verdict) : Alike g (g.store verdict) := by
  cases verdict with
  | represented order intervals =>
      show Alike g (intervals.foldl (fun g e => g.storeInterval e.1 e.2) g)
      induction intervals generalizing g with
      | nil => exact Alike.refl g
      | cons e rest ih =>
          have hfirst : Alike g (g.storeInterval e.1 e.2) := alike_modifyRecord g e.1 fun r => rfl
          exact hfirst.trans (ih _)
  | hole cycle => exact Alike.refl g
  | asteroidal triple => exact Alike.refl g

theorem alike_recognizeAndStore (g : Graph) (options : Options) :
    Alike g (g.recognizeAndStore options).2 := by
  unfold recognizeAndStore
  dsimp only
  split
  next => exact alike_forgetIntervals g
  next => exact (alike_forgetIntervals g).trans (alike_store _ _)

/-! ## The step -/

/-- What one edit can make of a graph as far as vertices and edges go. -/
inductive Step (g : Graph) : Graph → Prop
  | alike {h : Graph} : Alike g h → Step g h
  | push (label : String) : Step g (g.push label)
  | erased {h : Graph} {v : Vertex} : Erased g v h → Step g h
  | join {u v : Vertex} : g.contains u = true → g.contains v = true → u ≠ v →
      g.hasEdge u v = false → Step g (g.join u v)

theorem step_insertEdge (g : Graph) (u v : Vertex) : Step g (g.insertEdge u v).2 := by
  rcases insertEdge_snd g u v with hsame | ⟨hu, hv, hne, hnew, hjoin⟩
  · rw [hsame]
    exact .alike (Alike.refl g)
  · rw [hjoin]
    exact .join hu hv hne hnew

theorem step_relabel (g : Graph) (v : Vertex) (label : String) : Step g (g.relabel v label).2 := by
  rcases relabel_snd g v label with hsame | hnew
  · rw [hsame]
    exact .alike (Alike.refl g)
  · rw [hnew]
    exact .alike (alike_modifyRecord g v fun r => rfl)

theorem step_eraseVertex (g : Graph) (v : Vertex) : Step g (g.eraseVertex v).2 := by
  rcases eraseVertex_cases g v with ⟨-, herase⟩ | ⟨h, herased, herase⟩
  · rw [herase]
    exact .alike (Alike.refl g)
  · rw [herase]
    exact .erased herased

/-- Induction on the edits that lead to a graph, those that change no edge taken together. -/
theorem Reachable.stepInduction {P : Graph → Prop} (hempty : P Graph.empty)
    (hstep : ∀ g h, g.Reachable → Step g h → P g → P h) (hg : g.Reachable) : P g := by
  induction hg with
  | empty => exact hempty
  | push label hg ih => exact hstep _ _ hg (.push label) ih
  | pushNumbered hg ih => exact hstep _ _ hg (.push _) ih
  | eraseVertex hg he ih => exact hstep _ _ hg (he ▸ step_eraseVertex _ _) ih
  | insertEdge hg he ih => exact hstep _ _ hg (he ▸ step_insertEdge _ _ _) ih
  | connect hg he ih =>
      rw [connect_snd] at he
      exact hstep _ _ hg (he ▸ step_insertEdge _ _ _) ih
  | relabel hg he ih => exact hstep _ _ hg (he ▸ step_relabel _ _ _) ih
  | recognizeAndStore options hg ih =>
      exact hstep _ _ hg (.alike (alike_recognizeAndStore _ options)) ih

/-! ## The lists of neighbours follow the set of edges -/

theorem chronicled_empty : empty.Chronicled := by
  refine ⟨?_, ?_, fun v => ?_⟩
  · simp [empty]
  · simp [empty]
  · simp [neighbors, empty, record?]

theorem partner?_sortedEnds (hne : u ≠ v) (x : Vertex) :
    partner? x (sortedEnds u v) = if x = u then some v else if x = v then some u else none := by
  unfold partner? sortedEnds
  grind

theorem partner?_map {ι : Vertex → Vertex} (hι : Function.Injective ι) (v : Vertex)
    (e : Vertex × Vertex) : partner? (ι v) (e.map ι ι) = (partner? v e).map ι := by
  simp only [partner?, Prod.map_fst, Prod.map_snd, hι.eq_iff]
  split
  · rfl
  · split <;> rfl

theorem filterMap_partner?_eq_nil {es : List (Vertex × Vertex)} {x : Vertex}
    (h : ∀ e ∈ es, e.1 ≠ x ∧ e.2 ≠ x) : es.filterMap (partner? x) = [] := by
  refine List.filterMap_eq_nil_iff.2 fun e he => ?_
  obtain ⟨hleft, hright⟩ := h e he
  rw [partner?, if_neg hleft, if_neg hright]

/-- Sorting the ends of the edges keeps the partners. -/
theorem filterMap_partner?_sortedEnds {es : List (Vertex × Vertex)} (h : ∀ e ∈ es, e.1 ≠ e.2)
    (x : Vertex) : (es.map fun e => sortedEnds e.1 e.2).filterMap (partner? x) =
      es.filterMap (partner? x) := by
  rw [List.filterMap_map]
  refine List.filterMap_congr fun e he => ?_
  rw [Function.comp_apply, partner?_sortedEnds (h e he), partner?]
  simp only [eq_comm]

/-- An edge that does not end in the removed vertex keeps its partners; the others name the removed
vertex. -/
theorem filterMap_partner?_filter (es : List (Vertex × Vertex)) (v x : Vertex) :
    (es.filter fun e => e.1 != v && e.2 != v).filterMap (partner? x) =
      if x = v then [] else (es.filterMap (partner? x)).filter (· != v) := by
  induction es with
  | nil => simp
  | cons e rest ih =>
      rw [List.filter_cons, List.filterMap_cons]
      unfold partner? at ih ⊢
      grind

theorem Alike.chronicled (ha : Alike g h) (hg : g.Chronicled) : h.Chronicled := by
  refine ⟨?_, ?_, fun v => ?_⟩
  · rw [ha.edgeSet]
    exact hg.sorted
  · rw [ha.edgeSet]
    exact hg.distinct
  · rw [ha.neighbors, ha.edgeSet]
    exact hg.listed v

theorem Chronicled.join (hg : g.Chronicled) (hu : g.contains u = true) (hv : g.contains v = true)
    (hne : u ≠ v) (hnew : g.hasEdge u v = false) : (g.join u v).Chronicled := by
  have hset := edgeSet_join hnew
  have habsent : sortedEnds u v ∉ g.edgeSet := by
    simpa [hasEdge] using hnew
  refine ⟨?_, ?_, fun x => ?_⟩
  · intro e he
    rcases List.mem_cons.1 (hset ▸ he) with rfl | he
    · unfold sortedEnds
      split
      next hlt => exact hlt
      next hlt => exact Nat.lt_of_le_of_ne (Nat.le_of_not_lt hlt) (Ne.symm hne)
    · exact hg.sorted e he
  · rw [hset]
    exact List.nodup_cons.2 ⟨habsent, hg.distinct⟩
  · -- The new edge comes last in the lists of its two ends and in no other list.
    rw [neighbors_join hu hv hne, hset, List.reverse_cons, List.filterMap_append, ← hg.listed]
    simp only [List.filterMap_cons, List.filterMap_nil, partner?_sortedEnds hne]
    by_cases hxu : x = u
    · simp [hxu]
    · by_cases hxv : x = v
      · subst hxv
        simp [hxu]
      · simp [hxu, hxv]

/-- If both records of the edges agree, the edges taken out are all that end in the removed vertex. -/
theorem Erased.edgeSet_eq (he : Erased g v h) (hc : g.Consistent) (hg : g.Chronicled) :
    h.edgeSet = g.edgeSet.filter fun e => e.1 != v && e.2 != v := by
  rw [he.edges]
  refine List.filter_congr fun e hmem => ?_
  have hsorted : e = sortedEnds e.1 e.2 := (if_pos (hg.sorted e hmem)).symm
  rw [Bool.eq_iff_iff, List.all_eq_true, Bool.and_eq_true]
  simp only [bne_iff_ne]
  have hlinked : e.2 ∈ g.neighbors e.1 := (mem_edgeSet_iff hc hsorted).1 hmem
  constructor
  · intro hkept
    refine ⟨fun hv => ?_, fun hv => ?_⟩
    · exact hkept e.2 (hv ▸ hlinked) (hv ▸ hsorted)
    · refine hkept e.1 (hv ▸ hc.symm e.1 e.2 hlinked) ?_
      rw [sortedEnds_comm, ← hv]
      exact hsorted
  · rintro ⟨hleft, hright⟩ w _ heq
    rcases (sortedEnds_eq_iff e.1 e.2 v w).1 (hsorted ▸ heq) with ⟨hv, -⟩ | ⟨-, hv⟩
    · exact hleft hv
    · exact hright hv

theorem Erased.chronicled (he : Erased g v h) (hc : g.Consistent) (hg : g.Chronicled) :
    h.Chronicled := by
  refine ⟨?_, ?_, fun x => ?_⟩
  · intro e hm
    exact hg.sorted e (he.mem_edgeSet.1 hm).1
  · rw [he.edges]
    exact hg.distinct.filter _
  · rw [he.neighbors_eq hc, he.edgeSet_eq hc hg, ← List.filter_reverse, filterMap_partner?_filter, hg.listed]

/-- The lists of neighbours of a graph that edits lead to follow its set of edges. -/
theorem Reachable.chronicled (hg : g.Reachable) : g.Chronicled := by
  refine hg.stepInduction chronicled_empty fun g h hg hstep ih => ?_
  cases hstep with
  | alike ha => exact ha.chronicled ih
  | push label =>
      refine ⟨ih.sorted, ih.distinct, fun x => ?_⟩
      rw [neighbors_push]
      exact ih.listed x
  | erased he => exact he.chronicled hg.consistent ih
  | join hu hv hne hnew => exact ih.join hu hv hne hnew

/-! ## The list of all edges -/

theorem Consistent.nodup_edges (hg : g.Consistent) : g.edges.Nodup := by
  refine List.nodup_flatMap.2 ⟨fun u _ => ?_, ?_⟩
  · exact ((hg.nodup u).filter _).map fun a b hab => (Prod.mk.inj hab).2
  · refine (nodup_vertices g).imp fun {a b} hne e ha hb => ?_
    obtain ⟨x, -, rfl⟩ := List.mem_map.1 ha
    obtain ⟨y, -, heq⟩ := List.mem_map.1 hb
    exact hne (Prod.mk.inj heq).1.symm

/-- The set of edges and the list of edges have the same members. -/
theorem Chronicled.perm_edges (hg : g.Chronicled) (hc : g.Consistent) :
    g.edges.Perm g.edgeSet := by
  refine (List.perm_ext_iff_of_nodup hc.nodup_edges hg.distinct).2 fun e => ?_
  obtain ⟨a, b⟩ := e
  rw [mem_edges]
  constructor
  · rintro ⟨hlinked, hlt⟩
    exact (mem_edgeSet_iff hc (by simp [sortedEnds, hlt])).2 hlinked
  · intro hm
    have hlt : a < b := hg.sorted _ hm
    exact ⟨(mem_edgeSet_iff hc (by simp [sortedEnds, hlt])).1 hm, hlt⟩

end Graph

end CliquePath
