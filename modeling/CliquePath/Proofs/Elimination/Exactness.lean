import CliquePath.Proofs.Elimination.Marks
import CliquePath.Proofs.Search.Lexicographic

set_option autoImplicit false

/-!
# What the check of an elimination order finds

This module says for any ranking of the vertices, whether a search gave it or not, what the check of
an elimination order finds. It finds nothing exactly if the later neighbours of every vertex are
pairwise adjacent. What it finds is the highest failure: from the vertex found upwards the ranking
is an elimination order, since every demand on a vertex above it was met.
-/

namespace CliquePath

namespace Graph

variable {g : Graph} {r : Ranking} {front later : List Vertex} {v w : Vertex}

theorem demands_subset_append (front part : List Vertex) :
    g.demands part ⊆ g.demands (front ++ part) := by
  induction front with
  | nil => exact fun d hd => hd
  | cons v front ih =>
      intro d hd
      rw [List.cons_append, demands]
      split
      next => exact ih hd
      next => exact List.mem_cons_of_mem _ (ih hd)

/-- Every demand on a vertex above the one found is met. -/
theorem met_above (hnodup : r.order.Nodup) (h : g.unmetDemand? r = some (v, w))
    (horder : r.order = front ++ v :: later) {x y : Vertex} (hx : x ∈ later)
    (hy : y ∈ required (g.demands r.order) x) : g.Linked x y := by
  have hreverse : r.order.reverse = later.reverse ++ v :: front.reverse := by
    simp [horder]
  have hv : v ∉ later := by
    rw [horder] at hnodup
    exact (List.nodup_cons.1 (List.nodup_append.1 hnodup).2.1).1
  rw [unmetDemand?, hreverse, List.findSome?_append] at h
  cases habove : later.reverse.findSome? fun v =>
      ((required (g.demands r.order) v).find? fun w => !g.adjacent v w).map fun w => (v, w) with
  | some pair =>
      -- The search would have stopped above `v`.
      obtain ⟨u, hu, hpair⟩ := List.exists_of_findSome?_eq_some habove
      obtain ⟨z, -, rfl⟩ := Option.map_eq_some_iff.1 hpair
      rw [habove, Option.some_or, Option.some.injEq, Prod.mk.injEq] at h
      exact absurd (List.mem_reverse.1 (h.1 ▸ hu)) hv
  | none =>
      have hnone := List.findSome?_eq_none_iff.1 habove x (List.mem_reverse.2 hx)
      rw [Option.map_eq_none_iff, List.find?_eq_none] at hnone
      simpa using hnone y hy

/-- From the vertex found upwards the later neighbours of each vertex are pairwise adjacent. -/
theorem laterClique_above (hnodup : r.order.Nodup) (hsymm : ∀ v w, g.Linked v w → g.Linked w v)
    (h : g.unmetDemand? r = some (v, w)) (horder : r.order = front ++ v :: later) :
    g.LaterClique (v :: later) := by
  apply laterClique_of_met
  · rw [horder] at hnodup
    exact (List.nodup_append.1 hnodup).2.1
  · exact hsymm
  · intro d hd y hy
    -- The demand is one on a later neighbour of some vertex from `v` upwards.
    obtain ⟨pre, x, rest, heq, hnear⟩ := exists_of_mem_demands hd
    have hrest : d.1 ∈ rest := by
      have hin : d.1 ∈ rest.filter fun z => g.adjacent z x := hnear ▸ List.mem_cons_self
      exact (List.mem_filter.1 hin).1
    have hlater : d.1 ∈ later := by
      cases pre with
      | nil =>
          obtain ⟨-, rfl⟩ := List.cons.inj heq
          exact hrest
      | cons u pre =>
          obtain ⟨-, rfl⟩ := List.cons.inj heq
          exact List.mem_append_right _ (List.mem_cons_of_mem _ hrest)
    refine met_above hnodup h horder hlater (List.mem_flatMap.2 ⟨d, ?_, hy⟩)
    refine List.mem_filter.2 ⟨?_, beq_self_eq_true _⟩
    rw [horder]
    exact demands_subset_append front (v :: later) hd

/-- The check of an elimination order with marks is exact for every ranking of the vertices. It
finds nothing exactly if the later neighbours of every vertex are pairwise adjacent. A pair that it
finds is not adjacent, has a common neighbour of lower rank, and is the highest: the ranking
restricted to the vertices from the first of the pair upwards has later neighbours that are pairwise
adjacent. -/
theorem unmarkedDemand?_exact (hg : g.Reachable) (hr : r.order.Perm g.vertices) :
    let answer := g.unmarkedDemand? r (g.neighborsByRank r)
    answer = g.unmetDemand? r ∧ (answer = none ↔ g.LaterClique r.order) ∧
      ∀ v w, answer = some (v, w) → v ≠ w ∧ g.adjacent v w = false ∧
        (∃ x i j k, r.rank? x = some i ∧ r.rank? v = some j ∧ r.rank? w = some k ∧
          i < j ∧ i < k ∧ g.adjacent x v = true ∧ g.adjacent x w = true) ∧
        ∃ j, r.rank? v = some j ∧ g.LaterClique (r.order.drop j) := by
  have hc := hg.consistent
  have hnodup : r.order.Nodup := hr.nodup_iff.2 (nodup_vertices g)
  rw [hc.unmarkedDemand?_eq hr]
  refine ⟨rfl, ⟨laterClique_of_unmetDemand? hnodup hc.symm, fun h =>
    h.unmetDemand?_eq_none hnodup⟩, fun v w h => ?_⟩
  obtain ⟨front, x, later, horder, hv, hw, hvx, hwx, hne, hno⟩ := exists_of_unmetDemand? hnodup h
  have hadj : g.adjacent v w = false := by
    rwa [← Bool.not_eq_true, adjacent_iff]
  -- The ranks are the places in the order.
  have hrank : ∀ y ∈ later, ∃ i, r.rank? y = some (front.length + 1 + i) := by
    intro y hy
    obtain ⟨i, hi⟩ := List.mem_iff_getElem?.1 hy
    refine ⟨i, (Ranking.rank?_eq_some_iff hnodup).2 ?_⟩
    rw [horder, List.getElem?_append_right (by omega)]
    have hplace : front.length + 1 + i - front.length = i + 1 := by omega
    rw [hplace, List.getElem?_cons_succ, hi]
  obtain ⟨j, hj⟩ := hrank v hv
  obtain ⟨k, hk⟩ := hrank w hw
  have hx : r.rank? x = some front.length := by
    rw [Ranking.rank?_eq_some_iff hnodup, horder]
    simp
  refine ⟨hne, hadj, ⟨x, _, _, _, hx, hj, hk, by omega, by omega, ?_, ?_⟩, _, hj, ?_⟩
  · exact adjacent_iff.2 (hc.symm v x hvx)
  · exact adjacent_iff.2 (hc.symm w x hwx)
  · have hat := (Ranking.rank?_eq_some_iff hnodup).1 hj
    obtain ⟨hlt, hget⟩ := List.getElem?_eq_some_iff.1 hat
    rw [List.drop_eq_getElem_cons hlt, hget]
    have hcut : r.order = r.order.take (front.length + 1 + j) ++
        v :: r.order.drop (front.length + 1 + j + 1) := by
      rw [← hget, ← List.drop_eq_getElem_cons hlt, List.take_append_drop]
    exact laterClique_above hnodup hc.symm h hcut

/-- The cycle on six vertices, ranked by number: the two neighbours of the vertex 0 are not
adjacent, and the path that the other vertices form is eliminated from its lower end. -/
theorem unmarkedDemand?_exact_hexagon : hexagon.Reachable ∧
    (Ranking.mk [0, 1, 2, 3, 4, 5]).order.Perm hexagon.vertices ∧
    hexagon.unmarkedDemand? ⟨[0, 1, 2, 3, 4, 5]⟩ (hexagon.neighborsByRank ⟨[0, 1, 2, 3, 4, 5]⟩) =
      some (1, 5) ∧
    hexagon.adjacent 1 5 = false ∧ hexagon.LaterClique [1, 2, 3, 4, 5] := by
  have hperm : (Ranking.mk [0, 1, 2, 3, 4, 5]).order.Perm hexagon.vertices := by decide
  have hanswer : hexagon.unmarkedDemand? ⟨[0, 1, 2, 3, 4, 5]⟩
      (hexagon.neighborsByRank ⟨[0, 1, 2, 3, 4, 5]⟩) = some (1, 5) := by decide
  obtain ⟨-, -, hfound⟩ := unmarkedDemand?_exact reachable_hexagon hperm
  obtain ⟨-, hadj, -, j, hj, hlater⟩ := hfound 1 5 hanswer
  have hone : j = 1 := by
    have hrank : (Ranking.mk [0, 1, 2, 3, 4, 5]).rank? 1 = some 1 := by decide
    exact Option.some.inj (hj.symm.trans hrank)
  subst hone
  exact ⟨reachable_hexagon, hperm, hanswer, hadj, hlater⟩

end Graph

end CliquePath
