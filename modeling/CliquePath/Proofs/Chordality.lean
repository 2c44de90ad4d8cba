import CliquePath.Proofs.Recognition
import CliquePath.Proofs.Search.LastVertex
import CliquePath.Proofs.Search.ShortestDetour
import Mathlib

set_option autoImplicit false

/-!
# Chordality

This module states what the elimination of a graph is for. It gives an order for every graph without
holes, in which the later neighbours of each vertex are pairwise adjacent, and a hole for every other
graph. It never fails: an unmet demand is a pair of earlier neighbours of some vertex, and this
vertex is one around which the two are joined.
-/

namespace CliquePath

namespace Graph

open Detour (mem_allowed mem_avoided)

variable {g : Graph} {u v w x : Vertex} {cycle path : List Vertex} {options : Options}

/-! ## Closing a hole -/

/-- A vertex that sees the two ends of a path around itself closes a hole with the path. -/
theorem Consistent.hole_of_detour (hg : g.Consistent) (hd : (Detour.mk u v w).Proper g)
    (huv : g.Linked u v) (huw : g.Linked u w) (hno : ¬ g.Linked v w)
    (hpath : Detour.path g ⟨u, v, w⟩ = .ok path) :
    Hole g.vertices g.Linked (path ++ [u]) := by
  obtain ⟨hchordless, hhead, hlast, hallowed⟩ := hd.path_spec hg hpath
  have hin : ∀ {z}, z ∈ path → z = w ∨ z = v ∨ ¬ g.Linked u z ∧ z ≠ u := by
    intro z hz
    rcases mem_allowed.1 (hallowed z hz) with h | h | ⟨-, hzv, hzw, h⟩
    · exact Or.inl h
    · exact Or.inr (Or.inl h)
    · rw [mem_avoided, not_or] at h
      exact Or.inr (Or.inr ⟨fun hlink => h.2 ⟨hlink, hzv, hzw⟩, h.1⟩)
  have hu : u ∉ path := by
    intro hmem
    rcases hin hmem with heq | heq | ⟨-, hne⟩
    · exact hd.target_ne heq.symm
    · exact hd.start_ne heq.symm
    · exact hne rfl
  have hpos : 0 < path.length := List.length_pos_iff.2 fun hnil => by
    rw [hnil] at hhead
    cases hhead
  have hfirst : path[0] = v := by
    rw [List.head?_eq_getElem?, List.getElem?_eq_getElem hpos] at hhead
    exact Option.some.inj hhead
  have hend : path[path.length - 1] = w := by
    rw [List.getLast?_eq_getElem?, List.getElem?_eq_getElem (by omega)] at hlast
    exact Option.some.inj hlast
  have hlen := hchordless.three_le_length hhead hlast hd.ne hno
  have hclosed := hchordless.close (d := u) hd.avoid hu (j := path.length - 1) (by omega) (by omega)
    fun i hi _ => ?_
  · rwa [Nat.sub_add_cancel hpos, List.take_length] at hclosed
  · -- Of the vertices on the path the two ends alone are neighbours of `u`.
    constructor
    · intro hlink
      rcases hin (List.getElem_mem hi) with heq | heq | ⟨hnlink, -⟩
      · exact Or.inl ((hchordless.nodup.getElem_inj_iff).1 (heq.trans hend.symm))
      · exact Or.inr ((hchordless.nodup.getElem_inj_iff).1 (heq.trans hfirst.symm))
      · exact absurd (hg.symm _ _ hlink) hnlink
    · rintro (rfl | rfl)
      · rw [hend]
        exact hg.symm u w huw
      · rw [hfirst]
        exact hg.symm u v huv

section Unmet

variable (hg : g.Consistent) (hunmet : g.unmetDemand? (g.lexRanking .backward) = some (v, w))

include hg hunmet

/-- The vertices of an unmet demand are not adjacent, and have a common neighbour visited after both
of them. -/
theorem Consistent.exists_later : ∃ x ∈ g.visits, g.visits.idxOf v < g.visits.idxOf x ∧
    g.visits.idxOf w < g.visits.idxOf x ∧ g.Linked v x ∧ g.Linked w x ∧ v ≠ w ∧
      ¬ g.Linked v w := by
  have hnodup : (g.lexRanking .backward).order.Nodup := List.nodup_reverse.2 hg.nodup_visits
  obtain ⟨front, x, later, horder, hv, hw, hvx, hwx, hne, hno⟩ :=
    exists_of_unmetDemand? hnodup hunmet
  -- The elimination order is the search order reversed, so what is later here was visited earlier.
  have hsplit : g.visits = later.reverse ++ x :: front.reverse := by
    rw [← List.reverse_inj, ← lexRanking_backward, horder]
    simp
  have hx : x ∉ later.reverse := fun hin => by
    have hvisits := hg.nodup_visits
    rw [hsplit] at hvisits
    exact (List.nodup_append.1 hvisits).2.2 x hin x List.mem_cons_self rfl
  refine ⟨x, ?_, ?_, ?_, hvx, hwx, hne, hno⟩
  · rw [hsplit]
    exact List.mem_append_right _ List.mem_cons_self
  · rw [hsplit]
    exact (idxOf_lt_iff_mem hx).2 (List.mem_reverse.2 hv)
  · rw [hsplit]
    exact (idxOf_lt_iff_mem hx).2 (List.mem_reverse.2 hw)

theorem Consistent.proper_of_common (huv : g.Linked v u) (huw : g.Linked u w) :
    (Detour.mk u v w).Proper g := by
  obtain ⟨x, -, -, -, hvx, hwx, hne, -⟩ := hg.exists_later hunmet
  refine ⟨(hg.mem_vertices_of_linked huw).1, (hg.mem_vertices_of_linked hvx).1,
    (hg.mem_vertices_of_linked hwx).1, fun heq : v = u => ?_,
    fun heq : w = u => ?_, hne⟩
  · exact hg.irrefl u (heq ▸ huv)
  · exact hg.irrefl u (heq ▸ huw)

/-- A common neighbour that is visited after both vertices of an unmet demand has a path around
it. -/
theorem Consistent.exists_detour_of_later (hx : x ∈ g.visits)
    (hvx : g.visits.idxOf v < g.visits.idxOf x) (hwx : g.visits.idxOf w < g.visits.idxOf x)
    (hv : g.Linked v x) (hw : g.Linked w x) (hne : v ≠ w) (hno : ¬ g.Linked v w) :
    ∃ path, Detour.path g ⟨x, v, w⟩ = .ok path := by
  have hproper := hg.proper_of_common hunmet hv (hg.symm w x hw)
  have haround := hg.fourPoints.joined_around hg.symm hx hvx hwx hv hw hne hno
  refine hproper.exists_path hg ((haround.symm fun v w _ hvw _ _ => hg.symm v w hvw).mono
    (fun v w _ hvw _ _ => hvw) fun t ht => ?_)
  rw [mem_allowed]
  by_cases htw : t = w
  · exact Or.inl htw
  by_cases htv : t = v
  · exact Or.inr (Or.inl htv)
  · obtain ⟨htin, htx, hnlink⟩ := (ht.resolve_left htv).resolve_left htw
    refine Or.inr (Or.inr ⟨hg.mem_visits.1 htin, htv, htw, fun havoided => ?_⟩)
    rcases mem_avoided.1 havoided with heq | ⟨hlink, -⟩
    · exact htx heq
    · exact hnlink hlink

/-- An unmet demand is closed to a hole. -/
theorem Consistent.exists_holeThrough :
    ∃ cycle, g.holeThrough (g.lexRanking .backward) v w = .ok cycle := by
  obtain ⟨x, hx, hvx, hwx, hv, hw, hne, hno⟩ := hg.exists_later hunmet
  obtain ⟨path, hpath⟩ := hg.exists_detour_of_later hunmet hx hvx hwx hv hw hne hno
  have hcommon : x ∈ (g.neighborsByRank (g.lexRanking .backward) w).filter
      fun u => g.adjacent v u := by
    refine List.mem_filter.2 ⟨List.mem_filter.2 ⟨?_, adjacent_iff.2 (hg.symm w x hw)⟩,
      adjacent_iff.2 hv⟩
    rw [lexRanking_backward]
    exact List.mem_reverse.2 hx
  rw [holeThrough]
  split
  next hnone =>
    have hclosed := List.findSome?_eq_none_iff.1 hnone x hcommon
    rw [hpath] at hclosed
    cases hclosed
  next cycle _ => exact ⟨cycle, rfl⟩

/-- What closes an unmet demand is a hole. -/
theorem Consistent.hole_of_holeThrough
    (hhole : g.holeThrough (g.lexRanking .backward) v w = .ok cycle) :
    Hole g.vertices g.Linked cycle := by
  obtain ⟨-, -, -, -, -, -, -, hno⟩ := hg.exists_later hunmet
  rw [holeThrough] at hhole
  split at hhole
  next => cases hhole
  next found hfound =>
    cases hhole
    obtain ⟨u, hu, hclosed⟩ := List.exists_of_findSome?_eq_some hfound
    obtain ⟨hnear, hvu⟩ := List.mem_filter.1 hu
    have huw : g.Linked u w := adjacent_iff.1 (List.mem_filter.1 hnear).2
    have hvu : g.Linked v u := adjacent_iff.1 hvu
    split at hclosed
    next => cases hclosed
    next path hpath =>
      cases hclosed
      exact hg.hole_of_detour (hg.proper_of_common hunmet hvu huw) (hg.symm v u hvu) huw hno hpath

end Unmet

/-! ## Chordal graphs and others -/

/-- The elimination of a graph never fails. It gives an order exactly if the graph has no holes; the
order lists every vertex once, and the later neighbours of each vertex are pairwise adjacent. Every
other graph gets a cycle. -/
theorem elimination_order_iff (hg : g.Reachable) :
    (∃ outcome, g.elimination = .ok outcome) ∧
      ((∃ order, g.elimination = .ok (.order order)) ↔ Chordal g.vertices g.Linked) ∧
      (∀ order, g.elimination = .ok (.order order) →
        order.Perm g.vertices ∧ g.LaterClique order) ∧
      (¬ Chordal g.vertices g.Linked → ∃ cycle, g.elimination = .ok (.hole cycle)) := by
  have hcons := hg.consistent
  have hnodup : (g.lexRanking .backward).order.Nodup := List.nodup_reverse.2 hcons.nodup_visits
  cases hunmet : g.unmetDemand? (g.lexRanking .backward) with
  | none =>
      -- All demands are met, so the reversed search order is an elimination order.
      have hlater := laterClique_of_unmetDemand? hnodup hcons.symm hunmet
      have hchordal : Chordal g.vertices g.Linked :=
        (LaterClique.cliqueOrder hcons.symm hlater).chordal hcons.mutual
          fun v => hcons.mem_visits.2
      have hout : g.elimination = .ok (.order g.visits.reverse) := hcons.elimination_of_none hunmet
      refine ⟨⟨_, hout⟩, iff_of_true ⟨_, hout⟩ hchordal, fun order h => ?_, absurd hchordal⟩
      rw [hout] at h
      cases h
      exact ⟨(List.reverse_perm _).trans hcons.perm_visits, hlater⟩
  | some pair =>
      obtain ⟨v, w⟩ := pair
      -- An unmet demand leads to a detour, which closes a hole.
      obtain ⟨cycle, hcycle⟩ := hcons.exists_holeThrough hunmet
      have hout : g.elimination = .ok (.hole cycle) := by
        rw [hcons.elimination_of_some hunmet, hcycle]
        rfl
      have hno : ¬ ∃ order, g.elimination = .ok (.order order) := by
        rintro ⟨order, h⟩
        rw [hout] at h
        cases h
      refine ⟨⟨_, hout⟩, iff_of_false hno fun hchordal => ?_, fun order h => ?_, fun _ => ⟨_, hout⟩⟩
      · exact hchordal cycle (hcons.hole_of_holeThrough hunmet hcycle)
      · exact absurd ⟨order, h⟩ hno

theorem elimination_order_threePath : ∃ order, threePath.elimination = .ok (.order order) ∧
    order.Perm threePath.vertices ∧ threePath.LaterClique order := by
  obtain ⟨-, hiff, horder, -⟩ := elimination_order_iff reachable_threePath
  obtain ⟨order, hout⟩ := hiff.2 fun cycle hhole => by
    -- A hole has four vertices, the path has three.
    have hle : cycle.length ≤ threePath.vertices.length :=
      (hhole.nodup.subperm hhole.mem).length_le
    exact absurd (Nat.le_trans hhole.four hle) (by decide)
  exact ⟨order, hout, horder order hout⟩

/-- Past the elimination a recognition gives no cycle. -/
theorem recognizeChordal_ne_hole (order : List Vertex) :
    g.recognizeChordal options order ≠ .ok (.hole cycle) := by
  intro h
  rw [recognizeChordal] at h
  cases htree : g.linkedTree with
  | error e =>
      rw [htree] at h
      cases h
  | ok buildup =>
      rw [htree] at h
      cases buildup with
      | complete t =>
          dsimp only [bind, Except.bind] at h
          split at h
          next => cases h
          next =>
            rw [represented] at h
            split at h <;> cases h
      | stuck v =>
          dsimp only [bind, Except.bind] at h
          split at h <;> cases h

/-- A cycle that the elimination gives, or the recognition, is a hole: at least four different
vertices of the graph, of which two are adjacent exactly if they are next to each other on the
cycle. -/
theorem hole_of_elimination (hg : g.Reachable) :
    (∀ cycle, g.elimination = .ok (.hole cycle) → Hole g.vertices g.Linked cycle) ∧
      ∀ options cycle, g.recognize options = .ok (.hole cycle) →
        Hole g.vertices g.Linked cycle := by
  have hcons := hg.consistent
  have helimination : ∀ cycle, g.elimination = .ok (.hole cycle) →
      Hole g.vertices g.Linked cycle := by
    intro cycle h
    cases hunmet : g.unmetDemand? (g.lexRanking .backward) with
    | none =>
        rw [hcons.elimination_of_none hunmet] at h
        cases h
    | some pair =>
        obtain ⟨v, w⟩ := pair
        obtain ⟨found, hfound⟩ := hcons.exists_holeThrough hunmet
        rw [hcons.elimination_of_some hunmet, hfound] at h
        cases h
        exact hcons.hole_of_holeThrough hunmet hfound
  -- A recognition takes its cycle from the elimination.
  refine ⟨helimination, fun options cycle h => ?_⟩
  rw [recognize] at h
  split at h
  next => cases h
  next hfound =>
    cases h
    exact helimination cycle hfound
  next => exact absurd h (recognizeChordal_ne_hole _)

theorem hole_of_elimination_hexagon : hexagon.elimination = .ok (.hole [4, 5, 0, 1, 2, 3]) ∧
    hexagon.recognize .full = .ok (.hole [4, 5, 0, 1, 2, 3]) ∧
    Hole hexagon.vertices hexagon.Linked [4, 5, 0, 1, 2, 3] := by
  have hout : hexagon.elimination = .ok (.hole [4, 5, 0, 1, 2, 3]) := by cbv
  have hrecognize : hexagon.recognize .full = .ok (.hole [4, 5, 0, 1, 2, 3]) := by
    rw [recognize, hout]
  exact ⟨hout, hrecognize,
    (hole_of_elimination reachable_hexagon).2 .full [4, 5, 0, 1, 2, 3] hrecognize⟩

end Graph

end CliquePath
