import CliquePath.Proofs.Search.Ranking
import CliquePath.Search.LinkedGroups

set_option autoImplicit false

/-!
# The two records of a search

A search enters each visited vertex in an array of vertices, at its rank, and its rank in an array of
ranks, at the number of the vertex. This module follows both arrays through the visits: a place that
no visit names keeps what it held, and a place that a visit names holds what that visit entered. From
this it shows that the first array holds the ranking and that the second one inverts it.
-/

namespace CliquePath

/-- A rank counted from the other end, twice, is the rank. -/
theorem Direction.rankAt_rankAt (direction : Direction) {n r : Nat} (h : r < n) :
    direction.rankAt n (direction.rankAt n r) = r := by
  cases direction with
  | forward => rfl
  | backward =>
      simp only [rankAt]
      omega

theorem Direction.rankAt_lt (direction : Direction) {n r : Nat} (h : r < n) :
    direction.rankAt n r < n := by
  cases direction with
  | forward => exact h
  | backward =>
      simp only [rankAt]
      omega

namespace Ranking

/-- The vertices in the order of their visits, for a search that ranked them in the given
direction. -/
def visits (r : Ranking) : Direction → List Vertex
  | .forward => r.order
  | .backward => r.order.reverse

theorem visits_ofVisits (visits : List Vertex) (direction : Direction) :
    (ofVisits visits direction).visits direction = visits := by
  cases direction with
  | forward => rfl
  | backward => exact List.reverse_reverse visits

theorem perm_ofVisits (visits : List Vertex) (direction : Direction) :
    (ofVisits visits direction).order.Perm visits := by
  cases direction with
  | forward => exact List.Perm.refl visits
  | backward => exact List.reverse_perm visits

/-- The vertex of a rank is the one visited in the step that the rank is given to. -/
theorem getElem?_ofVisits {visits : List Vertex} {r : Nat} (direction : Direction)
    (h : r < visits.length) :
    (ofVisits visits direction).order[r]? = visits[direction.rankAt visits.length r]? := by
  cases direction with
  | forward => rfl
  | backward => exact List.getElem?_reverse h

/-- The ranks number the places of the order. -/
theorem rank?_eq_some_iff {r : Ranking} (h : r.order.Nodup) {v : Vertex} {i : Nat} :
    r.rank? v = some i ↔ r.order[i]? = some v := by
  rw [rank?, List.findIdx?_eq_some_iff_getElem, List.getElem?_eq_some_iff]
  constructor
  · rintro ⟨hi, hv, -⟩
    exact ⟨hi, beq_iff_eq.1 hv⟩
  · rintro ⟨hi, hv⟩
    refine ⟨hi, beq_iff_eq.2 hv, fun j hj => ?_⟩
    -- An earlier place with the same vertex would be a repetition.
    intro hsame
    have heq : r.order[j] = r.order[i] := (beq_iff_eq.1 hsame).trans hv.symm
    exact absurd ((List.Nodup.getElem_inj_iff h).1 heq) (Nat.ne_of_lt hj)

theorem rank?_eq_none_iff {r : Ranking} {v : Vertex} : r.rank? v = none ↔ v ∉ r.order := by
  rw [rank?, List.findIdx?_eq_none_iff]
  constructor
  · intro h hv
    simpa using h v hv
  · intro h x hx
    have hne : x ≠ v := fun heq => h (heq ▸ hx)
    simpa using hne

end Ranking

namespace RankRecords

variable {direction : Direction} {n step r : Nat} {visits : List Vertex} {s : RankRecords}
  {v : Vertex}

@[simp] theorem size_order_enterFrom :
    (enterFrom direction n step visits s).order.size = s.order.size := by
  induction visits generalizing step s with
  | nil => rfl
  | cons v rest ih => rw [enterFrom, ih, enter, Array.size_setIfInBounds]

/-- A rank that no visit gives keeps its vertex. -/
theorem getElem?_order_of_forall_ne (h : ∀ i < visits.length, direction.rankAt n (step + i) ≠ r) :
    (enterFrom direction n step visits s).order[r]? = s.order[r]? := by
  induction visits generalizing step s with
  | nil => rfl
  | cons v rest ih =>
      have hfirst : direction.rankAt n step ≠ r := h 0 (Nat.succ_pos _)
      have hlater : ∀ i < rest.length, direction.rankAt n (step + 1 + i) ≠ r := by
        intro i hi
        rw [Nat.add_assoc, Nat.add_comm 1 i]
        exact h (i + 1) (Nat.succ_lt_succ hi)
      rw [enterFrom, ih hlater, enter, Array.getElem?_setIfInBounds_ne hfirst]

/-- The rank that a visit gives holds the vertex of that visit. -/
theorem getElem?_order_enterFrom (hsize : s.order.size = n) (hfits : step + visits.length ≤ n) {i : Nat}
    (hi : i < visits.length) :
    (enterFrom direction n step visits s).order[direction.rankAt n (step + i)]? = visits[i]? := by
  induction visits generalizing step s i with
  | nil => exact absurd hi (Nat.not_lt_zero i)
  | cons v rest ih =>
      have hfits' : step + 1 + rest.length ≤ n := by
        rw [List.length_cons] at hfits
        omega
      cases i with
      | zero =>
          have hlt : direction.rankAt n step < s.order.size :=
            hsize ▸ direction.rankAt_lt (by omega)
          -- the later visits give other ranks
          rw [enterFrom, getElem?_order_of_forall_ne, Nat.add_zero, enter,
            Array.getElem?_setIfInBounds_self_of_lt hlt, List.getElem?_cons_zero]
          intro j hj heq
          have hsame := congrArg (direction.rankAt n) heq
          rw [direction.rankAt_rankAt (by omega), direction.rankAt_rankAt (by omega)] at hsame
          omega
      | succ i =>
          have hsize' : (s.enter v (direction.rankAt n step)).order.size = n := by
            rw [enter, Array.size_setIfInBounds, hsize]
          have hlater := ih hsize' hfits' (Nat.lt_of_succ_lt_succ hi)
          rw [enterFrom, List.getElem?_cons_succ, ← hlater, Nat.add_right_comm, Nat.add_assoc]

/-- A vertex that is not visited keeps its rank. -/
theorem getElem?_ranks_of_notMem (h : v ∉ visits) :
    (enterFrom direction n step visits s).ranks[v]? = s.ranks[v]? := by
  induction visits generalizing step s with
  | nil => rfl
  | cons w rest ih =>
      obtain ⟨hne, hrest⟩ := not_or.1 (mt List.mem_cons.2 h)
      rw [enterFrom, ih hrest, enter, Array.getElem?_setIfInBounds_ne (Ne.symm hne)]

/-- A visited vertex has the rank that its visit gives. -/
theorem getElem?_ranks_enterFrom (hnodup : visits.Nodup) {i : Nat} (hv : visits[i]? = some v)
    (hlt : v < s.ranks.size) :
    (enterFrom direction n step visits s).ranks[v]? = some (some (direction.rankAt n (step + i))) := by
  induction visits generalizing step s i with
  | nil => cases hv
  | cons w rest ih =>
      obtain ⟨hw, hrest⟩ := List.nodup_cons.1 hnodup
      cases i with
      | zero =>
          obtain rfl : w = v := Option.some.inj hv
          rw [enterFrom, getElem?_ranks_of_notMem hw, Nat.add_zero, enter,
            Array.getElem?_setIfInBounds_self_of_lt hlt]
      | succ i =>
          rw [enterFrom, ih hrest hv (by rwa [enter, Array.size_setIfInBounds]), Nat.add_assoc,
            Nat.add_comm 1 i]

end RankRecords

namespace Graph

variable {g : Graph} {visits : List Vertex}

/-- The first record of a search that visits `vertexCount` vertices holds its ranking. -/
theorem ranking_recordsOf (hcount : visits.length = g.vertexCount) (direction : Direction) :
    (g.recordsOf visits direction).ranking = .ofVisits visits direction := by
  have horder : (g.recordsOf visits direction).order.size = visits.length := by
    rw [recordsOf, RankRecords.size_order_enterFrom, RankRecords.blank, Array.size_replicate, hcount]
  have hlength : (Ranking.ofVisits visits direction).order.length = visits.length :=
    (Ranking.perm_ofVisits visits direction).length_eq
  suffices hlist : (g.recordsOf visits direction).order.toList =
      (Ranking.ofVisits visits direction).order from congrArg Ranking.mk hlist
  refine List.ext_getElem? fun r => ?_
  rw [Array.getElem?_toList]
  by_cases hr : r < visits.length
  · have hstep : direction.rankAt g.vertexCount r < visits.length := by
      rw [hcount]
      exact direction.rankAt_lt (hcount ▸ hr)
    have hentered : (g.recordsOf visits direction).order[direction.rankAt g.vertexCount
        (0 + direction.rankAt g.vertexCount r)]? = visits[direction.rankAt g.vertexCount r]? :=
      RankRecords.getElem?_order_enterFrom Array.size_replicate (by omega) hstep
    rw [Nat.zero_add, direction.rankAt_rankAt (hcount ▸ hr)] at hentered
    rw [hentered, Ranking.getElem?_ofVisits direction hr, hcount]
  · rw [Array.getElem?_eq_none (by omega), List.getElem?_eq_none (by omega)]

/-- The second record inverts the first one. -/
theorem rank?_recordsOf (hcount : visits.length = g.vertexCount) (hnodup : visits.Nodup)
    (hbound : ∀ v ∈ visits, v < g.bound) (direction : Direction) (v : Vertex) :
    (g.recordsOf visits direction).rank? v = (Ranking.ofVisits visits direction).rank? v := by
  have hperm := Ranking.perm_ofVisits visits direction
  by_cases hv : v ∈ visits
  · obtain ⟨i, hi, hat⟩ := List.mem_iff_getElem.1 hv
    have hget : visits[i]? = some v := by rw [List.getElem?_eq_getElem hi, hat]
    have hrank : (Ranking.ofVisits visits direction).rank? v =
        some (direction.rankAt g.vertexCount i) := by
      rw [Ranking.rank?_eq_some_iff (hperm.nodup_iff.2 hnodup), Ranking.getElem?_ofVisits, hcount,
        direction.rankAt_rankAt (hcount ▸ hi), hget]
      rw [hcount]
      exact direction.rankAt_lt (hcount ▸ hi)
    rw [hrank, RankRecords.rank?, recordsOf, RankRecords.getElem?_ranks_enterFrom hnodup hget,
      Nat.zero_add]
    · rfl
    · rw [RankRecords.blank, Array.size_replicate]
      exact hbound v hv
  · have hnone : (Ranking.ofVisits visits direction).rank? v = none :=
      Ranking.rank?_eq_none_iff.2 fun hin => hv (hperm.mem_iff.1 hin)
    rw [hnone, RankRecords.rank?, recordsOf, RankRecords.getElem?_ranks_of_notMem hv,
      RankRecords.blank, Array.getElem?_replicate]
    split
    next => rfl
    next => rfl

end Graph

end CliquePath
