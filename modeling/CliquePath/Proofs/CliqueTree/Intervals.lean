import CliquePath.Proofs.CliqueTree.Insertion
import CliquePath.Proofs.CliqueTree.Reading
import CliquePath.Proofs.IntervalGraphs

set_option autoImplicit false

/-!
# The intervals of a clique tree

This module shows that the intervals of a tree in normal form represent the relation of sharing a
bag: every placed vertex has one, none is empty, and two of them overlap exactly when their vertices
are in one bag.
-/

namespace CliquePath

/-- Different vertices, sorted. -/
theorem pairwise_mergeSort_lt {vs : List Vertex} (h : vs.Nodup) :
    vs.mergeSort.Pairwise (· < ·) := by
  have hsorted : vs.mergeSort.Pairwise fun a b => decide (a ≤ b) = true :=
    List.pairwise_mergeSort
      (fun a b c hab hbc => by
        rw [decide_eq_true_eq] at hab hbc ⊢
        exact Nat.le_trans hab hbc)
      (fun a b => by
        rw [Bool.or_eq_true, decide_eq_true_eq, decide_eq_true_eq]
        exact Nat.le_total a b) vs
  refine (hsorted.and ((List.mergeSort_perm vs _).nodup_iff.2 h)).imp ?_
  rintro a b ⟨hab, hne⟩
  exact Nat.lt_of_le_of_ne (by simpa using hab) hne

namespace CliqueTree

variable {t : CliqueTree} {v w : Vertex} {i j : Interval}

theorem Sound.intervals_eq (h : t.Sound) :
    t.intervals = t.placed.mergeSort.filterMap fun v =>
      (t.node.arrangement.interval? v).map fun i => (v, i.shift 1) := by
  unfold intervals
  cases hroot : t.root with
  | none =>
      have hnil : t.placed = [] := by
        rw [List.eq_nil_iff_forall_not_mem]
        intro v hv
        have := (h.placed v).2 hv
        simp [node, hroot] at this
      simp [hnil]
  | some N => simp [node, hroot]

/-- The range of the bags of a placed vertex. -/
theorem Sound.exists_range (h : t.Sound) (hv : v ∈ t.placed) :
    ∃ i, t.node.arrangement.interval? v = some i ∧ i.start < i.stop ∧
      ∀ k, BagAt t.node.bags k v ↔ i.start ≤ k ∧ k < i.stop :=
  h.proper.exists_interval? ((h.placed v).2 hv)

theorem Sound.mem_intervals (h : t.Sound) {e : Vertex × Interval} :
    e ∈ t.intervals ↔ e.1 ∈ t.placed ∧
      ∃ i, t.node.arrangement.interval? e.1 = some i ∧ i.shift 1 = e.2 := by
  rw [h.intervals_eq, List.mem_filterMap]
  constructor
  · rintro ⟨v, hv, he⟩
    obtain ⟨i, hi, rfl⟩ := Option.map_eq_some_iff.1 he
    exact ⟨List.mem_mergeSort.1 hv, i, hi, rfl⟩
  · rintro ⟨hv, i, hi, he⟩
    exact ⟨e.1, List.mem_mergeSort.2 hv, by rw [hi, Option.map_some, he]⟩

theorem Sound.keys_intervals (h : t.Sound) : t.intervals.map Prod.fst = t.placed.mergeSort := by
  rw [h.intervals_eq, List.map_filterMap]
  have hkeys : ∀ v ∈ t.placed.mergeSort,
      ((t.node.arrangement.interval? v).map fun i => (v, i.shift 1)).map Prod.fst = some v := by
    intro v hv
    obtain ⟨i, hi, -⟩ := h.exists_range (List.mem_mergeSort.1 hv)
    simp [hi]
  rw [List.filterMap_congr hkeys]
  exact List.filterMap_some

theorem Sound.pairwise_placed (h : t.Sound) : t.placed.mergeSort.Pairwise (· < ·) :=
  pairwise_mergeSort_lt h.nodup

/-- The intervals count positions from 1. -/
theorem Sound.one_le_start (h : t.Sound) {e : Vertex × Interval} (he : e ∈ t.intervals) :
    1 ≤ e.2.start ∧ e.2.start < e.2.stop := by
  obtain ⟨hv, i, hi, hshift⟩ := h.mem_intervals.1 he
  obtain ⟨i', hi', hlt, -⟩ := h.exists_range hv
  rw [hi, Option.some.injEq] at hi'
  subst hi'
  rw [← hshift]
  simp only [Interval.shift]
  omega

/-- The intervals of a tree in normal form represent the relation of sharing a bag. -/
theorem Sound.represents (h : t.Sound) :
    Represents t.intervals t.placed.mergeSort (Shares t.bags) where
  keys := h.keys_intervals
  ascending := h.pairwise_placed
  nonempty e he := (h.one_le_start he).2
  overlaps e he f hf _ := by
    obtain ⟨hev, i, hi, hie⟩ := h.mem_intervals.1 he
    obtain ⟨hfv, j, hj, hjf⟩ := h.mem_intervals.1 hf
    obtain ⟨i', hi', hilt, hibag⟩ := h.exists_range hev
    obtain ⟨j', hj', hjlt, hjbag⟩ := h.exists_range hfv
    rw [hi, Option.some.injEq] at hi'
    rw [hj, Option.some.injEq] at hj'
    subst hi' hj'
    rw [← hie, ← hjf]
    rw [Interval.overlaps_iff]
    simp only [Interval.shift]
    constructor
    · -- The later one of the two starts is a bag of both.
      rintro ⟨h1, h2⟩
      obtain ⟨B, hB, hvB⟩ := (hibag (max i.start j.start)).2 (by omega)
      obtain ⟨C, hC, hwC⟩ := (hjbag (max i.start j.start)).2 (by omega)
      rw [hB, Option.some.injEq] at hC
      subst hC
      exact ⟨B, List.mem_of_getElem? hB, hvB, hwC⟩
    · rintro ⟨B, hB, hvB, hwB⟩
      obtain ⟨k, hk⟩ := List.mem_iff_getElem?.1 hB
      have h1 := (hibag k).1 ⟨B, hk, hvB⟩
      have h2 := (hjbag k).1 ⟨B, hk, hwB⟩
      omega

end CliqueTree

end CliquePath
