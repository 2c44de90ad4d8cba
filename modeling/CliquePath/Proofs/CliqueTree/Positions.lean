import CliquePath.Proofs.CliqueTree.Cliques

set_option autoImplicit false

/-!
# Bounds for the positions

This module bounds the number of cliques of a tree by the number of its vertices. No bag lies in the one
before it, so each bag has a vertex that no earlier bag has, and no vertex is new in two bags. The ends of
the intervals are bounded in turn: they fit into 32 bits as long as the number of vertices does, with one
number to spare.
-/

namespace CliquePath

namespace Interval

/-- An interval whose stop fits into 32 bits is not changed by cutting its ends. -/
theorem ofNumbers_eq {i : Interval} (hle : i.start ≤ i.stop) (hstop : i.stop < UInt32.size) :
    ofNumbers i.start i.stop = i := by
  rw [ofNumbers, Nat.mod_eq_of_lt (Nat.lt_of_le_of_lt hle hstop), Nat.mod_eq_of_lt hstop]

end Interval

theorem Assignment.toWords_eq {intervals : Assignment}
    (h : ∀ e ∈ intervals, e.2.start ≤ e.2.stop ∧ e.2.stop < UInt32.size) :
    intervals.toWords = intervals := by
  refine (List.map_congr_left fun e he => ?_).trans (List.map_id intervals)
  rw [Interval.ofNumbers_eq (h e he).1 (h e he).2]
  rfl

namespace CliqueTree

variable {t : CliqueTree} {k : Nat} {v : Vertex}

/-- The position of the first bag that has a vertex. -/
def firstBag (t : CliqueTree) (v : Vertex) : Nat :=
  ((t.node.arrangement.interval? v).map Interval.start).getD 0

/-- A vertex that is in a bag, and not in the one before it, is there for the first time. -/
theorem Sound.firstBag_eq (h : t.Sound) (hv : BagAt t.node.bags k v)
    (hnew : ∀ j, k = j + 1 → ¬BagAt t.node.bags j v) : v ∈ t.placed ∧ t.firstBag v = k := by
  obtain ⟨B, hB, hvB⟩ := hv
  have hmem : v ∈ t.placed := h.mem_placed.2 ⟨B, List.mem_of_getElem? hB, hvB⟩
  obtain ⟨i, hi, -, hbags⟩ := h.exists_range hmem
  refine ⟨hmem, ?_⟩
  rw [firstBag, hi, Option.map_some, Option.getD_some]
  have hrange := (hbags k).1 ⟨B, hB, hvB⟩
  -- the bags of a vertex are consecutive
  cases k with
  | zero => omega
  | succ j =>
      have hnone := mt (hbags j).2 (hnew j rfl)
      omega

/-- Every bag is the first one of some vertex. -/
theorem Sound.exists_firstBag (h : t.Sound) (hplaced : t.placed ≠ [])
    (hk : k < t.node.bags.length) : ∃ v ∈ t.placed, t.firstBag v = k := by
  have hat : ∀ v ∈ t.node.bags[k], BagAt t.node.bags k v := fun v hv =>
    ⟨_, List.getElem?_eq_getElem hk, hv⟩
  cases k with
  | zero =>
      obtain ⟨v, hv⟩ := h.bag_nonempty hplaced _ (List.getElem_mem hk)
      exact ⟨v, h.firstBag_eq (hat v hv) fun j hj => by cases hj⟩
  | succ j =>
      have hj : j < t.node.bags.length := Nat.lt_of_succ_lt hk
      have hincomparable := List.pairwise_iff_getElem.1 h.proper.incomparable j (j + 1) hj hk
        (Nat.lt_succ_self j)
      obtain ⟨v, hv, hnew⟩ := Set.not_subset.1 hincomparable.2
      refine ⟨v, h.firstBag_eq (hat v hv) fun j' hj' => ?_⟩
      cases hj'
      rintro ⟨B, hB, hvB⟩
      rw [List.getElem?_eq_getElem hj, Option.some.injEq] at hB
      exact hnew (hB ▸ hvB)

/-- There are no more cliques than vertices. -/
theorem Sound.length_cliques_le (h : t.Sound) (hplaced : t.placed ≠ []) :
    t.cliques.length ≤ t.placed.length := by
  have hroot : t.root ≠ none := fun hnone => hplaced (h.cliques_eq_nil hnone)
  have hsubset : List.range t.node.bags.length ⊆ t.placed.map t.firstBag := by
    intro k hk
    obtain ⟨v, hv, hfirst⟩ := h.exists_firstBag hplaced (List.mem_range.1 hk)
    exact List.mem_map.2 ⟨v, hv, hfirst⟩
  have hle := (List.subperm_of_subset List.nodup_range hsubset).length_le
  rw [List.length_range, List.length_map] at hle
  rwa [← map_cliques hroot, List.length_map] at hle

/-- The intervals end behind as many positions as there are vertices, at the latest. -/
theorem Sound.stop_le (h : t.Sound) {e : Vertex × Interval} (he : e ∈ t.intervals) :
    e.2.stop ≤ t.placed.length + 1 := by
  obtain ⟨hv, i, hi, hshift⟩ := h.mem_intervals.1 he
  obtain ⟨i', hi', -, hstop, -⟩ := h.mem_clique_iff hv
  rw [hi, Option.some.injEq] at hi'
  have hle := h.length_cliques_le (List.ne_nil_of_mem hv)
  rw [← hshift, hi', Interval.shift]
  dsimp only
  omega

/-- Ends of 32 bits hold all positions of a tree that is not too large. -/
theorem Sound.toWords_intervals (h : t.Sound) (hsize : t.placed.length + 1 < UInt32.size) :
    t.intervals.toWords = t.intervals := by
  refine Assignment.toWords_eq fun e he => ⟨?_, ?_⟩
  · exact Nat.le_of_lt (h.one_le_start he).2
  · exact Nat.lt_of_le_of_lt (h.stop_le he) hsize

end CliqueTree

end CliquePath
