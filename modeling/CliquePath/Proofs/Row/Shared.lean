import CliquePath.Proofs.Row.Lists

set_option autoImplicit false

/-!
# Positions of a vertex in a row

This module shows that the keys which a row computes for a vertex are the ends of the block of
sections that hold it, and that the shared positions of several vertices are those of the sections
that hold all of them. Both rest on the keys being ascending and on every vertex being held by one
block.
-/

namespace CliquePath

namespace Row

variable {α : Type}

/-- In an ascending row, comparing keys is comparing positions. -/
theorem Ascending.le_iff {r : Row α} (h : r.Ascending) {i j : Nat} (hi : i < r.keyed.length)
    (hj : j < r.keyed.length) : (r.keyed[i]).1 ≤ (r.keyed[j]).1 ↔ i ≤ j := by
  have hlt := List.pairwise_iff_getElem.1 h
  constructor
  · intro hle
    by_contra hji
    have := hlt j i hj hi (by omega)
    omega
  · intro hij
    rcases Nat.lt_or_eq_of_le hij with hij | rfl
    · exact Int.le_of_lt (hlt i j hi hj hij)
    · exact Int.le_refl _

theorem getElem_toList (r : Row α) {i : Nat} (hi : i < r.keyed.length) :
    r.toList[i]? = some (r.keyed[i]).2 := by
  rw [toList, List.getElem?_map, List.getElem?_eq_getElem hi]
  rfl

/-- The span of a test that some entry passes. The entries that pass lie between the two keys, and
the keys are those of entries that pass. -/
theorem Ascending.exists_span? {r : Row α} (h : r.Ascending) (test : α → Bool)
    (hx : ∃ x ∈ r.toList, test x = true) :
    ∃ a b, ∃ (ha : a < r.keyed.length) (hb : b < r.keyed.length),
      r.span? test = some ((r.keyed[a]).1, (r.keyed[b]).1) ∧
        test (r.keyed[a]).2 = true ∧ test (r.keyed[b]).2 = true ∧
        ∀ i, ∀ hi : i < r.keyed.length, test (r.keyed[i]).2 = true → a ≤ i ∧ i ≤ b := by
  have hne : (r.keyed.filter fun c => test c.2) ≠ [] := by
    obtain ⟨x, hx, htest⟩ := hx
    obtain ⟨c, hc, rfl⟩ := List.mem_map.1 hx
    exact List.ne_nil_of_mem (List.mem_filter.2 ⟨hc, htest⟩)
  have hsorted : (r.keyed.filter fun c => test c.2).Pairwise fun a b => a.1 < b.1 := h.filter _
  obtain ⟨first, hfirst⟩ : ∃ c, (r.keyed.filter fun c => test c.2).head? = some c :=
    ⟨_, List.head?_eq_some_head hne⟩
  obtain ⟨last, hlast⟩ : ∃ c, (r.keyed.filter fun c => test c.2).getLast? = some c :=
    ⟨_, List.getLast?_eq_some_getLast hne⟩
  obtain ⟨hfm, hft⟩ := List.mem_filter.1 (List.mem_of_head? hfirst)
  obtain ⟨hlm, hlt⟩ := List.mem_filter.1 (List.mem_of_getLast? hlast)
  obtain ⟨a, ha, rfl⟩ := List.getElem_of_mem hfm
  obtain ⟨b, hb, rfl⟩ := List.getElem_of_mem hlm
  refine ⟨a, b, ha, hb, ?_, hft, hlt, fun i hi htest => ?_⟩
  · simp only [span?, hfirst, hlast]
  · have hmem : r.keyed[i] ∈ r.keyed.filter fun c => test c.2 :=
      List.mem_filter.2 ⟨List.getElem_mem hi, htest⟩
    exact ⟨(h.le_iff ha hi).1 (le_of_head? hsorted hfirst hmem),
      (h.le_iff hi hb).1 (le_of_getLast? hsorted hlast hmem)⟩

theorem mem_positions {r : Row α} {low high : Int} {i : Nat} :
    i ∈ r.positions low high ↔
      ∃ hi : i < r.keyed.length, low ≤ (r.keyed[i]).1 ∧ (r.keyed[i]).1 ≤ high := by
  simp only [positions, List.mem_filter, List.mem_range, ← length_keyed, keys]
  constructor
  · rintro ⟨hi, hk⟩
    refine ⟨hi, ?_⟩
    rw [List.getElem?_map, List.getElem?_eq_getElem hi] at hk
    simpa using hk
  · rintro ⟨hi, hk⟩
    refine ⟨hi, ?_⟩
    rw [List.getElem?_map, List.getElem?_eq_getElem hi]
    simpa using hk

theorem pairwise_positions (r : Row α) (low high : Int) :
    (r.positions low high).Pairwise (· < ·) :=
  List.Pairwise.filter _ List.pairwise_lt_range

/-- The pattern of the sections of a row. -/
def pattern (row : Row (Section Node)) : Pattern := .ofLists (row.toList.map Section.held)

variable {row : Row (Section Node)} {v : Vertex} {vs : List Vertex} {i : Nat}

theorem pattern_iff {i : Nat} :
    row.pattern i v ↔ ∃ s, row.toList[i]? = some s ∧ v ∈ s.held := by
  simp only [pattern, Pattern.ofLists, List.getElem?_map, Option.map_eq_some_iff]
  constructor
  · rintro ⟨held, ⟨s, hs, rfl⟩, hv⟩
    exact ⟨s, hs, hv⟩
  · rintro ⟨s, hs, hv⟩
    exact ⟨s.held, ⟨s, hs, rfl⟩, hv⟩

theorem pattern_iff_keyed (hi : i < row.keyed.length) :
    row.pattern i v ↔ (row.keyed[i]).2.held.contains v = true := by
  rw [pattern_iff, getElem_toList row hi]
  simp

/-- The keys between which the sections of a vertex stand. -/
theorem exists_spanOf? (ha : row.Ascending) (hl : row.pattern.Lined row.size) (hv : ∃ i, row.pattern i v) :
    ∃ low high, row.spanOf? v = some (low, high) ∧
      ∀ i, ∀ hi : i < row.keyed.length,
        (low ≤ (row.keyed[i]).1 ∧ (row.keyed[i]).1 ≤ high) ↔ row.pattern i v := by
  obtain ⟨j, hj⟩ := hv
  obtain ⟨s, e, hse, hem, hs⟩ := hl j v hj
  obtain ⟨t, ht, hvt⟩ := pattern_iff.1 hj
  have hmem : t ∈ row.toList := List.mem_of_getElem? ht
  -- the two keys are those of the ends of the run
  obtain ⟨a, b, hal, hbl, hspan, hta, htb, hall⟩ :=
    ha.exists_span? (fun s => s.held.contains v) ⟨t, hmem, by simpa using hvt⟩
  refine ⟨_, _, hspan, fun i hi => ?_⟩
  rw [ha.le_iff hal hi, ha.le_iff hi hbl]
  have hpa := (pattern_iff_keyed hal).2 hta
  have hpb := (pattern_iff_keyed hbl).2 htb
  rw [hs] at hpa hpb
  constructor
  · rintro ⟨hai, hib⟩
    exact hs.held (by omega) (by omega)
  · intro hp
    exact hall i hi ((pattern_iff_keyed hi).1 hp)

/-- The overlap of spans: a key lies between its ends exactly when it lies within each span. -/
theorem foldl_meet {spans : List (Int × Int)} {first : Int × Int} {k : Int} :
    (((spans.foldl (fun a b => (max a.1 b.1, min a.2 b.2)) first).1 ≤ k ∧
      k ≤ (spans.foldl (fun a b => (max a.1 b.1, min a.2 b.2)) first).2) ↔
        ∀ s ∈ first :: spans, s.1 ≤ k ∧ k ≤ s.2) := by
  induction spans generalizing first with
  | nil => simp
  | cons s rest ih =>
      rw [List.foldl_cons, ih]
      simp only [List.forall_mem_cons]
      constructor
      · rintro ⟨⟨h1, h2⟩, h3⟩
        exact ⟨⟨by omega, by omega⟩, ⟨by omega, by omega⟩, h3⟩
      · rintro ⟨⟨h1, h2⟩, ⟨h3, h4⟩, h5⟩
        exact ⟨⟨by omega, by omega⟩, h5⟩

/-- The shared positions are those of the sections that hold all the given vertices. -/
theorem mem_sharedPositions (ha : row.Ascending) (hl : row.pattern.Lined row.size)
    (hvs : ∀ v ∈ vs, ∃ i, row.pattern i v) (hne : vs ≠ []) :
    i ∈ row.sharedPositions vs ↔ i < row.size ∧ ∀ v ∈ vs, row.pattern i v := by
  obtain ⟨first, rest, rfl⟩ := List.exists_cons_of_ne_nil hne
  -- a key lies in all spans if its section holds all vertices
  have hspans : ∃ spans : List (Int × Int), (first :: rest).filterMap row.spanOf? = spans ∧
      ∀ i, ∀ hi : i < row.keyed.length,
        (∀ s ∈ spans, s.1 ≤ (row.keyed[i]).1 ∧ (row.keyed[i]).1 ≤ s.2) ↔
          ∀ v ∈ first :: rest, row.pattern i v := by
    refine ⟨_, rfl, fun i hi => ?_⟩
    constructor
    · intro h v hv
      obtain ⟨low, high, hspan, hiff⟩ := exists_spanOf? ha hl (hvs v hv)
      exact (hiff i hi).1 (h _ (List.mem_filterMap.2 ⟨v, hv, hspan⟩))
    · intro h s hs
      obtain ⟨v, hv, hspan'⟩ := List.mem_filterMap.1 hs
      obtain ⟨low, high, hspan, hiff⟩ := exists_spanOf? ha hl (hvs v hv)
      rw [hspan, Option.some.injEq] at hspan'
      subst hspan'
      exact (hiff i hi).2 (h v hv)
  obtain ⟨spans, hmap, hiff⟩ := hspans
  obtain ⟨low, high, hspan, -⟩ := exists_spanOf? ha hl (hvs first List.mem_cons_self)
  obtain ⟨f, spans', rfl⟩ : ∃ f spans', spans = f :: spans' := by
    rw [List.filterMap_cons, hspan] at hmap
    exact ⟨_, _, hmap.symm⟩
  have hshared : row.sharedSpan? (first :: rest) =
      some (spans'.foldl (fun a b => (max a.1 b.1, min a.2 b.2)) f) := by
    simp only [sharedSpan?, hmap]
  simp only [sharedPositions, hshared, mem_positions]
  constructor
  · rintro ⟨hi, hk⟩
    exact ⟨by simpa using hi, (hiff i hi).1 (foldl_meet.1 hk)⟩
  · rintro ⟨hi, hall⟩
    have hi' : i < row.keyed.length := by simpa using hi
    exact ⟨hi', foldl_meet.2 ((hiff i hi').2 hall)⟩

theorem pairwise_sharedPositions (row : Row (Section Node)) (vs : List Vertex) :
    (row.sharedPositions vs).Pairwise (· < ·) := by
  unfold sharedPositions
  split
  · exact List.Pairwise.nil
  · exact pairwise_positions row _ _

end Row
end CliquePath
