import CliquePath.Proofs.CliqueTree.Opening

set_option autoImplicit false

/-!
# A new section in the row of a Q-node

This module shows what becomes of a Q-node that holds all neighbours of the new vertex in its row.
If a section holds exactly these neighbours, the new vertex is put below it. Otherwise a new section
is put into a gap: one of its neighbours holds all the neighbours of the vertex, and nothing else
crosses the gap.
-/

namespace CliquePath

open Node

namespace Row

variable {row : Row (Section Node)} {nbrs A : List Vertex} {u v : Vertex} {g i : Nat}

theorem pattern_insertAt (hg : g ≤ row.size) (s : Section Node) :
    (row.insertAt g s).pattern = row.pattern.inserted g fun v => v ∈ s.held := by
  have h := Pattern.ofLists_insert ((row.toList.take g).map Section.held)
    ((row.toList.drop g).map Section.held) s.held
  rw [List.length_map, List.length_take, Row.length_toList, Nat.min_eq_left hg, ← List.map_append,
    List.take_append_drop] at h
  rw [pattern, toList_insertAt, List.map_append, List.map_cons, h]
  rfl

theorem size_insertAt (r : Row (Section Node)) (g : Nat) (s : Section Node) :
    (r.insertAt g s).size = r.size + 1 := by
  have h := congrArg List.length (List.take_append_drop g r.toList)
  simp only [List.length_append, Row.length_toList] at h
  rw [← Row.length_toList, toList_insertAt, List.length_append, List.length_cons]
  omega

/-- A fresh section put into a gap that admits it leaves the row overlapped throughout. -/
theorem Standing.closed_insertAt (h : row.Standing) (hg : g ≤ row.size) (hne : ∃ v, v ∈ A)
    (hnodup : A.Nodup) (hadmits : row.pattern.Admits g fun v => v ∈ A)
    (hfresh : row.pattern.Fresh row.size g fun v => v ∈ A) (hu : u ∉ (qnode row).vertices) :
    (row.insertAt g ⟨A, .leaf [u]⟩).Closed := by
  have hu' := not_mem_vertices_qnode.1 hu
  -- The vertices of the new section are held on one side of the gap already.
  have hA : ∀ v ∈ A, ∃ t ∈ row.toList, v ∈ t.held := by
    intro v hv
    apply exists_pattern_iff.1
    rcases hadmits.touch hv with hp | hp
    · exact ⟨_, hp.2⟩
    · exact ⟨_, hp⟩
  have hlen : (row.toList.take g).length = g := by
    rw [List.length_take, Row.length_toList, Nat.min_eq_left hg]
  refine ⟨h.ascending.insertAt _ _, ?_, ?_, ?_, ?_, ?_⟩
  · rw [toList_insertAt]
    refine Apart.insert (by rw [List.take_append_drop]; exact h.apart) hnodup ?_ ?_ ?_
    · intro v hv hvu
      rw [vertices_leaf, List.mem_singleton] at hvu
      obtain ⟨t, ht, hvt⟩ := hA v hv
      exact (hu' t ht).1 (hvu ▸ hvt)
    · rw [List.take_append_drop]
      intro t ht v hv
      obtain ⟨r, hr, hvr⟩ := hA v hv
      exact h.apart.held r hr t ht v hvr
    · rw [List.take_append_drop]
      intro t ht v hv
      rw [vertices_leaf, List.mem_singleton] at hv
      rw [hv]
      exact hu' t ht
  · have := h.rigid.three
    rw [size_insertAt]
    omega
  · rw [pattern_insertAt hg, size_insertAt]
    exact h.rigid.lined.inserted hadmits
  · rw [pattern_insertAt hg, size_insertAt]
    exact h.rigid.prime.inserted h.rigid.lined h.rigid.short hadmits hfresh hg hne
  · rw [pattern_insertAt hg, size_insertAt, toList_insertAt]
    -- Below the new section is the new vertex; the other sections keep what they have.
    refine h.filled.inserted hadmits h.rigid.lined hfresh hg ?_ ?_ ?_
    · rw [below_append_right (by omega), hlen, Nat.sub_self]
      exact ⟨_, rfl, by simp⟩
    · intro i hi hb
      rw [← List.take_append_drop g row.toList, below_append_left (by omega)] at hb
      rwa [below_append_left (by omega)]
    · intro i hi hb
      rw [← List.take_append_drop g row.toList, below_append_right (by omega)] at hb
      rw [below_append_right (by omega), show i + 1 - (row.toList.take g).length =
        i - (row.toList.take g).length + 1 by omega]
      exact below_cons_succ.2 hb

/-- The new section adds the bag of the new vertex. -/
theorem Standing.extends_insertAt {A : List Vertex} (hproper : ∀ s ∈ row.toList, s.son.Proper)
    {s : Section Node} (hs : s ∈ row.toList) (hA : ∀ v ∈ A, v ∈ s.held) :
    Extends {B | B ∈ (qnode row).bags}
      {B | ∃ t ∈ (row.insertAt g ⟨A, .leaf [u]⟩).toList, B ∈ t.son.bagsUnder t.held}
      {v | v ∈ A} u := by
  refine Extends.of_added ?_ fun B => ?_
  · obtain ⟨C, hC⟩ := List.exists_mem_of_ne_nil _ (hproper s hs).bags_ne_nil
    refine ⟨{v | v ∈ s.held} ∪ C, ?_, fun v hv => Or.inl (hA v hv)⟩
    rw [Set.mem_ofPred_eq, bags_qnode, List.mem_flatMap]
    exact ⟨s, hs, mem_bagsUnder.2 ⟨C, hC, rfl⟩⟩
  · have hold : (∃ t ∈ row.toList, B ∈ t.son.bagsUnder t.held) ↔
        (∃ t ∈ row.toList.take g, B ∈ t.son.bagsUnder t.held) ∨
          ∃ t ∈ row.toList.drop g, B ∈ t.son.bagsUnder t.held := by
      conv_lhs => rw [← List.take_append_drop g row.toList]
      simp only [List.mem_append, or_and_right, exists_or]
    rw [← mem_bagsUnder_new, Set.mem_ofPred_eq, Set.mem_ofPred_eq, bags_qnode, List.mem_flatMap, hold,
      toList_insertAt]
    simp only [List.mem_append, List.mem_cons, or_and_right, exists_or, exists_eq_left]
    exact (or_congr_right or_comm).trans or_assoc.symm

end Row

/-! ## The choice of the gap -/

namespace Node

variable {row : Row (Section Node)} {nbrs A : List Vertex} {u v : Vertex} {low high g i : Nat}

theorem gapFits_iff {sections : List (Section Node)} :
    gapFits nbrs sections i = true ↔
      0 < i ∧ ∃ l r, sections[i - 1]? = some l ∧ sections[i]? = some r ∧
        partsBeyond nbrs l.held r.held = true := by
  unfold gapFits
  split
  next l r hl hr =>
    rw [hl, hr]
    simp
  next hno =>
    constructor
    · intro h
      cases h
    · rintro ⟨-, l, r, hl, hr, -⟩
      exact absurd hr (hno l r hl)

/-- Nothing but neighbours crosses a gap that fits. -/
theorem part_of_gapFits (h : gapFits nbrs row.toList g = true) :
    0 < g ∧ g < row.size ∧ ∀ v, row.pattern (g - 1) v → row.pattern g v → v ∈ nbrs := by
  obtain ⟨hg, l, r, hl, hr, hpart⟩ := gapFits_iff.1 h
  have hlt := (List.getElem?_eq_some_iff.1 hr).1
  rw [Row.length_toList] at hlt
  refine ⟨hg, hlt, fun v hv hv' => ?_⟩
  obtain ⟨l', hl', hvl⟩ := Row.pattern_iff.1 hv
  obtain ⟨r', hr', hvr⟩ := Row.pattern_iff.1 hv'
  rw [hl, Option.some.injEq] at hl'
  rw [hr, Option.some.injEq] at hr'
  subst hl' hr'
  exact partsBeyond_iff.1 hpart v hvl hvr

/-- The gap that is chosen admits a section of the neighbours that the row holds. -/
theorem admits_of_gap? (hlow : low ≤ high)
    (hall : ∀ i, low ≤ i → i ≤ high → ∀ v ∈ A, row.pattern i v)
    (hA : ∀ v ∈ nbrs, (∃ i, row.pattern i v) → v ∈ A)
    (hg : gap? nbrs row.toList low high = some g) :
    g ≤ row.size ∧ row.pattern.Admits g fun v => v ∈ A := by
  unfold gap? at hg
  split at hg
  next h0 =>
    -- The shared sections start at the left end.
    cases hg
    exact ⟨Nat.zero_le _, Or.inr (hall 0 (by omega) (by omega)), fun v h => absurd h (by omega)⟩
  next h0 =>
    split at hg
    next i hfind =>
      cases hg
      obtain ⟨hpos, hlt, hpart⟩ := part_of_gapFits (List.find?_some hfind)
      have hmem := List.mem_of_find?_eq_some hfind
      rw [List.mem_range'_1] at hmem
      refine ⟨by omega, ?_, fun v _ hv hv' => hA v (hpart v hv hv') ⟨_, hv'⟩⟩
      by_cases hi : g = low
      · exact Or.inr (hall g (by omega) (by omega))
      · exact Or.inl ⟨hpos, hall (g - 1) (by omega) (by omega)⟩
    next hfind =>
      split at hg
      next hend =>
        -- They stop at the right end.
        rw [Row.length_toList, Option.some.injEq] at hg
        rw [Row.length_toList] at hend
        subst hg
        refine ⟨Nat.le_refl _, Or.inl ⟨by omega, hall _ (by omega) (by omega)⟩, fun v _ _ hv => ?_⟩
        obtain ⟨t, ht, -⟩ := Row.pattern_iff.1 hv
        have := (List.getElem?_eq_some_iff.1 ht).1
        rw [Row.length_toList] at this
        omega
      next => cases hg

/-- The shared positions of a row are consecutive. -/
theorem shared_bounds (hst : row.Standing) (hne : A ≠ []) (hheld : ∀ v ∈ A, ∃ i, row.pattern i v)
    (hlow : (row.sharedPositions A).head? = some low)
    (hhigh : (row.sharedPositions A).getLast? = some high) :
    low ≤ high ∧ high < row.size ∧
      ∀ i, low ≤ i ∧ i ≤ high ↔ i < row.size ∧ ∀ v ∈ A, row.pattern i v := by
  have hmem : ∀ i, i ∈ row.sharedPositions A ↔ i < row.size ∧ ∀ v ∈ A, row.pattern i v :=
    fun i => Row.mem_sharedPositions hst.ascending hst.rigid.lined hheld hne
  have hsorted := row.pairwise_sharedPositions A
  have hl := (hmem low).1 (List.mem_of_head? hlow)
  have hh := (hmem high).1 (List.mem_of_getLast? hhigh)
  have hmin : ∀ i ∈ row.sharedPositions A, low ≤ i := by
    intro i hi
    obtain ⟨rest, hrest⟩ := List.head?_eq_some_iff.1 hlow
    rw [hrest] at hi hsorted
    rcases List.mem_cons.1 hi with rfl | hi
    · exact Nat.le_refl _
    · exact Nat.le_of_lt ((List.pairwise_cons.1 hsorted).1 i hi)
  have hmax : ∀ i ∈ row.sharedPositions A, i ≤ high := by
    intro i hi
    obtain ⟨ini, hini⟩ := List.getLast?_eq_some_iff.1 hhigh
    rw [hini] at hi hsorted
    rcases List.mem_append.1 hi with hi | hi
    · exact Nat.le_of_lt ((List.pairwise_append.1 hsorted).2.2 i hi high
        (List.mem_singleton_self high))
    · rw [List.mem_singleton.1 hi]
  refine ⟨hmin high (List.mem_of_getLast? hhigh), hh.1, fun i => ?_⟩
  constructor
  · rintro ⟨hli, hih⟩
    refine ⟨by omega, fun v hv => ?_⟩
    -- A vertex held at both ends is held in between, since its sections are consecutive.
    obtain ⟨s, e, hse, hem, hs⟩ := hst.rigid.lined low v (hl.2 v hv)
    have h1 := hs.start_le (hl.2 v hv)
    have h2 := hs.le_stop (hh.2 v hv)
    exact hs.held (by omega) (by omega)
  · intro hi
    have := (hmem i).2 hi
    exact ⟨hmin i this, hmax i this⟩

/-- A section whose vertices are exactly the given ones has as many. -/
theorem length_eq_of_mem_iff {as bs : List Vertex} (ha : as.Nodup) (hb : bs.Nodup)
    (h : ∀ v, v ∈ as ↔ v ∈ bs) : as.length = bs.length :=
  ((List.perm_ext_iff_of_nodup ha hb).2 h).length_eq

theorem mem_iff_of_length_eq {as bs : List Vertex} (hb : bs.Nodup)
    (hsub : ∀ v ∈ bs, v ∈ as) (hlen : as.length = bs.length) : ∀ v, v ∈ as ↔ v ∈ bs := by
  have hperm := (List.subperm_of_subset hb hsub).perm_of_length_le (by omega)
  exact fun v => hperm.mem_iff.symm

/-- A Q-node with all neighbours in its row: the new vertex goes below the section that holds just
these, or into a fresh section at a gap that admits it. -/
theorem growRow?_cases {grown : Grown} (hst : row.Standing) (hnodup : nbrs.Nodup)
    (hne : ∃ v, v ∈ row.owned nbrs) (hg : growRow? u nbrs row = some grown) :
    (∃ i s, row.toList[i]? = some s ∧ (∀ v, v ∈ s.held ↔ v ∈ row.owned nbrs) ∧
        grown = .underSection row i s (.plain (s.son.beside u))) ∨
      ∃ i, i ≤ row.size ∧ (row.pattern.Admits i fun v => v ∈ row.owned nbrs) ∧
        (row.pattern.Fresh row.size i fun v => v ∈ row.owned nbrs) ∧
        grown = .ofRow (row.insertAt i ⟨row.owned nbrs, .leaf [u]⟩) := by
  have hheld : ∀ v ∈ row.owned nbrs, ∃ i, row.pattern i v := fun v hv =>
    Row.exists_pattern_iff.2 (Row.mem_owned.1 hv).2
  have hne' : row.owned nbrs ≠ [] := by
    obtain ⟨v, hv⟩ := hne
    exact List.ne_nil_of_mem hv
  have hmem : ∀ i, i ∈ row.sharedPositions (row.owned nbrs) ↔
      i < row.size ∧ ∀ v ∈ row.owned nbrs, row.pattern i v :=
    fun i => Row.mem_sharedPositions hst.ascending hst.rigid.lined hheld hne'
  unfold growRow? at hg
  dsimp only at hg
  split at hg
  next i s hfound =>
    left
    obtain ⟨j, hj, hjs⟩ := List.exists_of_findSome?_eq_some hfound
    obtain ⟨t, ht, hsome⟩ := Option.bind_eq_some_iff.1 hjs
    split at hsome
    next hlen =>
      cases hsome
      refine ⟨i, s, ht, mem_iff_of_length_eq (row.nodup_owned hnodup) (fun v hv => ?_) hlen,
        (Option.some.inj hg).symm⟩
      obtain ⟨r, hr, hvr⟩ := Row.pattern_iff.1 (((hmem i).1 hj).2 v hv)
      rw [ht, Option.some.injEq] at hr
      rwa [hr]
    next => cases hsome
  next hnone =>
    right
    split at hg
    next low high hlow hhigh =>
      obtain ⟨i, hi, rfl⟩ := Option.map_eq_some_iff.1 hg
      obtain ⟨hlh, -, hbounds⟩ := shared_bounds hst hne' hheld hlow hhigh
      obtain ⟨him, hadmits⟩ := admits_of_gap? hlh (fun i h1 h2 => ((hbounds i).1 ⟨h1, h2⟩).2)
        (fun v hn hp => Row.mem_owned.2 ⟨hn, Row.exists_pattern_iff.1 hp⟩) hi
      -- A section next to the gap with just the neighbours would have been found.
      have hfresh : ∀ j < row.size, ∃ v, ¬ (row.pattern j v ↔ v ∈ row.owned nbrs) := by
        intro j hj
        by_contra hno
        push Not at hno
        have hjs := (hmem j).2 ⟨hj, fun v hv => (hno v).2 hv⟩
        have hlt : j < row.toList.length := by rwa [Row.length_toList]
        have hsome := List.findSome?_eq_none_iff.1 hnone j hjs
        rw [List.getElem?_eq_getElem hlt, Option.bind_some] at hsome
        have hlen := length_eq_of_mem_iff
          (hst.apart.nodup row.toList[j] (List.getElem_mem hlt)) (row.nodup_owned hnodup)
          (fun v => by
            rw [← hno v, Row.pattern_iff, List.getElem?_eq_getElem hlt]
            simp)
        rw [if_pos hlen] at hsome
        cases hsome
      exact ⟨i, him, hadmits, ⟨fun hpos => hfresh _ (by omega), fun hlt => hfresh _ hlt⟩, rfl⟩
    next => cases hg

end Node

end CliquePath
