import CliquePath.Proofs.Row.Awaiting

set_option autoImplicit false

/-!
# Splicing rows

This module follows an open row that is put into the place of one position of a rigid row. What that
position held is carried on by the positions put in. The result is overlapped throughout when the
open row closes inside the other one, and open again when it replaces the last position.
-/

namespace CliquePath

namespace Pattern

variable {H S : Pattern} {m j k s e : Nat} {A : Vertex → Prop} {v : Vertex}

/-! ## A row put into the place of one position -/

/-- Position `j` of the outer row `S` is replaced by the positions of `H` up to `k`; what it held is
carried on by them. -/
def spliced (S : Pattern) (j : Nat) (H : Pattern) (k : Nat) (A : Vertex → Prop) : Pattern :=
  fun i v =>
    if i < j then S i v else if i ≤ j + k then H.carried k (S j) A (i - j) v else S (i - k) v

theorem Spans.spliced_inner {a b : Nat} (h : H.Spans v a b) (hb : b ≤ k)
    (hno : ∀ i, ¬ S i v) : (S.spliced j H k A).Spans v (j + a) (j + b) := by
  intro i
  unfold spliced Pattern.carried
  simp only [hno, false_and, or_false]
  split
  · simp only [false_iff]
    omega
  · split
    · rw [h]
      omega
    · simp only [false_iff]
      omega

theorem Spans.spliced_left (h : S.Spans v s e) (hno : ∀ i, ¬ H i v) (he : e < j) :
    (S.spliced j H k A).Spans v s e := by
  intro i
  have hj : ¬ S j v := h.not_held (Or.inr he)
  unfold spliced Pattern.carried
  simp only [hno, hj, false_and, or_false]
  split
  · exact h i
  · split
    · simp only [false_iff]
      omega
    · rw [h]
      omega

theorem Spans.spliced_right (h : S.Spans v s e) (hno : ∀ i, ¬ H i v) (hs : j < s) :
    (S.spliced j H k A).Spans v (s + k) (e + k) := by
  intro i
  have hj : ¬ S j v := h.not_held (Or.inl hs)
  unfold spliced Pattern.carried
  simp only [hno, hj, false_and, or_false]
  split
  · rw [h]
    omega
  · split
    · simp only [false_iff]
      omega
    · rw [h]
      omega

theorem Spans.spliced_through (h : S.Spans v s e) (hno : ∀ i, ¬ H i v) (hs : s ≤ j) (he : j ≤ e)
    (ha : A v) : (S.spliced j H k A).Spans v s (e + k) := by
  intro i
  have hj : S j v := h.held hs he
  unfold spliced Pattern.carried
  simp only [hno, hj, ha, false_or, true_and, and_true]
  split
  · rw [h]
    omega
  · split
    · omega
    · rw [h]
      omega

theorem Spans.spliced_stop (h : S.Spans v s j) (hno : ∀ i, ¬ H i v) (hs : s ≤ j) (hk : 0 < k)
    (ha : ¬ A v) : (S.spliced j H k A).Spans v s (j + k - 1) := by
  intro i
  have hj : S j v := h.held hs (Nat.le_refl j)
  unfold spliced Pattern.carried
  simp only [hno, hj, ha, false_or, true_and, and_false, or_false]
  split
  · rw [h]
    omega
  · split
    · omega
    · rw [h]
      omega

/-- A row that awaits its last position fits into position `j`: the rows share no vertex, and only
vertices of `A` are held by the next position as well. -/
structure Fits (S : Pattern) (j : Nat) (H : Pattern) (A : Vertex → Prop) : Prop where
  apart : ∀ i i' v, H i v → ¬ S i' v
  part : ∀ v, S j v → S (j + 1) v → A v

theorem Fits.spans_spliced (h : S.Fits j H A) (hk : 0 < k) (hs : S.Spans v s e) (hse : s < e) :
    e < j ∧ (S.spliced j H k A).Spans v s e ∨
      j < s ∧ (S.spliced j H k A).Spans v (s + k) (e + k) ∨
      s ≤ j ∧ j ≤ e ∧ A v ∧ (S.spliced j H k A).Spans v s (e + k) ∨
      s ≤ j ∧ e = j ∧ ¬ A v ∧ (S.spliced j H k A).Spans v s (j + k - 1) := by
  -- a vertex of the outer row is in no inner list
  have hno : ∀ i, ¬ H i v := fun i hi => h.apart i s v hi (hs.held (Nat.le_refl s) (by omega))
  by_cases hej : e < j
  · exact Or.inl ⟨hej, hs.spliced_left hno hej⟩
  right
  by_cases hjs : j < s
  · exact Or.inl ⟨hjs, hs.spliced_right hno hjs⟩
  right
  by_cases ha : A v
  · exact Or.inl ⟨by omega, by omega, ha, hs.spliced_through hno (by omega) (by omega) ha⟩
  · -- a span that goes on behind the position is one of the vertices that link
    have he : e = j := by
      by_contra hne
      exact ha (h.part v (hs.held (by omega) (by omega)) (hs.held (by omega) (by omega)))
    subst he
    exact Or.inr ⟨by omega, rfl, ha, hs.spliced_stop hno (by omega) hk ha⟩

theorem Lined.spliced (hS : S.Lined m) (hH : H.Lined (k + 1)) (h : S.Fits j H A) (hk : 0 < k)
    (hj : j < m) : (S.spliced j H k A).Lined (m + k) := by
  intro i v hi
  have hold : (∃ i', S i' v) ∨ ∃ i', H i' v := by
    unfold Pattern.spliced Pattern.carried at hi
    split at hi
    · exact Or.inl ⟨_, hi⟩
    · split at hi
      · rcases hi with hi | hi
        · exact Or.inr ⟨_, hi⟩
        · exact Or.inl ⟨_, hi.1⟩
      · exact Or.inl ⟨_, hi⟩
  rcases hold with ⟨i', hi'⟩ | ⟨i', hi'⟩
  · obtain ⟨s, e, hse, hem, hs⟩ := hS i' v hi'
    rcases h.spans_spliced hk hs hse with h1 | h1 | h1 | h1
    · exact ⟨s, e, hse, by omega, h1.2⟩
    · exact ⟨s + k, e + k, by omega, by omega, h1.2⟩
    · exact ⟨s, e + k, by omega, by omega, h1.2.2.2⟩
    · exact ⟨s, j + k - 1, by omega, by omega, h1.2.2.2⟩
  · obtain ⟨a, b, hab, hbk, hs⟩ := hH i' v hi'
    exact ⟨j + a, j + b, by omega, by omega,
      hs.spliced_inner (by omega) (h.apart i' · v hi')⟩

/-- Blocks that end in front of the awaited position are overlapped after the splice. -/
theorem Rigid.dense_spliced (hS : S.Rigid m) (hH : H.Open k) (h : S.Fits j H A) (hj : j < m)
    {p q : Nat} (hpq : p < q) (hq : q < j + k) : (S.spliced j H k A).Overlapped p q := by
  have hk := hH.pos
  by_cases hp : j ≤ p
  · -- The block lies within the inner row.
    obtain ⟨v, a, b, hs, ho⟩ := hH.dense (p - j) (q - j) (by omega) (by omega)
    obtain ⟨a', b', hab, hbk, hs'⟩ := hH.lined a v (hs.held (Nat.le_refl a) (by omega))
    have hb := hs.held (i := b) (by omega) (Nat.le_refl b)
    rw [hs'] at hb
    refine ⟨v, j + a, j + b, hs.spliced_inner (by omega) (h.apart a · v ?_), by omega⟩
    exact hs.held (Nat.le_refl a) (by omega)
  -- Some vertex passes from the position that was replaced to its left neighbour.
  have turn : ∃ v s e, S.Spans v s e ∧ s ≤ j ∧ j ≤ e ∧ s < e := by
    obtain ⟨v, s, e, hs, hsj, hje⟩ := hS.crossed (i := j - 1) (by omega)
    exact ⟨v, s, e, hs, by omega, by omega, by omega⟩
  by_cases hqj : q < j
  · obtain ⟨v, s, e, hs, ho⟩ := hS.prime p q hpq (by omega) (by omega)
    rcases h.spans_spliced hk hs (by omega) with h1 | h1 | h1 | h1
    · exact ⟨v, s, e, h1.2, by omega⟩
    · omega
    · exact ⟨v, s, e + k, h1.2.2.2, by omega⟩
    · exact ⟨v, s, j + k - 1, h1.2.2.2, by omega⟩
  by_cases hw : 0 < p ∨ j + 1 < m
  · obtain ⟨v, s, e, hs, ho⟩ := hS.prime p j (by omega) (by omega) hw
    rcases h.spans_spliced hk hs (by omega) with h1 | h1 | h1 | h1
    · exact ⟨v, s, e, h1.2, by omega⟩
    · omega
    · exact ⟨v, s, e + k, h1.2.2.2, by omega⟩
    · omega
  by_cases hqk : q + 1 = j + k
  · obtain ⟨v, s, hsk, hs⟩ := hH.spans_tail
    refine ⟨v, j + s, j + k, hs.spliced_inner (by omega) (h.apart s · v ?_), by omega⟩
    exact hs.held (Nat.le_refl s) (by omega)
  · obtain ⟨v, s, e, hs, hsj, hje, hse⟩ := turn
    have hm : ¬ (s = 0 ∧ e = m - 1) := by
      rintro ⟨rfl, rfl⟩
      exact hS.short v hs
    obtain ⟨s', e', hse', hem, hs'⟩ := hS.lined s v (hs.held (Nat.le_refl s) (by omega))
    have he := hs.held (i := e) (by omega) (Nat.le_refl e)
    rw [hs'] at he
    rcases h.spans_spliced hk hs hse with h1 | h1 | h1 | h1
    · omega
    · omega
    · exact ⟨v, s, e + k, h1.2.2.2, by omega⟩
    · exact ⟨v, s, j + k - 1, h1.2.2.2, by omega⟩


/-- A row closed within another row leaves that row overlapped throughout, if a vertex outside `A`
is held by the position that was replaced. -/
theorem Rigid.prime_spliced {x : Vertex} (hS : S.Rigid m) (hH : H.Open k) (h : S.Fits j H A)
    (hj : j < m) (hx : S j x) (hxa : ¬ A x) : (S.spliced j H k A).Prime (m + k) := by
  intro p q hpq hqm hw
  have hk := hH.pos
  by_cases hq : q < j + k
  · exact hS.dense_spliced hH h hj hpq hq
  have hxs : ∃ s, s < j ∧ (S.spliced j H k A).Spans x s (j + k - 1) := by
    obtain ⟨s, e, hse, hem, hs⟩ := hS.lined j x hx
    have hx' := hx
    rw [hs] at hx'
    rcases h.spans_spliced hk hs hse with h1 | h1 | h1 | h1
    · omega
    · omega
    · exact absurd h1.2.2.1 hxa
    · exact ⟨s, by omega, h1.2.2.2⟩
  obtain ⟨t, htj, hx⟩ := hxs
  by_cases hp1 : j ≤ p ∧ p < j + k ∧ (j < p ∨ q = j + k)
  · -- The block starts within the inner row: `x` overlaps it.
    exact ⟨x, t, j + k - 1, hx, by omega⟩
  by_cases hp2 : p = j + k
  · obtain ⟨v, s, hsk, hs⟩ := hH.spans_tail
    refine ⟨v, j + s, j + k, hs.spliced_inner (by omega) (h.apart s · v ?_), by omega⟩
    exact hs.held (Nat.le_refl s) (by omega)
  -- Any other block comes from one of the outer row.
  have hold : ∃ p', (p' = if p ≤ j then p else p - k) ∧ S.Overlapped p' (q - k) := by
    refine ⟨_, rfl, hS.prime _ _ ?_ (by omega) ?_⟩
    · split <;> omega
    · split <;> omega
  obtain ⟨p', hp', v, s, e, hs, ho⟩ := hold
  split at hp'
  · rcases h.spans_spliced hk hs (by omega) with h1 | h1 | h1 | h1
    · exact ⟨v, s, e, h1.2, by omega⟩
    · exact ⟨v, s + k, e + k, h1.2, by omega⟩
    · exact ⟨v, s, e + k, h1.2.2.2, by omega⟩
    · exact ⟨v, s, j + k - 1, h1.2.2.2, by omega⟩
  · rcases h.spans_spliced hk hs (by omega) with h1 | h1 | h1 | h1
    · omega
    · exact ⟨v, s + k, e + k, h1.2, by omega⟩
    · exact ⟨v, s, e + k, h1.2.2.2, by omega⟩
    · omega

/-- The last position of a rigid row is replaced by a row that awaits its last position. -/
theorem Rigid.open_spliced (hS : S.Rigid m) (hH : H.Open k) (h : S.Fits (m - 1) H A) :
    (S.spliced (m - 1) H k A).Open (m - 1 + k) where
  pos := by
    have := hH.pos
    omega
  lined := by
    have := hS.three
    have hl := hS.lined.spliced hH.lined h hH.pos (by omega)
    rwa [show m - 1 + k + 1 = m + k by omega]
  tail := by
    obtain ⟨v, s, hsk, hs⟩ := hH.spans_tail
    have hn : (S.spliced (m - 1) H k A).Spans v (m - 1 + s) (m - 1 + k) :=
      hs.spliced_inner (by omega)
        (h.apart s · v (hs.held (Nat.le_refl s) (by omega)))
    exact ⟨v, hn.held (by omega) (Nat.le_refl _)⟩
  dense p q hpq hq := by
    have := hS.three
    exact hS.dense_spliced hH h (by omega) hpq hq

theorem Rigid.linked_spliced (hS : S.Rigid m) (hH : H.Open k) (h : S.Fits (m - 1) H A) :
    (S.spliced (m - 1) H k A).Linked (m - 1 + k) := by
  intro i hi
  have hk := hH.pos
  have h3 := hS.three
  by_cases hlast : i + 1 = m - 1 + k
  · obtain ⟨v, s, hsk, hs⟩ := hH.spans_tail
    have hn : (S.spliced (m - 1) H k A).Spans v (m - 1 + s) (m - 1 + k) :=
      hs.spliced_inner (by omega)
        (h.apart s · v (hs.held (Nat.le_refl s) (by omega)))
    exact ⟨v, hn.held (by omega) (by omega), hn.held (by omega) (by omega)⟩
  · obtain ⟨v, s, e, hs, hsi, hie⟩ := hS.crossed (i := min i (m - 2)) (by omega)
    obtain ⟨s', e', hse', hem, hs'⟩ := hS.lined s v (hs.held (Nat.le_refl s) (by omega))
    have he := hs.held (i := e) (by omega) (Nat.le_refl e)
    rw [hs'] at he
    rcases h.spans_spliced hk hs (by omega) with h1 | h1 | h1 | h1
    · exact ⟨v, h1.2.held (by omega) (by omega), h1.2.held (by omega) (by omega)⟩
    · omega
    · exact ⟨v, h1.2.2.2.held (by omega) (by omega), h1.2.2.2.held (by omega) (by omega)⟩
    · exact ⟨v, h1.2.2.2.held (by omega) (by omega), h1.2.2.2.held (by omega) (by omega)⟩

end Pattern

end CliquePath
