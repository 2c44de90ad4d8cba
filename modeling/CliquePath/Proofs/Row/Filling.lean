import CliquePath.Proofs.Row.Splice

set_option autoImplicit false

/-!
# Positions with something of their own

This module follows two further properties of the rows of a clique tree. Vertices that all positions
hold can be taken out of a row. And every position has something of its own: a node below it, or a
vertex whose block stops there and one whose block starts there, so that no two positions give
comparable cliques.
-/

namespace CliquePath

namespace Pattern

variable {H S : Pattern} {m g j k s e : Nat} {A B : Vertex → Prop} {v : Vertex}

/-! ## Taking out what the whole row holds -/

/-- The row without the vertices that all its positions hold. -/
def lifted (H : Pattern) (m : Nat) : Pattern := fun i v => H i v ∧ ¬ H.Spans v 0 (m - 1)

theorem Spans.lifted (h : H.Spans v s e) (hne : s ≠ 0 ∨ e ≠ m - 1) (hse : s ≤ e) :
    (H.lifted m).Spans v s e := by
  have hno : ¬ H.Spans v 0 (m - 1) := by
    intro hw
    have h1 := hw.held (i := 0) (by omega) (by omega)
    have h2 := hw.held (i := m - 1) (by omega) (by omega)
    have h3 := (hw e).1 (h.held hse (Nat.le_refl e))
    rw [h] at h1 h2
    omega
  intro i
  rw [← h i]
  simp [Pattern.lifted, hno]

theorem rigid_lifted (h3 : 3 ≤ m) (hl : H.Lined m) (hp : H.Prime m) : (H.lifted m).Rigid m where
  three := h3
  lined i v hv := by
    obtain ⟨s, e, hse, hem, hs⟩ := hl i v hv.1
    refine ⟨s, e, hse, hem, hs.lifted ?_ (by omega)⟩
    by_contra hne
    push Not at hne
    obtain ⟨rfl, rfl⟩ := hne
    exact hv.2 hs
  short v hv := by
    -- a span over all positions would have been lifted
    have h0 := hv.held (Nat.le_refl 0) (Nat.zero_le _)
    obtain ⟨s, e, hse, hem, hs⟩ := hl 0 v h0.1
    have h1 := h0.1
    have h2 := (hv.held (i := m - 1) (Nat.zero_le _) (Nat.le_refl _)).1
    rw [hs] at h1 h2
    refine h0.2 ?_
    rwa [show m - 1 = e by omega, show 0 = s by omega]
  prime p q hpq hqm hw := by
    obtain ⟨v, s, e, hs, ho⟩ := hp p q hpq hqm hw
    exact ⟨v, s, e, hs.lifted (by omega) (by omega), ho⟩

/-! ## Something of its own at every position -/

/-- A position with nothing below it holds a vertex whose span stops there and one whose span starts
there. -/
def Filled (H : Pattern) (full : Nat → Prop) (m : Nat) : Prop :=
  ∀ i < m, full i ∨
    (∃ v s, s < i ∧ H.Spans v s i) ∧ ∃ v e, i < e ∧ H.Spans v i e

/-- As `Filled`, for a row that awaits its last position: in front of that position no span needs to
stop. -/
def HalfFilled (H : Pattern) (full : Nat → Prop) (k : Nat) : Prop :=
  ∀ i < k, full i ∨
    (i + 1 < k → ∃ v s, s < i ∧ H.Spans v s i) ∧ ∃ v e, i < e ∧ H.Spans v i e

variable {full full' : Nat → Prop}

theorem Filled.imp (h : H.Filled full m) (hfull : ∀ i < m, full i → full' i) :
    H.Filled full' m := by
  intro i hi
  exact (h i hi).imp_left (hfull i hi)

theorem Filled.full_zero (h : H.Filled full m) (hm : 0 < m) : full 0 := by
  rcases h 0 hm with h | ⟨⟨v, s, hs, -⟩, -⟩
  · exact h
  · omega

theorem Filled.full_last (h : H.Filled full m) (hl : H.Lined m) (hm : 0 < m) :
    full (m - 1) := by
  rcases h (m - 1) (by omega) with h | ⟨-, v, e, he, hs⟩
  · exact h
  · obtain ⟨s', e', hse, hem, hs'⟩ := hl _ v (hs.held (Nat.le_refl _) (by omega))
    have := hs.held (i := e) (by omega) (Nat.le_refl e)
    rw [hs'] at this
    omega

/-- In front of the gap, a span that stops there and is not drawn over the gap. -/
theorem Admits.stop_left (h : H.Admits g A) (hl : H.Lined m) (hfresh : H.Fresh m g A) {s : Nat}
    (hg : 0 < g) (hv : H.Spans v s (g - 1)) (hs : s < g - 1) :
    ∃ w t, t < g - 1 ∧ ¬ A w ∧ H.Spans w t (g - 1) := by
  by_cases ha : A v
  · rcases h.shared with ⟨-, hall⟩ | hall
    · -- All of `A` is held in front of the gap, so a fresh vertex there is not in `A`.
      obtain ⟨w, hw⟩ := hfresh.left hg
      have haw : ¬ A w := fun haw => hw ⟨fun _ => haw, fun _ => hall w haw⟩
      have hh : H (g - 1) w := by
        by_contra hh
        exact hw ⟨fun hx => absurd hx hh, fun hx => absurd hx haw⟩
      obtain ⟨t, e, hte, hem, hs'⟩ := hl _ w hh
      rw [hs'] at hh
      have he : e = g - 1 := by
        by_contra hne
        exact haw (h.part w hg (hs'.held (by omega) (by omega)) (hs'.held (by omega) (by omega)))
      subst he
      exact ⟨w, t, hte, haw, hs'⟩
    · exact absurd (hall v ha) (hv.not_held (by omega))
  · exact ⟨v, s, hs, ha, hv⟩

/-- Behind the gap, a span that starts there and is not drawn over the gap. -/
theorem Admits.start_right (h : H.Admits g A) (hl : H.Lined m) (hfresh : H.Fresh m g A) {e : Nat}
    (hg : g < m) (hv : H.Spans v g e) (he : g < e) :
    ∃ w t, g < t ∧ ¬ A w ∧ H.Spans w g t := by
  -- a span that is drawn over the gap leaves another one, since the sets on both sides differ
  by_cases ha : A v
  · rcases h.shared with ⟨h0, hall⟩ | hall
    · exact absurd (hall v ha) (hv.not_held (by omega))
    · obtain ⟨w, hw⟩ := hfresh.right hg
      have haw : ¬ A w := fun haw => hw ⟨fun _ => haw, fun _ => hall w haw⟩
      have hh : H g w := by
        by_contra hh
        exact hw ⟨fun hx => absurd hx hh, fun hx => absurd hx haw⟩
      obtain ⟨s, t, hst, htm, hs'⟩ := hl _ w hh
      rw [hs'] at hh
      have hs : s = g := by
        by_contra hne
        exact haw (h.part w (by omega) (hs'.held (by omega) (by omega))
          (hs'.held (by omega) (by omega)))
      subst hs
      exact ⟨w, t, hst, haw, hs'⟩
  · exact ⟨v, e, he, ha, hv⟩

theorem Filled.inserted (hf : H.Filled full m) (h : H.Admits g A) (hl : H.Lined m)
    (hfresh : H.Fresh m g A) (hg : g ≤ m) (hnew : full' g) (hlow : ∀ i < g, full i → full' i)
    (hhigh : ∀ i, g ≤ i → full i → full' (i + 1)) :
    (H.inserted g A).Filled full' (m + 1) := by
  intro i hi
  -- before the gap, at the new position, and behind the gap
  rcases Nat.lt_trichotomy i g with hig | rfl | hig
  · rcases Nat.lt_or_ge i m with him | him
    · rcases hf i him with hfull | ⟨⟨v, s, hsi, hs⟩, w, e, hie, he⟩
      · exact Or.inl (hlow i hig hfull)
      · refine Or.inr ⟨?_, ?_⟩
        · -- the position next to the gap may lose the span that stopped there
          by_cases hlast : i = g - 1
          · subst hlast
            obtain ⟨x, t, ht, hxa, hx⟩ := h.stop_left hl hfresh (by omega) hs hsi
            exact ⟨x, t, ht, hx.inserted_left hxa hig⟩
          · rcases h.spans_inserted hs with ⟨-, -, hge, -⟩ | ⟨-, -, hn⟩ | ⟨-, hgs, -⟩
            · omega
            · exact ⟨v, s, hsi, hn⟩
            · omega
        · rcases h.spans_inserted he with ⟨-, -, -, hn⟩ | ⟨-, -, hn⟩ | ⟨-, hgs, -⟩
          · exact ⟨w, e + 1, by omega, hn⟩
          · exact ⟨w, e, hie, hn⟩
          · omega
    · omega
  · exact Or.inl hnew
  · obtain ⟨j, rfl⟩ : ∃ j, i = j + 1 := ⟨i - 1, by omega⟩
    rcases hf j (by omega) with hfull | ⟨⟨v, s, hsi, hs⟩, w, e, hie, he⟩
    · exact Or.inl (hhigh j (by omega) hfull)
    · refine Or.inr ⟨?_, ?_⟩
      · rcases h.spans_inserted hs with ⟨-, -, -, hn⟩ | ⟨-, hjg, -⟩ | ⟨-, -, hn⟩
        · exact ⟨v, s, by omega, hn⟩
        · omega
        · exact ⟨v, s + 1, by omega, hn⟩
      · -- the same for the one that started behind the gap
        by_cases hfirst : j = g
        · subst hfirst
          obtain ⟨x, t, ht, hxa, hx⟩ := h.start_right hl hfresh (by omega) he hie
          exact ⟨x, t + 1, by omega, hx.inserted_right hxa (Nat.le_refl _)⟩
        · rcases h.spans_inserted he with ⟨-, hjg, -, -⟩ | ⟨-, hjg, -⟩ | ⟨-, -, hn⟩
          · omega
          · omega
          · exact ⟨w, e + 1, by omega, hn⟩


theorem HalfFilled.carried (hf : H.HalfFilled full k) (hd : ∀ i v, H i v → ¬ B v)
    (hfull : ∀ i < k, full i → full' i) : (H.carried k B A).HalfFilled full' k := by
  intro i hi
  rcases hf i hi with h | ⟨hstop, v, e, hie, hs⟩
  · exact Or.inl (hfull i hi h)
  · refine Or.inr ⟨fun hik => ?_, v, e, hie, hs.carried (hd i v ?_)⟩
    · obtain ⟨w, s, hsi, hw⟩ := hstop hik
      exact ⟨w, s, hsi, hw.carried (hd i w (hw.held (by omega) (Nat.le_refl i)))⟩
    · exact hs.held (Nat.le_refl i) (by omega)

theorem HalfFilled.widened (hf : H.HalfFilled full k) (h0 : full' 0)
    (hfull : ∀ i < k, full i → full' (i + 1)) : H.widened.HalfFilled full' (k + 1) := by
  intro i hi
  by_cases hi0 : i = 0
  · subst hi0
    exact Or.inl h0
  obtain ⟨j, rfl⟩ : ∃ j, i = j + 1 := ⟨i - 1, by omega⟩
  rcases hf j (by omega) with h | ⟨hstop, v, e, hie, hs⟩
  · exact Or.inl (hfull j (by omega) h)
  · refine Or.inr ⟨fun hik => ?_, v, e + 1, by omega, hs.widened⟩
    obtain ⟨w, s, hsi, hw⟩ := hstop (by omega)
    exact ⟨w, s + 1, by omega, hw.widened⟩

theorem halfFilled_bottom (hA : ∃ v, A v) : (bottom A).HalfFilled full 1 := by
  intro i hi
  obtain rfl : i = 0 := by omega
  obtain ⟨v, hv⟩ := hA
  exact Or.inr ⟨fun h => absurd h (by omega), v, 1, by omega, spans_bottom hv⟩

/-- A vertex that stops in front of the awaited position fills the last position before it. -/
theorem HalfFilled.closed {x : Vertex} (hf : H.HalfFilled full k) (hx : H.Spans x 0 (k - 1))
    (hk : 2 ≤ k) (hlow : ∀ i < k, full i → full' i) (hlast : full' k) :
    H.Filled full' (k + 1) := by
  intro i hi
  by_cases hik : i = k
  · subst hik
    exact Or.inl hlast
  rcases hf i (by omega) with h | ⟨hstop, hstart⟩
  · exact Or.inl (hlow i (by omega) h)
  · refine Or.inr ⟨?_, hstart⟩
    by_cases hend : i + 1 < k
    · exact hstop hend
    · exact ⟨x, 0, by omega, by rwa [show i = k - 1 by omega]⟩

theorem Rigid.halfFilled_inserted (h : H.Rigid m) (hf : H.Filled full m)
    (ha : ∀ v, A v → H (m - 1) v) : (H.inserted m A).HalfFilled full m := by
  have had := h.admits_end ha
  intro i hi
  rcases hf i hi with hfull | ⟨⟨v, s, hsi, hs⟩, w, e, hie, he⟩
  · exact Or.inl hfull
  · refine Or.inr ⟨fun him => ?_, ?_⟩
    · rcases had.spans_inserted hs with ⟨-, -, hge, -⟩ | ⟨-, -, hn⟩ | ⟨-, hgs, -⟩
      · omega
      · exact ⟨v, s, hsi, hn⟩
      · omega
    · rcases had.spans_inserted he with ⟨-, -, -, hn⟩ | ⟨-, -, hn⟩ | ⟨-, hgs, -⟩
      · exact ⟨w, e + 1, by omega, hn⟩
      · exact ⟨w, e, hie, hn⟩
      · omega

/-- What is below the positions after the splice. -/
structure Passes (full inner full' : Nat → Prop) (m j k : Nat) : Prop where
  left : ∀ i < j, full i → full' i
  within : ∀ i < k, inner i → full' (j + i)
  right : ∀ i, j < i → i < m → full i → full' (i + k)

theorem Filled.spliced_left {inner : Nat → Prop} (hf : S.Filled full m) (h : S.Fits j H A)
    (hp : Passes full inner full' m j k) (hk : 0 < k) (hj : j < m) {i : Nat} (hi : i < j) :
    full' i ∨ (∃ v s, s < i ∧ (S.spliced j H k A).Spans v s i) ∧
      ∃ v e, i < e ∧ (S.spliced j H k A).Spans v i e := by
  rcases hf i (by omega) with hfull | ⟨⟨v, s, hsi, hs⟩, w, e, hie, he⟩
  · exact Or.inl (hp.left i hi hfull)
  · refine Or.inr ⟨?_, ?_⟩
    · rcases h.spans_spliced hk hs hsi with h1 | h1 | h1 | h1
      · exact ⟨v, s, hsi, h1.2⟩
      · omega
      · omega
      · omega
    · rcases h.spans_spliced hk he hie with h1 | h1 | h1 | h1
      · exact ⟨w, e, hie, h1.2⟩
      · omega
      · exact ⟨w, e + k, by omega, h1.2.2.2⟩
      · exact ⟨w, j + k - 1, by omega, h1.2.2.2⟩

theorem HalfFilled.spliced_within {inner : Nat → Prop} (hf : H.HalfFilled inner k)
    (hH : H.Lined (k + 1)) (h : S.Fits j H A) (hp : Passes full inner full' m j k) {i : Nat}
    (hi : i < k) :
    full' (j + i) ∨ (i + 1 < k → ∃ v s, s < j + i ∧ (S.spliced j H k A).Spans v s (j + i)) ∧
      ∃ v e, j + i < e ∧ (S.spliced j H k A).Spans v (j + i) e := by
  rcases hf i hi with hfull | ⟨hstop, w, e, hie, he⟩
  · exact Or.inl (hp.within i hi hfull)
  · refine Or.inr ⟨fun hik => ?_, ?_⟩
    · obtain ⟨v, s, hsi, hs⟩ := hstop hik
      exact ⟨v, j + s, by omega, hs.spliced_inner (by omega)
        (h.apart i · v (hs.held (by omega) (Nat.le_refl i)))⟩
    · have hw := he.held (Nat.le_refl i) (by omega)
      obtain ⟨s', e', hse, hem, hs'⟩ := hH i w hw
      have := he.held (i := e) (by omega) (Nat.le_refl e)
      rw [hs'] at this
      exact ⟨w, j + e, by omega, he.spliced_inner (by omega) (h.apart i · w hw)⟩

theorem Filled.spliced_right {inner : Nat → Prop} (hf : S.Filled full m) (h : S.Fits j H A)
    (hp : Passes full inner full' m j k) (hk : 0 < k) {i : Nat} (hi : j < i) (him : i < m) :
    full' (i + k) ∨ (∃ v s, s < i + k ∧ (S.spliced j H k A).Spans v s (i + k)) ∧
      ∃ v e, i + k < e ∧ (S.spliced j H k A).Spans v (i + k) e := by
  rcases hf i him with hfull | ⟨⟨v, s, hsi, hs⟩, w, e, hie, he⟩
  · exact Or.inl (hp.right i hi him hfull)
  · refine Or.inr ⟨?_, ?_⟩
    · rcases h.spans_spliced hk hs hsi with h1 | h1 | h1 | h1
      · omega
      · exact ⟨v, s + k, by omega, h1.2⟩
      · exact ⟨v, s, by omega, h1.2.2.2⟩
      · omega
    · rcases h.spans_spliced hk he hie with h1 | h1 | h1 | h1
      · omega
      · exact ⟨w, e + k, by omega, h1.2⟩
      · omega
      · omega

theorem Rigid.halfFilled_spliced {inner : Nat → Prop} (hS : S.Rigid m) (hH : H.Open k)
    (h : S.Fits (m - 1) H A) (hf : S.Filled full m) (hi : H.HalfFilled inner k)
    (hp : Passes full inner full' m (m - 1) k) :
    (S.spliced (m - 1) H k A).HalfFilled full' (m - 1 + k) := by
  have h3 := hS.three
  have hk := hH.pos
  intro i hik
  rcases Nat.lt_or_ge i (m - 1) with hlt | hge
  · rcases hf.spliced_left h hp hk (by omega) hlt with hfull | ⟨hstop, hstart⟩
    · exact Or.inl hfull
    · exact Or.inr ⟨fun _ => hstop, hstart⟩
  · obtain ⟨j, rfl⟩ : ∃ j, i = m - 1 + j := ⟨i - (m - 1), by omega⟩
    rcases hi.spliced_within hH.lined h hp (by omega : j < k) with hfull | ⟨hstop, hstart⟩
    · exact Or.inl hfull
    · exact Or.inr ⟨fun hlt => hstop (by omega), hstart⟩

theorem Rigid.filled_spliced {inner : Nat → Prop} {x : Vertex} (hS : S.Rigid m) (hH : H.Open k)
    (h : S.Fits j H A) (hj : j < m) (hf : S.Filled full m) (hi : H.HalfFilled inner k)
    (hp : Passes full inner full' m j k) (hx : S j x) (hxa : ¬ A x) (hnew : full' (j + k)) :
    (S.spliced j H k A).Filled full' (m + k) := by
  have hk := hH.pos
  intro i him
  rcases Nat.lt_or_ge i j with hlt | hge
  · exact hf.spliced_left h hp hk hj hlt
  rcases Nat.lt_trichotomy i (j + k) with hlt | rfl | hgt
  · obtain ⟨i', rfl⟩ : ∃ i', i = j + i' := ⟨i - j, by omega⟩
    rcases hi.spliced_within hH.lined h hp (by omega : i' < k) with hfull | ⟨hstop, hstart⟩
    · exact Or.inl hfull
    · refine Or.inr ⟨?_, hstart⟩
      -- the last inner position has no span of its own that stops there, but an outer one does
      by_cases hend : i' + 1 < k
      · exact hstop hend
      · obtain ⟨s, e, hse, hem, hs⟩ := hS.lined j x hx
        rw [hs] at hx
        rcases h.spans_spliced hk hs hse with h1 | h1 | h1 | h1
        · omega
        · omega
        · exact absurd h1.2.2.1 hxa
        · exact ⟨x, s, by omega, by rw [show j + i' = j + k - 1 by omega]; exact h1.2.2.2⟩
  · exact Or.inl hnew
  · obtain ⟨i', rfl⟩ : ∃ i', i = i' + k := ⟨i - k, by omega⟩
    exact hf.spliced_right h hp hk (by omega) (by omega)

theorem Filled.lifted (hf : H.Filled full m) (hl : H.Lined m) (hm : 2 ≤ m) :
    (H.lifted m).Filled full m := by
  intro i hi
  by_cases h0 : i = 0
  · subst h0
    exact Or.inl (hf.full_zero hi)
  by_cases hlast : i = m - 1
  · subst hlast
    exact Or.inl (hf.full_last hl (by omega))
  rcases hf i hi with h | ⟨⟨v, s, hsi, hs⟩, w, e, hie, he⟩
  · exact Or.inl h
  · exact Or.inr ⟨⟨v, s, hsi, hs.lifted (by omega) (by omega)⟩, w, e, hie,
      he.lifted (by omega) (by omega)⟩

end Pattern

end CliquePath
