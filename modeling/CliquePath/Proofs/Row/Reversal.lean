import CliquePath.Proofs.Row.Filling

set_option autoImplicit false

/-!
# Rows from right to left

This module shows that the properties of a row do not depend on the direction in which it is read,
and uses that to find, on either side of a block of positions, a vertex that leaves the block on the
other side.
-/

namespace CliquePath

namespace Pattern

variable {H : Pattern} {m s e : Nat} {v : Vertex} {full full' : Nat → Prop}

/-! ## The row from right to left -/

def reversed (H : Pattern) (m : Nat) : Pattern := fun i v => i < m ∧ H (m - 1 - i) v

theorem Spans.reversed (h : H.Spans v s e) (hse : s ≤ e) (he : e < m) :
    (H.reversed m).Spans v (m - 1 - e) (m - 1 - s) := by
  intro i
  unfold Pattern.reversed
  rw [h]
  omega

theorem Lined.reversed (h : H.Lined m) : (H.reversed m).Lined m := by
  intro i v hi
  obtain ⟨s, e, hse, hem, hs⟩ := h _ v hi.2
  exact ⟨m - 1 - e, m - 1 - s, by omega, by omega, hs.reversed (by omega) hem⟩

theorem Rigid.reversed (h : H.Rigid m) : (H.reversed m).Rigid m where
  three := h.three
  lined := h.lined.reversed
  short v hv := by
    have h3 := h.three
    have h0 := (hv.held (i := 0) (by omega) (by omega)).2
    have h1 := (hv.held (i := m - 1) (by omega) (by omega)).2
    obtain ⟨s, e, hse, hem, hs⟩ := h.lined _ v h0
    rw [hs] at h0 h1
    refine h.short v ?_
    rwa [show 0 = s by omega, show m - 1 = e by omega]
  prime p q hpq hqm hw := by
    obtain ⟨v, s, e, hs, ho⟩ := h.prime (m - 1 - q) (m - 1 - p) (by omega) (by omega) (by omega)
    -- the span is within the row, so that its mirror image is
    obtain ⟨s', e', hse, hem, hs'⟩ := h.lined s v (hs.held (Nat.le_refl s) (by omega))
    have he := hs.held (i := e) (by omega) (Nat.le_refl e)
    rw [hs'] at he
    exact ⟨v, _, _, hs.reversed (by omega) (by omega), by omega⟩

theorem Filled.reversed (h : H.Filled full m) (hl : H.Lined m)
    (hfull : ∀ i < m, full i → full' (m - 1 - i)) : (H.reversed m).Filled full' m := by
  intro i hi
  rcases h (m - 1 - i) (by omega) with hf | ⟨⟨v, s, hsi, hs⟩, w, e, hie, he⟩
  · have := hfull _ (by omega) hf
    rw [show m - 1 - (m - 1 - i) = i by omega] at this
    exact Or.inl this
  · have hw := he.held (Nat.le_refl _) (by omega)
    obtain ⟨s', e', hse, hem, hs'⟩ := hl _ w hw
    have hwe := he.held (i := e) (by omega) (Nat.le_refl e)
    rw [hs'] at hwe
    have h1 := he.reversed (m := m) (by omega) (by omega)
    have h2 := hs.reversed (m := m) (by omega) (by omega)
    rw [show m - 1 - (m - 1 - i) = i by omega] at h1 h2
    exact Or.inr ⟨⟨w, _, by omega, h1⟩, v, _, by omega, h2⟩


theorem Spans.of_reversed (h : (H.reversed m).Spans v s e) (hl : H.Lined m) (hse : s ≤ e) :
    e < m ∧ H.Spans v (m - 1 - e) (m - 1 - s) := by
  have hs := h.held (Nat.le_refl s) hse
  have he := h.held hse (Nat.le_refl e)
  obtain ⟨s', e', hse', hem, hs'⟩ := hl _ v hs.2
  have hr := hs'.reversed (m := m) (by omega) hem
  have h1 := (hr s).1 hs
  have h2 := (hr e).1 he
  have h3 := (h (m - 1 - e')).1 (hr.held (Nat.le_refl _) (by omega))
  have h4 := (h (m - 1 - s')).1 (hr.held (by omega) (Nat.le_refl _))
  refine ⟨he.1, ?_⟩
  rwa [show m - 1 - e = s' by omega, show m - 1 - s = e' by omega]

/-- Left of position `p`, a position `f` such that some vertex leaves `q` to the right and starts at
`f` or later, and such that the gaps from `f` to `p` are crossed by vertices that stop in front of
`q`. -/
theorem Rigid.exists_left (h : H.Rigid m) {p q : Nat} (hp : 0 < p) (hpq : p ≤ q) (hq : q + 1 < m) :
    ∃ f, 0 < f ∧ f ≤ p ∧ (∃ z s t, H.Spans z s t ∧ f ≤ s ∧ s ≤ q ∧ q < t) ∧
      ∀ i, f ≤ i + 1 → i + 1 < p → ∃ v s t, H.Spans v s t ∧ s ≤ i ∧ i < t ∧ t < q := by
  classical
  let leaves (f : Nat) : Prop := 0 < f ∧ ∃ z s t, H.Spans z s t ∧ f ≤ s ∧ s ≤ q ∧ q < t
  have hone : leaves 1 := by
    obtain ⟨z, s, t, hz, ho⟩ := h.prime 0 q (by omega) (by omega) (by omega)
    exact ⟨Nat.one_pos, z, s, t, hz, by omega⟩
  have hspec : leaves (Nat.findGreatest leaves p) := Nat.findGreatest_spec hp hone
  refine ⟨Nat.findGreatest leaves p, hspec.1, Nat.findGreatest_le p, hspec.2, ?_⟩
  intro i hfi hip
  obtain ⟨v, s, t, hv, ho⟩ := h.prime (i + 1) q (by omega) (by omega) (by omega)
  rcases ho with ho | ho
  · -- Otherwise a vertex that starts behind `i + 1` leaves `q`, and `f` was not the greatest.
    have hlate : leaves (i + 2) := ⟨by omega, v, s, t, hv, by omega⟩
    have := Nat.le_findGreatest (by omega : i + 2 ≤ p) hlate
    omega
  · exact ⟨v, s, t, hv, by omega⟩

theorem Rigid.exists_right (h : H.Rigid m) {p q : Nat} (hp : 0 < p) (hpq : p ≤ q)
    (hq : q + 1 < m) :
    ∃ e, q ≤ e ∧ e + 1 < m ∧ (∃ z s t, H.Spans z s t ∧ s < p ∧ p ≤ t ∧ t ≤ e) ∧
      ∀ i, q < i → i ≤ e → ∃ v s t, H.Spans v s t ∧ p < s ∧ s ≤ i ∧ i < t := by
  obtain ⟨f, hf, hfp, ⟨z, s, t, hz, hfs, hsq, hqt⟩, hgaps⟩ :=
    h.reversed.exists_left (p := m - 1 - q) (q := m - 1 - p) (by omega) (by omega) (by omega)
  obtain ⟨htm, hz'⟩ := hz.of_reversed h.lined (by omega)
  refine ⟨m - 1 - f, by omega, by omega, ⟨z, _, _, hz', by omega, by omega, by omega⟩, ?_⟩
  intro i hqi hie
  obtain ⟨v, a, b, hv, hai, hib, hbq⟩ := hgaps (m - 1 - i - 1) (by omega) (by omega)
  obtain ⟨hbm, hv'⟩ := hv.of_reversed h.lined (by omega)
  exact ⟨v, _, _, hv', by omega, by omega, by omega⟩

end Pattern

end CliquePath
