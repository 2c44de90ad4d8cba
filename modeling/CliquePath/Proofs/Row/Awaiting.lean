import CliquePath.Proofs.Row.Pattern

set_option autoImplicit false

/-!
# Rows that await their last position

This module follows an open row on the way up the tree: vertices of a place above are added to its
positions, a new leftmost position is put in front of it, and finally a vertex held by all positions
but the awaited one closes it. An open row begins as a rigid row with one more position, or as a
single position below the awaited one.
-/

namespace CliquePath

namespace Pattern

variable {H : Pattern} {m g k s e : Nat} {A B : Vertex → Prop} {v : Vertex}

/-! ## Vertices above a row that awaits its last position -/

/-- The vertices of `B` are added to all positions before `k`, and those that are in `A` to position
`k` as well. -/
def carried (H : Pattern) (k : Nat) (B A : Vertex → Prop) : Pattern := fun i v =>
  H i v ∨ B v ∧ (i < k ∨ i = k ∧ A v)

theorem Spans.carried (h : H.Spans v s e) (hb : ¬ B v) : (H.carried k B A).Spans v s e := by
  intro i
  rw [← h i]
  simp [Pattern.carried, hb]

theorem spans_carried_of_mem (hb : B v) (hd : ∀ i, ¬ H i v) (ha : A v) :
    (H.carried k B A).Spans v 0 k := by
  intro i
  simp only [Pattern.carried, hd, hb, ha, false_or, true_and, and_true]
  omega

theorem spans_carried_of_not_mem (hk : 0 < k) (hb : B v) (hd : ∀ i, ¬ H i v) (ha : ¬ A v) :
    (H.carried k B A).Spans v 0 (k - 1) := by
  intro i
  simp only [Pattern.carried, hd, hb, ha, false_or, true_and, and_false, or_false]
  omega

theorem Lined.carried (hk : 2 ≤ k) (h : H.Lined (k + 1)) (hd : ∀ i v, H i v → ¬ B v) :
    (H.carried k B A).Lined (k + 1) := by
  intro i v hi
  by_cases hb : B v
  · have hno : ∀ j, ¬ H j v := fun j hj => hd j v hj hb
    by_cases ha : A v
    · exact ⟨0, k, by omega, by omega, spans_carried_of_mem hb hno ha⟩
    · exact ⟨0, k - 1, by omega, by omega, spans_carried_of_not_mem (by omega) hb hno ha⟩
  · have hold : H i v := by
      rcases hi with hi | hi
      · exact hi
      · exact absurd hi.1 hb
    obtain ⟨s, e, hse, hem, hs⟩ := h i v hold
    exact ⟨s, e, hse, hem, hs.carried hb⟩

theorem Overlapped.carried {p q : Nat} (hd : ∀ i v, H i v → ¬ B v) (h : H.Overlapped p q) :
    (H.carried k B A).Overlapped p q := by
  obtain ⟨v, s, e, hs, ho⟩ := h
  have hv : H s v := hs.held (Nat.le_refl s) (by omega)
  exact ⟨v, s, e, hs.carried (hd s v hv), ho⟩

theorem Open.carried (h : H.Open k) (hk : 2 ≤ k) (hd : ∀ i v, H i v → ¬ B v) :
    (H.carried k B A).Open k where
  pos := h.pos
  lined := h.lined.carried hk hd
  tail := by
    obtain ⟨v, hv⟩ := h.tail
    exact ⟨v, Or.inl hv⟩
  dense p q hpq hqk := (h.dense p q hpq hqk).carried hd

theorem Linked.carried (h : H.Linked k) : (H.carried k B A).Linked k := by
  intro i hi
  obtain ⟨v, hv⟩ := h i hi
  exact ⟨v, Or.inl hv.1, Or.inl hv.2⟩

/-! ## A new leftmost position -/

/-- A new leftmost position that holds nothing. -/
def widened (H : Pattern) : Pattern := H.inserted 0 fun _ => False

theorem admits_zero (H : Pattern) : H.Admits 0 fun _ => False where
  shared := by simp
  part := by simp

theorem Spans.widened (h : H.Spans v s e) : H.widened.Spans v (s + 1) (e + 1) :=
  h.inserted_right (fun hf => hf) (Nat.zero_le s)

theorem widened_succ (H : Pattern) (i : Nat) (v : Vertex) : H.widened (i + 1) v ↔ H i v := by
  simp [Pattern.widened, inserted]

theorem not_widened_zero (H : Pattern) (v : Vertex) : ¬ H.widened 0 v := by
  simp [Pattern.widened, inserted]

theorem Open.widened (h : H.Open k) (hg : H.Linked k) : H.widened.Open (k + 1) where
  pos := Nat.succ_pos k
  lined := h.lined.inserted (admits_zero H)
  tail := by
    obtain ⟨v, hv⟩ := h.tail
    exact ⟨v, (widened_succ H k v).2 hv⟩
  dense p q hpq hqk := by
    by_cases hp : p = 0
    · -- A vertex that crosses the gap behind the block starts behind the new position.
      obtain ⟨v, hv, hv'⟩ := hg (q - 1) (by omega)
      obtain ⟨s, e, hse, hem, hs⟩ := h.lined _ v hv
      rw [hs] at hv hv'
      exact ⟨v, s + 1, e + 1, hs.widened, by omega⟩
    · refine Overlapped.inserted (admits_zero H) hpq ?_
      rw [if_neg (by omega), if_neg (by omega)]
      exact h.dense _ _ (by omega) (by omega)

/-- The vertices of a place above close the gap behind a new leftmost position. -/
theorem Linked.folded (h : H.Linked k) (hB : ∃ v, B v) (hk : 0 < k) :
    (H.widened.carried (k + 1) B A).Linked (k + 1) := by
  intro i hi
  by_cases h0 : i = 0
  · subst h0
    obtain ⟨b, hb⟩ := hB
    exact ⟨b, Or.inr ⟨hb, by omega⟩, Or.inr ⟨hb, by omega⟩⟩
  · obtain ⟨j, rfl⟩ : ∃ j, i = j + 1 := ⟨i - 1, by omega⟩
    obtain ⟨v, hv, hv'⟩ := h j (by omega)
    exact ⟨v, Or.inl ((widened_succ H j v).2 hv), Or.inl ((widened_succ H (j + 1) v).2 hv')⟩

/-- The row closes when a vertex is held by all positions but the awaited one. -/
theorem Open.prime {x : Vertex} (h : H.Open k) (hx : H.Spans x 0 (k - 1)) : H.Prime (k + 1) := by
  intro p q hpq hqm hw
  have := h.pos
  by_cases hq : q < k
  · exact h.dense p q hpq hq
  · exact ⟨x, 0, k - 1, hx, by omega⟩

/-! ## The row of a rigid row that awaits one more position -/

theorem Rigid.admits_end (h : H.Rigid m) (ha : ∀ v, A v → H (m - 1) v) : H.Admits m A where
  shared := by
    have := h.three
    exact Or.inl ⟨by omega, ha⟩
  part v _ _ hm := by
    obtain ⟨s, e, hse, hem, hs⟩ := h.lined m v hm
    rw [hs] at hm
    omega

theorem Rigid.open_inserted (h : H.Rigid m) (hA : ∃ v, A v) (ha : ∀ v, A v → H (m - 1) v) :
    (H.inserted m A).Open m where
  pos := by
    have := h.three
    omega
  lined := h.lined.inserted (h.admits_end ha)
  tail := by
    obtain ⟨v, hv⟩ := hA
    exact ⟨v, by simpa [inserted] using hv⟩
  dense p q hpq hqm := by
    have had := h.admits_end ha
    -- a part that is not the whole row is overlapped as before; the row as a whole is so by the new position
    by_cases hw : 0 < p ∨ q + 1 < m
    · refine Overlapped.inserted had hpq ?_
      rw [if_pos (by omega), if_pos hqm]
      exact h.prime p q hpq hqm hw
    · obtain ⟨v, hv⟩ := hA
      obtain ⟨s, e, hse, hem, hs, -, hme⟩ := had.span_of_mem h.lined hv
      have hne : s ≠ 0 := by
        rintro rfl
        refine h.short v ?_
        rwa [show m - 1 = e by omega]
      exact ⟨v, s, e + 1, hs.inserted_of_mem hv (by omega) hme, by omega⟩

theorem Rigid.linked_inserted (h : H.Rigid m) (hA : ∃ v, A v) (ha : ∀ v, A v → H (m - 1) v) :
    (H.inserted m A).Linked m := by
  intro i hi
  have had := h.admits_end ha
  -- the last old position and the new one share a vertex of the new one
  by_cases hm : i + 1 < m
  · obtain ⟨v, s, e, hs, hsi, hie⟩ := h.crossed hm
    rcases had.spans_inserted hs with ⟨-, -, -, hn⟩ | ⟨-, -, hn⟩ | ⟨-, hms, -⟩
    · exact ⟨v, hn.held (by omega) (by omega), hn.held (by omega) (by omega)⟩
    · exact ⟨v, hn.held (by omega) (by omega), hn.held (by omega) (by omega)⟩
    · omega
  · obtain ⟨v, hv⟩ := hA
    refine ⟨v, ?_, ?_⟩
    · have hlast := ha v hv
      rw [show m - 1 = i by omega] at hlast
      simpa [inserted, hi] using hlast
    · simpa [inserted, show i + 1 = m by omega] using hv

/-- One position, all of whose vertices are in `A`, in front of the awaited one. -/
def bottom (A : Vertex → Prop) : Pattern := fun i v => i ≤ 1 ∧ A v

theorem spans_bottom (hv : A v) : (bottom A).Spans v 0 1 := by
  intro i
  simp [bottom, hv]

theorem open_bottom (hA : ∃ v, A v) : (bottom A).Open 1 where
  pos := Nat.one_pos
  lined i v hv := ⟨0, 1, by omega, by omega, spans_bottom hv.2⟩
  tail := by
    obtain ⟨v, hv⟩ := hA
    exact ⟨v, Nat.le_refl 1, hv⟩
  dense p q hpq hq := by omega

theorem linked_bottom (hA : ∃ v, A v) : (bottom A).Linked 1 := by
  intro i hi
  obtain ⟨v, hv⟩ := hA
  exact ⟨v, ⟨by omega, hv⟩, ⟨by omega, hv⟩⟩

end Pattern

end CliquePath
