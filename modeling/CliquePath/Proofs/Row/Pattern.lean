import CliquePath.Failure
import Mathlib.Tactic

set_option autoImplicit false

/-!
# Patterns of a row

This module defines patterns, that is which positions of a row hold which vertices, and what makes a
row rigid: every vertex is held by a block of consecutive positions, no vertex by all of them, and
every block of positions is overlapped by the block of some vertex. It then follows what happens to
a rigid row when one more position is put into it.

A row under construction may still await its last position. Such a row is open: only the blocks in
front of that position have to be overlapped.
-/

namespace CliquePath

/-- Which positions of a row hold which vertices. -/
abbrev Pattern := Nat → Vertex → Prop

namespace Pattern

/-- The positions that hold `v` are those from `s` to `e`. -/
def Spans (H : Pattern) (v : Vertex) (s e : Nat) : Prop := ∀ i, H i v ↔ s ≤ i ∧ i ≤ e

/-- Every vertex is held by at least two consecutive positions below `m`, and by no other. -/
def Lined (H : Pattern) (m : Nat) : Prop :=
  ∀ i v, H i v → ∃ s e, s < e ∧ e < m ∧ H.Spans v s e

/-- Some vertex is held within the positions from `p` to `q` and next to them, but not by all of
them. -/
def Overlapped (H : Pattern) (p q : Nat) : Prop :=
  ∃ v s e, H.Spans v s e ∧ (p < s ∧ s ≤ q ∧ q < e ∨ s < p ∧ p ≤ e ∧ e < q)

/-- Every block of at least two positions, the whole row excepted, is overlapped. -/
def Prime (H : Pattern) (m : Nat) : Prop :=
  ∀ p q, p < q → q < m → 0 < p ∨ q + 1 < m → H.Overlapped p q

/-- No vertex is held by the whole row. -/
def Short (H : Pattern) (m : Nat) : Prop := ∀ v, ¬ H.Spans v 0 (m - 1)

/-- A row whose last position `k` is still awaited: blocks before that position are overlapped. -/
structure Open (H : Pattern) (k : Nat) : Prop where
  pos : 0 < k
  lined : H.Lined (k + 1)
  tail : ∃ v, H k v
  dense : ∀ p q, p < q → q < k → H.Overlapped p q

/-- Every gap in front of position `k` is crossed. -/
def Linked (H : Pattern) (k : Nat) : Prop := ∀ i < k, ∃ v, H i v ∧ H (i + 1) v

/-- A row of at least three positions that is overlapped throughout and in which no vertex is held
by all positions. -/
structure Rigid (H : Pattern) (m : Nat) : Prop where
  three : 3 ≤ m
  lined : H.Lined m
  short : H.Short m
  prime : H.Prime m

variable {H : Pattern} {m g k s e : Nat} {A : Vertex → Prop} {v : Vertex}

theorem Spans.start_le (h : H.Spans v s e) {i : Nat} (hi : H i v) : s ≤ i := ((h i).1 hi).1

theorem Spans.le_stop (h : H.Spans v s e) {i : Nat} (hi : H i v) : i ≤ e := ((h i).1 hi).2

theorem Spans.held (h : H.Spans v s e) {i : Nat} (hs : s ≤ i) (he : i ≤ e) : H i v :=
  (h i).2 ⟨hs, he⟩

theorem Spans.not_held (h : H.Spans v s e) {i : Nat} (hi : i < s ∨ e < i) : ¬ H i v := by
  intro hv
  have := (h i).1 hv
  omega

/-- Two neighbouring positions of a rigid row share a vertex. -/
theorem Rigid.crossed (h : H.Rigid m) {i : Nat} (hi : i + 1 < m) :
    ∃ v s e, H.Spans v s e ∧ s ≤ i ∧ i < e := by
  have h3 := h.three
  by_cases h0 : i = 0
  · obtain ⟨v, s, e, hs, ho⟩ := h.prime 1 (m - 1) (by omega) (by omega) (by omega)
    obtain ⟨s', e', hse, hem, hs'⟩ := h.lined s v (hs.held (Nat.le_refl s) (by omega))
    have hv := hs.held (Nat.le_refl s) (by omega)
    have hv' := hs.held (i := e) (by omega) (Nat.le_refl e)
    rw [hs'] at hv hv'
    exact ⟨v, s, e, hs, by omega⟩
  · obtain ⟨v, s, e, hs, ho⟩ := h.prime 0 i (by omega) (by omega) (by omega)
    exact ⟨v, s, e, hs, by omega⟩

/-- The vertices of the awaited position that are not held by all positions in front of it. -/
theorem Open.spans_tail (h : H.Open k) : ∃ v s, s < k ∧ H.Spans v s k := by
  obtain ⟨v, hv⟩ := h.tail
  obtain ⟨s, e, hse, hem, hs⟩ := h.lined k v hv
  rw [hs] at hv
  obtain rfl : e = k := by omega
  exact ⟨v, s, hse, hs⟩

/-! ## A new position -/

/-- A new position in front of position `g`, which holds the vertices of `A`. -/
def inserted (H : Pattern) (g : Nat) (A : Vertex → Prop) : Pattern := fun i v =>
  if i < g then H i v else if i = g then A v else H (i - 1) v

theorem Spans.inserted_of_mem (h : H.Spans v s e) (ha : A v) (hs : s ≤ g) (he : g ≤ e + 1) :
    (H.inserted g A).Spans v s (e + 1) := by
  intro i
  unfold inserted
  grind [Spans]

theorem Spans.inserted_left (h : H.Spans v s e) (ha : ¬ A v) (he : e < g) :
    (H.inserted g A).Spans v s e := by
  intro i
  unfold inserted
  grind [Spans]

theorem Spans.inserted_right (h : H.Spans v s e) (ha : ¬ A v) (hs : g ≤ s) :
    (H.inserted g A).Spans v (s + 1) (e + 1) := by
  intro i
  unfold inserted
  grind [Spans]

/-- A position in front of `g` can hold exactly the vertices of `A`: one of the positions beside the
gap holds them all, and no other vertex crosses the gap. -/
structure Admits (H : Pattern) (g : Nat) (A : Vertex → Prop) : Prop where
  shared : (0 < g ∧ ∀ v, A v → H (g - 1) v) ∨ ∀ v, A v → H g v
  part : ∀ v, 0 < g → H (g - 1) v → H g v → A v

theorem Admits.touch (h : H.Admits g A) (ha : A v) : (0 < g ∧ H (g - 1) v) ∨ H g v := by
  rcases h.shared with ⟨hg, hv⟩ | hv
  · exact Or.inl ⟨hg, hv v ha⟩
  · exact Or.inr (hv v ha)

theorem Admits.spans_inserted (h : H.Admits g A) (hs : H.Spans v s e) :
    A v ∧ s ≤ g ∧ g ≤ e + 1 ∧ (H.inserted g A).Spans v s (e + 1) ∨
      ¬ A v ∧ e < g ∧ (H.inserted g A).Spans v s e ∨
      ¬ A v ∧ g ≤ s ∧ (H.inserted g A).Spans v (s + 1) (e + 1) := by
  by_cases ha : A v
  · have hg : s ≤ g ∧ g ≤ e + 1 := by
      rcases h.touch ha with ⟨h0, hv⟩ | hv
      · have := (hs _).1 hv
        omega
      · have := (hs _).1 hv
        omega
    exact Or.inl ⟨ha, hg.1, hg.2, hs.inserted_of_mem ha hg.1 hg.2⟩
  · right
    by_cases he : e < g
    · exact Or.inl ⟨ha, he, hs.inserted_left ha he⟩
    · by_cases hsg : g ≤ s
      · exact Or.inr ⟨ha, hsg, hs.inserted_right ha hsg⟩
      · exfalso
        -- a span on both sides of the gap is a span of the new position
        exact ha (h.part v (by omega) (hs.held (by omega) (by omega))
          (hs.held (by omega) (by omega)))

theorem Lined.inserted (hl : H.Lined m) (h : H.Admits g A) :
    (H.inserted g A).Lined (m + 1) := by
  intro i v hi
  -- a vertex of the new position is beside the gap, unless nothing is there
  have hold : ∃ j, H j v := by
    unfold Pattern.inserted at hi
    split at hi
    · exact ⟨_, hi⟩
    · split at hi
      · rcases h.touch hi with hv | hv
        · exact ⟨_, hv.2⟩
        · exact ⟨_, hv⟩
      · exact ⟨_, hi⟩
  obtain ⟨j, hj⟩ := hold
  obtain ⟨s, e, hse, hem, hs⟩ := hl j v hj
  rcases h.spans_inserted hs with ⟨-, -, -, hn⟩ | ⟨-, -, hn⟩ | ⟨-, -, hn⟩
  · exact ⟨s, e + 1, by omega, by omega, hn⟩
  · exact ⟨s, e, by omega, by omega, hn⟩
  · exact ⟨s + 1, e + 1, by omega, by omega, hn⟩

/-- The positions next to the new one hold other vertices than it does. -/
structure Fresh (H : Pattern) (m g : Nat) (A : Vertex → Prop) : Prop where
  left : 0 < g → ∃ v, ¬ (H (g - 1) v ↔ A v)
  right : g < m → ∃ v, ¬ (H g v ↔ A v)

/-- A block stays overlapped when the new position is put into it, beside it or at one of its
ends. -/
theorem Overlapped.inserted (h : H.Admits g A) {p q : Nat} (hpq : p < q)
    (ho : H.Overlapped (if p ≤ g then p else p - 1) (if q < g then q else q - 1)) :
    (H.inserted g A).Overlapped p q := by
  obtain ⟨v, s, e, hs, ho⟩ := ho
  rcases h.spans_inserted hs with ⟨-, hsg, hge, hn⟩ | ⟨-, heg, hn⟩ | ⟨-, hgs, hn⟩
  · refine ⟨v, s, e + 1, hn, ?_⟩
    split at ho <;> split at ho <;> omega
  · refine ⟨v, s, e, hn, ?_⟩
    split at ho <;> split at ho <;> omega
  · refine ⟨v, s + 1, e + 1, hn, ?_⟩
    split at ho <;> split at ho <;> omega

/-- A vertex of `A` has a span, which reaches the gap. -/
theorem Admits.span_of_mem (hl : H.Lined m) (h : H.Admits g A) (ha : A v) :
    ∃ s e, s < e ∧ e < m ∧ H.Spans v s e ∧ s ≤ g ∧ g ≤ e + 1 := by
  have hold : ∃ j, H j v := by
    rcases h.touch ha with hv | hv
    · exact ⟨_, hv.2⟩
    · exact ⟨_, hv⟩
  obtain ⟨j, hj⟩ := hold
  obtain ⟨s, e, hse, hem, hs⟩ := hl j v hj
  rcases h.spans_inserted hs with ⟨-, hsg, hge, -⟩ | ⟨hna, -⟩ | ⟨hna, -⟩
  · exact ⟨s, e, hse, hem, hs, hsg, hge⟩
  · exact absurd ha hna
  · exact absurd ha hna

/-- The new position together with the one in front of it is overlapped. -/
theorem Fresh.overlapped_left (hl : H.Lined m) (h : H.Admits g A) (hf : H.Fresh m g A)
    (hg : 0 < g) : (H.inserted g A).Overlapped (g - 1) g := by
  obtain ⟨v, hv⟩ := hf.left hg
  by_cases ha : A v
  · have hnot : ¬ H (g - 1) v := fun hh => hv ⟨fun _ => ha, fun _ => hh⟩
    obtain ⟨s, e, hse, hem, hs, hsg, hge⟩ := h.span_of_mem hl ha
    refine ⟨v, s, e + 1, hs.inserted_of_mem ha hsg hge, ?_⟩
    rw [hs] at hnot
    omega
  · have hh : H (g - 1) v := by
      by_contra hh
      exact hv ⟨fun hx => absurd hx hh, fun hx => absurd hx ha⟩
    obtain ⟨s, e, hse, hem, hs⟩ := hl _ v hh
    rw [hs] at hh
    rcases h.spans_inserted hs with ⟨hx, -⟩ | ⟨-, heg, hn⟩ | ⟨-, hgs, hn⟩
    · exact absurd hx ha
    · exact ⟨v, s, e, hn, by omega⟩
    · omega

/-- The new position together with the one behind it is overlapped. -/
theorem Fresh.overlapped_right (hl : H.Lined m) (h : H.Admits g A) (hf : H.Fresh m g A)
    (hg : g < m) : (H.inserted g A).Overlapped g (g + 1) := by
  obtain ⟨v, hv⟩ := hf.right hg
  by_cases ha : A v
  · have hnot : ¬ H g v := fun hh => hv ⟨fun _ => ha, fun _ => hh⟩
    obtain ⟨s, e, hse, hem, hs, hsg, hge⟩ := h.span_of_mem hl ha
    refine ⟨v, s, e + 1, hs.inserted_of_mem ha hsg hge, ?_⟩
    rw [hs] at hnot
    omega
  · have hh : H g v := by
      by_contra hh
      exact hv ⟨fun hx => absurd hx hh, fun hx => absurd hx ha⟩
    obtain ⟨s, e, hse, hem, hs⟩ := hl _ v hh
    rw [hs] at hh
    rcases h.spans_inserted hs with ⟨hx, -⟩ | ⟨-, heg, hn⟩ | ⟨-, hgs, hn⟩
    · exact absurd hx ha
    · omega
    · exact ⟨v, s + 1, e + 1, hn, by omega⟩

/-- A row stays prime when a fresh position is put into it. -/
theorem Prime.inserted (hp : H.Prime m) (hl : H.Lined m) (hshort : H.Short m) (h : H.Admits g A)
    (hf : H.Fresh m g A) (hg : g ≤ m) (hA : ∃ v, A v) :
    (H.inserted g A).Prime (m + 1) := by
  intro p q hpq hqm hw
  by_cases hl1 : q = g ∧ p + 1 = g
  · obtain ⟨rfl, hpg⟩ := hl1
    rw [show p = q - 1 by omega]
    exact hf.overlapped_left hl h (by omega)
  by_cases hr1 : p = g ∧ q = g + 1
  · obtain ⟨rfl, rfl⟩ := hr1
    exact hf.overlapped_right hl h (by omega)
  -- The block made of all old positions is overlapped by any vertex of the new one.
  by_cases hold : p = 0 ∧ q + 1 = m ∧ g = m ∨ p = 1 ∧ q = m ∧ g = 0
  · obtain ⟨a, ha⟩ := hA
    obtain ⟨s, e, hse, hem, hs, hsg, hge⟩ := h.span_of_mem hl ha
    have hne : ¬ (s = 0 ∧ e = m - 1) := by
      rintro ⟨rfl, rfl⟩
      exact hshort a hs
    exact ⟨a, s, e + 1, hs.inserted_of_mem ha hsg hge, by omega⟩
  refine Overlapped.inserted h hpq (hp _ _ ?_ ?_ ?_)
  · split <;> split <;> omega
  · split <;> omega
  · split <;> split <;> omega

end Pattern

end CliquePath
