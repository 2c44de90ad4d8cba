import CliquePath.Proofs.Joined
import CliquePath.Proofs.Search.CliqueOrder

set_option autoImplicit false

/-!
# Around the last vertex of a search

This module shows what a lexicographic search knows about a vertex `x` when it visits it. If two
neighbours of `x` that are visited before `x` are not adjacent, a way leads from one to the other
outside the closed neighbourhood of `x`, through vertices visited before `x`.

All non-neighbours of `x` that are visited after a certain one of them are joined to it: the last
one that no earlier vertex tells from `x`. Both neighbours see a vertex of that part.
-/

namespace CliquePath

variable {visits : List Vertex} {adjacent : Vertex → Vertex → Prop} {a b c d e t v w x y : Vertex}

/-- No vertex among the first `n` ones visited tells the two vertices apart. -/
def Alike (adjacent : Vertex → Vertex → Prop) (visits : List Vertex) (n : Nat) (b c : Vertex) :
    Prop :=
  ∀ t, visits.idxOf t < n → (adjacent t b ↔ adjacent t c)

/-- The vertex is visited before `x` and is not a neighbour of `x`. -/
def Early (adjacent : Vertex → Vertex → Prop) (visits : List Vertex) (x t : Vertex) : Prop :=
  visits.idxOf t < visits.idxOf x ∧ ¬ adjacent t x

/-- A non-neighbour of `x` that no earlier vertex tells from `x`, and the last such one. -/
structure Anchor (adjacent : Vertex → Vertex → Prop) (visits : List Vertex) (x d : Vertex) :
    Prop where
  early : Early adjacent visits x d
  alike : Alike adjacent visits (visits.idxOf d) d x
  last : ∀ t, Early adjacent visits x t → Alike adjacent visits (visits.idxOf t) t x →
    visits.idxOf t ≤ visits.idxOf d

namespace FourPoints

variable (hfour : FourPoints adjacent visits)

include hfour

/-- The first vertex that tells two vertices apart is a neighbour of the one visited first. -/
theorem exists_telling (hbc : visits.idxOf b < visits.idxOf c) (hc : c ∈ visits)
    (hno : ¬ Alike adjacent visits (visits.idxOf b) b c) :
    ∃ d, visits.idxOf d < visits.idxOf b ∧ adjacent d b ∧ ¬ adjacent d c ∧
      Alike adjacent visits (visits.idxOf d) b c := by
  classical
  have hex : ∃ n, ∃ t, visits.idxOf t = n ∧ n < visits.idxOf b ∧
      ¬ (adjacent t b ↔ adjacent t c) := by
    by_contra hnone
    refine hno fun t ht => ?_
    by_contra htells
    exact hnone ⟨_, t, rfl, ht, htells⟩
  obtain ⟨t, htn, htb, htells⟩ := Nat.find_spec hex
  have hbefore : Alike adjacent visits (visits.idxOf t) b c := by
    intro s hs
    by_contra hstells
    exact Nat.find_min hex (htn ▸ hs) ⟨s, rfl, Nat.lt_trans (htn ▸ hs) htb, hstells⟩
  rw [← htn] at htb
  refine ⟨t, htb, ?_⟩
  by_cases hadj : adjacent t b
  · exact ⟨hadj, fun htc => htells (iff_of_true hadj htc), hbefore⟩
  · -- A neighbour of `c` alone comes after one of `b` alone.
    have htc : adjacent t c := by
      by_contra htc
      exact htells (iff_of_false hadj htc)
    obtain ⟨s, -, hst, hsb, hsc⟩ := hfour t b c htb hbc hc htc hadj
    exact absurd ((hbefore s hst).1 hsb) hsc

/-- If `x` has an earlier non-neighbour, it has an anchor. -/
theorem exists_anchor (hx : x ∈ visits) (he : Early adjacent visits x e) :
    ∃ d, Anchor adjacent visits x d := by
  classical
  have hex : ∃ n, ∃ t, visits.idxOf t = n ∧ Early adjacent visits x t := ⟨_, e, rfl, he⟩
  obtain ⟨f, hfn, hf⟩ := Nat.find_spec hex
  -- The first non-neighbour of `x` is told from `x` by no vertex.
  have hfirst : Alike adjacent visits (visits.idxOf f) f x := by
    by_contra hno
    obtain ⟨s, hsf, -, hsx, -⟩ := hfour.exists_telling hf.1 hx hno
    exact Nat.find_min hex (hfn ▸ hsf) ⟨s, rfl, Nat.lt_trans hsf hf.1, hsx⟩
  have hspec := Nat.findGreatest_spec (P := fun n => ∃ t, visits.idxOf t = n ∧
    Early adjacent visits x t ∧ Alike adjacent visits n t x) (Nat.le_of_lt hf.1)
    ⟨f, rfl, hf, hfirst⟩
  obtain ⟨d, hdn, hd, halike⟩ := hspec
  rw [← hdn] at halike
  refine ⟨d, hd, halike, fun t ht htalike => ?_⟩
  rw [hdn]
  exact Nat.le_findGreatest (Nat.le_of_lt ht.1) ⟨t, rfl, ht, htalike⟩

variable (hd : Anchor adjacent visits x d)

include hd

/-- What tells a vertex visited after the anchor from `x` is not visited before the anchor. -/
theorem anchor_le_telling (hy : y ∈ visits) (hdy : visits.idxOf d < visits.idxOf y)
    (hey : adjacent e y) (hex : ¬ adjacent e x)
    (halike : Alike adjacent visits (visits.idxOf e) y x) : visits.idxOf d ≤ visits.idxOf e := by
  by_contra hlt
  rw [Nat.not_le] at hlt
  have hed : ¬ adjacent e d := fun hadj => hex ((hd.alike e hlt).1 hadj)
  obtain ⟨f, -, hfe, hfd, hfy⟩ := hfour e d y hlt hdy hy hey hed
  exact hfy ((halike f hfe).2 ((hd.alike f (Nat.lt_trans hfe hlt)).1 hfd))

/-- A vertex visited between the anchor and `x`, and told from `x` by an earlier one, has a
neighbour that is an earlier non-neighbour of `x` and not visited before the anchor. -/
theorem exists_early (hx : x ∈ visits) (hdy : visits.idxOf d < visits.idxOf y)
    (hyx : visits.idxOf y < visits.idxOf x)
    (hno : ¬ Alike adjacent visits (visits.idxOf y) y x) :
    ∃ e, Early adjacent visits x e ∧ adjacent e y ∧ visits.idxOf d ≤ visits.idxOf e ∧
      visits.idxOf e < visits.idxOf y := by
  obtain ⟨e, hlt, hey, hex, halike⟩ := hfour.exists_telling hyx hx hno
  exact ⟨e, ⟨Nat.lt_trans hlt hyx, hex⟩, hey,
    hfour.anchor_le_telling hd (mem_of_idxOf_lt_idxOf hyx) hdy hey hex halike, hlt⟩

/-- The earlier non-neighbours of `x` from the anchor on are joined to the anchor. -/
theorem joined_anchor (hx : x ∈ visits) (hy : Early adjacent visits x y)
    (hdy : visits.idxOf d ≤ visits.idxOf y) :
    Joined adjacent (Early adjacent visits x) d y := by
  -- By induction on the position at which the vertex is visited.
  induction hpos : visits.idxOf y using Nat.strong_induction_on generalizing y with
  | _ n ih =>
      subst hpos
      rcases Nat.lt_or_eq_of_le hdy with hlt | heq
      · have hno : ¬ Alike adjacent visits (visits.idxOf y) y x := fun halike =>
          absurd (hd.last y hy halike) (Nat.not_le.2 hlt)
        obtain ⟨e, he, hey, hde, helt⟩ := hfour.exists_early hd hx hlt hy.1 hno
        exact (ih _ helt he hde rfl).trans (Joined.step hey he hy)
      · obtain rfl : d = y := (List.idxOf_inj (mem_of_idxOf_lt_idxOf hd.early.1)).1 heq
        exact Joined.refl hd.early

/-- An earlier neighbour of `x` sees the part of the anchor, unless nothing tells it from `x`. -/
theorem exists_near_anchor (hsymm : ∀ v w, adjacent v w → adjacent w v) (hx : x ∈ visits)
    (hyx : visits.idxOf y < visits.idxOf x) (hadj : adjacent y x)
    (hno : visits.idxOf y < visits.idxOf d ∨ ¬ Alike adjacent visits (visits.idxOf y) y x) :
    ∃ e, adjacent y e ∧ Joined adjacent (Early adjacent visits x) d e := by
  rcases Nat.lt_trichotomy (visits.idxOf y) (visits.idxOf d) with hlt | heq | hlt
  · exact ⟨d, (hd.alike y hlt).2 hadj, Joined.refl hd.early⟩
  · obtain rfl : y = d := (List.idxOf_inj (mem_of_idxOf_lt_idxOf hyx)).1 heq
    exact absurd hadj hd.early.2
  · obtain ⟨e, he, hey, hde, -⟩ := hfour.exists_early hd hx hlt hyx
      (hno.resolve_left (Nat.lt_asymm hlt))
    exact ⟨e, hsymm e y hey, hfour.joined_anchor hd hx he hde⟩

omit hd

/-- Two neighbours of `x` that are visited before `x` and are not adjacent have neighbours in one
part of what is left outside the closed neighbourhood of `x`. -/
theorem exists_joined_of_lt (hsymm : ∀ v w, adjacent v w → adjacent w v) (hx : x ∈ visits)
    (hwv : visits.idxOf w < visits.idxOf v) (hvx : visits.idxOf v < visits.idxOf x)
    (hv : adjacent v x) (hw : adjacent w x) (hno : ¬ adjacent w v) :
    ∃ p q, adjacent v p ∧ adjacent w q ∧ Joined adjacent (Early adjacent visits x) p q := by
  have hwx := Nat.lt_trans hwv hvx
  have hvtold : ¬ Alike adjacent visits (visits.idxOf v) v x := fun halike =>
    hno ((halike w hwv).2 hw)
  obtain ⟨e, hev, headj, hex, halike⟩ := hfour.exists_telling hvx hx hvtold
  obtain ⟨d, hd⟩ := hfour.exists_anchor hx ⟨Nat.lt_trans hev hvx, hex⟩
  -- If nothing told `w` from `x`, the vertex `w` would have to come after `v`.
  have hwtold : ¬ Alike adjacent visits (visits.idxOf w) w x := by
    intro hwalike
    have hew : visits.idxOf e < visits.idxOf w := by
      rcases Nat.lt_trichotomy (visits.idxOf e) (visits.idxOf w) with hlt | heq | hlt
      · exact hlt
      · obtain rfl : e = w := (List.idxOf_inj (mem_of_idxOf_lt_idxOf hev)).1 heq
        exact absurd hw hex
      · exact absurd ((halike w hlt).2 hw) hno
    obtain ⟨f, -, hfe, hfw, hfv⟩ := hfour e w v hew hwv (mem_of_idxOf_lt_idxOf hvx) headj
      fun hadj => hex ((hwalike e hew).1 hadj)
    exact hfv ((halike f hfe).2 ((hwalike f (Nat.lt_trans hfe hew)).1 hfw))
  obtain ⟨p, hvp, hdp⟩ := hfour.exists_near_anchor hd hsymm hx hvx hv (Or.inr hvtold)
  obtain ⟨q, hwq, hdq⟩ := hfour.exists_near_anchor hd hsymm hx hwx hw (Or.inr hwtold)
  exact ⟨p, q, hvp, hwq, (hdp.symm fun v w _ hvw _ _ => hsymm v w hvw).trans hdq⟩

/-- Two neighbours of `x` that are visited before `x` and are not adjacent are joined outside the
closed neighbourhood of `x`, the two excepted. -/
theorem joined_around (hsymm : ∀ v w, adjacent v w → adjacent w v) (hx : x ∈ visits)
    (hvx : visits.idxOf v < visits.idxOf x) (hwx : visits.idxOf w < visits.idxOf x)
    (hv : adjacent v x) (hw : adjacent w x) (hne : v ≠ w) (hno : ¬ adjacent v w) :
    Joined adjacent (fun t => t = v ∨ t = w ∨ t ∈ visits ∧ t ≠ x ∧ ¬ adjacent x t) v w := by
  -- of the two neighbours the one visited first has the lexicographic advantage
  have hpart : ∃ p q, adjacent v p ∧ adjacent w q ∧
      Joined adjacent (Early adjacent visits x) p q := by
    rcases Nat.lt_trichotomy (visits.idxOf v) (visits.idxOf w) with hlt | heq | hlt
    · obtain ⟨p, q, hwp, hvq, hpq⟩ := hfour.exists_joined_of_lt hsymm hx hlt hwx hw hv hno
      exact ⟨q, p, hvq, hwp, hpq.symm fun v w _ hvw _ _ => hsymm v w hvw⟩
    · exact absurd ((List.idxOf_inj (mem_of_idxOf_lt_idxOf hvx)).1 heq) hne
    · exact hfour.exists_joined_of_lt hsymm hx hlt hvx hv hw fun hadj => hno (hsymm w v hadj)
  obtain ⟨p, q, hvp, hwq, hpq⟩ := hpart
  have hearly : ∀ t, Early adjacent visits x t →
      t = v ∨ t = w ∨ t ∈ visits ∧ t ≠ x ∧ ¬ adjacent x t := fun t ht =>
    Or.inr (Or.inr ⟨mem_of_idxOf_lt_idxOf ht.1, fun heq => Nat.lt_irrefl _ (heq ▸ ht.1),
      fun hadj => ht.2 (hsymm x t hadj)⟩)
  have hmiddle := hpq.mono (fun v w _ hvw _ _ => hvw) hearly
  exact ((Joined.step hvp (Or.inl rfl) hmiddle.left).trans hmiddle).trans
    (Joined.step (hsymm w q hwq) hmiddle.right (Or.inr (Or.inl rfl)))

end FourPoints

end CliquePath
