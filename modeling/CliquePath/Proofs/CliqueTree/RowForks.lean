import CliquePath.Proofs.CliqueTree.Forks
import CliquePath.Proofs.CliqueTree.Opening

set_option autoImplicit false

/-!
# Forks in the row of a Q-node

This module shows that a Q-node gives a fork when all neighbours below it belong to the sections
from `p` to `q`, neither of which is at an end of the row. To the left of `p`, the fork ends at the
last position from which a vertex still leaves `q` to the right; every gap from there to `p` is
crossed by a vertex that stops in front of `q`. The right side is the same with the row turned
around.
-/

namespace CliquePath

open Node

namespace Row

variable {row : Row (Section Node)} {nbrs : List Vertex} {i j lo hi p q : Nat} {v w x y : Vertex}
variable {P : Vertex → Prop}

/-- The vertex belongs to a clique below section `i`. -/
def covers (row : Row (Section Node)) (i : Nat) (v : Vertex) : Prop :=
  ∃ s, row.toList[i]? = some s ∧ (v ∈ s.held ∨ v ∈ s.son.vertices)

theorem covers_of_pattern (h : row.pattern i v) : row.covers i v := by
  obtain ⟨s, hs, hv⟩ := pattern_iff.1 h
  exact ⟨s, hs, Or.inl hv⟩

theorem exists_covers_iff : (∃ i, row.covers i v) ↔ v ∈ (qnode row).vertices := by
  rw [mem_vertices_qnode]
  constructor
  · rintro ⟨i, s, hs, hv⟩
    exact ⟨s, List.mem_of_getElem? hs, hv⟩
  · rintro ⟨s, hs, hv⟩
    obtain ⟨i, hi⟩ := List.mem_iff_getElem?.1 hs
    exact ⟨i, s, hi, hv⟩

/-- A vertex held by the row belongs to the sections that hold it. -/
theorem Standing.covers_spans (h : row.Standing) {s e : Nat} (hs : row.pattern.Spans v s e)
    (hse : s ≤ e) (hv : row.covers i v) : s ≤ i ∧ i ≤ e := by
  obtain ⟨t, ht, hvt⟩ := hv
  refine (hs i).1 (pattern_iff.2 ⟨t, ht, hvt.resolve_right fun hson => ?_⟩)
  obtain ⟨r, hr, hvr⟩ := pattern_iff.1 (hs.held (Nat.le_refl s) hse)
  exact h.apart.held r (List.mem_of_getElem? hr) t (List.mem_of_getElem? ht) v hvr hson

/-- A vertex below a section belongs to that section only. -/
theorem Standing.eq_of_covers (h : row.Standing) {s : Section Node} (hs : row.toList[i]? = some s)
    (hv : v ∈ s.son.vertices) (hj : row.covers j v) : j = i := by
  obtain ⟨t, ht, hvt⟩ := hj
  obtain ⟨hi, hsi⟩ := List.getElem?_eq_some_iff.1 hs
  obtain ⟨hj, htj⟩ := List.getElem?_eq_some_iff.1 ht
  have hson : v ∈ t.son.vertices := hvt.resolve_left fun hheld =>
    h.apart.held t (List.mem_of_getElem? ht) s (List.mem_of_getElem? hs) v hheld hv
  have hsons := List.pairwise_iff_getElem.1 h.apart.sons
  subst hsi htj
  rcases Nat.lt_trichotomy i j with hij | rfl | hij
  · exact absurd hson (hsons i j hi hj hij v hv)
  · rfl
  · exact absurd hv (hsons j i hj hi hij v hson)

/-! ## Sharing a bag -/

theorem shares_of_pattern (h : (qnode row).Proper) (hv : row.pattern i v) (hw : row.covers i w) :
    Shares {B | B ∈ (qnode row).bags} v w := by
  cases h with
  | qnode standing proper =>
      obtain ⟨s, hs, hvs⟩ := pattern_iff.1 hv
      obtain ⟨t, ht, hwt⟩ := hw
      rw [hs, Option.some.injEq] at ht
      subst ht
      have hsm : s ∈ row.toList := List.mem_of_getElem? hs
      have hw' := hwt.imp_right (proper s hsm).mem_vertices.1
      obtain ⟨B, hB, hwB⟩ := (mem_bags_under (proper s hsm).bags_ne_nil).2 hw'
      obtain ⟨C, hC, rfl⟩ := mem_bagsUnder.1 hB
      refine ⟨_, ?_, Or.inl hvs, hwB⟩
      rw [Set.mem_ofPred_eq, bags_qnode, List.mem_flatMap]
      exact ⟨s, hsm, hB⟩

theorem exists_covers_of_shares (h : (qnode row).Proper)
    (hs : Shares {B | B ∈ (qnode row).bags} v w) : ∃ i, row.covers i v ∧ row.covers i w := by
  cases h with
  | qnode standing proper =>
      obtain ⟨B, hB, hv, hw⟩ := hs
      rw [Set.mem_ofPred_eq, bags_qnode, List.mem_flatMap] at hB
      obtain ⟨s, hs, hB⟩ := hB
      obtain ⟨i, hi⟩ := List.mem_iff_getElem?.1 hs
      have hne := (proper s hs).bags_ne_nil
      have hv' := (mem_bags_under hne).1 ⟨B, hB, hv⟩
      have hw' := (mem_bags_under hne).1 ⟨B, hB, hw⟩
      exact ⟨i, ⟨s, hi, hv'.imp_right (proper s hs).mem_vertices.2⟩, s, hi,
        hw'.imp_right (proper s hs).mem_vertices.2⟩

/-- From a vertex held at one position to one held at a later position, over gaps that are
crossed. -/
theorem joined_across (h : (qnode row).Proper) (hx : row.pattern lo x) (hPx : P x)
    (hlh : lo ≤ hi)
    (hgap : ∀ i, lo ≤ i → i < hi → ∃ v, P v ∧ row.pattern i v ∧ row.pattern (i + 1) v) :
    ∃ y, row.pattern hi y ∧ Joined (Shares {B | B ∈ (qnode row).bags}) P x y := by
  induction hi, hlh using Nat.le_induction with
  | base => exact ⟨x, hx, .refl hPx⟩
  | succ n hn ih =>
      obtain ⟨y, hy, hxy⟩ := ih fun i h1 h2 => hgap i h1 (by omega)
      obtain ⟨v, hPv, hvn, hvs⟩ := hgap n hn (by omega)
      exact ⟨v, hvs, hxy.trans (.step (shares_of_pattern h hy (covers_of_pattern hvn)) hxy.right
        hPv)⟩

/-- From a vertex below one position to one below a later position, over gaps that are crossed. -/
theorem joined_ends (h : (qnode row).Proper) (hx : row.covers lo x) (hPx : P x)
    (hy : row.covers hi y) (hPy : P y) (hlh : lo < hi)
    (hgap : ∀ i, lo ≤ i → i < hi → ∃ v, P v ∧ row.pattern i v ∧ row.pattern (i + 1) v) :
    Joined (Shares {B | B ∈ (qnode row).bags}) P x y := by
  obtain ⟨v, hPv, hv, -⟩ := hgap lo (Nat.le_refl _) hlh
  obtain ⟨w, hw, hvw⟩ := joined_across h hv hPv (by omega) hgap
  exact ((Joined.step (shares_of_pattern h hv hx).symm hPx hPv).trans hvw).trans
    (.step (shares_of_pattern h hw hy) hvw.right hPy)

/-! ## The fork -/

/-- Every position has a vertex that goes no further to the right. -/
theorem Standing.exists_stop (h : row.Standing) (hi : i < row.size) :
    ∃ l, row.covers i l ∧ ∀ j, row.covers j l → j ≤ i := by
  rcases h.filled i hi with ⟨s, hs, hne⟩ | ⟨⟨v, s, hsi, hv⟩, -⟩
  · obtain ⟨v, hv⟩ := List.exists_mem_of_ne_nil _ hne
    exact ⟨v, ⟨s, hs, Or.inr hv⟩, fun j hj => (h.eq_of_covers hs hv hj).le⟩
  · exact ⟨v, covers_of_pattern (hv.held (by omega) (Nat.le_refl i)),
      fun j hj => (h.covers_spans hv (by omega) hj).2⟩

/-- Every position has a vertex that goes no further to the left. -/
theorem Standing.exists_start (h : row.Standing) (hi : i < row.size) :
    ∃ r, row.covers i r ∧ ∀ j, row.covers j r → i ≤ j := by
  rcases h.filled i hi with ⟨s, hs, hne⟩ | ⟨-, v, e, hie, hv⟩
  · obtain ⟨v, hv⟩ := List.exists_mem_of_ne_nil _ hne
    exact ⟨v, ⟨s, hs, Or.inr hv⟩, fun j hj => (h.eq_of_covers hs hv hj).ge⟩
  · exact ⟨v, covers_of_pattern (hv.held (Nat.le_refl i) (by omega)),
      fun j hj => (h.covers_spans hv (by omega) hj).1⟩

/-- All neighbours below a Q-node belong to the sections from `p` to `q`, one of them to none to the
right of these and one to none to the left. -/
structure Confined (row : Row (Section Node)) (nbrs : List Vertex) (p q : Nat) : Prop where
  le : p ≤ q
  hold : ∀ v ∈ nbrs, ∀ i, row.covers i v → row.covers p v ∧ row.covers q v
  stop : ∃ a ∈ nbrs, row.covers p a ∧ ∀ i, row.covers i a → i ≤ q
  start : ∃ a ∈ nbrs, row.covers q a ∧ ∀ i, row.covers i a → p ≤ i

/-- A vertex below sections up to a position shares no bag with one below later sections only. -/
theorem not_shares_of_lt (h : (qnode row).Proper) (hv : ∀ i, row.covers i v → i ≤ j)
    (hw : ∀ i, row.covers i w → j < i) : ¬ Shares {B | B ∈ (qnode row).bags} v w := by
  intro hs
  obtain ⟨i, hiv, hiw⟩ := exists_covers_of_shares h hs
  have h1 := hv i hiv
  have h2 := hw i hiw
  omega

/-- From a neighbour to a vertex `l` left of `p`, around a vertex `r` right of `e`. The path crosses
the front of `p` with `y` and goes on over gaps crossed by vertices that stop in front of `q`. -/
theorem Confined.joined_left {f e ys yt : Nat} {l r : Vertex} (hc : row.Confined nbrs p q)
    (h : (qnode row).Proper) (hst : row.Standing) (hf0 : 0 < f) (hfp : f ≤ p) (hqe : q ≤ e)
    (hy : row.pattern.Spans y ys yt) (hyp : ys < p) (hpy : p ≤ yt) (hye : yt ≤ e)
    (hleft : ∀ i, f ≤ i + 1 → i + 1 < p →
      ∃ v s t, row.pattern.Spans v s t ∧ s ≤ i ∧ i < t ∧ t < q)
    (hl : row.covers (f - 1) l) (hlstop : ∀ i, row.covers i l → i ≤ f - 1)
    (hrstart : ∀ i, row.covers i r → e < i) :
    ∃ a ∈ nbrs, Joined (Shares {B | B ∈ (qnode row).bags})
      (fun v => ¬ Shares {B | B ∈ (qnode row).bags} v r) a l := by
  have hpq := hc.le
  -- What stops at `e` avoids `r`.
  have havoid : ∀ v, (∀ i, row.covers i v → i ≤ e) → ¬ Shares {B | B ∈ (qnode row).bags} v r :=
    fun v hv => not_shares_of_lt h hv hrstart
  obtain ⟨a, ha, hap, hastop⟩ := hc.stop
  have hyr : ¬ Shares {B | B ∈ (qnode row).bags} y r := by
    apply havoid
    intro i hi
    have := hst.covers_spans hy (by omega) hi
    omega
  have har : ¬ Shares {B | B ∈ (qnode row).bags} a r := by
    apply havoid
    intro i hi
    have := hastop i hi
    omega
  have hlr : ¬ Shares {B | B ∈ (qnode row).bags} l r := by
    apply havoid
    intro i hi
    have := hlstop i hi
    omega
  have hay : Joined (Shares {B | B ∈ (qnode row).bags})
      (fun v => ¬ Shares {B | B ∈ (qnode row).bags} v r) a y :=
    .step (shares_of_pattern h (hy.held (by omega) hpy) hap).symm har hyr
  refine ⟨a, ha, hay.trans ?_⟩
  rcases Nat.lt_or_eq_of_le hfp with hfp' | rfl
  · have hyc : row.covers (p - 1) y := covers_of_pattern (hy.held (by omega) (by omega))
    refine Joined.symm (fun _ _ _ hs _ _ => hs.symm)
      (joined_ends h hl hlr hyc hyr (by omega) fun i h1 h2 => ?_)
    obtain ⟨v, s, t, hv, hsi, hit, htq⟩ := hleft i (by omega) (by omega)
    refine ⟨v, havoid v fun j hj => ?_, hv.held hsi (by omega), hv.held (by omega) (by omega)⟩
    have := hst.covers_spans hv (by omega) hj
    omega
  · exact .step (shares_of_pattern h (hy.held (by omega) (by omega)) hl) hyr hlr

/-- From a neighbour to a vertex `r` right of `q`, around a vertex `l` left of `f`. -/
theorem Confined.joined_right {f e zs zt : Nat} {l r z : Vertex} (hc : row.Confined nbrs p q)
    (h : (qnode row).Proper) (hst : row.Standing) (hf0 : 0 < f) (hfp : f ≤ p) (hqe : q ≤ e)
    (hz : row.pattern.Spans z zs zt) (hfz : f ≤ zs) (hzq : zs ≤ q) (hqz : q < zt)
    (hright : ∀ i, q < i → i ≤ e → ∃ v s t, row.pattern.Spans v s t ∧ p < s ∧ s ≤ i ∧ i < t)
    (hr : row.covers (e + 1) r) (hrstart : ∀ i, row.covers i r → e < i)
    (hlstop : ∀ i, row.covers i l → i ≤ f - 1) :
    ∃ a ∈ nbrs, Joined (Shares {B | B ∈ (qnode row).bags})
      (fun v => ¬ Shares {B | B ∈ (qnode row).bags} v l) a r := by
  have hpq := hc.le
  -- What starts at `f` avoids `l`.
  have havoid : ∀ v, (∀ i, row.covers i v → f ≤ i) →
      ¬ Shares {B | B ∈ (qnode row).bags} v l := by
    intro v hv hs
    refine not_shares_of_lt h hlstop (fun i hi => ?_) hs.symm
    have := hv i hi
    omega
  obtain ⟨a, ha, haq, hastart⟩ := hc.start
  have hzl : ¬ Shares {B | B ∈ (qnode row).bags} z l := by
    apply havoid
    intro i hi
    have := hst.covers_spans hz (by omega) hi
    omega
  have hal : ¬ Shares {B | B ∈ (qnode row).bags} a l := by
    apply havoid
    intro i hi
    have := hastart i hi
    omega
  have hrl : ¬ Shares {B | B ∈ (qnode row).bags} r l := by
    apply havoid
    intro i hi
    have := hrstart i hi
    omega
  have haz : Joined (Shares {B | B ∈ (qnode row).bags})
      (fun v => ¬ Shares {B | B ∈ (qnode row).bags} v l) a z :=
    .step (shares_of_pattern h (hz.held hzq (by omega)) haq).symm hal hzl
  obtain ⟨w, hw, hzw⟩ := joined_across h (hz.held (by omega) (by omega)) hzl
    (by omega : q + 1 ≤ e + 1) fun i h1 h2 => by
      obtain ⟨v, s, t, hv, hps, hsi, hit⟩ := hright i (by omega) (by omega)
      refine ⟨v, havoid v fun j hj => ?_, hv.held hsi (by omega), hv.held (by omega) (by omega)⟩
      have := hst.covers_spans hv (by omega) hj
      omega
  exact ⟨a, ha, haz.trans (hzw.trans (.step (shares_of_pattern h hw hr) hzw.right hrl))⟩

/-- A vertex that misses `p` or `q` is not a neighbour. -/
theorem Confined.not_mem (hc : row.Confined nbrs p q) (hv : row.covers i v)
    (hno : ¬ row.covers p v ∨ ¬ row.covers q v) : v ∉ nbrs := by
  intro hn
  obtain ⟨h1, h2⟩ := hc.hold v hn i hv
  rcases hno with hno | hno
  · exact hno h1
  · exact hno h2

/-- Neighbours confined to the inner part of a row give a fork. Its ends are joined around the
neighbours if all gaps from `p` to `q` and the gaps beside them are crossed by other vertices. -/
theorem Confined.exists_fork (hc : row.Confined nbrs p q) (h : (qnode row).Proper) (hp : 0 < p)
    (hq : q + 1 < row.size) :
    ∃ l r, Forked {B | B ∈ (qnode row).bags} nbrs l r ∧
      ((∀ i, p ≤ i + 1 → i ≤ q → ∃ x, x ∉ nbrs ∧ row.pattern i x ∧ row.pattern (i + 1) x) →
        Detached {B | B ∈ (qnode row).bags} nbrs l r) := by
  have hst : row.Standing := by
    cases h with
    | qnode standing proper => exact standing
  have hpq := hc.le
  obtain ⟨f, hf0, hfp, ⟨z, zs, zt, hz, hfz, hzq, hqz⟩, hleft⟩ := hst.rigid.exists_left hp hpq hq
  obtain ⟨e, hqe, hem, ⟨y, ys, yt, hy, hyp, hpy, hye⟩, hright⟩ := hst.rigid.exists_right hp hpq hq
  obtain ⟨l, hl, hlstop⟩ := hst.exists_stop (i := f - 1) (by omega)
  obtain ⟨r, hr, hrstart⟩ := hst.exists_start (i := e + 1) (by omega)
  have hln : l ∉ nbrs := hc.not_mem hl (Or.inl fun hlp => by
    have := hlstop p hlp
    omega)
  have hrn : r ∉ nbrs := hc.not_mem hr (Or.inr fun hrq => by
    have := hrstart q hrq
    omega)
  refine ⟨l, r, ⟨hln, hrn, ?_, ?_⟩, fun hgaps => ?_⟩
  · exact hc.joined_left h hst hf0 hfp hqe hy hyp hpy hye hleft hl hlstop hrstart
  · exact hc.joined_right h hst hf0 hfp hqe hz hfz hzq hqz hright hr hrstart hlstop
  · -- What crosses a gap left of `p` stops in front of `q`, and the other way round.
    refine joined_ends h hl hln hr hrn (by omega) fun i h1 h2 => ?_
    rcases Nat.lt_or_ge (i + 1) p with hip | hip
    · obtain ⟨v, s, t, hv, hsi, hit, htq⟩ := hleft i (by omega) hip
      have hvi : row.pattern i v := hv.held hsi (by omega)
      refine ⟨v, hc.not_mem (covers_of_pattern hvi) (Or.inr fun hvq => ?_), hvi,
        hv.held (by omega) (by omega)⟩
      have := hst.covers_spans hv (by omega) hvq
      omega
    rcases Nat.lt_or_ge q i with hqi | hqi
    · obtain ⟨v, s, t, hv, hps, hsi, hit⟩ := hright i hqi (by omega)
      have hvi : row.pattern i v := hv.held hsi (by omega)
      refine ⟨v, hc.not_mem (covers_of_pattern hvi) (Or.inl fun hvp => ?_), hvi,
        hv.held (by omega) (by omega)⟩
      have := hst.covers_spans hv (by omega) hvp
      omega
    · exact hgaps i hip hqi

end Row

end CliquePath
