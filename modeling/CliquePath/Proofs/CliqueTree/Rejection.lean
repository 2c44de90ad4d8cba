import CliquePath.Proofs.CliqueTree.RowForks
import CliquePath.Proofs.CliqueTree.Soundness

set_option autoImplicit false

/-!
# What a rejection shows

This module shows that a node in normal form has room for a vertex whose neighbours are pairwise in
one bag, unless there is a fork: by induction over the node, an opening that fails gives a fork, and
a growth that fails gives a fork whose ends are joined around the neighbours.
-/

namespace CliquePath

open Node

/-- The neighbours below the node are pairwise in one bag. -/
def Node.Clique (nbrs : List Vertex) (N : Node) : Prop :=
  ∀ v ∈ nbrs, ∀ w ∈ nbrs, v ∈ N.vertices → w ∈ N.vertices → Shares {B | B ∈ N.bags} v w

namespace Row

variable {row : Row (Section Node)} {nbrs : List Vertex} {before after : List (Section Node)}
variable {s : Section Node} {v : Vertex}

/-- Neighbours below one section and held by that section are confined to it. -/
theorem confined_section (hst : row.Standing) (hrow : row.toList = before ++ s :: after)
    (hmeet : s.son.meets nbrs = true)
    (hmiss : ∀ t ∈ before ++ after, t.son.meets nbrs = false)
    (hown : ∀ v ∈ nbrs, (∃ t ∈ row.toList, v ∈ t.held) → v ∈ s.held) :
    row.Confined nbrs before.length before.length := by
  have hs : row.toList[before.length]? = some s := by simp [hrow]
  obtain ⟨a, ha, has⟩ := meets_iff.1 hmeet
  have hone : ∀ i, row.covers i a → i = before.length := fun i hi => hst.eq_of_covers hs has hi
  have hhold : ∀ v ∈ nbrs, ∀ i, row.covers i v → row.covers before.length v := by
    intro v hv i hi
    have hvr := exists_covers_iff.1 ⟨i, hi⟩
    exact ⟨s, hs, ((mem_vertices_qnode_of_one hrow hmiss hv).1 hvr).imp_left (hown v hv)⟩
  exact ⟨Nat.le_refl _, fun v hv i hi => ⟨hhold v hv i hi, hhold v hv i hi⟩,
    ⟨a, ha, ⟨s, hs, Or.inr has⟩, fun i hi => (hone i hi).le⟩,
    ⟨a, ha, ⟨s, hs, Or.inr has⟩, fun i hi => (hone i hi).ge⟩⟩

/-- Neighbours that the row holds and that are pairwise in one bag have consecutive sections in
common, from the last start of a span to the first stop. -/
theorem exists_confined (h : (qnode row).Proper) (hclique : (qnode row).Clique nbrs)
    (hmiss : ∀ t ∈ row.toList, t.son.meets nbrs = false) (hne : ∃ v, v ∈ row.owned nbrs) :
    ∃ p q, row.Confined nbrs p q ∧ q < row.size ∧
      ∀ i, (∀ v ∈ row.owned nbrs, row.pattern i v) ↔ p ≤ i ∧ i ≤ q := by
  classical
  have hst : row.Standing := by
    cases h with
    | qnode standing proper => exact standing
  have hspans : ∀ v, ∃ s e, v ∈ row.owned nbrs → s < e ∧ e < row.size ∧ row.pattern.Spans v s e := by
    intro v
    by_cases hv : v ∈ row.owned nbrs
    · obtain ⟨i, hi⟩ := exists_pattern_iff.2 (mem_owned.1 hv).2
      obtain ⟨s, e, hse⟩ := hst.rigid.lined i v hi
      exact ⟨s, e, fun _ => hse⟩
    · exact ⟨0, 0, fun h => absurd h hv⟩
  choose start stop hspan using hspans
  have hnonempty : (row.owned nbrs).toFinset.Nonempty := by
    obtain ⟨v, hv⟩ := hne
    exact ⟨v, List.mem_toFinset.2 hv⟩
  obtain ⟨a, ha, hamax⟩ := (row.owned nbrs).toFinset.exists_max_image start hnonempty
  obtain ⟨b, hb, hbmin⟩ := (row.owned nbrs).toFinset.exists_min_image stop hnonempty
  simp only [List.mem_toFinset] at ha hamax hb hbmin
  obtain ⟨hase, haem, has⟩ := hspan a ha
  obtain ⟨hbse, hbem, hbs⟩ := hspan b hb
  have howned : ∀ v ∈ nbrs, ∀ i, row.covers i v → v ∈ row.owned nbrs := by
    intro v hv i hi
    have hvr := exists_covers_iff.1 ⟨i, hi⟩
    exact mem_owned.2 ⟨hv, (mem_vertices_qnode_of_absent hmiss hv).1 hvr⟩
  have hvertex : ∀ v ∈ row.owned nbrs, v ∈ (qnode row).vertices := by
    intro v hv
    obtain ⟨-, t, ht, hvt⟩ := mem_owned.1 hv
    exact mem_vertices_qnode.2 ⟨t, ht, Or.inl hvt⟩
  -- Two spans meet since their vertices are in one bag.
  have hle : start a ≤ stop b := by
    obtain ⟨i, hia, hib⟩ := exists_covers_of_shares h
      (hclique a (mem_owned.1 ha).1 b (mem_owned.1 hb).1 (hvertex a ha) (hvertex b hb))
    have h1 := hst.covers_spans has (by omega) hia
    have h2 := hst.covers_spans hbs (by omega) hib
    omega
  have hall : ∀ i, start a ≤ i → i ≤ stop b → ∀ v ∈ row.owned nbrs, row.pattern i v := by
    intro i h1 h2 v hv
    have h3 := hamax v hv
    have h4 := hbmin v hv
    exact (hspan v hv).2.2.held (by omega) (by omega)
  refine ⟨start a, stop b, ⟨hle, ?_, ?_, ?_⟩, hbem, fun i => ⟨fun hi => ?_, fun hi => hall i hi.1 hi.2⟩⟩
  · intro v hv i hi
    have hvo := howned v hv i hi
    exact ⟨covers_of_pattern (hall _ (Nat.le_refl _) hle v hvo),
      covers_of_pattern (hall _ hle (Nat.le_refl _) v hvo)⟩
  · exact ⟨b, (mem_owned.1 hb).1, covers_of_pattern (hall _ (Nat.le_refl _) hle b hb),
      fun i hi => (hst.covers_spans hbs (by omega) hi).2⟩
  · exact ⟨a, (mem_owned.1 ha).1, covers_of_pattern (hall _ hle (Nat.le_refl _) a ha),
      fun i hi => (hst.covers_spans has (by omega) hi).1⟩
  · exact ⟨has.start_le (hi a ha), hbs.le_stop (hi b hb)⟩

end Row

namespace Node

variable {held nbrs : List Vertex} {N : Node} {u v w x : Vertex}
variable {children : List Node} {row : Row (Section Node)}

/-! ## Neighbours in different parts -/

theorem clique_child {c : Node} (hp : (pnode held children).Proper)
    (hclique : (pnode held children).Clique nbrs) (hc : c ∈ children) (hcp : c.Proper) :
    c.Clique nbrs := by
  intro v hv w hw hvc hwc
  refine (hp.within_child hc).shares v w ((exists_bags_iff hcp).2 hvc)
    ((exists_bags_iff hcp).2 hwc) ?_
  exact hclique v hv w hw (mem_vertices_pnode.2 (Or.inr ⟨c, hc, hvc⟩))
    (mem_vertices_pnode.2 (Or.inr ⟨c, hc, hwc⟩))

theorem clique_section {s : Section Node} (hp : (qnode row).Proper)
    (hclique : (qnode row).Clique nbrs) (hs : s ∈ row.toList) (hsp : s.son.Proper) :
    s.son.Clique nbrs := by
  intro v hv w hw hvs hws
  refine (hp.within_section hs).shares v w ((exists_bags_iff hsp).2 hvs)
    ((exists_bags_iff hsp).2 hws) ?_
  exact hclique v hv w hw (mem_vertices_qnode.2 ⟨s, hs, Or.inr hvs⟩)
    (mem_vertices_qnode.2 ⟨s, hs, Or.inr hws⟩)

/-- Neighbours that are pairwise in one bag do not lie below two children. -/
theorem not_several_children (hp : (pnode held children).Proper)
    (hclique : (pnode held children).Clique nbrs) :
    Sole.find (meets nbrs) children ≠ .several := by
  intro hfind
  obtain ⟨before, c, mid, d, after, hsplit, hc, hd⟩ := Sole.find_eq_several hfind
  obtain ⟨v, hv, hvc⟩ := meets_iff.1 hc
  obtain ⟨w, hw, hwd⟩ := meets_iff.1 hd
  have hcm : c ∈ children := by simp [hsplit]
  have hdm : d ∈ children := by simp [hsplit]
  have hshare := hclique v hv w hw (mem_vertices_pnode.2 (Or.inr ⟨c, hcm, hvc⟩))
    (mem_vertices_pnode.2 (Or.inr ⟨d, hdm, hwd⟩))
  cases hp with
  | pnode nodup apart sons firm arity proper =>
      obtain ⟨B, hB, hvB, hwB⟩ := hshare
      rw [Set.mem_ofPred_eq, bags_pnode, List.mem_flatMap] at hB
      obtain ⟨e, he, hB⟩ := hB
      obtain ⟨C, hC, rfl⟩ := mem_bagsUnder.1 hB
      have hve : v ∈ e.vertices := (proper e he).mem_vertices.2
        ⟨C, hC, hvB.resolve_left fun h => apart c hcm v h hvc⟩
      have hwe : w ∈ e.vertices := (proper e he).mem_vertices.2
        ⟨C, hC, hwB.resolve_left fun h => apart d hdm w h hwd⟩
      -- `e` is the child `c`, so `w` lies below both `c` and `d`.
      obtain rfl : e = c := eq_of_disjoint sons he hcm hve hvc
      rw [hsplit] at sons
      exact (disjoint_middle_iff.1 sons).1 d (by simp) w hwe hwd

theorem not_several_sections (hp : (qnode row).Proper)
    (hclique : (qnode row).Clique nbrs) :
    Sole.find (fun s : Section Node => s.son.meets nbrs) row.toList ≠ .several := by
  intro hfind
  obtain ⟨before, s, mid, t, after, hsplit, hs, ht⟩ := Sole.find_eq_several hfind
  obtain ⟨v, hv, hvs⟩ := meets_iff.1 hs
  obtain ⟨w, hw, hwt⟩ := meets_iff.1 ht
  have hsm : s ∈ row.toList := by simp [hsplit]
  have htm : t ∈ row.toList := by simp [hsplit]
  -- Two neighbours below different sections share no bag.
  obtain ⟨i, hiv, hiw⟩ := Row.exists_covers_of_shares hp (hclique v hv w hw
    (mem_vertices_qnode.2 ⟨s, hsm, Or.inr hvs⟩) (mem_vertices_qnode.2 ⟨t, htm, Or.inr hwt⟩))
  cases hp with
  | qnode standing proper =>
      have h1 : i = before.length := standing.eq_of_covers (by simp [hsplit]) hvs hiv
      have h2 : i = before.length + 1 + mid.length := by
        refine standing.eq_of_covers ?_ hwt hiw
        rw [hsplit, List.getElem?_append_right (by omega), show before.length + 1 + mid.length -
          before.length = mid.length + 1 by omega, List.getElem?_cons_succ,
          List.getElem?_append_right (by omega), Nat.sub_self, List.getElem?_cons_zero]
      omega

/-- Neighbours in the row are held by the section below which another neighbour lies. -/
theorem holdsAll_of_clique {s : Section Node} (hp : (qnode row).Proper)
    (hclique : (qnode row).Clique nbrs) (hs : s ∈ row.toList) (hmeet : s.son.meets nbrs = true) :
    holdsAll (row.owned nbrs) s.held = true := by
  rw [owned_held_iff]
  rintro v hv ⟨t, ht, hvt⟩
  obtain ⟨w, hw, hws⟩ := meets_iff.1 hmeet
  obtain ⟨i, hiv, hiw⟩ := Row.exists_covers_of_shares hp (hclique v hv w hw
    (mem_vertices_qnode.2 ⟨t, ht, Or.inl hvt⟩) (mem_vertices_qnode.2 ⟨s, hs, Or.inr hws⟩))
  cases hp with
  | qnode standing proper =>
      obtain ⟨j, hj⟩ := List.mem_iff_getElem?.1 hs
      have hij : i = j := standing.eq_of_covers hj hws hiw
      subst hij
      obtain ⟨r, hr, hvr⟩ := hiv
      rw [hj, Option.some.injEq] at hr
      subst hr
      exact hvr.resolve_right fun h => standing.apart.held t ht s hs v hvt h

/-- A vertex held by a P-node is in all bags below it. -/
theorem shares_held_child {c : Node} (hc : c ∈ children) (hx : x ∈ held)
    (hv : ∃ B ∈ {B | B ∈ c.bags}, v ∈ B) : Shares {B | B ∈ (pnode held children).bags} v x := by
  obtain ⟨B, hB, hvB⟩ := hv
  refine ⟨{v | v ∈ held} ∪ B, ?_, Or.inr hvB, Or.inl hx⟩
  rw [Set.mem_ofPred_eq, bags_pnode, List.mem_flatMap]
  exact ⟨c, hc, mem_bagsUnder.2 ⟨B, hB, rfl⟩⟩

theorem shares_held_section {s : Section Node} (hs : s ∈ row.toList) (hx : x ∈ s.held)
    (hv : ∃ B ∈ {B | B ∈ s.son.bags}, v ∈ B) : Shares {B | B ∈ (qnode row).bags} v x := by
  obtain ⟨B, hB, hvB⟩ := hv
  refine ⟨{v | v ∈ s.held} ∪ B, ?_, Or.inr hvB, Or.inl hx⟩
  rw [Set.mem_ofPred_eq, bags_qnode, List.mem_flatMap]
  exact ⟨s, hs, mem_bagsUnder.2 ⟨B, hB, rfl⟩⟩

/-! ## Openings that fail -/

theorem ofRow?_ne_none {i : Nat}
    (hall : ∀ v ∈ row.owned nbrs, row.pattern i v) (hi : i < row.size)
    (hend : i = 0 ∨ i + 1 = row.size) : Opening.ofRow? nbrs row ≠ none := by
  have hlt : i < row.toList.length := by rwa [Row.length_toList]
  have hheld : holdsAll (row.owned nbrs) (row.toList[i]).held = true := by
    rw [holdsAll_iff]
    intro v hv
    obtain ⟨t, ht, hvt⟩ := Row.pattern_iff.1 (hall v hv)
    rw [List.getElem?_eq_getElem hlt, Option.some.injEq] at ht
    rwa [ht]
  unfold Opening.ofRow?
  dsimp only
  split
  next => simp
  -- At the left end, the second test finds the section; at the right end, the first one did.
  next hlast =>
    rcases hend with rfl | hlen
    · rw [if_pos]
      · simp
      · rw [List.head?_eq_getElem?, List.getElem?_eq_getElem hlt]
        simpa using hheld
    · exfalso
      apply hlast
      rw [List.getLast?_eq_getElem?, show row.toList.length - 1 = i by
        rw [Row.length_toList]; omega, List.getElem?_eq_getElem hlt]
      simpa using hheld

/-- The ways in which a P-node is not opened. -/
theorem opening?_pnode_none (ho : (pnode held children).opening? nbrs = none) :
    Sole.find (meets nbrs) children = .several ∨
      ∃ c ∈ children, c.meets nbrs = true ∧ c.opening? nbrs = none := by
  rw [opening?] at ho
  split at ho
  next => cases ho
  next hfind => exact Or.inl hfind
  next before c after hfind =>
    exact Or.inr ⟨c, Sole.mem_of_find hfind, (Sole.find_eq_one hfind).1,
      Option.map_eq_none_iff.1 ho⟩

/-- The ways in which a Q-node is not opened. -/
theorem opening?_qnode_none (ho : (qnode row).opening? nbrs = none) :
    (∀ s ∈ row.toList, s.son.meets nbrs = false) ∧ Opening.ofRow? nbrs row = none ∨
      Sole.find (fun s : Section Node => s.son.meets nbrs) row.toList = .several ∨
      ∃ before s after, row.toList = before ++ s :: after ∧ s.son.meets nbrs = true ∧
        (∀ t ∈ before ++ after, t.son.meets nbrs = false) ∧
        (holdsAll (row.owned nbrs) s.held = false ∨ s.son.opening? nbrs = none ∨
          before ≠ [] ∧ after ≠ []) := by
  rw [opening?] at ho
  split at ho
  next hfind => exact Or.inl ⟨Sole.find_eq_absent hfind, ho⟩
  next hfind => exact Or.inr (Or.inl hfind)
  next before s after hfind =>
    right; right
    obtain ⟨hs, hmiss⟩ := Sole.find_eq_one hfind
    refine ⟨before, s, after, Sole.eq_append_of_find hfind, hs, hmiss, ?_⟩
    split at ho
    next hheld => exact Or.inl (by simpa using hheld)
    next =>
      right
      -- Neither end: sections stand on both sides.
      split at ho
      next => exact Or.inl (Option.map_eq_none_iff.1 ho)
      next hfirst =>
        split at ho
        next => exact Or.inl (Option.map_eq_none_iff.1 ho)
        next hlast =>
          rw [List.isEmpty_iff] at hfirst hlast
          exact Or.inr ⟨hfirst, hlast⟩

/-- Neighbours that are pairwise in one bag and held by the row go to an end of it or give a
fork. -/
theorem forked_of_ofRow? (hp : (qnode row).Proper) (hclique : (qnode row).Clique nbrs)
    (hmiss : ∀ t ∈ row.toList, t.son.meets nbrs = false) (hne : ∃ v, v ∈ row.owned nbrs)
    (ho : Opening.ofRow? nbrs row = none) : ∃ l r, Forked {B | B ∈ (qnode row).bags} nbrs l r := by
  obtain ⟨p, q, hconfined, hqm, hall⟩ := Row.exists_confined hp hclique hmiss hne
  have hpq := hconfined.le
  have hp0 : 0 < p := by
    by_contra h0
    apply ofRow?_ne_none (i := 0) ((hall 0).2 (by omega)) (by omega) (Or.inl rfl) ho
  have hq1 : q + 1 < row.size := by
    by_contra h1
    apply ofRow?_ne_none (i := q) ((hall q).2 (by omega)) hqm (Or.inr (by omega)) ho
  obtain ⟨l, r, hf, -⟩ := hconfined.exists_fork hp hp0 hq1
  exact ⟨l, r, hf⟩

/-- An opening of neighbours that are pairwise in one bag fails only if there is a fork. -/
theorem Proper.forked_of_opening (hN : N.Proper) (hclique : N.Clique nbrs)
    (hmeet : N.meets nbrs = true) (ho : N.opening? nbrs = none) :
    ∃ l r, Forked {B | B ∈ N.bags} nbrs l r := by
  -- A fork of a lower place is one of the whole node.
  induction hN with
  | @leaf held nodup =>
      rw [opening?] at ho
      cases ho
  | @pnode held children nodup apart sons firm arity proper ih =>
      have hp := Proper.pnode nodup apart sons firm arity proper
      rcases opening?_pnode_none ho with hfind | ⟨c, hc, hmeetc, hnone⟩
      · exact absurd hfind (not_several_children hp hclique)
      · obtain ⟨l, r, hf⟩ := ih c hc (clique_child hp hclique hc (proper c hc)) hmeetc hnone
        exact ⟨l, r, (hp.within_child hc).lift_forked hf⟩
  | @qnode row standing proper ih =>
      have hp := Proper.qnode standing proper
      rcases opening?_qnode_none ho with ⟨hmiss, ho⟩ | hfind |
        ⟨before, s, after, hrow, hs, hmiss, hways⟩
      · exact forked_of_ofRow? hp hclique hmiss (exists_owned_of_absent hmeet hmiss) ho
      · exact absurd hfind (not_several_sections hp hclique)
      · have hsm : s ∈ row.toList := by simp [hrow]
        have hheld := holdsAll_of_clique hp hclique hsm hs
        rcases hways with hno | hnone | ⟨hfirst, hlast⟩
        · rw [hheld] at hno
          cases hno
        · obtain ⟨l, r, hf⟩ := ih s hsm (clique_section hp hclique hsm (proper s hsm)) hs hnone
          exact ⟨l, r, (hp.within_section hsm).lift_forked hf⟩
        · -- The path goes through an inner section.
          have hconfined := Row.confined_section standing hrow hs hmiss (owned_held_iff.1 hheld)
          have hsize := Opening.size_of_eq hrow
          have hbefore := List.length_pos_iff.2 hfirst
          have hafter := List.length_pos_iff.2 hlast
          obtain ⟨l, r, hf, -⟩ := hconfined.exists_fork hp hbefore (by omega)
          exact ⟨l, r, hf⟩

/-! ## Growth that fails -/

/-- A gap that does not fit is crossed by a vertex that is no neighbour. -/
theorem crossed_of_not_gapFits {i : Nat} (hi : 0 < i)
    (him : i < row.size) (h : gapFits nbrs row.toList i = false) :
    ∃ x, x ∉ nbrs ∧ row.pattern (i - 1) x ∧ row.pattern i x := by
  have hl : i - 1 < row.toList.length := by
    rw [Row.length_toList]
    omega
  have hr : i < row.toList.length := by rwa [Row.length_toList]
  by_contra hno
  push Not at hno
  have hfits : gapFits nbrs row.toList i = true := by
    refine gapFits_iff.2 ⟨hi, _, _, List.getElem?_eq_getElem hl, List.getElem?_eq_getElem hr, ?_⟩
    refine partsBeyond_iff.2 fun v hvl hvr => ?_
    by_contra hn
    exact hno v hn (Row.pattern_iff.2 ⟨_, List.getElem?_eq_getElem hl, hvl⟩)
      (Row.pattern_iff.2 ⟨_, List.getElem?_eq_getElem hr, hvr⟩)
  rw [h] at hfits
  cases hfits

theorem not_gapFits_of_gap? {sections : List (Section Node)} {low high : Nat}
    (h : gap? nbrs sections low high = none) :
    0 < low ∧ high + 1 ≠ sections.length ∧
      ∀ i, low ≤ i → i ≤ high + 1 → gapFits nbrs sections i = false := by
  unfold gap? at h
  split at h
  next => cases h
  next h0 =>
    split at h
    next => cases h
    next hfind =>
      split at h
      next => cases h
      next hend =>
        refine ⟨by omega, hend, fun i h1 h2 => ?_⟩
        have := List.find?_eq_none.1 hfind i (by rw [List.mem_range'_1]; omega)
        simpa using this

/-- No gap of a row fits: the neighbours are confined to sections inside the row, and all gaps among
these and beside them are crossed. -/
theorem forked_of_growRow? (hp : (qnode row).Proper)
    (hclique : (qnode row).Clique nbrs) (hmiss : ∀ t ∈ row.toList, t.son.meets nbrs = false)
    (hne : ∃ v, v ∈ row.owned nbrs) (hg : growRow? u nbrs row = none) :
    ∃ l r, Forked {B | B ∈ (qnode row).bags} nbrs l r ∧
      Detached {B | B ∈ (qnode row).bags} nbrs l r := by
  have hst : row.Standing := by
    cases hp with
    | qnode standing proper => exact standing
  obtain ⟨p, q, hconfined, hqm, hall⟩ := Row.exists_confined hp hclique hmiss hne
  have hpq := hconfined.le
  have hne' : row.owned nbrs ≠ [] := by
    obtain ⟨v, hv⟩ := hne
    exact List.ne_nil_of_mem hv
  have hheld : ∀ v ∈ row.owned nbrs, ∃ i, row.pattern i v := fun v hv =>
    Row.exists_pattern_iff.2 (Row.mem_owned.1 hv).2
  -- Some section holds all neighbours, so there is a first and a last one that do.
  have hshared : p ∈ row.sharedPositions (row.owned nbrs) :=
    (Row.mem_sharedPositions hst.ascending hst.rigid.lined hheld hne').2
      ⟨by omega, (hall p).2 ⟨Nat.le_refl p, hpq⟩⟩
  unfold growRow? at hg
  dsimp only at hg
  split at hg
  next => cases hg
  next =>
    split at hg
    next low high hlow hhigh =>
      obtain ⟨hlh, hhm, hbounds⟩ := shared_bounds hst hne' hheld hlow hhigh
      -- These are the ends of the block in which the neighbours are confined.
      have hiff : ∀ i, low ≤ i ∧ i ≤ high ↔ p ≤ i ∧ i ≤ q := by
        intro i
        rw [hbounds, hall]
        omega
      have h1 := hiff low
      have h2 := hiff high
      have h3 := hiff p
      have h4 := hiff q
      obtain rfl : low = p := by omega
      obtain rfl : high = q := by omega
      -- No gap fits, so a vertex other than neighbours crosses each of them.
      obtain ⟨h0, hend, hfits⟩ := not_gapFits_of_gap? (Option.map_eq_none_iff.1 hg)
      rw [Row.length_toList] at hend
      obtain ⟨l, r, hf, hd⟩ := hconfined.exists_fork hp h0 (by omega)
      refine ⟨l, r, hf, hd fun i hpi hiq => ?_⟩
      have hcross := crossed_of_not_gapFits (i := i + 1) (by omega) (by omega)
        (hfits (i + 1) (by omega) (by omega))
      simpa using hcross
    -- The list of shared positions is not empty, so this does not occur.
    next hno =>
      have hlow := List.head?_eq_some_head (List.ne_nil_of_mem hshared)
      have hhigh := List.getLast?_eq_some_getLast (List.ne_nil_of_mem hshared)
      exact absurd hhigh (hno _ _ hlow)

/-- The section below which the path goes on is an inner one, and other vertices than neighbours
cross the gaps on both sides of it. -/
theorem forked_of_closeRow? {before after : List (Section Node)} {s : Section Node} {o : Opening}
    (hp : (qnode row).Proper)
    (hrow : row.toList = before ++ s :: after)
    (hconfined : row.Confined nbrs before.length before.length)
    (hclose : closeRow? u nbrs row before s after o = none) :
    ∃ l r, Forked {B | B ∈ (qnode row).bags} nbrs l r ∧
      Detached {B | B ∈ (qnode row).bags} nbrs l r := by
  unfold closeRow? at hclose
  split at hclose
  next => cases hclose
  next => cases hclose
  next lsec rsec hl hr =>
    split at hclose
    next => cases hclose
    next hright =>
      split at hclose
      next => cases hclose
      next hleft =>
        -- On either side, a vertex of the section that is no neighbour goes on beyond it.
        rw [partsBeyond_iff] at hright hleft
        push Not at hright hleft
        obtain ⟨x, hxs, hxr, hxn⟩ := hright
        obtain ⟨y, hys, hyl, hyn⟩ := hleft
        have hsize := Opening.size_of_eq hrow
        obtain ⟨ini, hini⟩ := List.getLast?_eq_some_iff.1 hl
        obtain ⟨rest, hrest⟩ := List.head?_eq_some_iff.1 hr
        have hb : before.length = ini.length + 1 := by simp [hini]
        have ha : after.length = rest.length + 1 := by simp [hrest]
        have hs : row.toList[before.length]? = some s := by simp [hrow]
        have hlsec : row.toList[ini.length]? = some lsec := by
          rw [hrow, hini]
          simp
        have hrsec : row.toList[before.length + 1]? = some rsec := by
          rw [hrow, hrest, List.getElem?_append_right (by omega),
            show before.length + 1 - before.length = 1 by omega]
          rfl
        -- The section is an inner one: there are sections on its left and on its right.
        obtain ⟨l, r, hf, hd⟩ := hconfined.exists_fork hp (by omega) (by omega)
        refine ⟨l, r, hf, hd fun i h1 h2 => ?_⟩
        rcases Nat.lt_or_eq_of_le h2 with hi | rfl
        · obtain rfl : i = ini.length := by omega
          exact ⟨y, hyn, Row.pattern_iff.2 ⟨lsec, hlsec, hyl⟩,
            Row.pattern_iff.2 ⟨s, hb ▸ hs, hys⟩⟩
        · exact ⟨x, hxn, Row.pattern_iff.2 ⟨s, hs, hxs⟩, Row.pattern_iff.2 ⟨rsec, hrsec, hxr⟩⟩

/-- The ways in which a P-node does not grow. -/
theorem grow?_pnode_none (hg : (pnode held children).grow? u nbrs = none) :
    Sole.find (meets nbrs) children = .several ∨
      ∃ c ∈ children, c.meets nbrs = true ∧
        (c.grow? u nbrs = none ∨ ∃ x ∈ held, x ∉ nbrs ∧ c.opening? nbrs = none) := by
  rw [grow?] at hg
  split at hg
  next => cases hg
  next hfind => exact Or.inl hfind
  next before c after hfind =>
    refine Or.inr ⟨c, Sole.mem_of_find hfind, (Sole.find_eq_one hfind).1, ?_⟩
    split at hg
    next => exact Or.inl (Option.map_eq_none_iff.1 hg)
    next hfull =>
      rw [Bool.not_eq_true, not_isFull_iff] at hfull
      obtain ⟨x, hx, hxn⟩ := hfull
      exact Or.inr ⟨x, hx, hxn, Option.map_eq_none_iff.1 hg⟩

/-- The ways in which a Q-node does not grow. -/
theorem grow?_qnode_none (hg : (qnode row).grow? u nbrs = none) :
    (∀ s ∈ row.toList, s.son.meets nbrs = false) ∧ growRow? u nbrs row = none ∨
      Sole.find (fun s : Section Node => s.son.meets nbrs) row.toList = .several ∨
      ∃ before s after, row.toList = before ++ s :: after ∧ s.son.meets nbrs = true ∧
        (∀ t ∈ before ++ after, t.son.meets nbrs = false) ∧
        (holdsAll (row.owned nbrs) s.held = false ∨ s.son.grow? u nbrs = none ∨
          ∃ x ∈ s.held, x ∉ nbrs ∧ (s.son.opening? nbrs = none ∨
            ∃ o, s.son.opening? nbrs = some o ∧ closeRow? u nbrs row before s after o = none)) := by
  rw [grow?] at hg
  split at hg
  next hfind => exact Or.inl ⟨Sole.find_eq_absent hfind, hg⟩
  next hfind => exact Or.inr (Or.inl hfind)
  next before s after hfind =>
    right; right
    obtain ⟨hs, hmiss⟩ := Sole.find_eq_one hfind
    refine ⟨before, s, after, Sole.eq_append_of_find hfind, hs, hmiss, ?_⟩
    split at hg
    next hheld => exact Or.inl (by simpa using hheld)
    next =>
      right
      split at hg
      next => exact Or.inl (Option.map_eq_none_iff.1 hg)
      next hfull =>
        -- Reached in part: the section is the highest place, and its son or the section itself does not open.
        rw [Bool.not_eq_true, not_isFull_iff] at hfull
        obtain ⟨x, hx, hxn⟩ := hfull
        refine Or.inr ⟨x, hx, hxn, ?_⟩
        cases ho : s.son.opening? nbrs with
        | none => exact Or.inl rfl
        | some o =>
            rw [ho, Option.bind_some] at hg
            exact Or.inr ⟨o, rfl, Option.map_eq_none_iff.1 hg⟩

/-- A growth by a vertex whose neighbours are pairwise in one bag fails only if there is a fork
whose ends are joined around the neighbours. -/
theorem Proper.forked_of_grow (hN : N.Proper) (hclique : N.Clique nbrs)
    (hmeet : N.meets nbrs = true) (hg : N.grow? u nbrs = none) :
    ∃ l r, Forked {B | B ∈ N.bags} nbrs l r ∧ Detached {B | B ∈ N.bags} nbrs l r := by
  -- Where the path becomes an opened one, a vertex above it joins the ends of the fork.
  induction hN with
  | @leaf held nodup =>
      rw [grow?] at hg
      cases hg
  | @pnode held children nodup apart sons firm arity proper ih =>
      have hp := Proper.pnode nodup apart sons firm arity proper
      rcases grow?_pnode_none hg with hfind | ⟨c, hc, hmeetc, hways⟩
      · exact absurd hfind (not_several_children hp hclique)
      · have hcc := clique_child hp hclique hc (proper c hc)
        have hwithin := hp.within_child hc
        rcases hways with hnone | ⟨x, hx, hxn, hnone⟩
        · obtain ⟨l, r, hf, hd⟩ := ih c hc hcc hmeetc hnone
          exact ⟨l, r, hwithin.lift_forked hf, hwithin.lift_detached hd⟩
        · obtain ⟨l, r, hf⟩ := (proper c hc).forked_of_opening hcc hmeetc hnone
          exact ⟨l, r, hwithin.lift_forked hf,
            hf.detached_of_above hxn fun v => shares_held_child hc hx⟩
  | @qnode row standing proper ih =>
      have hp := Proper.qnode standing proper
      rcases grow?_qnode_none hg with ⟨hmiss, hg⟩ | hfind |
        ⟨before, s, after, hrow, hs, hmiss, hways⟩
      · exact forked_of_growRow? hp hclique hmiss (exists_owned_of_absent hmeet hmiss) hg
      · exact absurd hfind (not_several_sections hp hclique)
      · have hsm : s ∈ row.toList := by simp [hrow]
        have hheld := holdsAll_of_clique hp hclique hsm hs
        have hsc := clique_section hp hclique hsm (proper s hsm)
        have hwithin := hp.within_section hsm
        rcases hways with hno | hnone | ⟨x, hx, hxn, hnone | ⟨o, -, hclose⟩⟩
        · rw [hheld] at hno
          cases hno
        · obtain ⟨l, r, hf, hd⟩ := ih s hsm hsc hs hnone
          exact ⟨l, r, hwithin.lift_forked hf, hwithin.lift_detached hd⟩
        · obtain ⟨l, r, hf⟩ := (proper s hsm).forked_of_opening hsc hs hnone
          exact ⟨l, r, hwithin.lift_forked hf,
            hf.detached_of_above hxn fun v => shares_held_section hsm hx⟩
        · have hown := owned_held_iff.1 hheld
          exact forked_of_closeRow? hp hrow
            (Row.confined_section standing hrow hs hmiss hown) hclose

end Node

end CliquePath
