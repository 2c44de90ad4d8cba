import CliquePath.Proofs.CliqueTree.Splicing
import CliquePath.Proofs.CliqueTree.Extension

set_option autoImplicit false

/-!
# Closing an opened row

This module shows that an opened row, once the section of the new vertex stands at its right end, is
overlapped throughout. This holds for the row of a P-node that holds a vertex other than neighbours,
and for a row taken into an outer one in place of a section that does.
-/

namespace CliquePath

open Node

namespace Opening

variable {nbrs : List Vertex} {bags : Set (Set Vertex)} {o : Opening} {u v x : Vertex}

theorem toList_close (u : Vertex) (o : Opening) :
    (o.close u).toList = o.row.toList ++ [⟨o.link, .leaf [u]⟩] := by
  simp [close]

theorem size_close (u : Vertex) (o : Opening) : (o.close u).size = o.row.size + 1 := by
  rw [← Row.length_toList, toList_close]
  simp

theorem pattern_close (u : Vertex) (o : Opening) : (o.close u).pattern = o.pattern := by
  rw [Row.pattern, toList_close, pattern]
  simp

/-- What is awaited is held by the section in front. -/
theorem Ready.pattern_last (h : o.Ready nbrs bags) (hv : v ∈ o.link) :
    o.row.pattern (o.row.size - 1) v := by
  have hpos := h.opened.pos
  have hlast : o.pattern o.row.size v := pattern_size.2 hv
  obtain ⟨s, e, hse, hem, hs⟩ := h.opened.lined _ v hlast
  rw [hs] at hlast
  rw [← pattern_of_lt (by omega)]
  exact hs.held (by omega) (by omega)

/-- The awaited section is to hold vertices of one bag. -/
theorem Ready.link_fits (h : o.Ready nbrs bags) : ∃ B ∈ bags, ∀ v ∈ o.link, v ∈ B := by
  have hpos := h.opened.pos
  have hlt : o.row.size - 1 < o.row.toList.length := by
    rw [Row.length_toList]
    omega
  have hs : o.row.toList[o.row.size - 1] ∈ o.row.toList := List.getElem_mem hlt
  obtain ⟨C, hC⟩ := List.exists_mem_of_ne_nil _ (h.proper _ hs).bags_ne_nil
  refine ⟨_, (h.stands _).1 ⟨_, hs, mem_bagsUnder.2 ⟨C, hC, rfl⟩⟩, fun v hv => Or.inl ?_⟩
  obtain ⟨t, ht, hvt⟩ := Row.pattern_iff.1 (h.pattern_last hv)
  rw [List.getElem?_eq_getElem hlt, Option.some.injEq] at ht
  rwa [ht]

/-- What is awaited is not below any section. -/
theorem Ready.link_not_below (h : o.Ready nbrs bags) (hv : v ∈ o.link) {t : Section Node}
    (ht : t ∈ o.row.toList) : v ∉ t.son.vertices := by
  obtain ⟨s, hs, hvs⟩ := Row.pattern_iff.1 (h.pattern_last hv)
  exact h.apart.held s (List.mem_of_getElem? hs) t ht v hvs

theorem apart_close (hap : Apart o.row.toList) (hnodup : o.link.Nodup)
    (hlink : ∀ t ∈ o.row.toList, ∀ v ∈ o.link, v ∉ t.son.vertices)
    (hu : ∀ t ∈ o.row.toList, u ∉ t.held ∧ u ∉ t.son.vertices) (hul : u ∉ o.link) :
    Apart (o.close u).toList := by
  rw [toList_close]
  refine Apart.insert (by simpa using hap) hnodup ?_ ?_ ?_
  · intro v hv hvu
    rw [vertices_leaf, List.mem_singleton] at hvu
    exact hul (hvu ▸ hv)
  · simpa using hlink
  · intro t ht v hv
    rw [vertices_leaf, List.mem_singleton] at hv
    rw [hv]
    exact hu t (by simpa using ht)

/-- The new vertex is not in the opened row. -/
theorem Ready.fresh (h : o.Ready nbrs bags) (hu : ∀ B ∈ bags, u ∉ B) :
    (∀ t ∈ o.row.toList, u ∉ t.held ∧ u ∉ t.son.vertices) ∧ u ∉ o.link := by
  constructor
  · intro t ht
    constructor
    · intro hut
      obtain ⟨B, hB, huB⟩ := h.mem_iff.1 ⟨t, ht, Or.inl hut⟩
      exact hu B hB huB
    · intro hut
      obtain ⟨B, hB, huB⟩ := h.mem_iff.1 ⟨t, ht, Or.inr hut⟩
      exact hu B hB huB
  · intro hul
    obtain ⟨-, B, hB, huB⟩ := (h.link u).1 hul
    exact hu B hB huB

/-- A row closes when some vertex is held by all its sections and not awaited. -/
theorem Ready.closed (h : o.Ready nbrs bags) (hu : ∀ B ∈ bags, u ∉ B) (hk : 2 ≤ o.row.size)
    (hx : o.pattern.Spans x 0 (o.row.size - 1)) : (o.close u).Closed where
  ascending := h.ascending.push _
  apart := apart_close h.apart h.nodup (fun _ ht _ hv => h.link_not_below hv ht) (h.fresh hu).1
    (h.fresh hu).2
  three := by
    rw [size_close]
    omega
  lined := by
    rw [pattern_close, size_close]
    exact h.opened.lined
  prime := by
    rw [pattern_close, size_close]
    exact h.opened.prime hx
  filled := by
    rw [pattern_close, size_close, toList_close]
    -- The old sections keep what is below them; below the last one is the new vertex.
    refine h.filled.closed hx hk (fun i hi hb => ?_) ?_
    · rwa [below_append_left (by rwa [Row.length_toList])]
    · rw [below_append_right (by rw [Row.length_toList]), Row.length_toList, Nat.sub_self]
      exact ⟨_, rfl, by simp⟩

/-- Closing adds the bag of the new vertex. -/
theorem Ready.extends_close (h : o.Ready nbrs bags) :
    Extends bags {B | ∃ t ∈ (o.close u).toList, B ∈ t.son.bagsUnder t.held}
      {v | v ∈ nbrs ∧ ∃ B ∈ bags, v ∈ B} u := by
  have hA : {v | v ∈ nbrs ∧ ∃ B ∈ bags, v ∈ B} = {v | v ∈ o.link} := by
    ext v
    exact (h.link v).symm
  rw [hA]
  refine Extends.of_added h.link_fits fun B => ?_
  rw [Set.mem_ofPred_eq, toList_close, ← h.stands B, ← mem_bagsUnder_new]
  simp only [List.mem_append, or_and_right, exists_or, List.mem_singleton, exists_eq_left]

theorem Ready.proper_close (h : o.Ready nbrs bags) :
    ∀ t ∈ (o.close u).toList, t.son.Proper := by
  rw [toList_close]
  intro t ht
  rcases List.mem_append.1 ht with ht | ht
  · exact h.proper t ht
  · rw [List.mem_singleton.1 ht]
    exact .leaf (by simp)

/-! ## Within an outer row -/

variable {outer : Row (Section Node)} {before after : List (Section Node)} {s : Section Node}

theorem toList_closeInto (hrow : outer.toList = before ++ s :: after) :
    (o.closeInto u nbrs outer before.length s).toList =
      before ++ (((o.carry nbrs s.held).close u).toList ++ after) :=
  toList_splice_of_eq hrow _

theorem size_closeInto (hrow : outer.toList = before ++ s :: after) :
    (o.closeInto u nbrs outer before.length s).size = outer.size + o.row.size := by
  rw [← Row.length_toList, toList_closeInto hrow, List.length_append, List.length_append,
    Row.length_toList, size_close, size_carry, size_of_eq hrow]
  omega

theorem pattern_closeInto (hrow : outer.toList = before ++ s :: after) :
    (o.closeInto u nbrs outer before.length s).pattern =
      outer.pattern.spliced before.length o.pattern o.row.size fun v => v ∈ nbrs := by
  have h := Pattern.ofLists_splice (before.map Section.held) (after.map Section.held)
    (o.row.toList.map Section.held) s.held o.link nbrs
  simp only [List.length_map, Row.length_toList] at h
  rw [Row.pattern, toList_closeInto hrow, pattern_eq_of_toList hrow, pattern, ← h, toList_close]
  simp only [List.map_append, map_held_carry, List.map_cons, List.append_assoc,
    List.cons_append, List.nil_append]
  rfl

/-- The new vertex's section holds vertices of the replaced section. -/
theorem Ready.held_of_link (h : o.Ready nbrs {B | B ∈ s.son.bags}) (hs : s.son.Proper)
    (hv : v ∈ (o.carry nbrs s.held).link) : v ∈ s.held ∨ v ∈ s.son.vertices := by
  rcases List.mem_append.1 hv with hv | hv
  · exact Or.inr (hs.mem_vertices.2 ((h.link v).1 hv).2)
  · exact Or.inl (mem_reached.1 hv).1

theorem Ready.apart_close_carry (h : o.Ready nbrs {B | B ∈ s.son.bags}) (hap : Apart outer.toList)
    (hs : s.son.Proper) (hrow : outer.toList = before ++ s :: after) (hus : u ∉ s.held)
    (hur : u ∉ s.son.vertices) : Apart ((o.carry nbrs s.held).close u).toList := by
  have hsm : s ∈ outer.toList := by simp [hrow]
  have hu : ∀ v, v ∈ s.held ∨ v ∈ s.son.vertices → u ≠ v := by
    rintro v (hv | hv) rfl
    · exact hus hv
    · exact hur hv
  refine apart_close (h.apart_carry hs hrow hap) (h.nodup_carry hs hap hsm) ?_ ?_ ?_
  · -- No section has a vertex of the link below it.
    intro t ht v hv
    rw [toList_carry] at ht
    obtain ⟨r, hr, rfl⟩ := List.mem_map.1 ht
    rcases List.mem_append.1 hv with hv | hv
    · exact h.link_not_below (t := r) hv hr
    · intro hvr
      exact hap.held s hsm s hsm v (mem_reached.1 hv).1 ((h.mem_vertices hs).1 ⟨r, hr, Or.inr hvr⟩)
  · -- The new vertex is nowhere in the row.
    intro t ht
    obtain ⟨hheld, hson, -⟩ := h.held_of_carry hs ht
    exact ⟨fun hut => hu u (hheld u hut) rfl, fun hut => hu u (Or.inr (hson u hut)) rfl⟩
  · exact fun hul => hu u (h.held_of_link hs hul) rfl

theorem Ready.apart_closeInto (h : o.Ready nbrs {B | B ∈ s.son.bags}) (hap : Apart outer.toList)
    (hs : s.son.Proper) (hrow : outer.toList = before ++ s :: after)
    (hu : u ∉ (qnode outer).vertices) :
    Apart (o.closeInto u nbrs outer before.length s).toList := by
  have hu' := not_mem_vertices_qnode.1 hu
  obtain ⟨hus, hur⟩ := hu' s (by simp [hrow])
  have hinner := h.apart_close_carry hap hs hrow hus hur
  rw [hrow] at hap
  rw [toList_closeInto hrow]
  refine hap.splice hinner ?_ ?_
  · -- What the inner sections hold comes from the section above or from below it.
    rw [toList_close]
    intro t ht v hv
    rcases List.mem_append.1 ht with ht | ht
    · exact (h.held_of_carry hs ht).1 v hv
    · rw [List.mem_singleton.1 ht] at hv
      exact h.held_of_link hs hv
  · rw [toList_close]
    intro t ht v hv
    rcases List.mem_append.1 ht with ht | ht
    · exact Or.inl ((h.held_of_carry hs ht).2.1 v hv)
    · rw [List.mem_singleton.1 ht, vertices_leaf, List.mem_singleton] at hv
      subst hv
      refine Or.inr fun r hr => hu' r ?_
      rw [hrow]
      exact mem_middle_iff.2 (Or.inr hr)

/-- The positions of the closed row with something below them. -/
theorem passes_closeInto (hrow : outer.toList = before ++ s :: after) :
    Pattern.Passes (below outer.toList) (below o.row.toList)
      (below (o.closeInto u nbrs outer before.length s).toList) outer.size before.length
      o.row.size := by
  have hlen : ((o.carry nbrs s.held).close u).toList.length = o.row.size + 1 := by
    rw [Row.length_toList, size_close, size_carry]
  rw [toList_closeInto hrow]
  refine ⟨?_, ?_, ?_⟩
  · -- Before the section, nothing moves.
    intro i hi hb
    rw [hrow, below_append_left hi] at hb
    rwa [below_append_left hi]
  · intro i hi hb
    -- The inner sections start where the section was.
    rw [below_append_right (by omega), Nat.add_sub_cancel_left, below_append_left (by omega),
      toList_close, below_append_left (by rwa [Row.length_toList, size_carry]), toList_carry]
    rwa [below_map_held o.row.toList fun t => t.held ++ s.held]
  · -- Behind it, positions go up by the number of inner sections.
    intro i hji him hb
    rw [hrow, below_append_right (by omega)] at hb
    rw [below_append_right (by omega), below_append_right (by omega), hlen]
    obtain ⟨d, rfl⟩ : ∃ d, i = before.length + (d + 1) := ⟨i - before.length - 1, by omega⟩
    rw [Nat.add_sub_cancel_left, below_cons_succ] at hb
    rwa [show before.length + (d + 1) + o.row.size - before.length - (o.row.size + 1) = d by omega]

theorem below_closeInto_new (hrow : outer.toList = before ++ s :: after) :
    below (o.closeInto u nbrs outer before.length s).toList (before.length + o.row.size) := by
  have hlen : ((o.carry nbrs s.held).close u).toList.length = o.row.size + 1 := by
    rw [Row.length_toList, size_close, size_carry]
  rw [toList_closeInto hrow, below_append_right (by omega), Nat.add_sub_cancel_left,
    below_append_left (by omega), toList_close,
    below_append_right (by rw [Row.length_toList, size_carry]), Row.length_toList, size_carry,
    Nat.sub_self]
  exact ⟨_, rfl, by simp⟩

/-- A row closed within an outer row, in place of a section that holds other vertices than
neighbours. -/
theorem Ready.closed_closeInto (h : o.Ready nbrs {B | B ∈ s.son.bags}) (hst : outer.Standing)
    (hs : s.son.Proper) (hrow : outer.toList = before ++ s :: after)
    (hpart : ∀ t, after.head? = some t → ∀ v ∈ s.held, v ∈ t.held → v ∈ nbrs)
    (hu : u ∉ (qnode outer).vertices) (hx : x ∈ s.held) (hxn : x ∉ nbrs) :
    (o.closeInto u nbrs outer before.length s).Closed := by
  have hfits := h.fits hs hrow hst.apart hpart
  have hpos := h.opened.pos
  have hj : before.length < outer.size := by
    rw [size_of_eq hrow]
    omega
  have hxp : outer.pattern before.length x := by
    rw [pattern_eq_of_toList hrow, Pattern.ofLists_append_right (by simp)]
    simpa using hx
  -- The pattern of the joined row is the spliced one, whose laws are proved for patterns.
  refine ⟨hst.ascending.splice _ _, h.apart_closeInto hst.apart hs hrow hu, ?_, ?_, ?_, ?_⟩
  · have := hst.rigid.three
    rw [size_closeInto hrow]
    omega
  · rw [pattern_closeInto hrow, size_closeInto hrow]
    exact hst.rigid.lined.spliced h.opened.lined hfits hpos hj
  · rw [pattern_closeInto hrow, size_closeInto hrow]
    exact hst.rigid.prime_spliced h.opened hfits hj hxp hxn
  · rw [pattern_closeInto hrow, size_closeInto hrow]
    exact hst.rigid.filled_spliced h.opened hfits hj hst.filled h.filled (passes_closeInto hrow) hxp
      hxn (below_closeInto_new hrow)

theorem Ready.proper_closeInto (h : o.Ready nbrs {B | B ∈ s.son.bags}) (hs : s.son.Proper)
    (hproper : ∀ t ∈ outer.toList, t.son.Proper) (hrow : outer.toList = before ++ s :: after) :
    ∀ t ∈ (o.closeInto u nbrs outer before.length s).toList, t.son.Proper := by
  rw [toList_closeInto hrow, toList_close]
  intro t ht
  simp only [List.mem_append, List.mem_singleton] at ht
  rcases ht with ht | (ht | rfl) | ht
  · exact hproper t (by simp [hrow, ht])
  · exact (h.held_of_carry hs ht).2.2
  · exact .leaf (by simp)
  · exact hproper t (by simp [hrow, ht])

theorem Ready.extends_closeInto (h : o.Ready nbrs {B | B ∈ s.son.bags}) (hs : s.son.Proper)
    (hrow : outer.toList = before ++ s :: after)
    (hmiss : ∀ t ∈ before ++ after, t.son.meets nbrs = false)
    (hown : ∀ v ∈ nbrs, (∃ t ∈ outer.toList, v ∈ t.held) → v ∈ s.held) :
    Extends {B | B ∈ (qnode outer).bags}
      {B | ∃ t ∈ (o.closeInto u nbrs outer before.length s).toList, B ∈ t.son.bagsUnder t.held}
      {v | v ∈ nbrs ∧ v ∈ (qnode outer).vertices} u := by
  have hA : {v | v ∈ nbrs ∧ v ∈ (qnode outer).vertices} =
      {v | v ∈ (o.carry nbrs s.held).link} := by
    ext v
    exact (h.mem_link_carry hs hrow hmiss hown).symm
  rw [hA]
  refine Extends.of_added ?_ fun B => ?_
  · -- Some bag below the section has all vertices of the link.
    obtain ⟨B, hB, hlink⟩ := h.link_fits
    refine ⟨{v | v ∈ s.held} ∪ B, ?_, fun v hv => ?_⟩
    · rw [Set.mem_ofPred_eq, bags_qnode, List.mem_flatMap]
      exact ⟨s, by simp [hrow], mem_bagsUnder.2 ⟨B, hB, rfl⟩⟩
    · rcases List.mem_append.1 hv with hv | hv
      · exact Or.inr (hlink v hv)
      · exact Or.inl (mem_reached.1 hv).1
  · rw [Set.mem_ofPred_eq, toList_closeInto hrow, toList_close, ← mem_bagsUnder_new,
      Set.mem_ofPred_eq, bags_qnode, List.mem_flatMap, hrow]
    have hcarry := h.bags_carry B
    simp only [List.mem_append, List.mem_cons, or_and_right, exists_or, List.not_mem_nil,
      exists_eq_left, hcarry, or_false]
    exact (or_congr_right or_right_comm).trans or_assoc.symm

end Opening

end CliquePath
