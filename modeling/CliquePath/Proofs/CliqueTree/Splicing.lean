import CliquePath.Proofs.CliqueTree.Places

set_option autoImplicit false

/-!
# An opened row within an outer row

This module shows what happens when an opened row takes the place of a section of a Q-node. With the
last section replaced, the outer row again awaits a last section; with any section replaced and the
row closed, the outer row is overlapped throughout.
-/

namespace CliquePath

open Node

section Sections

variable {left right inner : List (Section Node)} {s : Section Node} {i : Nat}

/-- The vertices stay in different places when a section is replaced by others that share its
vertices among them. -/
theorem Apart.splice (h : Apart (left ++ s :: right)) (hi : Apart inner)
    (hheld : ∀ t ∈ inner, ∀ v ∈ t.held, v ∈ s.held ∨ v ∈ s.son.vertices)
    (hson : ∀ t ∈ inner, ∀ v ∈ t.son.vertices,
      v ∈ s.son.vertices ∨ ∀ r ∈ left ++ right, v ∉ r.held ∧ v ∉ r.son.vertices) :
    Apart (left ++ (inner ++ right)) := by
  have hsub : ∀ r ∈ left ++ right, r ∈ left ++ s :: right := fun r hr =>
    mem_middle_iff.2 (Or.inr hr)
  have hs : s ∈ left ++ s :: right := by simp
  have hmem : ∀ r ∈ left ++ (inner ++ right), r ∈ left ++ right ∨ r ∈ inner := by
    intro r hr
    simp only [List.mem_append] at hr ⊢
    tauto
  obtain ⟨hout, hothers⟩ := disjoint_middle_iff.1 h.sons
  obtain ⟨hleft, hright, hcross⟩ := List.pairwise_append.1 hothers
  refine ⟨?_, ?_, ?_⟩
  · intro r hr
    rcases hmem r hr with hr | hr
    · exact h.nodup r (hsub r hr)
    · exact hi.nodup r hr
  · -- Four cases: the holder and the section above the vertex are each an old one or an inner one.
    intro r hr t ht v hv hvt
    rcases hmem r hr with hr | hr <;> rcases hmem t ht with ht | ht
    · exact h.held r (hsub r hr) t (hsub t ht) v hv hvt
    · rcases hson t ht v hvt with hvs | hfresh
      · exact h.held r (hsub r hr) s hs v hv hvs
      · exact (hfresh r hr).1 hv
    · rcases hheld r hr v hv with hvs | hvs
      · exact h.held s hs t (hsub t ht) v hvs hvt
      · exact hout t ht v hvs hvt
    · exact hi.held r hr t ht v hv hvt
  · have hnew : ∀ t ∈ inner, ∀ r ∈ left ++ right, ∀ v ∈ t.son.vertices, v ∉ r.son.vertices := by
      intro t ht r hr v hv hvr
      rcases hson t ht v hv with hvs | hfresh
      · exact hout r hr v hvs hvr
      · exact (hfresh r hr).2 hvr
    refine List.pairwise_append.2 ⟨hleft, List.pairwise_append.2 ⟨hi.sons, hright, ?_⟩, ?_⟩
    · intro t ht r hr v hv
      exact hnew t ht r (List.mem_append_right left hr) v hv
    · intro r hr t ht v hvr hvt
      rcases List.mem_append.1 ht with ht | ht
      · exact hnew t ht r (List.mem_append_left right hr) v hvt hvr
      · exact hcross r hr t ht v hvr hvt

/-- A new section between two parts of a row. -/
theorem Apart.insert (h : Apart (left ++ right)) (hnodup : s.held.Nodup)
    (hself : ∀ v ∈ s.held, v ∉ s.son.vertices)
    (hheld : ∀ t ∈ left ++ right, ∀ v ∈ s.held, v ∉ t.son.vertices)
    (hson : ∀ t ∈ left ++ right, ∀ v ∈ s.son.vertices, v ∉ t.held ∧ v ∉ t.son.vertices) :
    Apart (left ++ s :: right) := by
  refine ⟨forall_mem_middle.2 ⟨hnodup, h.nodup⟩, ?_, ?_⟩
  · refine forall_mem_middle.2 ⟨forall_mem_middle.2 ⟨hself, hheld⟩, fun r hr => ?_⟩
    exact forall_mem_middle.2 ⟨fun v hv hvs => (hson r hr v hvs).1 hv, h.held r hr⟩
  · exact disjoint_middle_iff.2 ⟨fun t ht v hv => (hson t ht v hv).2, h.sons⟩

theorem below_append_left (h : i < left.length) : below (left ++ right) i ↔ below left i := by
  simp [below, List.getElem?_append_left h]

theorem below_append_right (h : left.length ≤ i) :
    below (left ++ right) i ↔ below right (i - left.length) := by
  simp [below, List.getElem?_append_right h]

theorem below_cons_succ : below (s :: right) (i + 1) ↔ below right i := by
  simp [below]

end Sections

namespace Opening

variable {nbrs : List Vertex} {outer : Row (Section Node)} {o : Opening}
variable {before after : List (Section Node)} {s : Section Node} {v : Vertex}

/-- The vertices of an opened row are those of the node that was opened. -/
theorem Ready.mem_vertices {N : Node} (h : o.Ready nbrs {B | B ∈ N.bags}) (hN : N.Proper) :
    (∃ t ∈ o.row.toList, v ∈ t.held ∨ v ∈ t.son.vertices) ↔ v ∈ N.vertices := by
  rw [h.mem_iff, hN.mem_vertices]
  rfl

theorem Ready.mem_of_pattern {N : Node} (h : o.Ready nbrs {B | B ∈ N.bags}) (hN : N.Proper)
    {i : Nat} (hv : o.pattern i v) : v ∈ N.vertices :=
  hN.mem_vertices.2 (h.mem_bags_of_pattern hv)

/-- The opened row may take the place of a section that shares no vertex but neighbours with the
next one. -/
theorem Ready.fits (h : o.Ready nbrs {B | B ∈ s.son.bags}) (hs : s.son.Proper)
    (hrow : outer.toList = before ++ s :: after) (hap : Apart outer.toList)
    (hpart : ∀ t, after.head? = some t → ∀ v ∈ s.held, v ∈ t.held → v ∈ nbrs) :
    outer.pattern.Fits before.length o.pattern fun v => v ∈ nbrs where
  apart i i' v hv hv' := by
    obtain ⟨t, ht, hvt⟩ := Row.pattern_iff.1 hv'
    exact hap.held t (List.mem_of_getElem? ht) s (by simp [hrow]) v hvt (h.mem_of_pattern hs hv)
  part v hv hv' := by
    obtain ⟨t, ht, hvt⟩ := Row.pattern_iff.1 hv
    obtain ⟨r, hr, hvr⟩ := Row.pattern_iff.1 hv'
    rw [hrow, List.getElem?_append_right (Nat.le_refl _), Nat.sub_self, List.getElem?_cons_zero,
      Option.some.injEq] at ht
    rw [hrow, List.getElem?_append_right (by omega), show before.length + 1 - before.length = 1 by
      omega, List.getElem?_cons_succ, ← List.head?_eq_getElem?] at hr
    subst ht
    exact hpart r hr v hvt hvr

theorem pattern_eq_of_toList (hrow : outer.toList = before ++ s :: after) :
    outer.pattern = .ofLists (before.map Section.held ++ s.held :: after.map Section.held) := by
  rw [Row.pattern, hrow]
  simp

theorem toList_carry (nbrs held : List Vertex) (o : Opening) :
    (o.carry nbrs held).row.toList = o.row.toList.map fun t => { t with held := t.held ++ held } := by
  simp [carry]

theorem map_held_carry (nbrs held : List Vertex) (o : Opening) :
    (o.carry nbrs held).row.toList.map Section.held =
      (o.row.toList.map Section.held).map (· ++ held) := by
  rw [toList_carry]
  simp [Function.comp_def]

/-- A neighbour of the new vertex is awaited, or it is not held next to the opened row. -/
theorem Ready.apart_carry (h : o.Ready nbrs {B | B ∈ s.son.bags}) (hs : s.son.Proper)
    (hrow : outer.toList = before ++ s :: after) (hap : Apart outer.toList) :
    Apart (o.carry nbrs s.held).row.toList := by
  have hsm : s ∈ outer.toList := by simp [hrow]
  rw [toList_carry]
  refine Opening.apart_carry h.apart (hap.nodup s hsm) fun t ht v hv => ?_
  have hno := hap.held s hsm s hsm v hv
  constructor
  · intro hvt
    exact hno ((h.mem_vertices hs).1 ⟨t, ht, Or.inl hvt⟩)
  · intro hvt
    exact hno ((h.mem_vertices hs).1 ⟨t, ht, Or.inr hvt⟩)

theorem Ready.held_of_carry (h : o.Ready nbrs {B | B ∈ s.son.bags}) (hs : s.son.Proper)
    {t : Section Node} (ht : t ∈ (o.carry nbrs s.held).row.toList) :
    (∀ v ∈ t.held, v ∈ s.held ∨ v ∈ s.son.vertices) ∧
      (∀ v ∈ t.son.vertices, v ∈ s.son.vertices) ∧ t.son.Proper := by
  rw [toList_carry] at ht
  obtain ⟨r, hr, rfl⟩ := List.mem_map.1 ht
  refine ⟨fun v hv => ?_, fun v hv => (h.mem_vertices hs).1 ⟨r, hr, Or.inr hv⟩, h.proper r hr⟩
  rcases List.mem_append.1 hv with hv | hv
  · exact Or.inr ((h.mem_vertices hs).1 ⟨r, hr, Or.inl hv⟩)
  · exact Or.inl hv

/-- Carrying the vertices of a section stands for the bags below that section. -/
theorem Ready.bags_carry (h : o.Ready nbrs {B | B ∈ s.son.bags}) (B : Set Vertex) :
    (∃ t ∈ (o.carry nbrs s.held).row.toList, B ∈ t.son.bagsUnder t.held) ↔
      B ∈ s.son.bagsUnder s.held := by
  rw [toList_carry]
  simp only [List.mem_map, exists_exists_and_eq_and, mem_bagsUnder_append]
  constructor
  · rintro ⟨t, ht, C, hC, rfl⟩
    exact mem_bagsUnder.2 ⟨C, (h.stands C).1 ⟨t, ht, hC⟩, rfl⟩
  · intro hB
    obtain ⟨C, hC, rfl⟩ := mem_bagsUnder.1 hB
    obtain ⟨t, ht, hC⟩ := (h.stands C).2 hC
    exact ⟨t, ht, C, hC, rfl⟩

/-- The awaited section is to hold the neighbours in the outer row and below it, if those held by
the outer row are held by the replaced section. -/
theorem Ready.mem_link_carry (h : o.Ready nbrs {B | B ∈ s.son.bags}) (hs : s.son.Proper)
    (hrow : outer.toList = before ++ s :: after)
    (hmiss : ∀ t ∈ before ++ after, t.son.meets nbrs = false)
    (hown : ∀ v ∈ nbrs, (∃ t ∈ outer.toList, v ∈ t.held) → v ∈ s.held) :
    v ∈ (o.carry nbrs s.held).link ↔ v ∈ nbrs ∧ v ∈ (qnode outer).vertices := by
  have hsm : s ∈ outer.toList := by simp [hrow]
  have hlink : (o.carry nbrs s.held).link = o.link ++ reached nbrs s.held := rfl
  rw [hlink, List.mem_append, h.link, mem_reached]
  constructor
  · rintro (⟨hn, hB⟩ | ⟨hvs, hn⟩)
    · exact ⟨hn, mem_vertices_qnode.2 ⟨s, hsm, Or.inr (hs.mem_vertices.2 hB)⟩⟩
    · exact ⟨hn, mem_vertices_qnode.2 ⟨s, hsm, Or.inl hvs⟩⟩
  · rintro ⟨hn, hv⟩
    rcases (mem_vertices_qnode_of_one hrow hmiss hn).1 hv with hheld | hson
    · exact Or.inr ⟨hown v hn hheld, hn⟩
    · exact Or.inl ⟨hn, hs.mem_vertices.1 hson⟩

theorem Ready.nodup_carry (h : o.Ready nbrs {B | B ∈ s.son.bags}) (hs : s.son.Proper)
    (hap : Apart outer.toList) (hsm : s ∈ outer.toList) : (o.carry nbrs s.held).link.Nodup := by
  refine List.nodup_append.2 ⟨h.nodup, (hap.nodup s hsm).filter _, ?_⟩
  rintro a ha b hb rfl
  obtain ⟨-, B, hB, haB⟩ := (h.link a).1 ha
  exact hap.held s hsm s hsm a (mem_reached.1 hb).1 (hs.mem_vertices.2 ⟨B, hB, haB⟩)

/-! ## In place of the last section -/

theorem toList_splice_of_eq (hrow : outer.toList = before ++ s :: after)
    (inner : Row (Section Node)) :
    (outer.splice before.length inner).toList = before ++ (inner.toList ++ after) := by
  have hsize : before.length < outer.size := by
    rw [← Row.length_toList, hrow]
    simp
  rw [Row.toList_splice outer before.length inner hsize, hrow]
  simp

theorem size_of_eq (hrow : outer.toList = before ++ s :: after) :
    outer.size = before.length + 1 + after.length := by
  rw [← Row.length_toList, hrow]
  simp
  omega

theorem toList_foldLast (hrow : outer.toList = before ++ [s]) :
    (o.foldLast nbrs outer s).row.toList = before ++ (o.carry nbrs s.held).row.toList := by
  have hlast : outer.size - 1 = before.length := by
    have := size_of_eq hrow
    simp at this
    omega
  have h := toList_splice_of_eq hrow (o.carry nbrs s.held).row
  rw [List.append_nil, ← hlast] at h
  exact h

theorem size_foldLast (hrow : outer.toList = before ++ [s]) :
    (o.foldLast nbrs outer s).row.size = outer.size - 1 + o.row.size := by
  rw [← Row.length_toList, toList_foldLast hrow, List.length_append, Row.length_toList, size_carry,
    size_of_eq hrow]
  simp

theorem pattern_foldLast (hrow : outer.toList = before ++ [s]) :
    (o.foldLast nbrs outer s).pattern =
      outer.pattern.spliced (outer.size - 1) o.pattern o.row.size fun v => v ∈ nbrs := by
  have h := Pattern.ofLists_splice (before.map Section.held) []
    (o.row.toList.map Section.held) s.held o.link nbrs
  have hlink : (o.foldLast nbrs outer s).link = o.link ++ reached nbrs s.held := rfl
  have hlast : outer.size - 1 = before.length := by
    have := size_of_eq hrow
    simp at this
    omega
  rw [pattern, toList_foldLast hrow, List.map_append, map_held_carry, hlink, List.append_assoc,
    pattern_eq_of_toList hrow, hlast]
  simp only [List.length_map, Row.length_toList] at h
  exact h

/-- The outer row, its last section replaced by the opened row below that section, awaits a last
section in turn. -/
theorem Ready.foldLast (h : o.Ready nbrs {B | B ∈ s.son.bags}) (hst : outer.Standing)
    (hproper : ∀ t ∈ outer.toList, t.son.Proper) (hrow : outer.toList = before ++ [s])
    (hmiss : ∀ t ∈ before, t.son.meets nbrs = false)
    (hown : ∀ v ∈ nbrs, (∃ t ∈ outer.toList, v ∈ t.held) → v ∈ s.held) :
    (o.foldLast nbrs outer s).Ready nbrs {B | B ∈ (qnode outer).bags} := by
  have hsm : s ∈ outer.toList := by simp [hrow]
  have hs : s.son.Proper := hproper s hsm
  have hlist : (o.foldLast nbrs outer s).row.toList =
      before ++ (o.carry nbrs s.held).row.toList := toList_foldLast hrow
  have hlast : outer.size - 1 = before.length := by
    have := size_of_eq hrow
    simp at this
    omega
  have hfits : outer.pattern.Fits (outer.size - 1) o.pattern fun v => v ∈ nbrs := by
    rw [hlast]
    exact h.fits hs hrow hst.apart (by simp)
  refine ⟨hst.ascending.splice _ _, ?_, ?_, ?_, ?_, ?_, ?_, ?_⟩
  · have hap := hst.apart
    rw [hrow] at hap
    have := hap.splice (h.apart_carry hs hrow hst.apart) (fun t ht => (h.held_of_carry hs ht).1)
      (fun t ht v hv => Or.inl ((h.held_of_carry hs ht).2.1 v hv))
    rwa [List.append_nil, ← hlist] at this
  · rw [hlist]
    intro t ht
    rcases List.mem_append.1 ht with ht | ht
    · exact hproper t (by simp [hrow, ht])
    · exact (h.held_of_carry hs ht).2.2
  · rw [pattern_foldLast hrow, size_foldLast hrow]
    exact hst.rigid.open_spliced h.opened hfits
  · rw [pattern_foldLast hrow, size_foldLast hrow, hlist]
    -- The inner sections come last, so only the positions before them have to be carried over.
    have hfilled := hst.filled
    refine hst.rigid.halfFilled_spliced h.opened hfits hfilled h.filled ⟨?_, ?_, ?_⟩
    · intro i hi hb
      rw [hlast] at hi
      rw [hrow] at hb
      exact (below_append_left hi).2 ((below_append_left hi).1 hb)
    · intro i hi hb
      rw [hlast, below_append_right (by omega), Nat.add_sub_cancel_left, toList_carry]
      rwa [below_map_held o.row.toList fun t => t.held ++ s.held]
    · -- No section stands behind the last one.
      intro i h1 h2
      omega
  · exact h.nodup_carry hs hst.apart hsm
  · intro B
    rw [hlist, Set.mem_ofPred_eq, bags_qnode, hrow]
    simp only [List.mem_append, or_and_right, exists_or, h.bags_carry, List.flatMap_append,
      List.mem_flatMap, List.mem_singleton, exists_eq_left]
  · intro v
    have hv := (Proper.qnode hst hproper).mem_vertices (v := v)
    exact (h.mem_link_carry hs hrow (by simpa using hmiss) hown).trans (and_congr_right' hv)

theorem Ready.linked_foldLast (h : o.Ready nbrs {B | B ∈ s.son.bags}) (hst : outer.Standing)
    (hs : s.son.Proper) (hrow : outer.toList = before ++ [s]) :
    (o.foldLast nbrs outer s).pattern.Linked (o.foldLast nbrs outer s).row.size := by
  have hlast : outer.size - 1 = before.length := by
    have := size_of_eq hrow
    simp at this
    omega
  rw [pattern_foldLast hrow, size_foldLast hrow]
  refine hst.rigid.linked_spliced h.opened ?_
  rw [hlast]
  exact h.fits hs hrow hst.apart (by simp)

end Opening

end CliquePath
