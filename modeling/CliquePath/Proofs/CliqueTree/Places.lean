import CliquePath.Proofs.CliqueTree.Folding

set_option autoImplicit false

/-!
# The lowest place of an opened path

This module shows that the row made from the lowest place of a neighbour is ready to be folded into
the places above it. The place is a leaf or a P-node, whose neighbours move into a row of one
section, or a Q-node with all its neighbours at one end.
-/

namespace CliquePath

open Node

namespace Opening

variable {nbrs held : List Vertex} {bags : Set (Set Vertex)}

theorem size_ofPlace (nbrs held : List Vertex) (below : List Vertex → Node) :
    (ofPlace nbrs held below).row.size = 1 := by
  rw [← Row.length_toList]
  simp [ofPlace]

theorem pattern_ofPlace (nbrs held : List Vertex) (below : List Vertex → Node) :
    (ofPlace nbrs held below).pattern = Pattern.bottom fun v => v ∈ reached nbrs held := by
  apply Pattern.ext
  intro i v
  simp only [pattern, ofPlace, Row.toList_ofList, List.map_cons, List.map_nil, Pattern.bottom]
  rcases i with _ | _ | i
  · simp
  · simp
  · simp

/-- What is left below a place makes a row of one section. -/
theorem ready_ofPlace (below : List Vertex → Node) (nodup : held.Nodup)
    (hmeet : ∃ v ∈ held, v ∈ nbrs) (hproper : (below (missed nbrs held)).Proper)
    (hmiss : (below (missed nbrs held)).meets nbrs = false)
    (hbags : ∀ B, B ∈ (below (missed nbrs held)).bagsUnder (reached nbrs held) ↔ B ∈ bags) :
    (ofPlace nbrs held below).Ready nbrs bags := by
  have hlist : (ofPlace nbrs held below).row.toList =
      [⟨reached nbrs held, below (missed nbrs held)⟩] := by
    simp [ofPlace]
  have hreached : ∃ v, v ∈ reached nbrs held := by
    obtain ⟨v, hv, hn⟩ := hmeet
    exact ⟨v, mem_reached.2 ⟨hv, hn⟩⟩
  refine ⟨Row.ascending_ofList _, ?_, ?_, ?_, ?_, nodup.filter _, ?_, ?_⟩
  · rw [hlist]
    refine ⟨?_, ?_, List.pairwise_singleton _ _⟩
    · intro s hs
      rw [List.mem_singleton.1 hs]
      exact nodup.filter _
    · intro s hs t ht v hv
      rw [List.mem_singleton.1 hs] at hv
      rw [List.mem_singleton.1 ht]
      exact not_meets_iff.1 hmiss v (mem_reached.1 hv).2
  · rw [hlist]
    intro s hs
    rwa [List.mem_singleton.1 hs]
  · rw [pattern_ofPlace, size_ofPlace]
    exact Pattern.open_bottom hreached
  · rw [pattern_ofPlace, size_ofPlace]
    exact Pattern.halfFilled_bottom hreached
  · intro B
    rw [hlist, ← hbags]
    simp
  · intro v
    have hlink : (ofPlace nbrs held below).link = reached nbrs held := rfl
    rw [hlink]
    constructor
    · intro hv
      obtain ⟨B, hB, hvB⟩ := (mem_bags_under hproper.bags_ne_nil).2 (Or.inl hv)
      exact ⟨(mem_reached.1 hv).2, B, (hbags B).1 hB, hvB⟩
    · rintro ⟨hn, B, hB, hvB⟩
      -- What is left below meets no neighbour, so a neighbour in a bag is one that is held.
      rcases (mem_bags_under hproper.bags_ne_nil).1 ⟨B, (hbags B).2 hB, hvB⟩ with hv | hv
      · exact hv
      · exact absurd (hproper.mem_vertices.2 hv) (not_meets_iff.1 hmiss v hn)

theorem linked_ofPlace {below : List Vertex → Node} (hmeet : ∃ v ∈ held, v ∈ nbrs) :
    (ofPlace nbrs held below).pattern.Linked (ofPlace nbrs held below).row.size := by
  rw [pattern_ofPlace, size_ofPlace]
  obtain ⟨v, hv, hn⟩ := hmeet
  exact Pattern.linked_bottom ⟨v, mem_reached.2 ⟨hv, hn⟩⟩

/-- The neighbours of a place above its other vertices are the whole place. -/
theorem union_reached_missed (nbrs held : List Vertex) (C : Set Vertex) :
    {v | v ∈ reached nbrs held} ∪ ({v | v ∈ missed nbrs held} ∪ C) = {v | v ∈ held} ∪ C := by
  ext v
  simp only [Set.mem_union, Set.mem_ofPred_eq, mem_reached, mem_missed]
  tauto

theorem ready_ofLeaf (h : (Node.leaf held).Proper) (hmeet : ∃ v ∈ held, v ∈ nbrs) :
    (ofPlace nbrs held .leaf).Ready nbrs {B | B ∈ (Node.leaf held).bags} := by
  cases h with
  | leaf nodup =>
      refine ready_ofPlace .leaf nodup hmeet (.leaf (nodup.filter _)) ?_ ?_
      · rw [not_meets_iff]
        intro v hn hv
        rw [vertices_leaf] at hv
        exact (mem_missed.1 hv).2 hn
      · intro B
        have hset := union_reached_missed nbrs held ∅
        simp only [Set.union_empty] at hset
        simp only [bagsUnder, bags_leaf, List.map_cons, List.map_nil, hset, List.mem_singleton,
          Set.mem_ofPred_eq]

theorem ready_ofChildren {children : List Node} (h : (Node.pnode held children).Proper)
    (hmeet : ∃ v ∈ held, v ∈ nbrs) (hmiss : ∀ c ∈ children, c.meets nbrs = false) :
    (ofPlace nbrs held fun rest => .bundle rest children).Ready nbrs
      {B | B ∈ (Node.pnode held children).bags} := by
  cases h with
  | pnode nodup apart sons firm arity proper =>
      have hproper : (bundle (missed nbrs held) children).Proper := by
        refine proper_bundle (nodup.filter _) ?_ sons firm proper ?_
        · intro c hc v hv
          exact apart c hc v (mem_missed.1 hv).1
        · -- A single child is a Q-node, so the bundle is in normal form even if nothing is left to hold.
          rcases arity with h2 | ⟨-, row, rfl⟩
          · exact Or.inl h2
          · exact Or.inr ⟨_, rfl, Or.inr ⟨row, rfl⟩⟩
      refine ready_ofPlace (fun rest => .bundle rest children) nodup hmeet hproper ?_ ?_
      · rw [not_meets_iff]
        intro v hn hv
        rcases mem_vertices_bundle.1 hv with hv | ⟨c, hc, hv⟩
        · exact (mem_missed.1 hv).2 hn
        · exact not_meets_iff.1 (hmiss c hc) v hn hv
      · intro B
        simp only [bags_pnode, Set.mem_ofPred_eq, mem_bagsUnder, bags_bundle, List.mem_flatMap]
        constructor
        · rintro ⟨-, ⟨c, hc, C, hC, rfl⟩, rfl⟩
          exact ⟨c, hc, C, hC, (union_reached_missed nbrs held C).symm⟩
        · rintro ⟨c, hc, C, hC, rfl⟩
          exact ⟨_, ⟨c, hc, C, hC, rfl⟩, union_reached_missed nbrs held C⟩

end Opening

/-! ## The end of a Q-node -/

namespace Row

variable {row : Row (Section Node)} {nbrs : List Vertex} {v : Vertex}

theorem mem_owned : v ∈ row.owned nbrs ↔ v ∈ nbrs ∧ ∃ s ∈ row.toList, v ∈ s.held := by
  simp [owned]

theorem exists_pattern_iff : (∃ i, row.pattern i v) ↔ ∃ s ∈ row.toList, v ∈ s.held := by
  constructor
  · rintro ⟨i, hi⟩
    obtain ⟨s, hs, hv⟩ := pattern_iff.1 hi
    exact ⟨s, List.mem_of_getElem? hs, hv⟩
  · rintro ⟨s, hs, hv⟩
    obtain ⟨i, hi⟩ := List.mem_iff_getElem?.1 hs
    exact ⟨i, pattern_iff.2 ⟨s, hi, hv⟩⟩

theorem pattern_reverse (row : Row (Section Node)) :
    row.reverse.pattern = row.pattern.reversed row.size := by
  have h := Pattern.ofLists_reverse (row.toList.map Section.held)
  rw [List.length_map, length_toList, ← List.map_reverse] at h
  rw [pattern, toList_reverse, h]
  rfl

theorem below_reverse {sections : List (Section Node)} {i : Nat} (hi : i < sections.length)
    (h : below sections i) : below sections.reverse (sections.length - 1 - i) := by
  obtain ⟨s, hs, hv⟩ := h
  refine ⟨s, ?_, hv⟩
  rwa [List.getElem?_reverse (by omega), show sections.length - 1 - (sections.length - 1 - i) = i by
    omega]

theorem apart_reverse {sections : List (Section Node)} (h : Apart sections) :
    Apart sections.reverse := by
  refine ⟨?_, ?_, ?_⟩
  · simpa using h.nodup
  · simpa using h.held
  · rw [List.pairwise_reverse]
    exact h.sons.imp fun hst v hv hv' => hst v hv' hv

/-- A Q-node in normal form may be turned around. -/
theorem Standing.reverse (h : row.Standing) : row.reverse.Standing where
  ascending := h.ascending.reverse
  apart := by
    rw [toList_reverse]
    exact apart_reverse h.apart
  rigid := by
    rw [pattern_reverse, size_reverse]
    exact h.rigid.reversed
  filled := by
    rw [pattern_reverse, size_reverse, toList_reverse]
    refine h.filled.reversed h.rigid.lined fun i hi hb => ?_
    rw [← length_toList] at hi ⊢
    exact below_reverse hi hb

theorem mem_bags_reverse {B : Set Vertex} : B ∈ (qnode row.reverse).bags ↔ B ∈ (qnode row).bags := by
  simp [bags_qnode]

end Row

/-! ## Where the neighbours are -/

namespace Node

variable {held nbrs : List Vertex} {children before after : List Node} {c : Node} {v : Vertex}
variable {row : Row (Section Node)} {left right : List (Section Node)} {s : Section Node}

/-- If no child has a neighbour, a P-node holds all neighbours below it. -/
theorem mem_vertices_pnode_of_absent (hmiss : ∀ c ∈ children, c.meets nbrs = false)
    (hn : v ∈ nbrs) : v ∈ (pnode held children).vertices ↔ v ∈ held := by
  rw [mem_vertices_pnode]
  apply or_iff_left
  rintro ⟨c, hc, hv⟩
  exact not_meets_iff.1 (hmiss c hc) v hn hv

/-- If one child only has neighbours, a P-node holds all neighbours that are not below it. -/
theorem mem_vertices_pnode_of_one (hmiss : ∀ d ∈ before ++ after, d.meets nbrs = false)
    (hn : v ∈ nbrs) :
    v ∈ (pnode held (before ++ c :: after)).vertices ↔ v ∈ held ∨ v ∈ c.vertices := by
  rw [mem_vertices_pnode]
  apply or_congr_right
  constructor
  · rintro ⟨d, hd, hv⟩
    rcases mem_middle_iff.1 hd with rfl | hd
    · exact hv
    · exact absurd hv (not_meets_iff.1 (hmiss d hd) v hn)
  · intro hv
    exact ⟨c, by simp, hv⟩

/-- If no son has a neighbour, the row of a Q-node holds all neighbours below it. -/
theorem mem_vertices_qnode_of_absent (hmiss : ∀ t ∈ row.toList, t.son.meets nbrs = false)
    (hn : v ∈ nbrs) : v ∈ (qnode row).vertices ↔ ∃ t ∈ row.toList, v ∈ t.held := by
  rw [mem_vertices_qnode]
  apply exists_congr
  intro t
  apply and_congr_right
  intro ht
  exact or_iff_left (not_meets_iff.1 (hmiss t ht) v hn)

/-- If one son only has neighbours, the row of a Q-node holds all neighbours that are not below
it. -/
theorem mem_vertices_qnode_of_one (hrow : row.toList = left ++ s :: right)
    (hmiss : ∀ t ∈ left ++ right, t.son.meets nbrs = false) (hn : v ∈ nbrs) :
    v ∈ (qnode row).vertices ↔ (∃ t ∈ row.toList, v ∈ t.held) ∨ v ∈ s.son.vertices := by
  rw [mem_vertices_qnode]
  constructor
  · rintro ⟨t, ht, hv | hv⟩
    · exact Or.inl ⟨t, ht, hv⟩
    · rw [hrow] at ht
      rcases mem_middle_iff.1 ht with rfl | ht
      · exact Or.inr hv
      · exact absurd hv (not_meets_iff.1 (hmiss t ht) v hn)
  · rintro (⟨t, ht, hv⟩ | hv)
    · exact ⟨t, ht, Or.inl hv⟩
    · exact ⟨s, by simp [hrow], Or.inr hv⟩

theorem exists_held_of_absent (hmeet : (pnode held children).meets nbrs = true)
    (hmiss : ∀ c ∈ children, c.meets nbrs = false) : ∃ v ∈ held, v ∈ nbrs := by
  obtain ⟨v, hn, hv⟩ := meets_iff.1 hmeet
  exact ⟨v, (mem_vertices_pnode_of_absent hmiss hn).1 hv, hn⟩

theorem exists_owned_of_absent (hmeet : (qnode row).meets nbrs = true)
    (hmiss : ∀ t ∈ row.toList, t.son.meets nbrs = false) : ∃ v, v ∈ row.owned nbrs := by
  obtain ⟨v, hn, hv⟩ := meets_iff.1 hmeet
  exact ⟨v, Row.mem_owned.2 ⟨hn, (mem_vertices_qnode_of_absent hmiss hn).1 hv⟩⟩

end Node

namespace Opening

variable {nbrs link : List Vertex} {row : Row (Section Node)}

theorem pattern_mk (row : Row (Section Node)) (link : List Vertex) :
    (mk row link).pattern = row.pattern.inserted row.size fun v => v ∈ link := by
  have h := Pattern.ofLists_insert (row.toList.map Section.held) [] link
  rw [List.append_nil, List.length_map, Row.length_toList] at h
  exact h

/-- The row of a Q-node whose last section holds all its neighbours. -/
theorem ready_ofEnd (h : row.Standing) (hproper : ∀ s ∈ row.toList, s.son.Proper)
    (hmiss : ∀ s ∈ row.toList, s.son.meets nbrs = false) (hnodup : link.Nodup)
    (hlink : ∀ v, v ∈ link ↔ v ∈ nbrs ∧ ∃ s ∈ row.toList, v ∈ s.held)
    (hend : ∀ v ∈ link, row.pattern (row.size - 1) v) (hne : ∃ v, v ∈ link) :
    (mk row link).Ready nbrs {B | B ∈ (qnode row).bags} := by
  have hbags : ∀ B, (∃ s ∈ row.toList, B ∈ s.son.bagsUnder s.held) ↔ B ∈ (qnode row).bags := by
    intro B
    rw [bags_qnode, List.mem_flatMap]
  refine ⟨h.ascending, h.apart, hproper, ?_, ?_, hnodup, hbags, ?_⟩
  · rw [pattern_mk]
    exact h.rigid.open_inserted hne hend
  · rw [pattern_mk]
    exact h.rigid.halfFilled_inserted h.filled hend
  · intro v
    rw [hlink]
    refine and_congr_right fun hn => ?_
    have hv := (Proper.qnode h hproper).mem_vertices (v := v)
    rwa [mem_vertices_qnode_of_absent hmiss hn] at hv

theorem linked_ofEnd (h : row.Standing) (hend : ∀ v ∈ link, row.pattern (row.size - 1) v)
    (hne : ∃ v, v ∈ link) : (mk row link).pattern.Linked (mk row link).row.size := by
  rw [pattern_mk]
  exact h.rigid.linked_inserted hne hend

end Opening

end CliquePath
