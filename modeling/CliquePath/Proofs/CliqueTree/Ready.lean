import CliquePath.Proofs.CliqueTree.Lifting

set_option autoImplicit false

/-!
# Rows on the way up the tree

This module defines what is known of an opening, that is of a row that awaits its last section while
it moves up the tree, and shows that it stays so when the vertices of a place above are carried on
by its sections. The awaited section will hold the neighbours of the new vertex, so it counts as a
position of the row.
-/

namespace CliquePath

open Node

@[simp]
theorem mem_reached {nbrs held : List Vertex} {v : Vertex} :
    v ∈ reached nbrs held ↔ v ∈ held ∧ v ∈ nbrs := by
  simp [reached]

@[simp]
theorem mem_missed {nbrs held : List Vertex} {v : Vertex} :
    v ∈ missed nbrs held ↔ v ∈ held ∧ v ∉ nbrs := by
  simp [missed]

theorem isFull_iff {nbrs held : List Vertex} : isFull nbrs held = true ↔ ∀ v ∈ held, v ∈ nbrs := by
  simp [isFull]

theorem not_isFull_iff {nbrs held : List Vertex} :
    isFull nbrs held = false ↔ ∃ v ∈ held, v ∉ nbrs := by
  rw [← Bool.not_eq_true, isFull_iff]
  push Not
  rfl

theorem holdsAll_iff {vs held : List Vertex} : holdsAll vs held = true ↔ ∀ v ∈ vs, v ∈ held := by
  simp [holdsAll]

theorem partsBeyond_iff {nbrs left right : List Vertex} :
    partsBeyond nbrs left right = true ↔ ∀ v, v ∈ left → v ∈ right → v ∈ nbrs := by
  simp only [partsBeyond, Bool.not_eq_true', List.any_eq_false, mem_missed, List.contains_iff_mem]
  constructor
  · intro h v hl hr
    by_contra hn
    exact h v ⟨hl, hn⟩ hr
  · rintro h v ⟨hl, hn⟩ hr
    exact hn (h v hl hr)

namespace Opening

/-- Which positions of the row, the awaited one included, hold which vertices. -/
def pattern (o : Opening) : Pattern := .ofLists (o.row.toList.map Section.held ++ [o.link])

/-- The row stands for the given bags and awaits a last section with their vertices in `nbrs`. -/
structure Ready (nbrs : List Vertex) (bags : Set (Set Vertex)) (o : Opening) : Prop where
  ascending : o.row.Ascending
  apart : Apart o.row.toList
  proper : ∀ s ∈ o.row.toList, s.son.Proper
  opened : o.pattern.Open o.row.size
  filled : o.pattern.HalfFilled (below o.row.toList) o.row.size
  nodup : o.link.Nodup
  stands : ∀ B, (∃ s ∈ o.row.toList, B ∈ s.son.bagsUnder s.held) ↔ B ∈ bags
  link : ∀ v, v ∈ o.link ↔ v ∈ nbrs ∧ ∃ B ∈ bags, v ∈ B

variable {nbrs : List Vertex} {bags : Set (Set Vertex)} {o : Opening} {i : Nat} {v : Vertex}

theorem pattern_of_lt (hi : i < o.row.size) : o.pattern i v ↔ o.row.pattern i v := by
  rw [pattern, Pattern.ofLists_append_left (by simpa using hi)]
  rfl

theorem pattern_size : o.pattern o.row.size v ↔ v ∈ o.link := by
  rw [pattern, Pattern.ofLists_append_right (by simp)]
  simp

theorem le_size_of_pattern (h : o.pattern i v) : i ≤ o.row.size := by
  have := Pattern.lt_length_of_ofLists h
  simp at this
  omega

/-- The vertices of the sections are those of the bags. -/
theorem Ready.mem_iff (h : o.Ready nbrs bags) :
    (∃ s ∈ o.row.toList, v ∈ s.held ∨ v ∈ s.son.vertices) ↔ ∃ B ∈ bags, v ∈ B := by
  constructor
  · rintro ⟨s, hs, hv⟩
    have hv' := hv.imp_right (h.proper s hs).mem_vertices.1
    obtain ⟨B, hB, hvB⟩ := (mem_bags_under (h.proper s hs).bags_ne_nil).2 hv'
    exact ⟨B, (h.stands B).1 ⟨s, hs, hB⟩, hvB⟩
  · rintro ⟨B, hB, hv⟩
    obtain ⟨s, hs, hB⟩ := (h.stands B).2 hB
    have hv' := (mem_bags_under (h.proper s hs).bags_ne_nil).1 ⟨B, hB, hv⟩
    exact ⟨s, hs, hv'.imp_right (h.proper s hs).mem_vertices.2⟩

theorem Ready.mem_bags_of_pattern (h : o.Ready nbrs bags) (hv : o.pattern i v) :
    ∃ B ∈ bags, v ∈ B := by
  rcases Nat.lt_or_eq_of_le (le_size_of_pattern hv) with hi | rfl
  · obtain ⟨s, hs, hvs⟩ := Row.pattern_iff.1 ((pattern_of_lt hi).1 hv)
    exact h.mem_iff.1 ⟨s, List.mem_of_getElem? hs, Or.inl hvs⟩
  · exact ((h.link v).1 (pattern_size.1 hv)).2

/-! ## Carrying the vertices of a place above -/

theorem pattern_carry (nbrs held : List Vertex) (o : Opening) :
    (o.carry nbrs held).pattern =
      o.pattern.carried o.row.size (fun v => v ∈ held) (fun v => v ∈ nbrs) := by
  have h := Pattern.ofLists_carry (o.row.toList.map Section.held) o.link held nbrs
  simp only [List.length_map, Row.length_toList] at h
  rw [pattern, pattern, ← h]
  simp [carry, reached, List.map_map, Function.comp_def]

theorem size_carry (nbrs held : List Vertex) (o : Opening) :
    (o.carry nbrs held).row.size = o.row.size := by
  simp [carry]

theorem apart_carry {sections : List (Section Node)} {held : List Vertex} (h : Apart sections)
    (hnodup : held.Nodup)
    (hout : ∀ s ∈ sections, ∀ v ∈ held, v ∉ s.held ∧ v ∉ s.son.vertices) :
    Apart (sections.map fun s => { s with held := s.held ++ held }) := by
  refine ⟨?_, ?_, ?_⟩
  · intro s hs
    obtain ⟨t, ht, rfl⟩ := List.mem_map.1 hs
    refine List.nodup_append.2 ⟨h.nodup t ht, hnodup, ?_⟩
    rintro a ha b hb rfl
    exact (hout t ht a hb).1 ha
  · intro s hs t ht v hv
    obtain ⟨s', hs', rfl⟩ := List.mem_map.1 hs
    obtain ⟨t', ht', rfl⟩ := List.mem_map.1 ht
    rcases List.mem_append.1 hv with hv | hv
    · exact h.held s' hs' t' ht' v hv
    · exact (hout t' ht' v hv).2
  · rw [List.pairwise_map]
    exact h.sons

theorem below_map_held (sections : List (Section Node)) (f : Section Node → List Vertex) :
    below (sections.map fun s => { s with held := f s }) = below sections := by
  funext i
  apply propext
  simp only [below, List.getElem?_map, Option.map_eq_some_iff]
  constructor
  · rintro ⟨s, ⟨t, ht, rfl⟩, hs⟩
    exact ⟨t, ht, hs⟩
  · rintro ⟨t, ht, hs⟩
    exact ⟨_, ⟨t, ht, rfl⟩, hs⟩

theorem mem_bagsUnder_append {held above : List Vertex} {node : Node} {B : Set Vertex} :
    B ∈ node.bagsUnder (held ++ above) ↔ ∃ C ∈ node.bagsUnder held, {v | v ∈ above} ∪ C = B := by
  simp only [mem_bagsUnder]
  constructor
  · rintro ⟨C, hC, rfl⟩
    refine ⟨_, ⟨C, hC, rfl⟩, ?_⟩
    ext v
    simp only [Set.mem_union, Set.mem_ofPred_eq, List.mem_append]
    tauto
  · rintro ⟨-, ⟨C, hC, rfl⟩, rfl⟩
    refine ⟨C, hC, ?_⟩
    ext v
    simp only [Set.mem_union, Set.mem_ofPred_eq, List.mem_append]
    tauto

/-- The row below a place whose vertices are carried on by its sections. -/
theorem Ready.carry {held : List Vertex} (h : o.Ready nbrs bags) (hk : 2 ≤ o.row.size)
    (hnodup : held.Nodup) (hout : ∀ v ∈ held, ∀ B ∈ bags, v ∉ B) :
    (o.carry nbrs held).Ready nbrs ((fun B => {v | v ∈ held} ∪ B) '' bags) := by
  -- The row does not hold the vertices yet, so carrying them changes no other span.
  have hd : ∀ i v, o.pattern i v → v ∉ held := by
    intro i v hv hheld
    obtain ⟨B, hB, hvB⟩ := h.mem_bags_of_pattern hv
    exact hout v hheld B hB hvB
  have hout' : ∀ s ∈ o.row.toList, ∀ v ∈ held, v ∉ s.held ∧ v ∉ s.son.vertices := by
    intro s hs v hv
    constructor
    · intro hvs
      obtain ⟨B, hB, hvB⟩ := h.mem_iff.1 ⟨s, hs, Or.inl hvs⟩
      exact hout v hv B hB hvB
    · intro hvs
      obtain ⟨B, hB, hvB⟩ := h.mem_iff.1 ⟨s, hs, Or.inr hvs⟩
      exact hout v hv B hB hvB
  have hlist : (o.carry nbrs held).row.toList =
      o.row.toList.map fun s => { s with held := s.held ++ held } := by
    simp [Opening.carry]
  refine ⟨h.ascending.map _, ?_, ?_, ?_, ?_, ?_, ?_, ?_⟩
  · rw [hlist]
    exact apart_carry h.apart hnodup hout'
  · rw [hlist]
    intro s hs
    obtain ⟨t, ht, rfl⟩ := List.mem_map.1 hs
    exact h.proper t ht
  · rw [pattern_carry, size_carry]
    exact h.opened.carried hk hd
  · rw [pattern_carry, size_carry, hlist, below_map_held]
    exact h.filled.carried hd fun i _ hi => hi
  · refine List.nodup_append.2 ⟨h.nodup, hnodup.filter _, ?_⟩
    rintro a ha b hb rfl
    obtain ⟨-, B, hB, haB⟩ := (h.link a).1 ha
    exact hout a (mem_reached.1 hb).1 B hB haB
  · intro B
    rw [hlist]
    simp only [List.mem_map, exists_exists_and_eq_and, mem_bagsUnder_append, Set.mem_image]
    constructor
    · rintro ⟨s, hs, C, hC, rfl⟩
      exact ⟨C, (h.stands C).1 ⟨s, hs, hC⟩, rfl⟩
    · rintro ⟨C, hC, rfl⟩
      obtain ⟨s, hs, hC⟩ := (h.stands C).2 hC
      exact ⟨s, hs, C, hC, rfl⟩
  · intro v
    have hlink : (o.carry nbrs held).link = o.link ++ reached nbrs held := rfl
    rw [hlink, List.mem_append, h.link, mem_reached]
    -- The row has a bag, and each bag gets the held vertices.
    have hne : ∃ B, B ∈ bags := by
      obtain ⟨w, hw⟩ := h.opened.tail
      obtain ⟨B, hB, -⟩ := h.mem_bags_of_pattern hw
      exact ⟨B, hB⟩
    simp only [Set.mem_image, exists_exists_and_eq_and, Set.mem_union, Set.mem_ofPred_eq]
    constructor
    · rintro (⟨hn, B, hB, hv⟩ | ⟨hv, hn⟩)
      · exact ⟨hn, B, hB, Or.inr hv⟩
      · obtain ⟨B, hB⟩ := hne
        exact ⟨hn, B, hB, Or.inl hv⟩
    · rintro ⟨hn, B, hB, hv | hv⟩
      · exact Or.inr ⟨hv, hn⟩
      · exact Or.inl ⟨hn, B, hB, hv⟩

end Opening

end CliquePath
