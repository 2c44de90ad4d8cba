import CliquePath.Proofs.CliqueTree.Proper

set_option autoImplicit false

/-!
# Rows that settle

This module turns a row that is overlapped throughout into a node in normal form: vertices that all
sections hold are lifted out of the row and held above it. This changes no bag.
-/

namespace CliquePath

namespace Row

/-- A row that is overlapped throughout. Some vertices may still be held by all its sections. -/
structure Closed (row : Row (Section Node)) : Prop where
  ascending : row.Ascending
  apart : Apart row.toList
  three : 3 ≤ row.size
  lined : row.pattern.Lined row.size
  prime : row.pattern.Prime row.size
  filled : row.pattern.Filled (below row.toList) row.size

end Row

namespace Grown

variable {row : Row (Section Node)} {v : Vertex}

theorem mem_common (hne : row.toList ≠ []) :
    v ∈ common row ↔ ∀ s ∈ row.toList, v ∈ s.held := by
  obtain ⟨first, rest, hrow⟩ := List.exists_cons_of_ne_nil hne
  simp [common, hrow]

/-- What all sections hold is what spans the whole row. -/
theorem mem_common_iff_spans (hne : row.toList ≠ []) :
    v ∈ common row ↔ row.pattern.Spans v 0 (row.size - 1) := by
  rw [mem_common hne]
  have hpos : 0 < row.size := by
    rw [← Row.length_toList]
    exact List.length_pos_iff.2 hne
  constructor
  · intro h i
    -- Every position in the row holds the vertex, and there is no other position.
    rw [Row.pattern_iff]
    constructor
    · rintro ⟨s, hs, -⟩
      have := (List.getElem?_eq_some_iff.1 hs).1
      rw [Row.length_toList] at this
      omega
    · rintro ⟨-, hi⟩
      have hi' : i < row.toList.length := by
        rw [Row.length_toList]
        omega
      exact ⟨_, List.getElem?_eq_getElem hi', h _ (List.getElem_mem hi')⟩
  · intro h s hs
    obtain ⟨i, hi, rfl⟩ := List.getElem_of_mem hs
    have him : i < row.size := by rwa [← Row.length_toList]
    obtain ⟨t, ht, hv⟩ := Row.pattern_iff.1 (h.held (i := i) (Nat.zero_le i) (by omega))
    rw [List.getElem?_eq_getElem hi, Option.some.injEq] at ht
    rwa [ht]

theorem pattern_lifted (hne : row.toList ≠ []) :
    (row.map fun s =>
      { s with held := s.held.filter fun v => !(common row).contains v }).pattern =
        row.pattern.lifted row.size := by
  apply Pattern.ext
  intro i v
  simp only [Pattern.lifted, ← mem_common_iff_spans hne, Row.pattern_iff, Row.toList_map,
    List.getElem?_map, Option.map_eq_some_iff]
  constructor
  · rintro ⟨s, ⟨t, ht, rfl⟩, hv⟩
    obtain ⟨hv, hn⟩ := List.mem_filter.1 hv
    exact ⟨⟨t, ht, hv⟩, by simpa using hn⟩
  · rintro ⟨⟨t, ht, hv⟩, hn⟩
    exact ⟨_, ⟨t, ht, rfl⟩, List.mem_filter.2 ⟨hv, by simpa using hn⟩⟩

theorem bags_settle (g : Grown) : g.settle.bags = g.node.bagsUnder g.lifted := by
  unfold settle
  split
  next h =>
    rw [List.isEmpty_iff.1 h]
    simp [Node.bagsUnder]
  next => simp [Node.bags_pnode]

theorem mem_vertices_settle (g : Grown) :
    v ∈ g.settle.vertices ↔ v ∈ g.lifted ∨ v ∈ g.node.vertices := by
  unfold settle
  split
  next h =>
    rw [List.isEmpty_iff.1 h]
    simp
  next => simp

/-- Lifting changes no bag. -/
theorem bags_settle_ofRow (row : Row (Section Node)) :
    (ofRow row).settle.bags = row.toList.flatMap fun s => s.son.bagsUnder s.held := by
  by_cases hne : row.toList = []
  · simp [bags_settle, ofRow, Node.bagsUnder, Node.bags_qnode, hne]
  rw [bags_settle, Node.bagsUnder]
  simp only [ofRow, Node.bags_qnode, Row.toList_map, List.map_flatMap, List.flatMap_map]
  apply List.flatMap_congr
  intro s hs
  simp only [Node.bagsUnder, List.map_map]
  apply List.map_congr_left
  intro B hB
  ext v
  have hc : v ∈ common row → v ∈ s.held := fun h => (mem_common hne).1 h s hs
  by_cases h : v ∈ common row
  · simp [h, hc h]
  · simp [h]

/-- The sections of a row without what all of them hold. -/
theorem apart_lifted (h : Apart row.toList) :
    Apart (row.map fun s =>
      { s with held := s.held.filter fun v => !(common row).contains v }).toList := by
  rw [Row.toList_map]
  refine ⟨?_, ?_, ?_⟩
  · intro s hs
    obtain ⟨t, ht, rfl⟩ := List.mem_map.1 hs
    exact (h.nodup t ht).filter _
  · intro s hs t ht v hv
    obtain ⟨s', hs', rfl⟩ := List.mem_map.1 hs
    obtain ⟨t', ht', rfl⟩ := List.mem_map.1 ht
    exact h.held s' hs' t' ht' v (List.mem_filter.1 hv).1
  · rw [List.pairwise_map]
    exact h.sons

theorem nodup_common (h : Apart row.toList) : (common row).Nodup := by
  unfold common
  split
  next => exact List.nodup_nil
  next first rest hrow =>
    exact (h.nodup first (hrow ▸ List.mem_cons_self)).filter _

theorem standing_lifted (h : row.Closed) :
    (row.map fun s =>
      { s with held := s.held.filter fun v => !(common row).contains v }).Standing := by
  have h3 := h.three
  have hne : row.toList ≠ [] := by
    intro hnil
    rw [← Row.length_toList, hnil] at h3
    simp at h3
  refine ⟨h.ascending.map _, apart_lifted h.apart, ?_, ?_⟩
  · rw [pattern_lifted hne, Row.size_map]
    exact Pattern.rigid_lifted h3 h.lined h.prime
  · rw [pattern_lifted hne, Row.size_map]
    have hfull := h.filled.lifted h.lined (by omega)
    -- Lifting takes nothing from below the sections.
    have hbelow : below (row.map fun s =>
        { s with held := s.held.filter fun v => !(common row).contains v }).toList =
          below row.toList := by
      funext i
      apply propext
      simp only [below, Row.toList_map, List.getElem?_map, Option.map_eq_some_iff]
      constructor
      · rintro ⟨s, ⟨t, ht, rfl⟩, hs⟩
        exact ⟨t, ht, hs⟩
      · rintro ⟨t, ht, hs⟩
        exact ⟨_, ⟨t, ht, rfl⟩, hs⟩
    rwa [hbelow]

/-- A node in normal form, and vertices to be held directly above it. -/
structure Sound (g : Grown) : Prop where
  proper : g.node.Proper
  nodup : g.lifted.Nodup
  apart : ∀ v ∈ g.lifted, v ∉ g.node.vertices
  row : g.lifted ≠ [] → ∃ row, g.node = .qnode row

theorem Sound.plain {node : Node} (h : node.Proper) : (plain node).Sound :=
  ⟨h, List.nodup_nil, fun _ hv => absurd hv List.not_mem_nil, fun hne => absurd rfl hne⟩

theorem Sound.settle {g : Grown} (h : g.Sound) : g.settle.Proper := by
  unfold Grown.settle
  split
  next => exact h.proper
  next hne =>
    have hl : g.lifted ≠ [] := by simpa [List.isEmpty_iff] using hne
    obtain ⟨row, hrow⟩ := h.row hl
    refine .pnode h.nodup ?_ (List.pairwise_singleton _ _) ?_ (Or.inr ⟨hl, row, by rw [hrow]⟩) ?_
    · intro c hc v hv
      rw [List.mem_singleton.1 hc]
      exact h.apart v hv
    · intro c hc
      rw [List.mem_singleton.1 hc, hrow]
      trivial
    · intro c hc
      rw [List.mem_singleton.1 hc]
      exact h.proper

theorem firm_settle {g : Grown} (h : g.node.Firm) : g.settle.Firm := by
  unfold settle
  split
  next => exact h
  next hne =>
    have hl : g.lifted ≠ [] := by simpa [List.isEmpty_iff] using hne
    exact hl

/-- A row that is overlapped throughout has a normal form. -/
theorem sound_ofRow (h : row.Closed) (hsons : ∀ s ∈ row.toList, s.son.Proper) :
    (ofRow row).Sound where
  proper := by
    refine .qnode (standing_lifted h) ?_
    rw [Row.toList_map]
    intro s hs
    obtain ⟨t, ht, rfl⟩ := List.mem_map.1 hs
    exact hsons t ht
  nodup := nodup_common h.apart
  apart := by
    intro v hv hvn
    obtain ⟨s, hs, hv'⟩ := Node.mem_vertices_qnode.1 hvn
    rw [Row.toList_map] at hs
    obtain ⟨t, ht, rfl⟩ := List.mem_map.1 hs
    have hcommon : v ∈ common row := hv
    -- A lifted vertex was taken out of every section, and it was never below one.
    rcases hv' with hv' | hv'
    · have := (List.mem_filter.1 hv').2
      simp [hcommon] at this
    · have hlist : row.toList ≠ [] := List.ne_nil_of_mem ht
      exact h.apart.held t ht t ht v ((mem_common hlist).1 hcommon t ht) hv'
  row := fun _ => ⟨_, rfl⟩

end Grown

end CliquePath
