import CliquePath.Proofs.CliqueTree.Bags
import CliquePath.Proofs.Row.Shared

set_option autoImplicit false

/-!
# The normal form of a clique tree

This module defines when a tree is in normal form. No vertex is in two places, sections of one row
excepted. A P-node has at least two children, unless it holds vertices above a single Q-node, and
each child holds a vertex or is a Q-node. The sections of a Q-node form a rigid row in which every
position has something of its own. The vertices of a tree in normal form are those of its bags.
-/

namespace CliquePath

/-- The vertices of different places of a row are different ones, except that sections may share
what they hold. -/
structure Apart (sections : List (Section Node)) : Prop where
  nodup : ∀ s ∈ sections, s.held.Nodup
  held : ∀ s ∈ sections, ∀ t ∈ sections, ∀ v ∈ s.held, v ∉ t.son.vertices
  sons : sections.Pairwise fun s t => ∀ v ∈ s.son.vertices, v ∉ t.son.vertices

/-- The positions of the sections with vertices below them. -/
def below (sections : List (Section Node)) (i : Nat) : Prop :=
  ∃ s, sections[i]? = some s ∧ s.son.vertices ≠ []

namespace Row

/-- The row of a Q-node in its normal form. -/
structure Standing (row : Row (Section Node)) : Prop where
  ascending : row.Ascending
  apart : Apart row.toList
  rigid : row.pattern.Rigid row.size
  filled : row.pattern.Filled (below row.toList) row.size

theorem Standing.toList_ne_nil {row : Row (Section Node)} (h : row.Standing) :
    row.toList ≠ [] := by
  intro hnil
  have h3 := h.rigid.three
  rw [← Row.length_toList, hnil] at h3
  simp at h3

end Row

namespace Node

/-- The node holds a vertex, or it is a Q-node. -/
def Firm : Node → Prop
  | .leaf held => held ≠ []
  | .pnode held _ => held ≠ []
  | .qnode _ => True

/-- The normal form of a clique tree. -/
inductive Proper : Node → Prop
  | leaf {held : List Vertex} (nodup : held.Nodup) : Proper (.leaf held)
  | pnode {held : List Vertex} {children : List Node} (nodup : held.Nodup)
      (apart : ∀ c ∈ children, ∀ v ∈ held, v ∉ c.vertices)
      (sons : children.Pairwise fun c d => ∀ v ∈ c.vertices, v ∉ d.vertices)
      (firm : ∀ c ∈ children, c.Firm)
      (arity : 2 ≤ children.length ∨ held ≠ [] ∧ ∃ row, children = [.qnode row])
      (proper : ∀ c ∈ children, Proper c) : Proper (.pnode held children)
  | qnode {row : Row (Section Node)} (standing : row.Standing)
      (proper : ∀ s ∈ row.toList, Proper s.son) : Proper (.qnode row)

theorem mem_vertices_pnode {held : List Vertex} {children : List Node} {v : Vertex} :
    v ∈ (pnode held children).vertices ↔ v ∈ held ∨ ∃ c ∈ children, v ∈ c.vertices := by
  simp

theorem mem_vertices_qnode {row : Row (Section Node)} {v : Vertex} :
    v ∈ (qnode row).vertices ↔ ∃ s ∈ row.toList, v ∈ s.held ∨ v ∈ s.son.vertices := by
  simp

theorem not_mem_vertices_pnode {held : List Vertex} {children : List Node} {v : Vertex} :
    v ∉ (pnode held children).vertices ↔ v ∉ held ∧ ∀ c ∈ children, v ∉ c.vertices := by
  simp

theorem not_mem_vertices_qnode {row : Row (Section Node)} {v : Vertex} :
    v ∉ (qnode row).vertices ↔ ∀ s ∈ row.toList, v ∉ s.held ∧ v ∉ s.son.vertices := by
  simp

theorem meets_iff {nbrs : List Vertex} {node : Node} :
    node.meets nbrs = true ↔ ∃ v, v ∈ nbrs ∧ v ∈ node.vertices := by
  simp [meets, and_comm]

theorem not_meets_iff {nbrs : List Vertex} {node : Node} :
    node.meets nbrs = false ↔ ∀ v ∈ nbrs, v ∉ node.vertices := by
  rw [← Bool.not_eq_true, meets_iff]
  push Not
  rfl

theorem Proper.children_ne_nil {held : List Vertex} {children : List Node}
    (h : (Node.pnode held children).Proper) : children ≠ [] := by
  rintro rfl
  cases h with
  | pnode nodup apart sons firm arity proper =>
      rcases arity with h | ⟨-, row, h⟩
      · simp at h
      · simp at h

/-- A P-node with an only child holds vertices above a Q-node. -/
theorem Proper.of_only {held : List Vertex} {child : Node} (h : (Node.pnode held [child]).Proper) :
    held ≠ [] ∧ ∃ row, child = .qnode row := by
  cases h with
  | pnode nodup apart sons firm arity proper =>
      rcases arity with h2 | ⟨hheld, row, hrow⟩
      · simp at h2
      · exact ⟨hheld, row, List.singleton_inj.1 hrow⟩

theorem Proper.bags_ne_nil {node : Node} (h : node.Proper) : node.bags ≠ [] := by
  induction h with
  | leaf nodup => simp
  | @pnode held children nodup apart sons firm arity proper ih =>
      have hne : children ≠ [] := (Proper.pnode nodup apart sons firm arity proper).children_ne_nil
      obtain ⟨c, rest, rfl⟩ := List.exists_cons_of_ne_nil hne
      rw [bags_pnode]
      simp [bagsUnder, ih c List.mem_cons_self]
  | @qnode row standing proper ih =>
      obtain ⟨s, rest, hs⟩ := List.exists_cons_of_ne_nil standing.toList_ne_nil
      rw [bags_qnode, hs]
      simp [bagsUnder, ih s (hs ▸ List.mem_cons_self)]

theorem mem_bags_under {held : List Vertex} {node : Node} {v : Vertex} (hne : node.bags ≠ []) :
    (∃ B ∈ node.bagsUnder held, v ∈ B) ↔ v ∈ held ∨ ∃ B ∈ node.bags, v ∈ B := by
  simp only [mem_bagsUnder]
  constructor
  · rintro ⟨B, ⟨C, hC, rfl⟩, hv⟩
    rcases hv with hv | hv
    · exact Or.inl hv
    · exact Or.inr ⟨C, hC, hv⟩
  · rintro (hv | ⟨C, hC, hv⟩)
    · obtain ⟨C, rest, hC⟩ := List.exists_cons_of_ne_nil hne
      exact ⟨_, ⟨C, by simp [hC], rfl⟩, Or.inl hv⟩
    · exact ⟨_, ⟨C, hC, rfl⟩, Or.inr hv⟩

/-- The vertices of a node are those of its bags. -/
theorem Proper.mem_vertices {node : Node} (h : node.Proper) {v : Vertex} :
    v ∈ node.vertices ↔ ∃ B ∈ node.bags, v ∈ B := by
  induction h with
  | leaf nodup => simp
  | @pnode held children nodup apart sons firm arity proper ih =>
      have hne : children ≠ [] := (Proper.pnode nodup apart sons firm arity proper).children_ne_nil
      rw [mem_vertices_pnode, bags_pnode]
      simp only [List.mem_flatMap]
      constructor
      · -- A held vertex is in every bag, and there is one, since there is a child.
        rintro (hv | ⟨c, hc, hv⟩)
        · obtain ⟨c, hc⟩ := List.exists_mem_of_ne_nil _ hne
          obtain ⟨B, hB, hvB⟩ := (mem_bags_under (proper c hc).bags_ne_nil).2 (Or.inl hv)
          exact ⟨B, ⟨c, hc, hB⟩, hvB⟩
        · have hunder : ∃ B ∈ c.bagsUnder held, v ∈ B :=
            (mem_bags_under (proper c hc).bags_ne_nil).2 (Or.inr ((ih c hc).1 hv))
          obtain ⟨B, hB, hvB⟩ := hunder
          exact ⟨B, ⟨c, hc, hB⟩, hvB⟩
      · rintro ⟨B, ⟨c, hc, hB⟩, hv⟩
        rcases (mem_bags_under (proper c hc).bags_ne_nil).1 ⟨B, hB, hv⟩ with hv | hv
        · exact Or.inl hv
        · exact Or.inr ⟨c, hc, (ih c hc).2 hv⟩
  | @qnode row standing proper ih =>
      rw [mem_vertices_qnode, bags_qnode]
      simp only [List.mem_flatMap]
      constructor
      · rintro ⟨s, hs, hv⟩
        have hv' : v ∈ s.held ∨ ∃ B ∈ s.son.bags, v ∈ B := hv.imp_right (ih s hs).1
        obtain ⟨B, hB, hvB⟩ := (mem_bags_under (proper s hs).bags_ne_nil).2 hv'
        exact ⟨B, ⟨s, hs, hB⟩, hvB⟩
      · rintro ⟨B, ⟨s, hs, hB⟩, hv⟩
        exact ⟨s, hs, ((mem_bags_under (proper s hs).bags_ne_nil).1 ⟨B, hB, hv⟩).imp_right
          (ih s hs).2⟩

/-- A firm node has a vertex. -/
theorem Proper.vertices_ne_nil {node : Node} (h : node.Proper) (hf : node.Firm) :
    node.vertices ≠ [] := by
  cases h with
  | leaf nodup =>
      have hheld : _ ≠ [] := hf
      simpa using hheld
  | pnode nodup apart sons firm arity proper =>
      have hheld : _ ≠ [] := hf
      simp [hheld]
  | @qnode row standing proper =>
      have h3 := standing.rigid.three
      obtain ⟨s, hs, hne⟩ := standing.filled.full_zero (by omega)
      have hmem : s ∈ row.toList := List.mem_of_getElem? hs
      intro hnil
      obtain ⟨v, hv⟩ := List.exists_mem_of_ne_nil _ hne
      have : v ∈ (Node.qnode row).vertices := mem_vertices_qnode.2 ⟨s, hmem, Or.inr hv⟩
      simp [hnil] at this

end Node

end CliquePath
