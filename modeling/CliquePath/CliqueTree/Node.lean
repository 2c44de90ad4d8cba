import CliquePath.Interval
import CliquePath.Row

set_option autoImplicit false

/-!
# Nodes of a clique tree

This module defines the nodes of a clique tree. Each leaf stands for a maximal clique of a graph.
The children of a P-node may be put in any order; the sections of a Q-node stand in a row that may
only be reversed. The orders of the leaves that arise in this way are the arrangements of the
cliques in which the cliques of every vertex are consecutive.

A vertex is held by one leaf, by one P-node, or by consecutive sections of one Q-node, and belongs
to all cliques below the places that hold it.
-/

namespace CliquePath

/-- A place in the row of a Q-node: the vertices that it holds, and what stands below it. -/
structure Section (ν : Type) where
  held : List Vertex
  son : ν
deriving DecidableEq, Repr

/-- A node of a clique tree. -/
inductive Node where
  /-- One clique. -/
  | leaf (held : List Vertex)
  /-- Children in any order. -/
  | pnode (held : List Vertex) (children : List Node)
  /-- Sections in a row. -/
  | qnode (row : Row (Section Node))
deriving Repr

instance : Inhabited Node := ⟨.leaf []⟩

theorem Section.sizeOf_son_lt {row : Row (Section Node)} {s : Section Node}
    (h : s ∈ row.toList) : sizeOf s.son < sizeOf row := by
  obtain ⟨key, hmem⟩ := Row.mem_toList.1 h
  have hlt := List.sizeOf_lt_of_mem hmem
  cases row with
  | mk cells flipped =>
      cases s with
      | mk held son =>
          simp at hlt ⊢
          omega

namespace Node

/-- All vertices held at the node or below it, one entry for each place that holds the vertex. -/
def vertices : Node → List Vertex
  | .leaf held => held
  | .pnode held children => held ++ children.attach.flatMap fun ⟨c, _⟩ => c.vertices
  | .qnode row => row.toList.attach.flatMap fun ⟨s, _⟩ => s.held ++ s.son.vertices
termination_by node => sizeOf node
decreasing_by
  · have := List.sizeOf_lt_of_mem ‹c ∈ children›
    simp_wf
    omega
  · have := Section.sizeOf_son_lt ‹s ∈ row.toList›
    simp_wf
    omega

/-- One of the given vertices is held at the node or below it. -/
def meets (nbrs : List Vertex) (node : Node) : Bool :=
  node.vertices.any fun v => nbrs.contains v

/-- A P-node, or its only child if it holds nothing and has just one. -/
def bundle : List Vertex → List Node → Node
  | [], [child] => child
  | held, children => .pnode held children

/-- Puts a new clique of one vertex beside whatever stands at the node. -/
def beside (node : Node) (u : Vertex) : Node :=
  match node with
  | .leaf [] => .leaf [u]
  | .pnode [] children => .pnode [] (children ++ [.leaf [u]])
  | other => .pnode [] [other, .leaf [u]]

@[simp]
theorem vertices_leaf (held : List Vertex) : (leaf held).vertices = held := by
  simp [vertices]

@[simp]
theorem vertices_pnode (held : List Vertex) (children : List Node) :
    (pnode held children).vertices = held ++ children.flatMap vertices := by
  rw [vertices]
  simp [List.flatMap_subtype]

@[simp]
theorem vertices_qnode (row : Row (Section Node)) :
    (qnode row).vertices = row.toList.flatMap fun s => s.held ++ s.son.vertices := by
  rw [vertices]
  simp [List.flatMap_subtype]

end Node

end CliquePath
