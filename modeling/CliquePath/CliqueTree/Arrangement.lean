import CliquePath.CliqueTree.Node

set_option autoImplicit false

/-!
# Reading a clique tree

This module reads a node of a clique tree in two ways. `Node.cliques` lists the cliques from left to
right, each as the vertices held on the way from the node down to a leaf. `Node.arrangement` numbers
the leaves from left to right and gives every place the range of leaves below it; a vertex lies in
the hull of the ranges of the places that hold it.
-/

namespace CliquePath

/-- The vertices of one place and the range of the leaves below it. -/
structure Place where
  held : List Vertex
  range : Interval
deriving DecidableEq, Repr

/-- The places of part of a tree whose leaves are numbered from 0. -/
structure Arrangement where
  /-- The number of leaves. -/
  width : Nat
  places : List Place
deriving DecidableEq, Repr

/-- The interval moved to the right. -/
def Interval.shift (i : Interval) (offset : Nat) : Interval :=
  ⟨i.start + offset, i.stop + offset⟩

/-- The least interval that contains two intervals. -/
def Interval.hull (i j : Interval) : Interval := ⟨min i.start j.start, max i.stop j.stop⟩

namespace Arrangement

/-- One leaf that holds nothing. -/
def single : Arrangement := ⟨1, []⟩

/-- A place that holds the given vertices above everything arranged so far. -/
def under (held : List Vertex) (a : Arrangement) : Arrangement :=
  ⟨a.width, ⟨held, ⟨0, a.width⟩⟩ :: a.places⟩

/-- The second arrangement to the right of the first. -/
def beside (a b : Arrangement) : Arrangement :=
  ⟨a.width + b.width,
    a.places ++ b.places.map fun p => { p with range := p.range.shift a.width }⟩

/-- Arrangements side by side, from left to right. -/
def inRow (arrangements : List Arrangement) : Arrangement := arrangements.foldr beside ⟨0, []⟩

/-- The hull of the ranges of the places that hold a vertex. -/
def interval? (a : Arrangement) (v : Vertex) : Option Interval :=
  match (a.places.filter fun p => p.held.contains v).map Place.range with
  | [] => none
  | first :: rest => some (rest.foldl Interval.hull first)

end Arrangement

namespace Node

/-- The places of a node and below it. -/
def arrangement : Node → Arrangement
  | .leaf held => .under held .single
  | .pnode held children =>
      .under held (.inRow (children.attach.map fun ⟨c, _⟩ => c.arrangement))
  | .qnode row =>
      .inRow (row.toList.attach.map fun ⟨s, _⟩ => .under s.held s.son.arrangement)
termination_by node => sizeOf node
decreasing_by
  · have := List.sizeOf_lt_of_mem ‹c ∈ children›
    simp_wf
    omega
  · have := Section.sizeOf_son_lt ‹s ∈ row.toList›
    simp_wf
    omega

/-- The cliques below a node from left to right, each ascending, if the vertices `above` are held on
the way down to the node. -/
def cliques (above : List Vertex) : Node → List (List Vertex)
  | .leaf held => [(held ++ above).mergeSort]
  | .pnode held children =>
      children.attach.flatMap fun ⟨c, _⟩ => c.cliques (held ++ above)
  | .qnode row =>
      row.toList.attach.flatMap fun ⟨s, _⟩ => s.son.cliques (s.held ++ above)
termination_by node => sizeOf node
decreasing_by
  · have := List.sizeOf_lt_of_mem ‹c ∈ children›
    simp_wf
    omega
  · have := Section.sizeOf_son_lt ‹s ∈ row.toList›
    simp_wf
    omega

@[simp]
theorem arrangement_leaf (held : List Vertex) : (leaf held).arrangement = .under held .single := by
  rw [arrangement]

@[simp]
theorem arrangement_pnode (held : List Vertex) (children : List Node) :
    (pnode held children).arrangement = .under held (.inRow (children.map arrangement)) := by
  rw [arrangement]
  simp [List.map_subtype]

@[simp]
theorem arrangement_qnode (row : Row (Section Node)) :
    (qnode row).arrangement = .inRow (row.toList.map fun s => .under s.held s.son.arrangement) := by
  rw [arrangement]
  simp [List.map_subtype]

@[simp]
theorem cliques_leaf (above held : List Vertex) :
    (leaf held).cliques above = [(held ++ above).mergeSort] := by
  rw [cliques]

@[simp]
theorem cliques_pnode (above held : List Vertex) (children : List Node) :
    (pnode held children).cliques above =
      children.flatMap fun c => c.cliques (held ++ above) := by
  rw [cliques]
  simp [List.flatMap_subtype]

@[simp]
theorem cliques_qnode (above : List Vertex) (row : Row (Section Node)) :
    (qnode row).cliques above =
      row.toList.flatMap fun s => s.son.cliques (s.held ++ above) := by
  rw [cliques]
  simp [List.flatMap_subtype]

end Node

end CliquePath
