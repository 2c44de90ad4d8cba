import CliquePath.CliqueTree.Node

set_option autoImplicit false

/-!
# The neighbours of a new vertex within a place

This module defines how the neighbours of a vertex that is about to enter a clique tree split the
vertices of a place, which of them a row holds, and where in the row their sections overlap.
-/

namespace CliquePath

/-- The vertices of a place that are neighbours of the new vertex. -/
def reached (nbrs held : List Vertex) : List Vertex := held.filter fun v => nbrs.contains v

/-- The vertices of a place that are not neighbours of the new vertex. -/
def missed (nbrs held : List Vertex) : List Vertex := held.filter fun v => !nbrs.contains v

/-- The place holds neighbours of the new vertex only. -/
def isFull (nbrs held : List Vertex) : Bool := held.all fun v => nbrs.contains v

/-- The two places share no vertex but neighbours of the new vertex. -/
def partsBeyond (nbrs left right : List Vertex) : Bool :=
  !(missed nbrs left).any fun v => right.contains v

/-- The place holds all the given vertices. -/
def holdsAll (vertices held : List Vertex) : Bool := vertices.all fun v => held.contains v

namespace Row

/-- The neighbours of the new vertex that sections of the row hold. -/
def owned (row : Row (Section Node)) (nbrs : List Vertex) : List Vertex :=
  nbrs.filter fun v => row.toList.any fun s => s.held.contains v

/-- The keys of the first and the last section that hold a vertex. -/
def spanOf? (row : Row (Section Node)) (v : Vertex) : Option (Int × Int) :=
  row.span? fun s => s.held.contains v

/-- The keys between which the spans of all the given vertices overlap; the whole row if no vertices
are given. The keys are in the wrong order if the spans do not overlap. -/
def sharedSpan? (row : Row (Section Node)) (vertices : List Vertex) : Option (Int × Int) :=
  let meet (a b : Int × Int) : Int × Int := (max a.1 b.1, min a.2 b.2)
  match vertices.filterMap row.spanOf? with
  | [] => row.span? fun _ => true
  | first :: rest => some (rest.foldl meet first)

/-- The positions of the sections that lie within the spans of all the given vertices. -/
def sharedPositions (row : Row (Section Node)) (vertices : List Vertex) : List Nat :=
  match row.sharedSpan? vertices with
  | none => []
  | some (low, high) => row.positions low high

end Row

end CliquePath
