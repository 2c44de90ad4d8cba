import CliquePath.Failure

set_option autoImplicit false

/-!
# The graph file

A graph file has two sections. The first has the heading `#nodes section`, the number of vertices
and one line for each vertex with its label in braces. The second has the heading `#edges section`,
the number of edges and one line for each edge with the positions of its ends in the list of
vertices, counted from 1.

This module defines the words of the format and the faults that a text can have.
-/

namespace CliquePath.GraphFile

/-- The headings of the two sections. -/
inductive Heading where
  | nodes
  | edges
deriving DecidableEq, Repr

/-- The line that a heading stands on. -/
def Heading.text : Heading → String
  | .nodes => "#nodes section"
  | .edges => "#edges section"

/-- What a line after a heading is read as. -/
inductive Item where
  | vertexCount
  | vertexLabel
  | edgeCount
  | edge
deriving DecidableEq, Repr

/-- The wording of an item. -/
def Item.text : Item → String
  | .vertexCount => "the vertex count"
  | .vertexLabel => "a vertex label"
  | .edgeCount => "the edge count"
  | .edge => "an edge"

/-- The faults of a text that is no graph file. Lines are numbered from 1. -/
inductive Fault where
  | noHeading (heading : Heading)
  | endsEarly (expected : Item)
  | notACount (line : Nat) (found : String)
  | notALabel (line : Nat) (found : String)
  | notAnEdge (line : Nat) (found : String)
  /-- An end of an edge is no position in the list of `count` vertices. -/
  | notAPosition (line index count : Nat)
  /-- The graph refuses the edge. -/
  | refusedEdge (line : Nat) (cause : Failure)
deriving DecidableEq, Repr

/-- The wording of a fault. -/
def Fault.message : Fault → String
  | .noHeading heading => "missing `" ++ heading.text ++ "` line"
  | .endsEarly expected => "unexpected end of file, expected " ++ expected.text
  | .notACount line found => s!"line {line}: expected a count, found `" ++ found ++ "`"
  | .notALabel line found =>
      s!"line {line}: expected `\x7blabel\x7d`, found `" ++ found ++ "`"
  | .notAnEdge line found => s!"line {line}: expected `<a> <b>`, found `" ++ found ++ "`"
  | .notAPosition line index count => s!"line {line}: vertex {index} is outside 1..={count}"
  | .refusedEdge line cause => s!"line {line}: {cause.message}"

end CliquePath.GraphFile
