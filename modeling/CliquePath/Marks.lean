import CliquePath.Failure

set_option autoImplicit false

/-!
# Marks on vertices

This module defines marks, an array with one flag for each vertex number. A check marks the
neighbours of one vertex, looks up marks instead of adjacency, and takes the marks off again before
it turns to the next vertex.
-/

namespace CliquePath

/-- One flag for each vertex number. -/
abbrev Marks := Array Bool

namespace Marks

/-- No vertex is marked. -/
def clear (bound : Nat) : Marks := Array.replicate bound false

/-- Gives the flags of the listed vertices the same value. -/
def setAll (marks : Marks) (value : Bool) (vs : List Vertex) : Marks :=
  vs.foldl (fun marks v => marks.setIfInBounds v value) marks

/-- The vertex is marked. -/
def has (marks : Marks) (v : Vertex) : Bool := marks[v]?.getD false

end Marks

end CliquePath
