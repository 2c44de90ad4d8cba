import CliquePath.Graph.Basic
import CliquePath.Graph.Forest

set_option autoImplicit false

/-!
# Connected components

This module defines the connected components of a graph. They are the classes of a forest that is
joined along the edges.
-/

namespace CliquePath

namespace Graph

/-- The forest on all vertex numbers joined along the given edges. -/
def forestOf (g : Graph) (edges : List (Vertex × Vertex)) : Forest :=
  (Forest.roots g.bound).joinAll edges

/-- The connected components in ascending order of their least vertices, each ascending. -/
def components (g : Graph) : List (List Vertex) :=
  let forest := g.forestOf g.edges
  (g.vertices.filter fun v => forest.root v == v).map fun least =>
    g.vertices.filter fun v => forest.root v == least

end Graph

end CliquePath
