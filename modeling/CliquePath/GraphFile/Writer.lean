import CliquePath.GraphFile.Format
import CliquePath.Search.EdgeTour
import CliquePath.Text.Numeral

set_option autoImplicit false

/-!
# Writing a graph file

This module writes the text of a graph file. Vertices take their positions by ascending number, and
the edges stand in the order of the edge tour.
-/

namespace CliquePath.GraphFile

/-- The position of a vertex among the vertices of the graph, counted from 1. -/
def position (g : Graph) (v : Vertex) : Nat := g.vertices.idxOf v + 1

/-- The line of a vertex. -/
def labelLine (g : Graph) (v : Vertex) : List Char :=
  '\x7b' :: ((g.label? v).getD "").toList ++ ['\x7d']

/-- The line of an edge. -/
def edgeLine (g : Graph) (e : Vertex × Vertex) : List Char :=
  Text.numeral (position g e.1) ++ ' ' :: Text.numeral (position g e.2)

/-- The lines of the file. -/
def fileLines (g : Graph) : List (List Char) :=
  [Heading.nodes.text.toList, Text.numeral g.vertices.length] ++
    g.vertices.map (labelLine g) ++
    [[], Heading.edges.text.toList, Text.numeral g.edgeCount] ++
    g.edgeTour.map (edgeLine g)

/-- The text of the file. Every line ends in a line feed. -/
def write (g : Graph) : String :=
  String.ofList ((fileLines g).flatMap fun line => line ++ ['\n'])

end CliquePath.GraphFile
