import CliquePath.Json
import CliquePath.Recognition

set_option autoImplicit false

/-!
# Reports of a recognition

This module prints the outcome of a recognition, as a text for readers, in which vertices appear by
their labels, and as JSON, in which they appear by their numbers.
-/

namespace CliquePath.Report

/-- The label of a vertex; a vertex that the graph does not have is shown by its number. -/
def nameOf (g : Graph) (v : Vertex) : String := (g.label? v).getD s!"#{v}"

/-- The names of vertices with a separator between them. -/
def names (g : Graph) (separator : String) (vs : List Vertex) : String :=
  separator.intercalate (vs.map (nameOf g))

/-- The lines of the text for readers. -/
def textLines (g : Graph) : Verdict → List String
  | .represented _ intervals =>
      "Interval representation:" ::
        intervals.map fun e => s!"{nameOf g e.1}: {e.2.start}..{e.2.stop}"
  | .hole cycle =>
      ["Not an interval graph: the graph is not chordal.", "Chordless cycle:", names g " - " cycle]
  | .asteroidal triple =>
      ["Not an interval graph: the graph has an asteroidal triple.", "Asteroidal triple:",
        names g ", " [triple.first, triple.second, triple.third]] ++
      triple.paths.flatMap fun path => ["Path:", names g " - " path]

/-- The text for readers. Every line ends in a line feed. -/
def text (g : Graph) (outcome : Verdict) : String :=
  String.join ((textLines g outcome).map fun line => line ++ "\n")

/-- Vertices as an array of numbers. -/
def vertexArray (vs : List Vertex) : Json := .arr (vs.map .num)

/-- An interval as an object. -/
def intervalObject (i : Interval) : Json := .obj [("start", .num i.start), ("end", .num i.stop)]

/-- The outcome as a JSON object that begins with its kind. -/
def json : Verdict → Json
  | .represented order intervals =>
      .obj [("kind", .str "chordal"), ("order", vertexArray order),
        ("intervals", .obj (intervals.map fun e => (toString e.1, intervalObject e.2)))]
  | .hole cycle => .obj [("kind", .str "notChordal"), ("cycle", vertexArray cycle)]
  | .asteroidal triple =>
      .obj [("kind", .str "notInterval"),
        ("asteroidalTriple", vertexArray [triple.first, triple.second, triple.third]),
        ("paths", .arr (triple.paths.map vertexArray))]

end CliquePath.Report
