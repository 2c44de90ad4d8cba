import CliquePath.Graph.Basic
import CliquePath.GraphFile.Format
import CliquePath.Text.Lines
import CliquePath.Text.Numeral

set_option autoImplicit false

/-!
# Reading a graph file

This module reads a graph out of the text of a graph file. Lines in front of a heading are skipped.
The lines that a count announces are read one by one, and the first line that does not fit is the
fault. Room for the vertices is reserved before the first of them is read, so a number of vertices
that no block of memory can hold ends the program, however few lines there are.
-/

namespace CliquePath.GraphFile

open Text (Line)

/-- The lines after the first one that is the given heading. -/
def skipTo (heading : Heading) : List Line → Except Fault (List Line)
  | [] => .error (.noHeading heading)
  | line :: rest =>
      if Text.trim line.text = heading.text.toList then .ok rest else skipTo heading rest

/-- The next line, without the blanks at its end, and the lines after it. -/
def nextLine (expected : Item) : List Line → Except Fault (Line × List Line)
  | [] => .error (.endsEarly expected)
  | line :: rest => .ok ({ line with text := Text.trimEnd line.text }, rest)

/-- The number on the next line and the lines after it. -/
def readCount (expected : Item) (lines : List Line) : Except Fault (Nat × List Line) := do
  let (line, rest) ← nextLine expected lines
  match Text.readNumeral? (Text.trim line.text) with
  | none => .error (.notACount line.number (String.ofList line.text))
  | some n => .ok (n, rest)

/-- The label on a line: what stands between a brace in front and a brace at the end. -/
def label? (text : List Char) : Option (List Char) :=
  match Text.trimStart text with
  | '\x7b' :: rest => if rest.getLast? = some '\x7d' then some rest.dropLast else none
  | _ => none

/-- Adds a vertex for each of the next `n` lines. -/
def readLabels : Nat → Graph → List Line → Except Fault (Graph × List Line)
  | 0, g, lines => .ok (g, lines)
  | n + 1, g, lines => do
      let (line, rest) ← nextLine .vertexLabel lines
      match label? line.text with
      | none => .error (.notALabel line.number (String.ofList line.text))
      | some label => readLabels n (g.push (String.ofList label)) rest

/-- The vertex at a position in the list of `count` vertices. -/
def vertexAt (count line index : Nat) : Except Fault Vertex :=
  if 1 ≤ index ∧ index ≤ count then .ok (index - 1)
  else .error (.notAPosition line index count)

/-- The two numbers on a line. -/
def readPair? (text : List Char) : Option (Nat × Nat) :=
  match Text.words text with
  | [a, b] =>
      match Text.readNumeral? a, Text.readNumeral? b with
      | some m, some n => some (m, n)
      | _, _ => none
  | _ => none

/-- Adds the edge on a line. -/
def readEdge (count : Nat) (g : Graph) (line : Line) : Except Fault Graph :=
  match readPair? line.text with
  | none => .error (.notAnEdge line.number (String.ofList line.text))
  | some (a, b) => do
      let u ← vertexAt count line.number a
      let v ← vertexAt count line.number b
      match g.connect u v with
      | (.error cause, _) => .error (.refusedEdge line.number cause)
      | (.ok (), h) => .ok h

/-- Adds an edge for each of the next `m` lines. -/
def readEdges (count : Nat) : Nat → Graph → List Line → Except Fault Graph
  | 0, g, _ => .ok g
  | m + 1, g, lines => do
      let (line, rest) ← nextLine .edge lines
      let h ← readEdge count g line
      readEdges count m h rest

/-- The number of vertices and the lines after it. -/
def readVertexCount (lines : List Line) : Except Fault (Nat × List Line) := do
  readCount .vertexCount (← skipTo .nodes lines)

/-- The graph of `n` vertices in the lines after their number. -/
def readGraph (n : Nat) (lines : List Line) : Except Fault Graph := do
  let (g, lines) ← readLabels n .empty lines
  let lines ← skipTo .edges lines
  let (m, lines) ← readCount .edgeCount lines
  readEdges n m g lines

/-- The graph in the given lines. Room for all vertices is reserved once their number is known. -/
def readLines (lines : List Line) : Except Panic (Except Fault Graph) :=
  match readVertexCount lines with
  | .error fault => .ok (.error fault)
  | .ok (n, rest) => do
      reserve n
      return readGraph n rest

/-- The graph in a text. -/
def read (text : String) : Except Panic (Except Fault Graph) :=
  readLines (Text.numberedLines text.toList)

end CliquePath.GraphFile
