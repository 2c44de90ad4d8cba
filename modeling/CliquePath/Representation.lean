import CliquePath.Graph.Basic
import CliquePath.Marks

set_option autoImplicit false

/-!
# Interval representations

This module checks whether intervals assigned to the vertices of a graph represent it, that is
whether two vertices are adjacent exactly when their intervals overlap. The check goes through the
intervals by their start and compares each with the later ones that it still overlaps. Adjacency is
not looked up: each round marks the neighbours of its vertex, looks for an overlapping entry without a
mark, and takes the marks off again. A pair that overlaps without being adjacent is found on the way;
an edge without an overlap shows in the count of overlapping pairs.
-/

namespace CliquePath

namespace Assignment

/-- The entries by the start of their intervals, and by vertex where the starts agree. -/
def byStart (a : Assignment) : List (Vertex × Interval) :=
  a.mergeSort fun p q =>
    p.2.start < q.2.start || (p.2.start == q.2.start && p.1 ≤ q.1)

end Assignment

namespace Graph

/-- Counts the overlapping pairs of entries that are sorted by their start, or gives the first such
pair whose second vertex has no mark in the round of the first. -/
def countMarked (g : Graph) : Marks → List (Vertex × Interval) → Except (Vertex × Vertex) Nat
  | _, [] => .ok 0
  | marks, (v, i) :: rest =>
      let marked := marks.setAll true (g.neighbors v)
      -- the entries are sorted, so that those that start before this one stops are the next ones
      let overlapping := rest.takeWhile fun e => e.2.start < i.stop
      let unmarked := marked.setAll false (g.neighbors v)
      match overlapping.find? fun e => !marked.has e.1 with
      | some (w, _) => .error (v, w)
      | none => (g.countMarked unmarked rest).map (· + overlapping.length)

/-- Both ends of the edge have intervals, and these overlap. -/
def edgeOverlaps (a : Assignment) (e : Vertex × Vertex) : Bool :=
  match a.get? e.1, a.get? e.2 with
  | some i, some j => i.overlaps j
  | _, _ => false

/-- The first pair of vertices whose adjacency disagrees with their intervals, if there is one. -/
def markedDisagreement? (g : Graph) (a : Assignment) : Option (Vertex × Vertex) :=
  match g.countMarked (.clear g.bound) a.byStart with
  | .error pair => some pair
  | .ok count =>
      if count = g.edgeCount then none else g.edges.find? fun e => !edgeOverlaps a e

end Graph

end CliquePath
