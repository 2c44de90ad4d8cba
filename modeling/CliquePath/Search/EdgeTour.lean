import CliquePath.Graph.Components

set_option autoImplicit false

/-!
# A tour of the edges

This module lists every edge once by a search with a stack. The search starts at the least vertex of
each component. It takes the top vertex off the stack and lists the edges to those of its neighbours
that were not taken off before; the neighbours met for the first time go onto the stack, the last
one on top.
-/

namespace CliquePath

/-- The state of a tour through one component. -/
structure EdgeTour where
  stack : List Vertex
  /-- The vertices of the component that were not on the stack so far. -/
  unseen : List Vertex
  /-- The vertices taken off the stack so far. -/
  finished : List Vertex := []

namespace EdgeTour

/-- Puts a vertex on the stack if it was not there before. -/
def meet (t : EdgeTour) (v : Vertex) : EdgeTour :=
  if t.unseen.contains v then { t with stack := v :: t.stack, unseen := t.unseen.erase v } else t

/-- The edges listed by taking at most `n` vertices off the stack, each edge with the vertex that
was taken off in front. -/
def edges (g : Graph) : Nat → EdgeTour → List (Vertex × Vertex)
  | 0, _ => []
  | n + 1, t =>
      match t.stack with
      | [] => []
      | v :: rest =>
          let ahead := (g.neighbors v).filter fun w => !t.finished.contains w
          let next := ahead.foldl meet { t with stack := rest, finished := v :: t.finished }
          (ahead.map fun w => (v, w)) ++ edges g n next

end EdgeTour

namespace Graph

/-- The edges of one component. Each of its vertices is on the stack once, so as many steps as it
has vertices reach the end. -/
def tourComponent (g : Graph) : List Vertex → List (Vertex × Vertex)
  | [] => []
  | least :: others =>
      EdgeTour.edges g (others.length + 1) { stack := [least], unseen := others }

/-- All edges, component by component. -/
def edgeTour (g : Graph) : List (Vertex × Vertex) :=
  g.components.flatMap g.tourComponent

end Graph

end CliquePath
