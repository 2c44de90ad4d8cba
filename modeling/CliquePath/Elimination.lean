import CliquePath.Marks
import CliquePath.Search.Detour

set_option autoImplicit false

/-!
# Chordal graphs

This module decides whether a graph is chordal and gives a certificate either way: an order in which
the vertices can be eliminated, each with its later neighbours pairwise adjacent, or a cycle of four
or more vertices without a chord.

The order is that of a backward lexicographic breadth-first search. It is checked in time linear in
the size of the graph, given the neighbours of every vertex by ascending rank. A pass up the ranking
hands the later neighbours of each vertex to the first of them, which has to be adjacent to the rest.
A pass down the ranking marks the neighbours of each vertex to which something was handed, looks for
the first vertex without a mark, and takes the marks off again. A pair that fails the check is closed
to a cycle through a common neighbour and a path around that neighbour.
-/

namespace CliquePath

/-- A chordal graph has an elimination order; any other graph has a hole, that is a chordless cycle
of at least four vertices. -/
inductive Elimination where
  | order (vertices : List Vertex)
  | hole (cycle : List Vertex)
deriving DecidableEq, Repr

namespace Graph

/-- The later neighbours of a vertex: its neighbours by ascending rank without those of a lower rank
than its own. -/
def laterNeighbors (r : Ranking) (near : Vertex → List Vertex) (v : Vertex) : List Vertex :=
  (near v).dropWhile fun w => r.order.idxOf w < r.order.idxOf v

/-- Hands the later neighbours of a vertex to the first of them. -/
def handOver (r : Ranking) (near : Vertex → List Vertex) (pending : Array (List Vertex))
    (v : Vertex) : Array (List Vertex) :=
  match laterNeighbors r near v with
  | [] => pending
  | first :: others => pending.modify first (· ++ others)

/-- What is handed to every vertex on the way up the ranking. -/
def handedOver (g : Graph) (r : Ranking) (near : Vertex → List Vertex) : Array (List Vertex) :=
  r.order.foldl (handOver r near) (Array.replicate g.bound [])

/-- The first of the given vertices that misses a vertex handed to it, and the first one that it
misses. -/
def firstMissed? (g : Graph) (pending : Array (List Vertex)) :
    Marks → List Vertex → Option (Vertex × Vertex)
  | _, [] => none
  | marks, v :: below =>
      match pending[v]?.getD [] with
      | [] => firstMissed? g pending marks below
      | required =>
          -- the marks go on and off for the neighbours only, so that a round costs no more than they do
          let marked := marks.setAll true (g.neighbors v)
          let missed := required.find? fun w => !marked.has w
          let unmarked := marked.setAll false (g.neighbors v)
          match missed with
          | some w => some (v, w)
          | none => firstMissed? g pending unmarked below

/-- The vertex of highest rank that misses a vertex handed to it, and the first one that it
misses. -/
def unmarkedDemand? (g : Graph) (r : Ranking) (near : Vertex → List Vertex) :
    Option (Vertex × Vertex) :=
  g.firstMissed? (g.handedOver r near) (.clear g.bound) r.order.reverse

/-- A cycle through `v` and `w`, closed by the common neighbour of lowest rank that a path from `v`
to `w` can avoid. -/
def holeThrough (g : Graph) (r : Ranking) (v w : Vertex) : Except Breach (List Vertex) :=
  let common := (g.neighborsByRank r w).filter fun u => g.adjacent v u
  let closed? (u : Vertex) : Option (List Vertex) :=
    match Detour.path g ⟨u, v, w⟩ with
    | .error _ => none
    | .ok path => some (path ++ [u])
  match common.findSome? closed? with
  | none => .error (.noChordlessCycle v w)
  | some cycle => .ok cycle

/-- Decides whether the graph is chordal, that is whether its vertices can be eliminated. -/
def elimination (g : Graph) : Except Breach Elimination :=
  let r := g.lexRanking .backward
  match g.unmarkedDemand? r (g.neighborsByRank r) with
  | none => .ok (.order r.order)
  | some (v, w) => (g.holeThrough r v w).map .hole

end Graph

end CliquePath
