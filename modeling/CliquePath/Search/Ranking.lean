import CliquePath.Search.Groups

set_option autoImplicit false

/-!
# Rankings of the vertices

This module defines rankings, that is linear orders of the vertices of a graph, and the ranking that
a lexicographic breadth-first search gives. A ranking read forwards lists the vertices as they are
visited; read backwards, its first vertex was visited last, which is the order in which a chordal
graph can be taken apart.
-/

namespace CliquePath

/-- Which end of the ranking the search fills first. -/
inductive Direction where
  | forward
  | backward
deriving DecidableEq, Repr

/-- A linear order of vertices, the lowest rank first. -/
structure Ranking where
  order : List Vertex
deriving DecidableEq, Repr

namespace Ranking

/-- The rank of a vertex, counted from 0. -/
def rank? (r : Ranking) (v : Vertex) : Option Nat := r.order.findIdx? (· == v)

/-- The number of ranked vertices. -/
def size (r : Ranking) : Nat := r.order.length

/-- No vertex is ranked. -/
def isEmpty (r : Ranking) : Bool := r.order.isEmpty

/-- The ranking whose visits went in the given order. -/
def ofVisits (visits : List Vertex) : Direction → Ranking
  | .forward => ⟨visits⟩
  | .backward => ⟨visits.reverse⟩

end Ranking

/-- The rank of the vertex visited in a step, when `n` vertices are visited in all. -/
def Direction.rankAt (n step : Nat) : Direction → Nat
  | .forward => step
  | .backward => n - 1 - step

/-- The two records that a search makes while it visits: the vertex of each rank, and the rank of each
vertex number. -/
structure RankRecords where
  order : Array Vertex
  ranks : Array (Option Nat)
deriving DecidableEq, Repr

namespace RankRecords

/-- The records before the first visit, for `n` vertices below a bound. -/
def blank (n bound : Nat) : RankRecords :=
  { order := Array.replicate n 0, ranks := Array.replicate bound none }

/-- Enters a vertex in both records. -/
def enter (s : RankRecords) (v : Vertex) (rank : Nat) : RankRecords :=
  { order := s.order.setIfInBounds rank v, ranks := s.ranks.setIfInBounds v (some rank) }

/-- Enters the vertices visited from a step on. -/
def enterFrom (direction : Direction) (n : Nat) : Nat → List Vertex → RankRecords → RankRecords
  | _, [], s => s
  | step, v :: rest, s =>
      enterFrom direction n (step + 1) rest (s.enter v (direction.rankAt n step))

/-- The rank of a vertex. -/
def rank? (s : RankRecords) (v : Vertex) : Option Nat := s.ranks[v]?.join

/-- The ranking that the first record holds. -/
def ranking (s : RankRecords) : Ranking := ⟨s.order.toList⟩

end RankRecords

namespace Graph

/-- Lexicographic breadth-first search from one group that holds all vertices in ascending order. -/
def lexRanking (g : Graph) (direction : Direction) : Ranking :=
  .ofVisits (Groups.visit g g.vertexCount [g.vertices]) direction

/-- The neighbours of a vertex by ascending rank. -/
def neighborsByRank (g : Graph) (r : Ranking) (v : Vertex) : List Vertex :=
  r.order.filter fun x => g.adjacent x v

end Graph

end CliquePath
