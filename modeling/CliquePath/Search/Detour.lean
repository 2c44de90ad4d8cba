import CliquePath.Search.Ranking

set_option autoImplicit false

/-!
# Paths around a neighbourhood

This module defines a shortest path between two vertices that stays away from a third vertex and
its neighbours, the two ends excepted. A search from the target visits the vertices to be avoided
last and counts hops on its way; the path walks down the hop counts.

A walk has three ways to fail, and each is a `Breach` of its own: the search never counted the
start, no neighbour is closer, or the walk ended elsewhere.
-/

namespace CliquePath

/-- The three vertices that ask for a path: what to avoid, where to start and where to end. -/
structure Detour where
  avoid : Vertex
  start : Vertex
  target : Vertex
deriving DecidableEq, Repr

/-- Hop counts of vertices, the latest entry first. A vertex is entered at most once. -/
abbrev HopCounts := List (Vertex × Nat)

/-- A ranking of all vertices with the hop counts from its first vertex. -/
structure CountedRanking where
  ranking : Ranking
  hops : HopCounts
deriving DecidableEq, Repr

/-- The hop count of a vertex, if the search reached it from a vertex that has one. -/
def CountedRanking.hops? (c : CountedRanking) (v : Vertex) : Option Nat := c.hops.lookup v

namespace HopCounts

/-- Enters a count for a vertex that is still unvisited and has none. -/
def enter (unvisited : List Vertex) (count : Nat) (hops : HopCounts) (v : Vertex) : HopCounts :=
  if unvisited.contains v && (hops.lookup v).isNone then (v, count) :: hops else hops

/-- Follows the visits: each visited vertex that has a count gives its unvisited neighbours one
more, unless they have a count. -/
def along (g : Graph) : List Vertex → HopCounts → HopCounts
  | [], hops => hops
  | v :: unvisited, hops =>
      match hops.lookup v with
      | none => along g unvisited hops
      | some count =>
          along g unvisited ((g.neighbors v).foldl (enter unvisited (count + 1)) hops)

end HopCounts

namespace Detour

/-- The vertices that the path has to avoid. -/
def avoided (g : Graph) (d : Detour) : List Vertex :=
  d.avoid :: (g.neighbors d.avoid).filter fun v => v != d.start && v != d.target

/-- The vertices that the path may use, its two ends in front. -/
def allowed (g : Graph) (d : Detour) : List Vertex :=
  d.target :: d.start :: g.vertices.filter fun v =>
    v != d.start && v != d.target && !(d.avoided g).contains v

/-- Visits the allowed vertices first, beginning with the target, and counts hops from it. -/
def search (g : Graph) (d : Detour) : CountedRanking :=
  let visits := Groups.visit g g.vertexCount [d.allowed g, d.avoided g]
  { ranking := .ofVisits visits .forward, hops := HopCounts.along g visits [(d.target, 0)] }

/-- The first of the given vertices that is closer than `count` hops, with its own count. -/
def closer (c : CountedRanking) (count : Nat) : List Vertex → Option (Vertex × Fin count)
  | [] => none
  | v :: rest =>
      match c.hops? v with
      | none => closer c count rest
      | some k => if h : k < count then some (v, ⟨k, h⟩) else closer c count rest

/-- Walks from a vertex of the given hop count to one of count 0. Lists the vertices left behind
and gives the one reached. -/
def descend (g : Graph) (c : CountedRanking) (count : Nat) (v : Vertex) :
    Except Breach (List Vertex × Vertex) :=
  if count = 0 then .ok ([], v)
  else
    match closer c count (g.neighborsByRank c.ranking v) with
    | none => .error (.stalled v)
    | some (next, k) =>
        match descend g c k next with
        | .error breach => .error breach
        | .ok (walked, reached) => .ok (v :: walked, reached)
termination_by count
decreasing_by exact k.isLt

/-- The shortest path from the start to the target among the allowed vertices. -/
def path (g : Graph) (d : Detour) : Except Breach (List Vertex) :=
  let c := d.search g
  match c.hops? d.start with
  | none => .error (.unreachable d.start d.target d.avoid)
  | some count =>
      match descend g c count d.start with
      | .error breach => .error breach
      | .ok (walked, reached) =>
          if reached = d.target then .ok (walked ++ [d.target])
          else .error (.strayed d.start reached d.target)

end Detour

end CliquePath
