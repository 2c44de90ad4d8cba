import CliquePath.Search.Detour

set_option autoImplicit false

/-!
# Linked groups of unvisited vertices

This module computes the visits of a lexicographic breadth-first search with linked lists, so that a
vertex is moved from one group to another without a search for it. The groups form a doubly linked
list, and so do the vertices of each group. The group to be visited next is the last one, and a
vertex that is moved goes to the end of the new group that stands directly behind the group it came
from. A group refers to its new group while the neighbours of one vertex are moved, and groups that
have run empty are unlinked only after that.

An operation that follows a link to a place where nothing stands has no answer, nor has a search that
finds no vertex before it has visited all of them. What the search visits is what `Groups.visit`
visits. It enters each visited vertex in two records, the order and the ranks.
-/

namespace CliquePath

/-- The place of a group. -/
abbrev GroupId := Nat

/-- A group: the ends of its list of vertices, and the groups beside it. -/
structure GroupCell where
  head : Option Vertex := none
  tail : Option Vertex := none
  size : Nat := 0
  prev : Option GroupId := none
  next : Option GroupId := none
  /-- The new group for the neighbours of the vertex just visited. -/
  replacement : Option GroupId := none
deriving DecidableEq, Repr

/-- A vertex: its group, and the vertices beside it in that group. A vertex that was never put into a
group counts as visited. -/
structure VertexCell where
  group : Option GroupId := none
  prev : Option Vertex := none
  next : Option Vertex := none
  visited : Bool := true
deriving DecidableEq, Repr

/-- Groups and vertices that refer to one another. -/
structure LinkedGroups where
  groups : Array GroupCell := #[]
  vertices : Array VertexCell
  last : Option GroupId := none
deriving DecidableEq, Repr

namespace LinkedGroups

/-- No groups yet, for vertices below a bound. -/
def empty (bound : Nat) : LinkedGroups := { vertices := Array.replicate bound {} }

/-- Changes a group. -/
def setGroup? (p : LinkedGroups) (id : GroupId) (f : GroupCell → GroupCell) :
    Option LinkedGroups := do
  let c ← p.groups[id]?
  return { p with groups := p.groups.setIfInBounds id (f c) }

/-- Changes a vertex. -/
def setVertex? (p : LinkedGroups) (v : Vertex) (f : VertexCell → VertexCell) :
    Option LinkedGroups := do
  let c ← p.vertices[v]?
  return { p with vertices := p.vertices.setIfInBounds v (f c) }

/-! ## Links -/

/-- What stands behind a group, if there is one. -/
def setNextGroup? (p : LinkedGroups) (before after : Option GroupId) : Option LinkedGroups :=
  match before with
  | none => some p
  | some id => p.setGroup? id fun c => { c with next := after }

/-- What stands before a group. Without a group it stands behind all others. -/
def setPrevGroup? (p : LinkedGroups) (before after : Option GroupId) : Option LinkedGroups :=
  match after with
  | none => some { p with last := before }
  | some id => p.setGroup? id fun c => { c with prev := before }

/-- Makes two groups neighbours. Without a group behind it the first one becomes the last of all. -/
def joinGroups? (p : LinkedGroups) (before after : Option GroupId) : Option LinkedGroups := do
  let p ← p.setNextGroup? before after
  p.setPrevGroup? before after

/-- What stands behind a vertex of a group. Without a vertex it stands at the start. -/
def setNextVertex? (p : LinkedGroups) (id : GroupId) (before after : Option Vertex) :
    Option LinkedGroups :=
  match before with
  | none => p.setGroup? id fun c => { c with head := after }
  | some v => p.setVertex? v fun c => { c with next := after }

/-- What stands before a vertex of a group. Without a vertex it stands at the end. -/
def setPrevVertex? (p : LinkedGroups) (id : GroupId) (before after : Option Vertex) :
    Option LinkedGroups :=
  match after with
  | none => p.setGroup? id fun c => { c with tail := before }
  | some v => p.setVertex? v fun c => { c with prev := before }

/-- Makes two vertices of a group neighbours. Without a vertex on one side the other one becomes an end
of the group. -/
def joinVertices? (p : LinkedGroups) (id : GroupId) (before after : Option Vertex) :
    Option LinkedGroups := do
  let p ← p.setNextVertex? id before after
  p.setPrevVertex? id before after

/-- A new empty group between two neighbouring groups, and its place. -/
def insertGroup? (p : LinkedGroups) (before after : Option GroupId) :
    Option (LinkedGroups × GroupId) := do
  let id := p.groups.size
  let p ← { p with groups := p.groups.push {} }.joinGroups? before (some id)
  let p ← p.joinGroups? (some id) after
  return (p, id)

/-- A new empty group behind all others. -/
def pushGroup? (p : LinkedGroups) : Option (LinkedGroups × GroupId) := p.insertGroup? p.last none

/-- Takes a group out of the list of groups. -/
def removeGroup? (p : LinkedGroups) (id : GroupId) : Option LinkedGroups := do
  let c ← p.groups[id]?
  p.joinGroups? c.prev c.next

/-- Takes a group out of the list of groups if it has no vertices. -/
def removeIfEmpty? (p : LinkedGroups) (id : GroupId) : Option LinkedGroups := do
  let c ← p.groups[id]?
  if c.size = 0 then p.removeGroup? id else return p

/-- Puts a vertex at the end of a group. -/
def append? (p : LinkedGroups) (id : GroupId) (v : Vertex) : Option LinkedGroups := do
  let c ← p.groups[id]?
  let p ← p.setVertex? v fun c => { c with group := some id, visited := false }
  let p ← p.joinVertices? id c.tail (some v)
  -- the second join makes the vertex the end of the group
  let p ← p.joinVertices? id (some v) none
  p.setGroup? id fun c => { c with size := c.size + 1 }

/-- Puts vertices at the end of a group, one after the other. -/
def fill? (p : LinkedGroups) (id : GroupId) (vs : List Vertex) : Option LinkedGroups :=
  vs.foldlM (fun p v => p.append? id v) p

/-- Takes a vertex out of its group. -/
def unlink? (p : LinkedGroups) (v : Vertex) : Option LinkedGroups := do
  let c ← p.vertices[v]?
  let id ← c.group
  let p ← p.joinVertices? id c.prev c.next
  p.setGroup? id fun c => { c with size := c.size - 1 }

/-! ## Visits -/

/-- Takes the first vertex out of the last group. -/
def pop? (p : LinkedGroups) : Option (Vertex × LinkedGroups) := do
  let id ← p.last
  let c ← p.groups[id]?
  let v ← c.head
  let p ← p.unlink? v
  let p ← p.setVertex? v fun c => { c with visited := true }
  return (v, ← p.removeIfEmpty? id)

/-- What a round changes: the groups, those of them that got a new group, and the vertices that were
moved. -/
structure Round where
  groups : LinkedGroups
  touched : List GroupId := []
  moved : List Vertex := []
deriving DecidableEq, Repr

/-- The new group for the vertices of a group, which may have to be put there first. -/
def replacementOf? (r : Round) (id : GroupId) : Option (Round × GroupId) := do
  let c ← r.groups.groups[id]?
  match c.replacement with
  | some target => return (r, target)
  | none =>
      -- the first vertex that leaves the group needs the new one
      let (p, target) ← r.groups.insertGroup? (some id) c.next
      let p ← p.setGroup? id fun c => { c with replacement := some target }
      return ({ r with groups := p, touched := r.touched ++ [id] }, target)

/-- Moves a vertex into the new group behind its own one, unless it was visited. -/
def move? (r : Round) (v : Vertex) : Option Round := do
  let c ← r.groups.vertices[v]?
  if c.visited then return r
  else
    let id ← c.group
    let (r, target) ← replacementOf? r id
    let p ← r.groups.unlink? v
    let p ← p.append? target v
    return { r with groups := p, moved := r.moved ++ [v] }

/-- Ends the round for a group that got a new one. -/
def settle? (p : LinkedGroups) (id : GroupId) : Option LinkedGroups := do
  let p ← p.setGroup? id fun c => { c with replacement := none }
  p.removeIfEmpty? id

/-- Moves each of the given vertices behind the group it came from, and lists those that were
moved. -/
def refine? (p : LinkedGroups) (moving : List Vertex) : Option (LinkedGroups × List Vertex) := do
  let r ← moving.foldlM move? { groups := p }
  let p ← r.touched.foldlM settle? r.groups
  return (p, r.moved)

/-- The visited vertices in order, each with the unvisited neighbours that its visit moved. -/
abbrev VisitLog := List (Vertex × List Vertex)

/-- Visits `n` vertices. -/
def visit? (g : Graph) : Nat → LinkedGroups → Option VisitLog
  | 0, _ => some []
  | n + 1, p => do
      let (v, p) ← p.pop?
      let (p, moved) ← p.refine? (g.neighbors v)
      return (v, moved) :: (← visit? g n p)

end LinkedGroups

open LinkedGroups (VisitLog)

namespace Graph

/-- The records of a search of the graph with the given visits. -/
def recordsOf (g : Graph) (visits : List Vertex) (direction : Direction) : RankRecords :=
  RankRecords.enterFrom direction g.vertexCount 0 visits (.blank g.vertexCount g.bound)

/-- The records of a lexicographic breadth-first search over linked groups, from one group that holds
all vertices in ascending order. -/
def linkedRecords? (g : Graph) (direction : Direction) : Option RankRecords := do
  let (p, id) ← (LinkedGroups.empty g.bound).pushGroup?
  let p ← p.fill? id g.vertices
  let log ← LinkedGroups.visit? g g.vertexCount p
  return g.recordsOf (log.map Prod.fst) direction

/-- The ranking of that search. -/
def linkedRanking? (g : Graph) (direction : Direction) : Option Ranking :=
  (g.linkedRecords? direction).map RankRecords.ranking

end Graph

/-- Counts hops while vertices are moved: a vertex that is moved for the first time gets one more than
the vertex that is visited, if that one has a count. -/
def HopCounts.stamp : VisitLog → HopCounts → HopCounts
  | [], hops => hops
  | (v, moved) :: rest, hops =>
      match hops.lookup v with
      | none => stamp rest hops
      | some count => stamp rest (moved.foldl (enter moved (count + 1)) hops)

/-- Visits the allowed vertices first, beginning with the target, over linked groups, and counts hops
from it. -/
def Detour.linkedSearch? (g : Graph) (d : Detour) : Option CountedRanking := do
  let (p, low) ← (LinkedGroups.empty g.bound).pushGroup?
  let (p, high) ← p.pushGroup?
  -- the group put there last is visited first
  let p ← p.fill? high [d.target, d.start]
  let p ← p.fill? low (d.avoided g)
  let p ← p.fill? high (g.vertices.filter fun v =>
    v != d.start && v != d.target && !(d.avoided g).contains v)
  let p ← p.removeIfEmpty? low
  let log ← LinkedGroups.visit? g g.vertexCount p
  return {
    ranking := (g.recordsOf (log.map Prod.fst) .forward).ranking
    hops := HopCounts.stamp log [(d.target, 0)] }

end CliquePath
