import CliquePath.Interval

set_option autoImplicit false

/-!
# Graphs

This module defines a graph without loops or parallel edges whose vertices carry labels. Vertices
are numbered in order of creation and a number is never given out twice, so removing a vertex
leaves a hole.

A graph keeps three records that repeat one another: the neighbours of each vertex, in the order in
which the edges came; the set of edges, each as its lower and its higher end; and the number of
vertices. Every edit changes all three. An edit gives its result and the graph after it; one that does
not fit the graph gives a `Failure`, and a graph after it all the same.
-/

namespace CliquePath

/-- What a graph keeps of one vertex. -/
structure VertexRecord where
  label : String
  /-- The neighbours, the latest edge last. -/
  neighbors : List Vertex := []
  /-- The interval that the last successful recognition stored. -/
  interval : Option Interval := none
deriving DecidableEq, Repr

/-- The record with one more neighbour. -/
def VertexRecord.append (w : Vertex) (r : VertexRecord) : VertexRecord :=
  { r with neighbors := r.neighbors ++ [w] }

/-- The record without a neighbour. -/
def VertexRecord.drop (w : Vertex) (r : VertexRecord) : VertexRecord :=
  { r with neighbors := r.neighbors.filter (· != w) }

/-- A graph, with a hole in `slots` for each vertex that was removed. -/
structure Graph where
  slots : Array (Option VertexRecord) := #[]
  /-- Each edge once, as its lower and its higher end. -/
  edgeSet : List (Vertex × Vertex) := []
  /-- The number of vertices. -/
  live : Nat := 0
deriving DecidableEq, Repr

/-- An edge as its lower and its higher end. -/
def sortedEnds (u v : Vertex) : Vertex × Vertex := if u < v then (u, v) else (v, u)

theorem sortedEnds_comm (u v : Vertex) : sortedEnds u v = sortedEnds v u := by
  rcases Nat.lt_trichotomy u v with h | h | h
  · simp [sortedEnds, h, Nat.lt_asymm h]
  · simp [sortedEnds, h]
  · simp [sortedEnds, h, Nat.lt_asymm h]

namespace Graph

/-- The graph without vertices. -/
def empty : Graph := {}

instance : Inhabited Graph := ⟨empty⟩

/-! ## Questions -/

/-- What the graph keeps of a vertex. -/
def record? (g : Graph) (v : Vertex) : Option VertexRecord := g.slots[v]?.join

/-- The graph has the vertex. -/
def contains (g : Graph) (v : Vertex) : Bool := (g.record? v).isSome

/-- One more than the largest number given to a vertex so far. -/
def bound (g : Graph) : Nat := g.slots.size

/-- The vertices, ascending. -/
def vertices (g : Graph) : List Vertex := (List.range g.bound).filter g.contains

/-- The number of vertices. -/
def vertexCount (g : Graph) : Nat := g.live

/-- The number of edges. -/
def edgeCount (g : Graph) : Nat := g.edgeSet.length

/-- The graph has no vertices. -/
def isEmpty (g : Graph) : Bool := g.live == 0

/-- The neighbours of a vertex in the order in which the edges came. A vertex that the graph does
not have has none. -/
def neighbors (g : Graph) (v : Vertex) : List Vertex :=
  ((g.record? v).map VertexRecord.neighbors).getD []

/-- The number of neighbours. -/
def degree (g : Graph) (v : Vertex) : Nat := (g.neighbors v).length

/-- The second vertex is a neighbour of the first. -/
def adjacent (g : Graph) (u v : Vertex) : Bool := (g.neighbors u).contains v

/-- The graph has the edge between the two vertices. -/
def hasEdge (g : Graph) (u v : Vertex) : Bool := g.edgeSet.contains (sortedEnds u v)

/-- Every edge once, lower end first, grouped by the lower end. -/
def edges (g : Graph) : List (Vertex × Vertex) :=
  g.vertices.flatMap fun u => ((g.neighbors u).filter fun v => u < v).map fun v => (u, v)

/-- The label of a vertex. -/
def label? (g : Graph) (v : Vertex) : Option String := (g.record? v).map VertexRecord.label

/-- The interval that the last successful recognition stored for a vertex. -/
def interval? (g : Graph) (v : Vertex) : Option Interval :=
  (g.record? v).bind VertexRecord.interval

/-! ## Edits -/

/-- Changes what the graph keeps of one vertex, if it has the vertex. -/
def modifyRecord (g : Graph) (v : Vertex) (f : VertexRecord → VertexRecord) : Graph :=
  { g with slots := g.slots.modify v (Option.map f) }

/-- Adds a vertex with the given label; its number is the former bound. -/
def push (g : Graph) (label : String) : Graph :=
  { g with slots := g.slots.push (some { label }), live := g.live + 1 }

/-- Adds a vertex labelled with its position, counted from 1. -/
def pushNumbered (g : Graph) : Graph := g.push (toString (g.bound + 1))

/-- Takes the edge between a removed vertex and one of its neighbours out of the set of edges, and the
vertex out of the neighbour's list. -/
def detach (v : Vertex) (g : Graph) (w : Vertex) : Graph :=
  let cut : Graph := { g with edgeSet := g.edgeSet.filter (· != sortedEnds v w) }
  cut.modifyRecord w (VertexRecord.drop v)

/-- Removes a vertex and the edges to its neighbours. -/
def eraseVertex (g : Graph) (v : Vertex) : Except Failure Unit × Graph :=
  -- the slot is emptied before it is known whether it held a vertex
  let emptied : Graph := { g with slots := g.slots.setIfInBounds v none }
  match g.record? v with
  | none => (.error (.noSuchVertex v), emptied)
  | some record =>
      let detached := record.neighbors.foldl (detach v) emptied
      (.ok (), { detached with live := detached.live - 1 })

/-- Joins two vertices, each becoming the last neighbour of the other. -/
def join (g : Graph) (u v : Vertex) : Graph :=
  let joined : Graph := { g with edgeSet := g.edgeSet.insert (sortedEnds u v) }
  (joined.modifyRecord u (VertexRecord.append v)).modifyRecord v (VertexRecord.append u)

/-- Joins two vertices unless they are joined already; tells whether the edge is new. -/
def insertEdge (g : Graph) (u v : Vertex) : Except Failure Bool × Graph :=
  if !g.contains u then (.error (.noSuchVertex u), g)
  else if !g.contains v then (.error (.noSuchVertex v), g)
  else if u = v then (.error (.loop u), g)
  else if g.hasEdge u v then (.ok false, g)
  else (.ok true, g.join u v)

/-- Joins two vertices that are not joined yet. -/
def connect (g : Graph) (u v : Vertex) : Except Failure Unit × Graph :=
  match g.insertEdge u v with
  | (.error e, h) => (.error e, h)
  | (.ok false, h) => (.error (.edgeExists u v), h)
  | (.ok true, h) => (.ok (), h)

/-- Changes the label of a vertex. -/
def relabel (g : Graph) (v : Vertex) (label : String) : Except Failure Unit × Graph :=
  if g.contains v then (.ok (), g.modifyRecord v fun r => { r with label })
  else (.error (.noSuchVertex v), g)

/-- Stores an interval for a vertex, if the graph has it. -/
def storeInterval (g : Graph) (v : Vertex) (i : Interval) : Graph :=
  g.modifyRecord v fun r => { r with interval := some i }

/-- Forgets the stored intervals. -/
def forgetIntervals (g : Graph) : Graph :=
  { g with slots := g.slots.map (Option.map fun r => { r with interval := none }) }

/-! ## Ready-made graphs -/

/-- The graph of `n` vertices without edges. -/
def edgeless : Nat → Graph
  | 0 => empty
  | n + 1 => (edgeless n).pushNumbered

/-- The complete graph on `n` vertices, its edges coming in ascending order of their ends. -/
def complete (n : Nat) : Graph :=
  ((List.range n).flatMap fun u => (List.range' (u + 1) (n - (u + 1))).map fun v => (u, v)).foldl
    (fun g e => g.join e.1 e.2) (edgeless n)

end Graph

end CliquePath
