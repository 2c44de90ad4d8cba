import CliquePath.LinkedTree.Basic
import CliquePath.CliqueTree.Arrangement

set_option autoImplicit false

/-!
# Reading a linked tree

This module reads a linked tree. A walk through all nodes numbers the leaves from left to right and
notes for every node the first and the last leaf below it. The clique of a leaf is what the cells on
the way from the leaf to the root hold; the interval of a vertex is read off its slot. Positions are
counted without a bound, and `LinkedTree.intervals32` cuts them to the 32 bits of an end.
-/

namespace CliquePath

/-- The first and the last leaf below every node, and the leaves from left to right. Leaves are
counted from 1. -/
structure Layout where
  ranges : Array (Option (Nat × Nat))
  leaves : List NodeId := []
deriving DecidableEq, Repr

namespace Layout

/-- The range noted for a node. -/
def range? (l : Layout) (id : NodeId) : Option (Nat × Nat) := l.ranges[id]?.join

/-- Notes a range for a node. -/
def note (l : Layout) (id : NodeId) (range? : Option (Nat × Nat)) : Layout :=
  { l with ranges := l.ranges.setIfInBounds id range? }

/-- Numbers a leaf. -/
def addLeaf (l : Layout) (id : NodeId) : Layout :=
  let position := l.leaves.length + 1
  { l.note id (some (position, position)) with leaves := l.leaves ++ [id] }

/-- The hull of the ranges of several nodes. -/
def hull (l : Layout) : List NodeId → Except TreeFault (Option (Nat × Nat))
  | [] => return none
  | id :: rest => do
      match l.range? id with
      | none => throw (.neverLaidOut id)
      | some (low, high) =>
          match ← l.hull rest with
          | none => return some (low, high)
          | some (low', high') => return some (min low low', max high high')

end Layout

namespace Arena

/-- The nodes directly below a node that is not a leaf. -/
def below? (a : Arena) (id : NodeId) : Except TreeFault (Option (List NodeId)) := do
  match (← a.cell id).kind with
  | .leaf => return none
  | .pnode children => return some children
  | .qnode .. => return some (← a.slices id)
  | .slice son .. => return some [son]

/-- Lays out a node and all nodes below it. -/
def layOut (a : Arena) : Nat → Layout → NodeId → Except TreeFault Layout
  | 0, _, id => throw (.endless id)
  | fuel + 1, l, id => do
      match ← a.below? id with
      | none => return l.addLeaf id
      | some ids =>
          let l ← ids.foldlM (a.layOut fuel) l
          return l.note id (← l.hull ids)

/-- The layout of all nodes below the root. -/
def layout (a : Arena) : Except TreeFault Layout := do
  let l : Layout := { ranges := Array.replicate a.cells.size none }
  match a.root with
  | none => return l
  | some root => a.layOut (a.cells.size + 1) l root

/-- What the cells on the way from a node to the root hold. -/
def heldAbove (a : Arena) : Nat → NodeId → Except TreeFault (List Vertex)
  | 0, id => throw (.endless id)
  | fuel + 1, id => do
      let c ← a.cell id
      match c.parent with
      | none => return c.held
      | some parent => return c.held ++ (← a.heldAbove fuel parent)

end Arena

namespace Layout

/-- The range of a node. -/
def range (l : Layout) (id : NodeId) : Except TreeFault (Nat × Nat) :=
  match l.range? id with
  | none => throw (.noRange id)
  | some r => return r

/-- The interval of a vertex with the given slot. -/
def interval? (l : Layout) : Slot → Except TreeFault (Option Interval)
  | .absent => return none
  | .node id => do
      let r ← l.range id
      return some ⟨r.1, r.2 + 1⟩
  | .span one other => do
      let r ← l.range one
      let r' ← l.range other
      return some ⟨min r.1 r'.1, max r.2 r'.2 + 1⟩

/-- The intervals of those of the given vertices that have one. -/
def intervals (l : Layout) (slots : Slots) : List Vertex → Except TreeFault Assignment
  | [] => return []
  | v :: rest => do
      match ← l.interval? (slots.get v) with
      | none => l.intervals slots rest
      | some i => return (v, i) :: (← l.intervals slots rest)

end Layout

namespace LinkedTree

/-- The interval of every vertex in the tree, by ascending vertex: the positions of its cliques,
counted from 1. -/
def intervals (t : LinkedTree) : Except TreeFault Assignment := do
  (← t.arena.layout).intervals t.slots (List.range t.bound)

/-- The intervals with ends of 32 bits, in which a tree is read out. -/
def intervals32 (t : LinkedTree) : Except TreeFault Assignment :=
  t.intervals.map Assignment.toWords

/-- The maximal cliques in their arrangement from left to right, each ascending. -/
def cliques (t : LinkedTree) : Except TreeFault (List (List Vertex)) := do
  let l ← t.arena.layout
  l.leaves.mapM fun leaf =>
    return (← t.arena.heldAbove (t.arena.cells.size + 1) leaf).mergeSort

end LinkedTree

end CliquePath
