import CliquePath.LinkedTree.Slices
import CliquePath.CliqueTree.Neighbors

set_option autoImplicit false

/-!
# The path to the neighbours of a new vertex

This module defines a linked tree, an arena with a slot for every vertex, and the search for the
path on which the neighbours of a new vertex lie. The slot of a vertex names the leaf or P-node that
holds it, or the two ends of the run of sections that hold it. From the owner of every neighbour the
search climbs to the root and flags each node with the child from which it came. If some node is
entered from two children, the neighbours do not lie on one path.
-/

namespace CliquePath

/-- Where a linked tree keeps a vertex. -/
inductive Slot where
  | absent
  /-- In a leaf or a P-node. -/
  | node (id : NodeId)
  /-- In the sections of one Q-node between two ends, given in either order. -/
  | span (one other : NodeId)
deriving DecidableEq, Repr

/-- The slots of the vertices up to the greatest one that ever had a place. -/
abbrev Slots := Array Slot

namespace Slots

/-- The slot of a vertex. -/
def get (slots : Slots) (v : Vertex) : Slot := slots.getD v .absent

/-- Changes the slot of a vertex. -/
def put (slots : Slots) (v : Vertex) (slot : Slot) : Slots :=
  (slots ++ Array.replicate (v + 1 - slots.size) Slot.absent).setIfInBounds v slot

/-- Gives several vertices the same slot. -/
def putAll (slots : Slots) (vertices : List Vertex) (slot : Slot) : Slots :=
  vertices.foldl (fun slots v => slots.put v slot) slots

end Slots

/-- The state of a linked tree while a vertex is put in. -/
structure Work where
  arena : Arena
  slots : Slots
  /-- The P-nodes that may have to be simplified, the latest first. -/
  touched : List NodeId := []
deriving DecidableEq, Repr

/-- A node on the path, and for a Q-node the section through which the path goes on. -/
structure Step where
  node : NodeId
  slice? : Option NodeId
deriving DecidableEq, Repr

/-- What is fixed while a vertex is put in. -/
structure Pass where
  /-- The new vertex. -/
  vertex : Vertex
  /-- Its neighbours in the tree. -/
  nbrs : List Vertex
  /-- The owner of each neighbour. -/
  owners : List (NodeId × Vertex)
deriving DecidableEq, Repr

/-- The neighbours that a node owns. -/
def Pass.ownedBy (p : Pass) (id : NodeId) : List Vertex :=
  (p.owners.filter fun e => e.1 == id).map Prod.snd

/-- The flagged nodes, each with the child from which it was entered, if any. A later flag of a node
stands before an earlier one. -/
abbrev Flags := List (NodeId × Option NodeId)

namespace Work

variable (w : Work)

/-- The node that holds a vertex; sections leave the vertices that they hold to their Q-node. -/
def owner (v : Vertex) : Except TreeFault NodeId :=
  match w.slots.get v with
  | .node id => return id
  | .span one _ => do
      match (← w.arena.cell one).parent with
      | some q => return q
      | none => throw (.looseSection one)
  | .absent => throw (.notInTree v)

/-- What an insertion starts from. -/
def pass (u : Vertex) (nbrs : List Vertex) : Except TreeFault Pass := do
  let owners ← nbrs.mapM fun v => return (← w.owner v, v)
  return ⟨u, nbrs, owners⟩

/-- The run of sections that hold a vertex contains the given one. -/
def spanContains (v : Vertex) (s : NodeId) : Except TreeFault Bool :=
  match w.slots.get v with
  | .span one other => do
      let r₁ ← w.arena.rank one
      let r₂ ← w.arena.rank other
      let r ← w.arena.rank s
      return min r₁ r₂ ≤ r && r ≤ max r₁ r₂
  | _ => return false

/-- The runs of sections of all the given vertices contain the given one. -/
def allSpan : List Vertex → NodeId → Except TreeFault Bool
  | [], _ => return true
  | v :: rest, s => do
      if ← w.spanContains v s then allSpan rest s else return false

/-- Climbs from a node, entered from a child or an owner itself, to the root or to a node that is
flagged already. There is no answer if that one was entered from another child. -/
def climb : Nat → Flags → Option NodeId → NodeId → Except TreeFault (Option Flags)
  | 0, _, _, id => throw (.endless id)
  | fuel + 1, flags, child?, id =>
      match flags.lookup id with
      | some (some seen) =>
          match child? with
          | some child => return if seen = child then some flags else none
          | none => return some flags
      | some none =>
          match child? with
          | some _ => return some ((id, child?) :: flags)
          | none => return some flags
      | none => do
          let flags := (id, child?) :: flags
          match (← w.arena.cell id).parent with
          | none => return some flags
          | some parent => climb fuel flags (some id) parent

/-- Climbs from all the given nodes. -/
def climbAll : Flags → List NodeId → Except TreeFault (Option Flags)
  | flags, [] => return some flags
  | flags, id :: rest => do
      match ← w.climb (w.arena.cells.size + 1) flags none id with
      | none => return none
      | some flags => climbAll flags rest

/-- Follows the flags down from a node. -/
def follow (flags : Flags) : Nat → NodeId → Except TreeFault (List Step)
  | 0, id => throw (.endless id)
  | fuel + 1, id =>
      match flags.lookup id with
      | none => throw (.offPath id)
      | some child? => do
          let kind := (← w.arena.cell id).kind
          let rest ←
            match child? with
            | none => pure []
            | some child => follow flags fuel child
          match kind with
          | .slice .. => return rest
          | .qnode .. => return ⟨id, child?⟩ :: rest
          | _ => return ⟨id, none⟩ :: rest

/-- The path from the root to the lowest owner, if all owners lie on one. -/
def path? (p : Pass) : Except TreeFault (Option (List Step)) := do
  match ← w.climbAll [] (p.owners.map Prod.fst).eraseDups with
  | none => return none
  | some flags =>
      match w.arena.root with
      | none => throw .noRoot
      | some root =>
          let path ← w.follow flags (w.arena.cells.size + 1) root
          if path.isEmpty then throw .emptyPath
          return some path

/-- The Q-nodes of the path own no neighbour that misses the section of the path. -/
def pathHolds (p : Pass) : List Step → Except TreeFault Bool
  | [] => return true
  | step :: rest =>
      match step.slice? with
      | none => pathHolds p rest
      | some s => do
          if ← w.allSpan (p.ownedBy step.node) s then pathHolds p rest else return false

/-- The node of a step, or its section, holds a vertex that is not a neighbour of the new one. A
Q-node at the end of the path always counts as such. -/
def isPartial (p : Pass) (step : Step) : Except TreeFault Bool := do
  let partly (id : NodeId) : Except TreeFault Bool := do
    return !isFull p.nbrs (← w.arena.cell id).held
  match (← w.arena.cell step.node).kind with
  | .qnode .. =>
      match step.slice? with
      | none => return true
      | some s => partly s
  | .slice .. => throw (.sectionOnPath step.node)
  | _ => partly step.node

/-- The path from the first node that is not reached as a whole, or its last step. -/
def lowerPath (p : Pass) : List Step → Except TreeFault (List Step)
  | [] => return []
  | step :: rest => do
      if (← w.isPartial p step) || rest.isEmpty then return step :: rest
      else lowerPath p rest

end Work

end CliquePath
