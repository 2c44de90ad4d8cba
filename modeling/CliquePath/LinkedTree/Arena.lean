import CliquePath.Failure

set_option autoImplicit false

/-!
# Arenas

This module defines an arena, the cells that the nodes of a linked tree are made of. Cells refer to
one another by their places in the arena: a P-node lists its children, a section of a Q-node has a
son and two neighbours, and every cell but the root refers to its parent. A cell that is taken out
of the tree stays in the arena, dead.

Nothing here keeps the links consistent. An operation that meets a link it cannot follow breaks off
with a `TreeFault`.
-/

namespace CliquePath

/-- What a cell stands for. -/
inductive Kind where
  | leaf
  | pnode (children : List NodeId)
  /-- The ends of the row as it is stored. A flipped row is read from right to left. -/
  | qnode (leftmost rightmost : NodeId) (flipped : Bool)
  /-- A place in the row of a Q-node. Its neighbours and its rank are stored as they are when the
  row is not flipped. -/
  | slice (son : NodeId) (left right : Option NodeId) (rank : Int)
deriving DecidableEq, Repr

/-- The cell is a section. -/
def Kind.isSlice : Kind → Bool
  | .slice .. => true
  | _ => false

/-- The cell is a P-node. -/
def Kind.isP : Kind → Bool
  | .pnode _ => true
  | _ => false

/-- What the arena keeps of a node. -/
structure Cell where
  kind : Kind
  parent : Option NodeId := none
  held : List Vertex := []
  alive : Bool := true
deriving DecidableEq, Repr

/-- Cells and the place of the root. -/
structure Arena where
  cells : Array Cell := #[]
  root : Option NodeId := none
deriving DecidableEq, Repr

namespace Arena

/-- The cell at a place. -/
def cell (a : Arena) (id : NodeId) : Except TreeFault Cell :=
  match a.cells[id]? with
  | none => .error (.noCell id)
  | some c => .ok c

/-- Changes the cell at a place. -/
def modify (a : Arena) (id : NodeId) (f : Cell → Cell) : Except TreeFault Arena := do
  let c ← a.cell id
  return { a with cells := a.cells.setIfInBounds id (f c) }

/-- A new cell without a parent, and its place. -/
def alloc (a : Arena) (kind : Kind) (held : List Vertex) : Arena × NodeId :=
  ({ a with cells := a.cells.push { kind, held } }, a.cells.size)

/-- Refers to the parent of a cell. -/
def setParent (a : Arena) (id : NodeId) (parent : Option NodeId) : Except TreeFault Arena :=
  a.modify id fun c => { c with parent }

/-- Replaces the vertices that a cell holds. -/
def setHeld (a : Arena) (id : NodeId) (held : List Vertex) : Except TreeFault Arena :=
  a.modify id fun c => { c with held }

/-- Changes what several cells hold. -/
def mapHeld (a : Arena) (f : List Vertex → List Vertex) : List NodeId → Except TreeFault Arena
  | [] => return a
  | id :: rest => do
      let c ← a.cell id
      (← a.setHeld id (f c.held)).mapHeld f rest

/-- Replaces what a cell stands for. -/
def setKind (a : Arena) (id : NodeId) (kind : Kind) : Except TreeFault Arena :=
  a.modify id fun c => { c with kind }

/-- A new section above a node. -/
def newSlice (a : Arena) (son : NodeId) (held : List Vertex) :
    Except TreeFault (Arena × NodeId) := do
  let (a, s) := a.alloc (.slice son none none 0) held
  return (← a.setParent son (some s), s)

/-- Takes a cell out of use. -/
def discard (a : Arena) (id : NodeId) : Except TreeFault Arena :=
  a.modify id fun c => { c with alive := false, parent := none, held := [] }

/-- The cell at a place is a P-node. -/
def isP (a : Arena) (id : NodeId) : Except TreeFault Bool := do
  return (← a.cell id).kind.isP

/-- The children of a P-node. -/
def children (a : Arena) (p : NodeId) : Except TreeFault (List NodeId) := do
  match (← a.cell p).kind with
  | .pnode children => return children
  | _ => throw (.notPNode p)

/-- Appends a child to a P-node. -/
def adopt (a : Arena) (p child : NodeId) : Except TreeFault Arena := do
  if (← a.cell child).kind.isSlice then throw (.sectionAsChild child p)
  let children ← a.children p
  let a ← a.setKind p (.pnode (children ++ [child]))
  a.setParent child (some p)

/-- Refers to the same parent of several cells. -/
def setParents (a : Arena) (ids : List NodeId) (parent : NodeId) : Except TreeFault Arena :=
  ids.foldlM (fun a id => a.setParent id (some parent)) a

/-- Replaces the children of a P-node. -/
def setChildren (a : Arena) (p : NodeId) (children : List NodeId) : Except TreeFault Arena := do
  let a ← a.setParents children p
  let _ ← a.children p
  a.setKind p (.pnode children)

/-- Puts a node into the place of another one, below its parent or at the root. -/
def replace (a : Arena) (old new : NodeId) : Except TreeFault Arena := do
  if (← a.cell new).kind.isSlice then throw (.sectionAsReplacement new old)
  let parent := (← a.cell old).parent
  let a ← a.setParent new parent
  match parent with
  | none => return { a with root := some new }
  | some p =>
      let a ←
        match (← a.cell p).kind with
        | .pnode children =>
            if children.contains old then a.setKind p (.pnode (children.replace old new))
            else throw (.missingChild old p)
        | .slice _ left right rank => a.setKind p (.slice new left right rank)
        | _ => throw (.cannotHaveChild p)
      a.setParent old none

/-- Puts the children of a P-node into its place below a P-node. -/
def spliceIntoParent (a : Arena) (p : NodeId) : Except TreeFault Arena := do
  match (← a.cell p).parent with
  | none => throw (.noParent p)
  | some parent =>
      let inner ← a.children p
      let a ← a.setParents inner parent
      let siblings ← a.children parent
      if siblings.contains p then
        let a ← a.setKind parent
          (.pnode (siblings.takeWhile (· != p) ++ inner ++ (siblings.dropWhile (· != p)).tail))
        a.discard p
      else throw (.missingChild p parent)

end Arena

end CliquePath
