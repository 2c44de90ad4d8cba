import CliquePath.LinkedTree.Arena
import CliquePath.Row

set_option autoImplicit false

/-!
# Linked rows

This module defines the row of a Q-node in an arena. Its sections are cells that refer to their
neighbours on both sides and carry a rank, so that two of them are compared without walking the row.
A row is reversed by flipping one flag of the Q-node: links and ranks stay stored as they are and
are mirrored when they are read or written.
-/

namespace CliquePath

/-- What a section refers to, as the row is read from left to right. -/
structure SliceLinks where
  son : NodeId
  left : Option NodeId
  right : Option NodeId
  rank : Int
deriving DecidableEq, Repr

namespace Arena

/-! ## Reading -/

/-- The cell is a Q-node with a flipped row. -/
def isFlipped (a : Arena) (q : NodeId) : Except TreeFault Bool := do
  match (← a.cell q).kind with
  | .qnode _ _ flipped => return flipped
  | _ => return false

/-- The row to which a section belongs is flipped. -/
def sliceFlipped (a : Arena) (s : NodeId) : Except TreeFault Bool := do
  match (← a.cell s).parent with
  | none => return false
  | some q => a.isFlipped q

/-- The first and the last section of a Q-node. -/
def ends (a : Arena) (q : NodeId) : Except TreeFault (NodeId × NodeId) := do
  match (← a.cell q).kind with
  | .qnode leftmost rightmost flipped =>
      return if flipped then (rightmost, leftmost) else (leftmost, rightmost)
  | _ => throw (.notQNode q)

/-- What a section refers to. -/
def links (a : Arena) (s : NodeId) : Except TreeFault SliceLinks := do
  match (← a.cell s).kind with
  | .slice son left right rank =>
      if ← a.sliceFlipped s then return ⟨son, right, left, -rank⟩
      else return ⟨son, left, right, rank⟩
  | _ => throw (.notSection s)

/-- The rank of a section. -/
def rank (a : Arena) (s : NodeId) : Except TreeFault Int := do
  return (← a.links s).rank

/-- The rank of a section, if there is one. -/
def rank? (a : Arena) : Option NodeId → Except TreeFault (Option Int)
  | none => return none
  | some s => return some (← a.rank s)

/-- The section and those to the right of it. -/
def slicesFrom (a : Arena) : Nat → NodeId → Except TreeFault (List NodeId)
  | 0, s => throw (.endless s)
  | fuel + 1, s => do
      match (← a.links s).right with
      | none => return [s]
      | some next => return s :: (← a.slicesFrom fuel next)

/-- The sections of a Q-node from left to right. -/
def slices (a : Arena) (q : NodeId) : Except TreeFault (List NodeId) := do
  a.slicesFrom (a.cells.size + 1) (← a.ends q).1

/-! ## Writing -/

/-- Changes what a section refers to, as the row is read from left to right. -/
def setSlice (a : Arena) (s : NodeId) (f : SliceLinks → SliceLinks) :
    Except TreeFault Arena := do
  let flipped ← a.sliceFlipped s
  a.modify s fun c =>
    match c.kind with
    | .slice son left right rank =>
        let l := f (if flipped then ⟨son, right, left, -rank⟩ else ⟨son, left, right, rank⟩)
        { c with
          kind :=
            if flipped then .slice l.son l.right l.left (-l.rank)
            else .slice l.son l.left l.right l.rank }
    | _ => c

/-- Refers to both neighbours of a section. -/
def setLinks (a : Arena) (s : NodeId) (left right : Option NodeId) : Except TreeFault Arena :=
  a.setSlice s fun l => { l with left, right }

/-- Refers to the left neighbour of a section. -/
def setLeft (a : Arena) (s : NodeId) (left : Option NodeId) : Except TreeFault Arena :=
  a.setSlice s fun l => { l with left }

/-- Refers to the right neighbour of a section. -/
def setRight (a : Arena) (s : NodeId) (right : Option NodeId) : Except TreeFault Arena :=
  a.setSlice s fun l => { l with right }

/-- Gives a section a rank. -/
def setRank (a : Arena) (s : NodeId) (rank : Int) : Except TreeFault Arena :=
  a.setSlice s fun l => { l with rank }

/-- Refers to the first and the last section of a Q-node. -/
def setEnds (a : Arena) (q first last : NodeId) : Except TreeFault Arena :=
  a.modify q fun c =>
    match c.kind with
    | .qnode _ _ flipped =>
        { c with kind := if flipped then .qnode last first true else .qnode first last false }
    | _ => c

/-- Links sections into a chain between two neighbours. -/
def chain (a : Arena) (left : Option NodeId) :
    List NodeId → Option NodeId → Except TreeFault Arena
  | [], _ => return a
  | s :: rest, right => do
      let a ← a.setLinks s left (rest.head? <|> right)
      a.chain (some s) rest right

/-- Gives sections evenly spaced ranks. -/
def rankFrom (a : Arena) (first step : Int) : List NodeId → Except TreeFault Arena
  | [] => return a
  | s :: rest => do
      let a ← a.setRank s first
      a.rankFrom (first + step) step rest

/-- Links a section with what is to become its right neighbour or, at the end, with nothing. -/
def joinLeft (a : Arena) (left : Option NodeId) (s : NodeId) : Except TreeFault Arena :=
  match left with
  | none => return a
  | some l => a.setRight l (some s)

/-- Links a section with what is to become its left neighbour or, at the end, with nothing. -/
def joinRight (a : Arena) (s : NodeId) (right : Option NodeId) : Except TreeFault Arena :=
  match right with
  | none => return a
  | some r => a.setLeft r (some s)

/-- Links both sides of a gap in the row of a Q-node with the first and the last of the sections
that fill it. A side without a neighbour is an end of the row. -/
def rejoin (a : Arena) (q : NodeId) (left right : Option NodeId) (first last : NodeId) :
    Except TreeFault Arena := do
  let (low, high) ← a.ends q
  let a ← a.joinLeft left first
  let a ← a.joinRight last right
  a.setEnds q (if left.isNone then first else low) (if right.isNone then last else high)

/-- Spreads the ranks of a Q-node evenly. -/
def renumber (a : Arena) (q : NodeId) : Except TreeFault Arena := do
  a.rankFrom 0 Row.keyGap (← a.slices q)

/-! ## Changing a row -/

/-- New sections above the given nodes, and their places. -/
def newSlices (a : Arena) : List (List Vertex × NodeId) → Except TreeFault (Arena × List NodeId)
  | [] => return (a, [])
  | (held, son) :: rest => do
      let (a, s) ← a.newSlice son held
      let (a, ids) ← a.newSlices rest
      return (a, s :: ids)

/-- A new Q-node with sections above the given nodes, from left to right. -/
def newQNode (a : Arena) (parts : List (List Vertex × NodeId)) :
    Except TreeFault (Arena × NodeId) := do
  let (a, ids) ← a.newSlices parts
  match ids.head?, ids.getLast? with
  | some first, some last =>
      let (a, q) := a.alloc (.qnode first last false) []
      let a ← a.setParents ids q
      let a ← a.chain none ids none
      return (← a.rankFrom 0 Row.keyGap ids, q)
  | _, _ => throw .emptyRow

/-- Gives the section between two neighbours of the given ranks a rank. -/
def rankBetween (a : Arena) (q s : NodeId) (low? high? : Option Int) : Except TreeFault Arena :=
  match low?, high? with
  | none, none => a.setRank s 0
  | some low, none => a.setRank s (low + Row.keyGap)
  | none, some high => a.setRank s (high - Row.keyGap)
  | some low, some high =>
      -- without an integer in between the whole row is numbered anew
      if 2 ≤ high - low then a.setRank s (low + (high - low) / 2) else a.renumber q

/-- Puts a new section between two neighbouring sections of a Q-node, or at an end. -/
def insertSlice (a : Arena) (q : NodeId) (left right : Option NodeId) (son : NodeId)
    (held : List Vertex) : Except TreeFault (Arena × NodeId) := do
  -- the ranks are read before the new section stands between them
  let low? ← a.rank? left
  let high? ← a.rank? right
  let (a, s) ← a.newSlice son held
  let a ← a.setParent s (some q)
  let a ← a.setLinks s left right
  let a ← a.rejoin q left right s s
  return (← a.rankBetween q s low? high?, s)

/-- Gives the sections that take the place of one of the given rank, between two neighbours of the
given ranks, new ranks. -/
def rankAllBetween (a : Arena) (q : NodeId) (parts : List NodeId) (rank : Int)
    (low? high? : Option Int) : Except TreeFault Arena :=
  let count : Int := parts.length
  match low?, high? with
  | _, none => a.rankFrom rank Row.keyGap parts
  | none, some _ => a.rankFrom (rank - (count - 1) * Row.keyGap) Row.keyGap parts
  | some low, some high =>
      let step := (high - low) / (count + 1)
      if 1 ≤ step then a.rankFrom (low + step) step parts else a.renumber q

/-- Puts the sections of an inner Q-node into the place of a section of an outer one. The section
and the inner Q-node are taken out of use. -/
def spliceSlices (a : Arena) (q s inner : NodeId) : Except TreeFault Arena := do
  let l ← a.links s
  let low? ← a.rank? l.left
  let high? ← a.rank? l.right
  let parts ← a.slices inner
  match parts.head?, parts.getLast? with
  | some first, some last =>
      let a ← a.setParents parts q
      let a ← a.chain l.left parts l.right
      let a ← a.rejoin q l.left l.right first last
      let a ← a.discard s
      let a ← a.discard inner
      a.rankAllBetween q parts l.rank low? high?
  | _, _ => throw (.noSections inner)

/-- Puts the other children of a P-node that is dissolved below a new leftmost section of a Q-node.
Several of them stay children of the P-node. The answer names the leftmost section, and the P-node if
it is still in use. -/
def setAside (a : Arena) (x q : NodeId) (others : List NodeId) :
    Except TreeFault (Arena × NodeId × List NodeId) := do
  let (leftmost, _) ← a.ends q
  match others with
  | [] => return (← a.discard x, leftmost, [])
  | [only] =>
      let a ← a.discard x
      let (a, s) ← a.insertSlice q none (some leftmost) only []
      return (a, s, [])
  | _ =>
      let a ← a.setHeld x []
      let a ← a.setChildren x others
      let (a, s) ← a.insertSlice q none (some leftmost) x []
      return (a, s, [x])

/-- Reverses the row of a Q-node. -/
def reverse (a : Arena) (q : NodeId) : Except TreeFault Arena := do
  match (← a.cell q).kind with
  | .qnode leftmost rightmost flipped => a.setKind q (.qnode leftmost rightmost (!flipped))
  | _ => throw (.notQNode q)

end Arena

end CliquePath
