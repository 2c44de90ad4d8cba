import CliquePath.LinkedTree.Path

set_option autoImplicit false

/-!
# Rewriting the path

This module defines how the nodes of the path change. If the first node that is not reached as a
whole is the last one, the new vertex is put in there. Otherwise the last node becomes a Q-node, or
is one already, whose rightmost section is the section of the new vertex, and every node above it up
to the first one is dissolved into that Q-node.
-/

namespace CliquePath

namespace Work

variable (w : Work)

/-- A leaf of one vertex. -/
def newLeaf (u : Vertex) : Work × NodeId :=
  let (arena, leaf) := w.arena.alloc .leaf [u]
  ({ w with arena, slots := w.slots.put u (.node leaf) }, leaf)

/-- Puts a new P-node that holds the given vertices into the place of a node, which becomes its only
child. -/
def lift (x : NodeId) (held : List Vertex) : Except TreeFault (Work × NodeId) := do
  let (a, p) := w.arena.alloc (.pnode []) []
  let a ← a.replace x p
  let a ← a.adopt p x
  let a ← a.setHeld p held
  return ({ w with arena := a, slots := w.slots.putAll held (.node p) }, p)

/-- A new leaf of one vertex below a P-node. -/
def adoptLeaf (p : NodeId) (u : Vertex) : Except TreeFault Work := do
  let (w, leaf) := w.newLeaf u
  return { w with arena := ← w.arena.adopt p leaf }

/-- Replaces the end of the run of sections that hold a vertex. -/
def moveEnd (v : Vertex) (old new : NodeId) : Work :=
  match w.slots.get v with
  | .span one other =>
      if one = old then { w with slots := w.slots.put v (.span new other) }
      else if other = old then { w with slots := w.slots.put v (.span one new) }
      else w
  | _ => w

/-- Replaces the end of the run of sections that hold a vertex, if one is given. -/
def moveEnd? (v : Vertex) (old? : Option NodeId) (new : NodeId) : Work :=
  match old? with
  | none => w
  | some old => w.moveEnd v old new

/-- Notes P-nodes that may have to be simplified. -/
def touch (ids : List NodeId) : Work := { w with touched := ids ++ w.touched }

/-- A new P-node without vertices in the place of a node, above this node and a new leaf. -/
def pairUp (x : NodeId) (u : Vertex) : Except TreeFault (Work × NodeId) := do
  let (a, p) := w.arena.alloc (.pnode []) []
  let a ← a.replace x p
  let a ← a.adopt p x
  return (← { w with arena := a }.adoptLeaf p u, p)

/-! ## One node -/

/-- Puts the new vertex into a leaf, or beside those of its vertices that are not neighbours. -/
def placeInLeaf (p : Pass) (x : NodeId) : Except TreeFault Work := do
  let held := (← w.arena.cell x).held
  if isFull p.nbrs held then
    let a ← w.arena.setHeld x (held ++ [p.vertex])
    return { w with arena := a, slots := w.slots.put p.vertex (.node x) }
  else
    let a ← w.arena.setHeld x (missed p.nbrs held)
    let (w, top) ← { w with arena := a }.lift x (reached p.nbrs held)
    return (← w.adoptLeaf top p.vertex).touch [top]

/-- Puts the new vertex below a P-node, or beside the P-node of those of its vertices that are not
neighbours. -/
def placeBelow (p : Pass) (x : NodeId) : Except TreeFault Work := do
  let held := (← w.arena.cell x).held
  if isFull p.nbrs held then
    return (← w.adoptLeaf x p.vertex).touch [x]
  else
    let a ← w.arena.setHeld x (missed p.nbrs held)
    let (w, top) ← { w with arena := a }.lift x (reached p.nbrs held)
    return (← w.adoptLeaf top p.vertex).touch [x, top]

/-- The sections at which the run of a vertex starts and ends, with their ranks. -/
def spanEnds (v : Vertex) : Except TreeFault ((Int × NodeId) × (Int × NodeId)) := do
  let (one, other) ←
    match w.slots.get v with
    | .span one other => pure (one, other)
    | .node id => pure (id, id)
    | .absent => throw (.notPlaced v)
  let r₁ ← w.arena.rank one
  let r₂ ← w.arena.rank other
  return if r₁ ≤ r₂ then ((r₁, one), (r₂, other)) else ((r₂, other), (r₁, one))

/-- The sections at which the common part of the runs of all the given vertices starts and ends,
beginning with the given part. -/
def meetSpans (low high : Int × NodeId) :
    List Vertex → Except TreeFault ((Int × NodeId) × (Int × NodeId))
  | [] => return (low, high)
  | v :: rest => do
      let (first, last) ← w.spanEnds v
      meetSpans (if first.1 > low.1 then first else low) (if last.1 < high.1 then last else high)
        rest

/-- The first and the last section that hold all the given vertices, which a Q-node owns. -/
def commonEnds (q : NodeId) (owned : List Vertex) :
    Except TreeFault (Option (NodeId × NodeId)) := do
  let (first, last) ← w.arena.ends q
  match owned with
  | [] => return some (first, last)
  | v :: rest =>
      let (low, high) ← w.spanEnds v
      let (low, high) ← w.meetSpans low high rest
      return if low.1 ≤ high.1 then some (low.2, high.2) else none

/-- The sections from one to another one on its right. -/
def sliceRange (q high : NodeId) : Nat → NodeId → Except TreeFault (List NodeId)
  | 0, s => throw (.endless s)
  | fuel + 1, s => do
      if s = high then return [s]
      match (← w.arena.links s).right with
      | none => throw (.notRightOf high s q)
      | some next => return s :: (← sliceRange q high fuel next)

/-- The first of some sections that holds as many vertices as given. -/
def findHolding (count : Nat) : List NodeId → Except TreeFault (Option NodeId)
  | [] => return none
  | s :: rest => do
      if (← w.arena.cell s).held.length = count then return some s else findHolding count rest

/-- A section can stand between two sections. -/
def gapFits (p : Pass) (left right : NodeId) : Except TreeFault Bool := do
  return partsBeyond p.nbrs (← w.arena.cell left).held (← w.arena.cell right).held

/-- The first gap that fits on the right of one of some sections. -/
def findGap (p : Pass) : List NodeId → Except TreeFault (Option (NodeId × NodeId))
  | [] => return none
  | s :: rest => do
      match (← w.arena.links s).right with
      | none => findGap p rest
      | some right =>
          if ← w.gapFits p s right then return some (s, right) else findGap p rest

/-- The neighbours between which a new section can stand if the sections from `low` to `high` hold
all owned neighbours. -/
def gapAt (p : Pass) (q low high : NodeId) (range : List NodeId) :
    Except TreeFault (Option (Option NodeId × Option NodeId)) := do
  let (first, last) ← w.arena.ends q
  if low = first then return some (none, some first)
  else
    -- the gap in front of the first of the sections counts as well
    let before? := (← w.arena.links low).left
    let found? ← w.findGap p (before?.toList ++ range)
    match found? with
    | some (left, right) => return some (some left, some right)
    | none => return if high = last then some (some last, none) else none

/-- The section at which the run of a vertex has to grow into a new section, if any. -/
def growsFrom (v : Vertex) : Option NodeId × Option NodeId → Except TreeFault (Option NodeId)
  | (some left, some right) => do
      let atLeft ← w.spanContains v left
      let atRight ← w.spanContains v right
      return if atLeft && atRight then none else if atLeft then some left else some right
  | (some left, none) => return some left
  | (none, right?) => return right?

/-- Puts the new vertex below a section, beside whatever stands there. -/
def attachBelow (p : Pass) (s : NodeId) : Except TreeFault Work := do
  let son := (← w.arena.links s).son
  let c ← w.arena.cell son
  -- a leaf that holds nothing is filled, a P-node that holds nothing gets one more child
  if c.held.isEmpty && c.kind = .leaf then
    let a ← w.arena.setHeld son [p.vertex]
    return { w with arena := a, slots := w.slots.put p.vertex (.node son) }
  else if c.held.isEmpty && c.kind.isP then
    return (← w.adoptLeaf son p.vertex).touch [son]
  else
    let (w, top) ← w.pairUp son p.vertex
    return w.touch [top]

/-- Puts the new vertex into a new leaf below a new section of a Q-node. The section stands between
two neighbouring ones, or at an end, and holds the neighbours that the Q-node owns; their runs grow
into it from the ends that `moves` names. The answer names the section. -/
def newSection (p : Pass) (x : NodeId) (left right : Option NodeId)
    (moves : List (Vertex × Option NodeId)) : Except TreeFault (Work × NodeId) := do
  let (w, leaf) := w.newLeaf p.vertex
  let (a, s) ← w.arena.insertSlice x left right leaf (p.ownedBy x)
  return (moves.foldl (fun w m => w.moveEnd? m.1 m.2 s) { w with arena := a }, s)

/-- Puts the new vertex below the first section that holds exactly the neighbours that the Q-node
owns, or into a new section. The answer names the Q-node if it has a new section. -/
def placeInRow (p : Pass) (x : NodeId) : Except TreeFault (Work × Option (Option NodeId)) := do
  let owned := p.ownedBy x
  match ← w.commonEnds x owned with
  | none => return (w, none)
  | some (low, high) =>
      let range ← w.sliceRange x high (w.arena.cells.size + 1) low
      -- a section that holds all of as many vertices as are owned holds exactly these
      match ← w.findHolding owned.length range with
      | some s => return (← w.attachBelow p s, some none)
      | none =>
          match ← w.gapAt p x low high range with
          | none => return (w, none)
          | some gap =>
              let moves ← owned.mapM fun v => return (v, ← w.growsFrom v gap)
              return ((← w.newSection p x gap.1 gap.2 moves).1, some (some x))

/-- Puts the new vertex in at a single node. There is no answer if the node has no room for it; the
answer names a Q-node that has a new section. -/
def placeAt (p : Pass) (x : NodeId) : Except TreeFault (Work × Option (Option NodeId)) := do
  match (← w.arena.cell x).kind with
  | .leaf => return (← w.placeInLeaf p x, some none)
  | .pnode _ => return (← w.placeBelow p x, some none)
  | .qnode .. => w.placeInRow p x
  | .slice .. => throw (.sectionAsTarget x)

/-! ## A path of nodes -/

/-- Puts a new Q-node of two sections into the place of a leaf or P-node. The node keeps the vertices
that are not neighbours and stands below the left section; the right one is the section of the new
vertex. The answer names the Q-node and that section. -/
def wrap (p : Pass) (x : NodeId) : Except TreeFault (Work × NodeId × NodeId) := do
  let c ← w.arena.cell x
  let link := reached p.nbrs c.held
  let a ← w.arena.setHeld x (missed p.nbrs c.held)
  -- an empty leaf keeps the place of the node until the Q-node is there
  let (a, hole) := a.alloc .leaf []
  let a ← a.replace x hole
  let (w, leaf) := { w with arena := a }.newLeaf p.vertex
  let (a, q) ← w.arena.newQNode [(link, x), (link, leaf)]
  let a ← a.replace hole q
  let a ← a.discard hole
  let (first, k) ← a.ends q
  let w : Work := { w with arena := a, slots := w.slots.putAll link (.span first k) }
  return (if c.kind.isP then w.touch [x] else w, q, k)

/-- Turns the row of a Q-node so that its last section holds all the given vertices, if one of its
ends does. The right end comes first. -/
def turnToEnd (vertices : List Vertex) (x : NodeId) : Except TreeFault (Option Arena) := do
  let (first, last) ← w.arena.ends x
  if ← w.allSpan vertices last then return some w.arena
  else
    if ← w.allSpan vertices first then return some (← w.arena.reverse x)
    else return none

/-- Puts the section of the new vertex at the end of a Q-node that holds all its owned neighbours.
There is no answer if neither end does. -/
def append (p : Pass) (x : NodeId) : Except TreeFault (Work × Option (NodeId × NodeId)) := do
  let owned := p.ownedBy x
  match ← w.turnToEnd owned x with
  | none => return (w, none)
  | some a =>
      let (_, last) ← a.ends x
      let (w, k) ← { w with arena := a }.newSection p x (some last) none
        (owned.map fun v => (v, some last))
      return (w, some (x, k))

/-- Dissolves a P-node above a Q-node. Its other children become a new leftmost section; its own
vertices are held by all sections, the last one excepted unless they are neighbours. -/
def absorbChildren (p : Pass) (x q k : NodeId) : Except TreeFault Work := do
  let held := (← w.arena.cell x).held
  let children ← w.arena.children x
  let others := children.filter (· != q)
  if others.length + 1 ≠ children.length then throw (.notAChild q x)
  let (a, leftmost, touched) ← (← w.arena.replace x q).setAside x q others
  match (← a.links k).left with
  | none => throw (.noLeftNeighbor k)
  | some beforeK =>
      let a ← a.mapHeld (· ++ held) ((← a.slices q).filter (· != k))
      let a ← a.mapHeld (· ++ reached p.nbrs held) [k]
      -- the runs begin at the new leftmost section, if there is one, and end before or at the last one
      let slots := (w.slots.putAll (missed p.nbrs held) (.span leftmost beforeK)).putAll
        (reached p.nbrs held) (.span leftmost k)
      return { w with arena := a, slots }.touch touched

/-- A section may part from its neighbour, if there is one. -/
def mayPart (p : Pass) (s : NodeId) : Option NodeId → Except TreeFault Bool
  | none => return false
  | some side => w.gapFits p s side

/-- Turns the row of an outer Q-node so that the section `s` has its right side at the end, or, if it
is an inner one, at a neighbour from which it may part. There is no answer if that is not possible.
Only the first node of the path may take a new section at an inner place. -/
def turnOutwards (p : Pass) (x s : NodeId) (isTop : Bool) :
    Except TreeFault (Option Arena) := do
  let (first, last) ← w.arena.ends x
  if s = first then return some (← w.arena.reverse x)
  else if s = last then return some w.arena
  else if !isTop then return none
  else
    -- between two sections only the node where the path begins can be opened; the right side comes first
    let l ← w.arena.links s
    if ← w.mayPart p s l.right then return some w.arena
    else
      if ← w.mayPart p s l.left then return some (← w.arena.reverse x)
      else return none

/-- The slot of a vertex of the section `s` once the sections from `far` to `near`, and `k` if the
vertex is a neighbour, have taken its place. -/
def spliceSlot (p : Pass) (v : Vertex) (s far near k : NodeId) : Except TreeFault Slot := do
  match w.slots.get v with
  | .span one other =>
      let r₁ ← w.arena.rank one
      let r₂ ← w.arena.rank other
      let (low, high) := if r₁ ≤ r₂ then (one, other) else (other, one)
      let low := if low = s then far else low
      let high := if high = s then (if p.nbrs.contains v then k else near) else high
      return .span low high
  | _ => throw (.noSpan v s)

/-- Changes the slots of the vertices of the section `s`. -/
def spliceSlots (p : Pass) (s far near k : NodeId) : List Vertex → Except TreeFault Work :=
  List.foldlM (fun w v => do
    return { w with slots := w.slots.put v (← w.spliceSlot p v s far near k) }) w

/-- Puts the sections of a Q-node into the place of the section `s` of an outer one. There is no
answer if the section of the new vertex cannot face outwards. -/
def absorbRow (p : Pass) (x s q k : NodeId) (isTop : Bool) :
    Except TreeFault (Work × Bool) := do
  if (← w.arena.links s).son ≠ q then throw (.notTheSon q s)
  match ← w.turnOutwards p x s isTop with
  | none => return (w, false)
  | some a =>
      let parts ← a.slices q
      match parts.dropLast.head?, parts.dropLast.getLast?, parts.getLast? with
      | some far, some near, some last =>
          if last ≠ k then throw (.notTheRightEnd k q)
          let held := (← a.cell s).held
          let w ← { w with arena := a }.spliceSlots p s far near k held
          -- the section of the new vertex takes only the neighbours over
          let a ← a.mapHeld (· ++ held) parts.dropLast
          let a ← a.mapHeld (· ++ reached p.nbrs held) [k]
          return ({ w with arena := ← a.spliceSlices x s q }, true)
      | _, _, _ => throw (.notTheRightEnd k q)

/-- Dissolves the node of a step into a Q-node whose last section is that of the new vertex. The
answer names the Q-node that results. -/
def absorb (p : Pass) (step : Step) (q k : NodeId) (isTop : Bool) :
    Except TreeFault (Work × Option NodeId) := do
  match (← w.arena.cell step.node).kind with
  | .pnode _ => return (← w.absorbChildren p step.node q k, some q)
  | .qnode .. =>
      match step.slice? with
      | none => throw (.noPathSection step.node)
      | some s =>
          let (w, done) ← w.absorbRow p step.node s q k isTop
          return (w, if done then some step.node else none)
  | _ => throw (.notAbove step.node)

/-- Makes the last node of a path a Q-node that ends with the section of the new vertex and
dissolves all nodes above it. The answer names the Q-node and that section; there is none if the path
has no room for it. -/
def placeAlong (p : Pass) (isTop : Bool) (w : Work) :
    List Step → Except TreeFault (Work × Option (NodeId × NodeId))
  | [] => throw .emptyChain
  | [bottom] => do
      match (← w.arena.cell bottom.node).kind with
      | .qnode .. => w.append p bottom.node
      | .slice .. => throw (.sectionAtBottom bottom.node)
      | _ =>
          let (w, q, k) ← w.wrap p bottom.node
          return (w, some (q, k))
  | step :: rest => do
      match ← placeAlong p false w rest with
      | (w, none) => return (w, none)
      | (w, some (q, k)) =>
          let (w, top?) ← w.absorb p step q k isTop
          return (w, top?.map fun top => (top, k))

/-- Puts the new vertex in along the lower part of the path. -/
def place (p : Pass) (steps : List Step) :
    Except TreeFault (Work × Option (Option NodeId)) := do
  match steps with
  | [] => throw .emptyChain
  | [bottom] => w.placeAt p bottom.node
  | _ =>
      let (w, found?) ← placeAlong p true w steps
      return (w, found?.map fun found => some found.1)

end Work

end CliquePath
