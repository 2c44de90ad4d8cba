import CliquePath.LinkedTree.Templates
import CliquePath.Graph.Basic

set_option autoImplicit false

/-!
# Linked trees

This module defines the clique tree of a growing graph as a linked tree. Its nodes are cells of an
arena, every vertex has a slot, and an insertion rewrites the cells on one path. It does what
`CliqueTree.insert` does to a tree of nested nodes, and touches only the path.
-/

namespace CliquePath

namespace Arena

/-- Simplifies P-nodes without vertices: one with an only child is replaced by the child, one below
another P-node is merged into it. The list is a stack. -/
def simplify (a : Arena) : Nat → List NodeId → Except TreeFault Arena
  | _, [] => return a
  | 0, p :: _ => throw (.endless p)
  | fuel + 1, p :: work => do
      let c ← a.cell p
      if !c.alive || !c.held.isEmpty || !c.kind.isP then a.simplify fuel work
      else
        match ← a.children p with
        | [] => throw (.noChildren p)
        | [only] =>
            let a ← a.replace p only
            let a ← a.discard p
            -- the child may have to be merged into the node above in turn
            if ← a.isP only then a.simplify fuel (only :: work) else a.simplify fuel work
        | _ =>
            let underP ←
              match c.parent with
              | none => pure false
              | some parent => a.isP parent
            if underP then (← a.spliceIntoParent p).simplify fuel work
            else a.simplify fuel work

/-- The P-node directly above a Q-node that is its only child. -/
def wrapper? (a : Arena) (q : NodeId) : Except TreeFault (Option NodeId) := do
  match (← a.cell q).parent with
  | none => return none
  | some p =>
      match (← a.cell p).kind with
      | .pnode [_] => return some p
      | _ => return none

/-- The P-node directly above a Q-node that is its only child, or else a new one in that place. -/
def hostAbove (a : Arena) (q : NodeId) : Except TreeFault (Arena × NodeId) := do
  match ← a.wrapper? q with
  | some p => return (a, p)
  | none =>
      let (a, p) := a.alloc (.pnode []) []
      let a ← a.replace q p
      return (← a.adopt p q, p)

end Arena

namespace Work

variable (w : Work)

/-- Moves the vertices that all sections of a Q-node hold into a P-node directly above it. -/
def hoist (q : NodeId) : Except TreeFault Work := do
  let (first, last) ← w.arena.ends q
  let whole (v : Vertex) : Bool :=
    w.slots.get v = .span first last || w.slots.get v = .span last first
  let lifted := (← w.arena.cell first).held.filter whole
  if lifted.isEmpty then return w
  else
    let a ← w.arena.mapHeld (·.filter fun v => !lifted.contains v) (← w.arena.slices q)
    let (a, host) ← a.hostAbove q
    let c ← a.cell host
    return { w with
      arena := ← a.setHeld host (c.held ++ lifted)
      slots := w.slots.putAll lifted (.node host) }

/-- Hoists vertices out of the row of a Q-node, if one is given. -/
def hoist? : Option NodeId → Except TreeFault Work
  | none => return w
  | some q => w.hoist q

/-- Puts a vertex without neighbours in the tree beside the root. -/
def addIsolated (u : Vertex) : Except TreeFault Work := do
  match w.arena.root with
  | none =>
      let (w, leaf) := w.newLeaf u
      return { w with arena := { w.arena with root := some leaf } }
  | some root =>
      let c ← w.arena.cell root
      if c.kind.isP && c.held.isEmpty then w.adoptLeaf root u
      else return (← w.pairUp root u).1

/-- Puts in a vertex with neighbours in the tree; tells whether there is room for it. -/
def addAdjacent (u : Vertex) (nbrs : List Vertex) : Except TreeFault (Work × Bool) := do
  let p ← w.pass u nbrs
  match ← w.path? p with
  | none => return (w, false)
  | some path =>
      if ← w.pathHolds p path then
        match ← w.place p (← w.lowerPath p path) with
        | (w, none) => return (w, false)
        | (w, some hoisted?) =>
            let w ← w.hoist? hoisted?
            -- each visit takes a cell out of use or shortens the list of nodes to visit
            let a ← w.arena.simplify (w.arena.cells.size + w.touched.length) w.touched
            return ({ w with arena := a }, true)
      else return (w, false)

/-- Puts in a vertex; tells whether there is room for it. -/
def add (u : Vertex) (nbrs : List Vertex) : Except TreeFault (Work × Bool) := do
  if nbrs.isEmpty then return (← w.addIsolated u, true)
  else w.addAdjacent u nbrs

end Work

/-- A linked tree and the number of vertices in it. -/
structure LinkedTree where
  arena : Arena := {}
  slots : Slots := #[]
  /-- Vertices of the tree are below this bound. -/
  bound : Nat := 0
  size : Nat := 0
deriving DecidableEq, Repr

/-- What becomes of a vertex that is put into a tree. -/
inductive Insertion where
  | inserted
  | rejected
deriving DecidableEq, Repr

namespace LinkedTree

/-- The tree without vertices, with room for vertices below the given bound. -/
def new (bound : Nat) : LinkedTree := { bound }

instance : Inhabited LinkedTree := ⟨new 0⟩

/-- The tree has no vertices. -/
def isEmpty (t : LinkedTree) : Bool := t.size == 0

/-- The vertex is in the tree. -/
def contains (t : LinkedTree) (v : Vertex) : Bool := t.slots.get v != .absent

/-- Puts a vertex of a graph into the tree, with those of its neighbours in that graph that are in
the tree. A tree that rejected a vertex is of no further use. -/
def insert (t : LinkedTree) (g : Graph) (u : Vertex) : Except Failure Insertion × LinkedTree :=
  let t := { t with bound := max t.bound g.bound }
  if !g.contains u then (.error (.noSuchVertex u), t)
  else if t.contains u then (.error (.internal (.insertedTwice u)), t)
  else
    match (Work.mk t.arena t.slots []).add u ((g.neighbors u).filter t.contains) with
    | .error fault => (.error (.internal (.tree fault)), t)
    | .ok (w, false) => (.ok .rejected, { t with arena := w.arena, slots := w.slots })
    | .ok (w, true) => (.ok .inserted, ⟨w.arena, w.slots, t.bound, t.size + 1⟩)

end LinkedTree

end CliquePath
