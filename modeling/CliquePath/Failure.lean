set_option autoImplicit false

/-!
# Failures

This module defines vertices and the causes for which an operation on a graph, or a search over
one, gives no answer. Each cause is a constructor; its wording is in `Breach.message` and
`Failure.message`.

A `Breach` is a cause that no graph is meant to reach: an algorithm met a state that its own theory
excludes. The remaining failures are refusals of an edit. A `Panic` is no answer of an operation: it
ends the program.
-/

namespace CliquePath

/-- A vertex is named by its number, counted from 0 in order of creation. -/
abbrev Vertex := Nat

/-- The vertex that a number names. Names have 32 bits, so the number is taken modulo `2 ^ 32`. -/
def Vertex.ofNumber (n : Nat) : Vertex := n % UInt32.size

/-- The place of a cell in the arena of a linked tree. -/
abbrev NodeId := Nat

/-- The causes for which an operation on a linked tree breaks off, each with the cells or vertices
concerned. -/
inductive TreeFault where
  /-- The arena has no such cell. -/
  | noCell (id : NodeId)
  /-- A walk from the cell takes more steps than the arena has cells. -/
  | endless (id : NodeId)
  | notPNode (id : NodeId)
  | notQNode (id : NodeId)
  | notSection (id : NodeId)
  | sectionAsChild (child parent : NodeId)
  | sectionAsReplacement (new old : NodeId)
  | missingChild (id parent : NodeId)
  | cannotHaveChild (id : NodeId)
  | noParent (id : NodeId)
  | emptyRow
  | noSections (id : NodeId)
  | noRoot
  | offPath (id : NodeId)
  | emptyPath
  | sectionOnPath (id : NodeId)
  | looseSection (id : NodeId)
  | notInTree (v : Vertex)
  | noChildren (id : NodeId)
  | sectionAsTarget (id : NodeId)
  | notPlaced (v : Vertex)
  | notRightOf (high low row : NodeId)
  | emptyChain
  | sectionAtBottom (id : NodeId)
  | noPathSection (id : NodeId)
  | notAbove (id : NodeId)
  | notAChild (child parent : NodeId)
  | noLeftNeighbor (id : NodeId)
  | notTheSon (son id : NodeId)
  | notTheRightEnd (id row : NodeId)
  | noSpan (v : Vertex) (id : NodeId)
  | neverLaidOut (id : NodeId)
  | noRange (id : NodeId)
deriving DecidableEq, Repr

/-- The wording of a cause in a linked tree. -/
def TreeFault.message : TreeFault → String
  | .noCell id => s!"no node {id}"
  | .endless id => s!"endless walk from node {id}"
  | .notPNode id => s!"node {id} is not a P-node"
  | .notQNode id => s!"node {id} is not a Q-node"
  | .notSection id => s!"node {id} is not a section"
  | .sectionAsChild child parent =>
      s!"section {child} cannot be the child of P-node {parent}"
  | .sectionAsReplacement new old => s!"section {new} cannot replace node {old}"
  | .missingChild id parent => s!"node {id} missing from its parent {parent}"
  | .cannotHaveChild id => s!"node {id} cannot have a child"
  | .noParent id => s!"P-node {id} has no parent"
  | .emptyRow => "Q-node without sections"
  | .noSections id => s!"Q-node {id} has no sections"
  | .noRoot => "tree has no root"
  | .offPath id => s!"node {id} is off the flagged path"
  | .emptyPath => "empty root path"
  | .sectionOnPath id => s!"section {id} on the root path"
  | .looseSection id => s!"section {id} has no Q-node"
  | .notInTree v => s!"{v} is not in the tree"
  | .noChildren id => s!"P-node {id} has no children"
  | .sectionAsTarget id => s!"section {id} cannot receive a vertex"
  | .notPlaced v => s!"vertex {v} is not placed"
  | .notRightOf high low row => s!"section {high} is not right of {low} in Q-node {row}"
  | .emptyChain => "empty template chain"
  | .sectionAtBottom id => s!"section {id} at the bottom of the path"
  | .noPathSection id => s!"Q-node {id} above the bottom without a path section"
  | .notAbove id => s!"node {id} cannot sit above another path node"
  | .notAChild child parent => s!"Q-node {child} is not a child of P-node {parent}"
  | .noLeftNeighbor id => s!"section {id} has no left neighbor"
  | .notTheSon son id => s!"Q-node {son} is not the son of section {id}"
  | .notTheRightEnd id row => s!"section {id} is not the right end of Q-node {row}"
  | .noSpan v id => s!"{v} in section {id} without a span"
  | .neverLaidOut id => s!"node {id} was never laid out"
  | .noRange id => s!"node {id} has no clique range"

/-- The internal causes of a failure, each with the vertices concerned. -/
inductive Breach where
  /-- The search from `target` reached `start` only through the neighbourhood of `avoid`. -/
  | unreachable (start target avoid : Vertex)
  /-- A walk down the hop counts found no closer neighbour. -/
  | stalled (v : Vertex)
  /-- A walk down the hop counts ended at a vertex other than its target. -/
  | strayed (start reached target : Vertex)
  /-- No common neighbour closes a chordless cycle through the two vertices. -/
  | noChordlessCycle (v w : Vertex)
  /-- The graph has no asteroidal triple. -/
  | noAsteroidalTriple
  /-- The vertex has no position among the vertices of the graph. -/
  | unnumbered (v : Vertex)
  /-- The intervals of the two vertices disagree with their adjacency. -/
  | intervalsDisagree (u v : Vertex)
  /-- The vertex is already in the clique tree. -/
  | insertedTwice (v : Vertex)
  /-- The links of a tree do not fit together. -/
  | tree (fault : TreeFault)
deriving DecidableEq, Repr

/-- The wording of an internal cause. -/
def Breach.message : Breach → String
  | .unreachable start target avoid =>
      s!"{start} is not connected to {target} outside the neighborhood of {avoid}"
  | .stalled v => s!"path walk stalled at {v}"
  | .strayed start reached target =>
      s!"path walk from {start} ended at {reached} instead of {target}"
  | .noChordlessCycle v w => s!"no chordless cycle through {v} and {w}"
  | .noAsteroidalTriple => "no asteroidal triple found"
  | .unnumbered v => s!"no position for {v}"
  | .intervalsDisagree u v => s!"intervals of {u} and {v} disagree with the graph"
  | .insertedTwice v => s!"{v} inserted twice"
  | .tree fault => fault.message

/-- The causes for which an operation gives no answer. -/
inductive Failure where
  /-- An edge would join the vertex to itself. -/
  | loop (v : Vertex)
  /-- The edge is there already; its ends are kept in the order in which they were given. -/
  | edgeExists (u v : Vertex)
  /-- The graph has no such vertex. -/
  | noSuchVertex (v : Vertex)
  /-- An internal cause. -/
  | internal (breach : Breach)
deriving DecidableEq, Repr

/-- The wording of a failure. -/
def Failure.message : Failure → String
  | .loop v => s!"vertex {v} cannot be joined to itself"
  | .edgeExists u v => s!"edge {u} -- {v} already exists"
  | .noSuchVertex v => s!"graph has no vertex {v}"
  | .internal breach => s!"internal invariant violated: {breach.message}"

/-- The causes that end the program in the middle of an operation. -/
inductive Panic where
  /-- Room was asked for that has more bytes than any block of memory. -/
  | capacityOverflow
deriving DecidableEq, Repr

/-- The wording of a panic. -/
def Panic.message : Panic → String
  | .capacityOverflow => "capacity overflow"

/-- The number of bytes of the largest block of memory. -/
def maxBlock : Nat := UInt64.size / 2 - 1

/-- A block of memory can hold this many vertices, at four bytes each. -/
abbrev FitsBlock (vertices : Nat) : Prop := 4 * vertices ≤ maxBlock

/-- Reserves room for vertices. That the system has the room is taken for granted. -/
def reserve (vertices : Nat) : Except Panic Unit :=
  if FitsBlock vertices then .ok () else .error .capacityOverflow

end CliquePath
