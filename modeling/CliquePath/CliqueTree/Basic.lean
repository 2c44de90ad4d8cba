import CliquePath.CliqueTree.Growth
import CliquePath.CliqueTree.Arrangement
import CliquePath.Graph.Basic

set_option autoImplicit false

/-!
# Clique trees

This module defines the clique tree of a growing graph: the tree of all arrangements of its maximal
cliques in a line in which the cliques of every vertex are consecutive. Vertices are put in one by
one, each with those of its neighbours that are in the tree already. When no arrangement has room
for a vertex, the vertex is rejected.

`CliqueTree.cliques` reads one arrangement off the tree and `CliqueTree.intervals` the positions of
each vertex in it.
-/

namespace CliquePath

/-- A clique tree, and the vertices in it. -/
structure CliqueTree where
  root : Option Node := none
  /-- The vertices in the tree, the latest first. -/
  placed : List Vertex := []
deriving Repr

/-- What becomes of a tree into which a vertex is put. -/
inductive Placement where
  | placed (tree : CliqueTree)
  | noRoom
deriving Repr

namespace CliqueTree

/-- The tree without vertices. -/
def empty : CliqueTree := {}

instance : Inhabited CliqueTree := ⟨empty⟩

/-- The vertex is in the tree. -/
def contains (t : CliqueTree) (v : Vertex) : Bool := t.placed.contains v

/-- The root after a vertex without neighbours in the tree was put in. -/
def isolated (root : Option Node) (u : Vertex) : Node :=
  match root with
  | none => .leaf [u]
  | some node => node.beside u

/-- The root after a vertex with the given neighbours in the tree was put in. -/
def attach? (root : Option Node) (u : Vertex) (nbrs : List Vertex) : Option Node :=
  if nbrs.isEmpty then some (isolated root u)
  else root.bind fun node => (node.grow? u nbrs).map Grown.settle

/-- Puts a vertex of a graph into the tree, with those of its neighbours in that graph that are in
the tree. -/
def insert (t : CliqueTree) (g : Graph) (u : Vertex) : Except Failure Placement :=
  if !g.contains u then .error (.noSuchVertex u)
  else if t.contains u then .error (.internal (.insertedTwice u))
  else
    match attach? t.root u ((g.neighbors u).filter t.contains) with
    | none => .ok .noRoom
    | some root => .ok (.placed ⟨some root, u :: t.placed⟩)

/-- The maximal cliques in their arrangement from left to right, each ascending. -/
def cliques (t : CliqueTree) : List (List Vertex) :=
  match t.root with
  | none => []
  | some node => node.cliques []

/-- The interval of every vertex in the tree, by ascending vertex: the positions of its cliques,
counted from 1. -/
def intervals (t : CliqueTree) : Assignment :=
  match t.root with
  | none => []
  | some node =>
      let arrangement := node.arrangement
      t.placed.mergeSort.filterMap fun v =>
        (arrangement.interval? v).map fun i => (v, i.shift 1)

end CliqueTree

end CliquePath
