import CliquePath.CliqueTree.Opening

set_option autoImplicit false

/-!
# Growing a node by a vertex

This module defines how a node of a clique tree changes when a vertex with neighbours below that
node is put in. On the way down from the node, places that hold neighbours only are left as they
are. If the first place that holds another vertex is the lowest place of a neighbour, or if there is
none, the new vertex is put in there. Otherwise the nodes from that place downwards are opened into
one row, which is closed with the section of the new vertex.

Vertices that all sections of a changed row hold are taken out of the row; they belong into a P-node
directly above it.
-/

namespace CliquePath

/-- What a node becomes, and the vertices to be held directly above it. -/
structure Grown where
  lifted : List Vertex
  node : Node
deriving Repr

namespace Grown

/-- A node with nothing to be held above it. -/
def plain (node : Node) : Grown := ⟨[], node⟩

/-- The vertices that all sections of a row hold. -/
def common (row : Row (Section Node)) : List Vertex :=
  match row.toList with
  | [] => []
  | first :: rest => first.held.filter fun v => rest.all fun s => s.held.contains v

/-- A row as a Q-node, with the vertices that all its sections hold lifted out of it. -/
def ofRow (row : Row (Section Node)) : Grown :=
  let lifted := common row
  ⟨lifted, .qnode (row.map fun s => { s with held := s.held.filter fun v => !lifted.contains v })⟩

/-- The node below a P-node for what was lifted, if anything was. -/
def settle (g : Grown) : Node := if g.lifted.isEmpty then g.node else .pnode g.lifted [g.node]

/-- Puts the node in the place of a child of a P-node. An only child leaves what was lifted to the
P-node itself. -/
def underChildren (held : List Vertex) (before after : List Node) (g : Grown) : Grown :=
  if before.isEmpty && after.isEmpty then .plain (.pnode (held ++ g.lifted) [g.node])
  else .plain (.pnode held (before ++ g.settle :: after))

/-- Puts the node below a section of a row. -/
def underSection (row : Row (Section Node)) (i : Nat) (s : Section Node) (g : Grown) : Grown :=
  .plain (.qnode (row.set i { s with son := g.settle }))

end Grown

namespace Node

/-- Puts the new vertex into a leaf, or beside those of its vertices that are not neighbours. -/
def growLeaf (u : Vertex) (nbrs held : List Vertex) : Node :=
  if isFull nbrs held then .leaf (held ++ [u])
  else .pnode (reached nbrs held) [.leaf (missed nbrs held), .leaf [u]]

/-- Puts the new vertex beside the children of a P-node, or beside the P-node of those of its
vertices that are not neighbours. -/
def growChildren (u : Vertex) (nbrs held : List Vertex) (children : List Node) : Node :=
  if isFull nbrs held then .pnode held (children ++ [.leaf [u]])
  else .pnode (reached nbrs held) [.pnode (missed nbrs held) children, .leaf [u]]

/-- A section can stand in front of position `i`, between two sections. -/
def gapFits (nbrs : List Vertex) (sections : List (Section Node)) (i : Nat) : Bool :=
  match sections[i - 1]?, sections[i]? with
  | some l, some r => 0 < i && partsBeyond nbrs l.held r.held
  | _, _ => false

/-- The position for a new section when the sections from `low` to `high` hold all neighbours: the
left end if they start there, else the first gap that fits, else the right end if they stop
there. -/
def gap? (nbrs : List Vertex) (sections : List (Section Node)) (low high : Nat) : Option Nat :=
  if low = 0 then some 0
  else
    match (List.range' low (high + 2 - low)).find? (gapFits nbrs sections) with
    | some i => some i
    | none => if high + 1 = sections.length then some sections.length else none

/-- Puts the new vertex below the first section that holds exactly its neighbours in the row, or
into a new section. Only the sections that hold all these neighbours, and the gaps beside them, are
candidates. -/
def growRow? (u : Vertex) (nbrs : List Vertex) (row : Row (Section Node)) : Option Grown :=
  let owned := row.owned nbrs
  let sections := row.toList
  let shared := row.sharedPositions owned
  let found? := shared.findSome? fun i =>
    sections[i]?.bind fun s => if s.held.length = owned.length then some (i, s) else none
  match found? with
  | some (i, s) => some (Grown.underSection row i s (.plain (s.son.beside u)))
  | none =>
      match shared.head?, shared.getLast? with
      | some low, some high =>
          (gap? nbrs sections low high).map fun i =>
            .ofRow (row.insertAt i ⟨owned, .leaf [u]⟩)
      | _, _ => none

/-- Takes an opened row into the row of the highest node on the opened path, in place of the section
`s`. At an end of the row the new section goes outwards; elsewhere it faces the first neighbouring
section, the right one before the left one, from which it may part `s`. -/
def closeRow? (u : Vertex) (nbrs : List Vertex) (row : Row (Section Node))
    (before : List (Section Node)) (s : Section Node) (after : List (Section Node))
    (o : Opening) : Option (Row (Section Node)) :=
  match before.getLast?, after.head? with
  | none, _ => some (o.closeInto u nbrs row.reverse after.length s)
  | some _, none => some (o.closeInto u nbrs row before.length s)
  | some l, some r =>
      if partsBeyond nbrs s.held r.held then some (o.closeInto u nbrs row before.length s)
      else if partsBeyond nbrs s.held l.held then
        some (o.closeInto u nbrs row.reverse after.length s)
      else none

/-- Puts in a vertex with at least one neighbour at the node or below it. There is no answer if no
arrangement of the cliques has room for it. -/
def grow? (u : Vertex) (nbrs : List Vertex) : Node → Option Grown
  | .leaf held => some (.plain (growLeaf u nbrs held))
  | .pnode held children =>
      match _h : Sole.find (meets nbrs) children with
      | .absent => some (.plain (growChildren u nbrs held children))
      | .several => none
      | .one before c after =>
          if isFull nbrs held then
            -- The P-node is reached as a whole and stays above the change.
            (c.grow? u nbrs).map (Grown.underChildren held before after)
          else
            -- The P-node is the highest one reached in part.
            (c.opening? nbrs).map fun o =>
              .ofRow ((o.foldChildren nbrs held (before ++ after)).close u)
  | .qnode row =>
      match _h : Sole.find (fun s : Section Node => s.son.meets nbrs) row.toList with
      | .absent => growRow? u nbrs row
      | .several => none
      | .one before s after =>
          -- A neighbour in the row has to share the cliques below the section `s`.
          if !holdsAll (row.owned nbrs) s.held then none
          else if isFull nbrs s.held then
            (s.son.grow? u nbrs).map (Grown.underSection row before.length s)
          else
            (s.son.opening? nbrs).bind fun o =>
              (closeRow? u nbrs row before s after o).map .ofRow
termination_by node => sizeOf node
decreasing_by
  · have := List.sizeOf_lt_of_mem (Sole.mem_of_find _h)
    simp_wf
    omega
  · have := Section.sizeOf_son_lt (Sole.mem_of_find _h)
    simp_wf
    omega

end Node

end CliquePath
