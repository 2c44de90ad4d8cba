import CliquePath.CliqueTree.Neighbors
import CliquePath.Sole

set_option autoImplicit false

/-!
# Opening a path through a clique tree

This module defines what happens to the nodes on the way from the highest partly reached node down
to the lowest place of a neighbour. The lowest node becomes a row that awaits one more section at
its right end, the section of the new vertex. Each node above is then folded into that row: the
other children of a P-node become a new leftmost section, and a Q-node takes the row into its own
row in place of the section below which the row grew. The awaited section stays at the right end
until the highest node closes the row.
-/

namespace CliquePath

/-- A row that awaits a last section, and the vertices that the awaited section will hold. -/
structure Opening where
  row : Row (Section Node)
  link : List Vertex
deriving Repr

namespace Opening

/-- The row made from a place and a way to rebuild it with fewer vertices: the neighbours move into
the row, the others stay below. -/
def ofPlace (nbrs held : List Vertex) (below : List Vertex → Node) : Opening :=
  { row := .ofList [⟨reached nbrs held, below (missed nbrs held)⟩], link := reached nbrs held }

/-- The row of a Q-node awaits the new section at the end that holds all its neighbours, the right
end first. -/
def ofRow? (nbrs : List Vertex) (row : Row (Section Node)) : Option Opening :=
  let owned := row.owned nbrs
  let endHolds (s? : Option (Section Node)) : Bool :=
    (s?.map fun s => holdsAll owned s.held).getD false
  if endHolds row.toList.getLast? then some ⟨row, owned⟩
  else if endHolds row.toList.head? then some ⟨row.reverse, owned⟩
  else none

/-- Adds the vertices of a place above the row: all of them to its sections, and the neighbours to
the awaited section. -/
def carry (nbrs held : List Vertex) (o : Opening) : Opening :=
  { row := o.row.map fun s => { s with held := s.held ++ held }
    link := o.link ++ reached nbrs held }

/-- Folds a P-node into the row. Its other children, if any, become the leftmost section. -/
def foldChildren (nbrs held : List Vertex) (others : List Node) (o : Opening) : Opening :=
  let widened : Opening :=
    match others with
    | [] => o
    | _ => { o with row := o.row.insertAt 0 ⟨[], .bundle [] others⟩ }
  widened.carry nbrs held

/-- Takes the row into an outer row in place of its last section. -/
def foldLast (nbrs : List Vertex) (outer : Row (Section Node)) (s : Section Node)
    (o : Opening) : Opening :=
  let carried := o.carry nbrs s.held
  { carried with row := outer.splice (outer.size - 1) carried.row }

/-- Closes the row with the section of the new vertex. -/
def close (u : Vertex) (o : Opening) : Row (Section Node) := o.row.push ⟨o.link, .leaf [u]⟩

/-- Takes the row, closed, into an outer row in place of one of its sections. -/
def closeInto (u : Vertex) (nbrs : List Vertex) (outer : Row (Section Node)) (i : Nat)
    (s : Section Node) (o : Opening) : Row (Section Node) :=
  outer.splice i ((o.carry nbrs s.held).close u)

end Opening

namespace Node

/-- Opens the tree below a node that has a partly reached node above it. There is no answer if the
neighbours lie below two different children, if a neighbour held by a Q-node misses the section
through which the path goes, or if that section is an inner one. -/
def opening? (nbrs : List Vertex) : Node → Option Opening
  | .leaf held => some (.ofPlace nbrs held .leaf)
  | .pnode held children =>
      match _h : Sole.find (meets nbrs) children with
      | .absent => some (.ofPlace nbrs held fun rest => .bundle rest children)
      | .several => none
      | .one before c after =>
          (c.opening? nbrs).map (Opening.foldChildren nbrs held (before ++ after))
  | .qnode row =>
      match _h : Sole.find (fun s : Section Node => s.son.meets nbrs) row.toList with
      | .absent => Opening.ofRow? nbrs row
      | .several => none
      | .one before s after =>
          if !holdsAll (row.owned nbrs) s.held then none
          -- The row has to turn its awaited section outwards, to the right end.
          else if before.isEmpty then
            (s.son.opening? nbrs).map (Opening.foldLast nbrs row.reverse s)
          else if after.isEmpty then
            (s.son.opening? nbrs).map (Opening.foldLast nbrs row s)
          else none
termination_by node => sizeOf node
decreasing_by
  · have := List.sizeOf_lt_of_mem (Sole.mem_of_find _h)
    simp_wf
    omega
  · have := Section.sizeOf_son_lt (Sole.mem_of_find _h)
    simp_wf
    omega
  · have := Section.sizeOf_son_lt (Sole.mem_of_find _h)
    simp_wf
    omega

end Node

end CliquePath
