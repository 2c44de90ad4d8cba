import CliquePath.Graph.Basic

set_option autoImplicit false

/-!
# Groups of unvisited vertices

This module defines the queue behind a lexicographic breadth-first search. The unvisited vertices
stand in a sequence of groups and the first vertex of the first group is visited next. After each
visit the neighbours of the visited vertex leave their groups, one at a time, for a new group that
stands directly in front of the group they came from; groups that have run empty are dropped.
-/

namespace CliquePath

/-- Unvisited vertices in groups, the group to be visited next in front. -/
abbrev Groups := List (List Vertex)

/-- A group while vertices are moved out of it: the new group in front of it, and what is left. -/
structure Split where
  moved : List Vertex
  kept : List Vertex
deriving DecidableEq, Repr

namespace Split

/-- A group out of which nothing was moved so far. -/
def ofGroup (group : List Vertex) : Split := ⟨[], group⟩

/-- The vertex becomes the last one of the new group. -/
def move (s : Split) (v : Vertex) : Split := ⟨s.moved ++ [v], s.kept.erase v⟩

/-- The two groups, without those that are empty. -/
def groups (s : Split) : Groups := [s.moved, s.kept].filter fun group => !group.isEmpty

end Split

namespace Groups

/-- Takes the next vertex out of the groups. -/
def next? : Groups → Option (Vertex × Groups)
  | [] => none
  | [] :: _ => none
  | [v] :: rest => some (v, rest)
  | (v :: w :: group) :: rest => some (v, (w :: group) :: rest)

/-- Moves a vertex within the group that holds it. A vertex that no group holds was visited before
and changes nothing. -/
def promote : List Split → Vertex → List Split
  | [], _ => []
  | s :: rest, v => if s.kept.contains v then s.move v :: rest else s :: promote rest v

/-- Moves each of the given vertices in front of the group it came from. -/
def refine (groups : Groups) (moving : List Vertex) : Groups :=
  (moving.foldl promote (groups.map Split.ofGroup)).flatMap Split.groups

/-- Visits at most `n` vertices and lists them in order of their visits. -/
def visit (g : Graph) : Nat → Groups → List Vertex
  | 0, _ => []
  | n + 1, groups =>
      match groups.next? with
      | none => []
      | some (v, rest) => v :: visit g n (rest.refine (g.neighbors v))

end Groups

end CliquePath
