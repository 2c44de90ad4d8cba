import CliquePath.CliqueTree.Basic

set_option autoImplicit false

/-!
# Induction on nodes

This module states the induction on the nodes of a clique tree, one case for each kind of node, and
the equations of the two functions that walk down the path of the neighbours.
-/

namespace CliquePath.Node

/-- What passes from the children and the sons to a node holds of every node. -/
@[elab_as_elim]
theorem induction {P : Node → Prop} (hleaf : ∀ held, P (.leaf held))
    (hpnode : ∀ held children, (∀ c ∈ children, P c) → P (.pnode held children))
    (hqnode : ∀ row : Row (Section Node), (∀ s ∈ row.toList, P s.son) → P (.qnode row)) :
    ∀ node, P node
  | .leaf held => hleaf held
  | .pnode held children =>
      hpnode held children fun c _ => induction hleaf hpnode hqnode c
  | .qnode row => hqnode row fun s _ => induction hleaf hpnode hqnode s.son
termination_by node => sizeOf node
decreasing_by
  · have := List.sizeOf_lt_of_mem ‹c ∈ children›
    simp_wf
    omega
  · have := Section.sizeOf_son_lt ‹s ∈ row.toList›
    simp_wf
    omega

variable {nbrs held : List Vertex} {children : List Node} {row : Row (Section Node)} {u : Vertex}

theorem opening?_leaf : (leaf held).opening? nbrs = some (.ofPlace nbrs held .leaf) := by
  rw [opening?]

theorem opening?_pnode : (pnode held children).opening? nbrs =
    match Sole.find (meets nbrs) children with
    | .absent => some (.ofPlace nbrs held fun rest => .bundle rest children)
    | .several => none
    | .one before c after =>
        (c.opening? nbrs).map (Opening.foldChildren nbrs held (before ++ after)) := by
  rw [opening?]
  split <;> simp only [*]

theorem opening?_qnode : (qnode row).opening? nbrs =
    match Sole.find (fun s : Section Node => s.son.meets nbrs) row.toList with
    | .absent => Opening.ofRow? nbrs row
    | .several => none
    | .one before s after =>
        if !holdsAll (row.owned nbrs) s.held then none
        else if before.isEmpty then
          (s.son.opening? nbrs).map (Opening.foldLast nbrs row.reverse s)
        else if after.isEmpty then
          (s.son.opening? nbrs).map (Opening.foldLast nbrs row s)
        else none := by
  rw [opening?]
  split <;> simp only [*]

theorem grow?_leaf : (leaf held).grow? u nbrs = some (.plain (growLeaf u nbrs held)) := by
  rw [grow?]

theorem grow?_pnode : (pnode held children).grow? u nbrs =
    match Sole.find (meets nbrs) children with
    | .absent => some (.plain (growChildren u nbrs held children))
    | .several => none
    | .one before c after =>
        if isFull nbrs held then
          (c.grow? u nbrs).map (Grown.underChildren held before after)
        else
          (c.opening? nbrs).map fun o =>
            .ofRow ((o.foldChildren nbrs held (before ++ after)).close u) := by
  rw [grow?]
  split <;> simp only [*]

theorem grow?_qnode : (qnode row).grow? u nbrs =
    match Sole.find (fun s : Section Node => s.son.meets nbrs) row.toList with
    | .absent => growRow? u nbrs row
    | .several => none
    | .one before s after =>
        if !holdsAll (row.owned nbrs) s.held then none
        else if isFull nbrs s.held then
          (s.son.grow? u nbrs).map (Grown.underSection row before.length s)
        else
          (s.son.opening? nbrs).bind fun o =>
            (closeRow? u nbrs row before s after o).map .ofRow := by
  rw [grow?]
  split <;> simp only [*]

end CliquePath.Node
