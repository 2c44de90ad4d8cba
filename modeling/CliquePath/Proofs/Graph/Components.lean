import CliquePath.Graph.Components
import CliquePath.Proofs.Graph.Forest
import CliquePath.Proofs.Graph.Linked

set_option autoImplicit false

/-!
# Connected components

This module says what the connected components of a graph are. Two vertices have one root in the
forest of the edges exactly if a path joins them, and the root of a class is its least member. So
each component is the set of the vertices that paths join to its first one, and the components
together have every vertex once.
-/

namespace CliquePath

namespace Graph

open Relation

variable {g : Graph} {v w x y : Vertex} {component : List Vertex}

/-- Two numbers have one root in the forest along some edges of the graph exactly when a chain of
these edges leads from one to the other. -/
theorem Consistent.root_forestOf_eq_iff (hg : g.Consistent) {edges : List (Vertex × Vertex)}
    (hedges : ∀ e ∈ edges, e ∈ g.edges) :
    (g.forestOf edges).root v = (g.forestOf edges).root w ↔
      EqvGen (fun a b => (a, b) ∈ edges) v w := by
  refine Forest.root_joinAll_roots_eq_iff edges fun e he => ?_
  obtain ⟨hv, hw⟩ := hg.mem_vertices_of_linked (mem_edges.1 (hedges e he)).1
  exact ⟨lt_bound hv, lt_bound hw⟩

/-! ## Paths -/

/-- A path leads from the first vertex to the second. -/
abbrev Reaches (g : Graph) : Vertex → Vertex → Prop := ReflTransGen g.Linked

theorem Consistent.reaches_symm (hg : g.Consistent) (h : g.Reaches v w) : g.Reaches w v := by
  induction h with
  | refl => exact .refl
  | @tail a b _ hab ih => exact .head (hg.symm a b hab) ih

/-- A path from a vertex of the graph stays in the graph. -/
theorem Consistent.mem_vertices_of_reaches (hg : g.Consistent) (hv : v ∈ g.vertices)
    (h : g.Reaches v w) : w ∈ g.vertices := by
  cases h with
  | refl => exact hv
  | tail _ hlast => exact (hg.mem_vertices_of_linked hlast).2

/-- A chain of edges, each taken in either direction, is a path. -/
theorem Consistent.eqvGen_edges_iff (hg : g.Consistent) :
    EqvGen (fun a b => (a, b) ∈ g.edges) v w ↔ g.Reaches v w := by
  constructor
  · intro h
    induction h with
    | rel a b hab => exact .single (mem_edges.1 hab).1
    | refl a => exact .refl
    | symm a b _ ih => exact hg.reaches_symm ih
    | trans a b c _ _ hab hbc => exact hab.trans hbc
  · intro h
    induction h with
    | refl => exact .refl v
    | @tail a b _ hab ih =>
        refine ih.trans _ _ _ ?_
        have hne : a ≠ b := fun heq => hg.irrefl a (heq ▸ hab)
        rcases Nat.lt_or_gt_of_ne hne with hlt | hgt
        · exact .rel _ _ (mem_edges.2 ⟨hab, hlt⟩)
        · exact .symm _ _ (.rel _ _ (mem_edges.2 ⟨hg.symm a b hab, hgt⟩))

/-! ## The least vertex of a component -/

/-- The root of a vertex in the forest of all edges. -/
def anchor (g : Graph) (v : Vertex) : Vertex := (g.forestOf g.edges).root v

theorem Consistent.anchor_eq_iff (hg : g.Consistent) :
    g.anchor v = g.anchor w ↔ g.Reaches v w := by
  rw [anchor, anchor, hg.root_forestOf_eq_iff fun e he => he, hg.eqvGen_edges_iff]

theorem Consistent.reaches_anchor (hg : g.Consistent) (v : Vertex) :
    g.Reaches v (g.anchor v) :=
  hg.anchor_eq_iff.1 (Forest.root_root _ v).symm

/-- The root is the least vertex that a path leads to. -/
theorem Consistent.anchor_le (hg : g.Consistent) (h : g.Reaches v w) : g.anchor v ≤ w := by
  rw [hg.anchor_eq_iff.2 h]
  exact Forest.root_le_self _ w

theorem components_eq (g : Graph) : g.components =
    (g.vertices.filter fun v => g.anchor v == v).map fun least =>
      g.vertices.filter fun v => g.anchor v == least := rfl

/-! ## The members of a component -/

/-- The first vertex of a component is its least one, and the others are those that paths join to
it. -/
structure IsComponent (g : Graph) (least : Vertex) (others : List Vertex) : Prop where
  start : least ∈ g.vertices
  ascending : (least :: others).Pairwise (· < ·)
  mem_iff : ∀ v, v ∈ least :: others ↔ g.Reaches least v

theorem Consistent.exists_isComponent (hg : g.Consistent) (h : component ∈ g.components) :
    ∃ least others, component = least :: others ∧ g.IsComponent least others := by
  rw [components_eq] at h
  obtain ⟨least, hleast, rfl⟩ := List.mem_map.1 h
  obtain ⟨hvertex, hroot⟩ := List.mem_filter.1 hleast
  have hself : g.anchor least = least := beq_iff_eq.1 hroot
  have hmem : ∀ v, v ∈ g.vertices.filter (fun v => g.anchor v == least) ↔ g.Reaches least v := by
    intro v
    rw [List.mem_filter, beq_iff_eq]
    constructor
    · rintro ⟨-, hv⟩
      exact hg.anchor_eq_iff.1 (hself.trans hv.symm)
    · intro hv
      exact ⟨hg.mem_vertices_of_reaches hvertex hv, (hg.anchor_eq_iff.2 hv).symm.trans hself⟩
  have hascending : (g.vertices.filter fun v => g.anchor v == least).Pairwise (· < ·) :=
    (pairwise_vertices g).filter _
  -- No member is less than its root, so the root stands in front.
  cases hmembers : g.vertices.filter fun v => g.anchor v == least with
  | nil => exact absurd ((hmem least).2 .refl) (by simp [hmembers])
  | cons first others =>
      rw [hmembers] at hmem hascending
      have hle : least ≤ first := by
        have hfirst := hg.anchor_le ((hmem first).1 List.mem_cons_self)
        rwa [hself] at hfirst
      have hfirst : first = least := by
        rcases List.mem_cons.1 ((hmem least).2 .refl) with heq | hin
        · exact heq.symm
        · have hlt := (List.pairwise_cons.1 hascending).1 least hin
          exact absurd (Nat.lt_of_lt_of_le hlt hle) (Nat.lt_irrefl _)
      subst hfirst
      exact ⟨first, others, rfl, hvertex, hascending, hmem⟩

/-- The components have every vertex once. -/
theorem Consistent.perm_flatten_components (hg : g.Consistent) :
    g.components.flatten.Perm g.vertices := by
  refine (List.perm_ext_iff_of_nodup ?_ (nodup_vertices g)).2 fun v => ?_
  · -- No vertex has two anchors.
    rw [components_eq, List.nodup_flatten]
    constructor
    · intro component hcomponent
      obtain ⟨least, -, rfl⟩ := List.mem_map.1 hcomponent
      exact (nodup_vertices g).filter _
    · refine List.pairwise_map.2 (((nodup_vertices g).filter _).imp fun hne x hx hy => hne ?_)
      have hleft := beq_iff_eq.1 (List.mem_filter.1 hx).2
      have hright := beq_iff_eq.1 (List.mem_filter.1 hy).2
      exact hleft.symm.trans hright
  · rw [components_eq, List.mem_flatten]
    constructor
    · rintro ⟨component, hcomponent, hv⟩
      obtain ⟨least, -, rfl⟩ := List.mem_map.1 hcomponent
      exact (List.mem_filter.1 hv).1
    · -- The anchor of a vertex is a vertex of the graph, since there is a path to it.
      intro hv
      have hroot : g.anchor (g.anchor v) = g.anchor v := Forest.root_root _ v
      refine ⟨_, List.mem_map.2 ⟨g.anchor v, List.mem_filter.2 ⟨?_, beq_iff_eq.2 hroot⟩, rfl⟩,
        List.mem_filter.2 ⟨hv, beq_self_eq_true _⟩⟩
      exact hg.mem_vertices_of_reaches hv (hg.reaches_anchor v)

namespace IsComponent

variable {least : Vertex} {others : List Vertex} (h : g.IsComponent least others)

include h

theorem nodup : (least :: others).Nodup := h.ascending.imp Nat.ne_of_lt

/-- The neighbours of a member are members. -/
theorem mem_of_linked (hv : v ∈ least :: others) (hvw : g.Linked v w) : w ∈ least :: others :=
  (h.mem_iff w).2 (((h.mem_iff v).1 hv).tail hvw)

/-- A property of the first member that passes to neighbours holds of every member. -/
theorem induct {P : Vertex → Prop} (hstart : P least)
    (hstep : ∀ v w, v ∈ least :: others → P v → g.Linked v w → P w) :
    ∀ v ∈ least :: others, P v := by
  intro v hv
  have hreaches := (h.mem_iff v).1 hv
  induction hreaches with
  | refl => exact hstart
  | @tail a b ha hab ih => exact hstep a b ((h.mem_iff a).2 ha) (ih ((h.mem_iff a).2 ha)) hab

end IsComponent

end Graph

end CliquePath
