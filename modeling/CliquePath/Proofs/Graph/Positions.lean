import CliquePath.Proofs.Graph.EdgeSet
import Mathlib.Order.Monotone.Basic

set_option autoImplicit false

/-!
# Positions of the vertices

This module numbers the vertices of a graph by their positions in ascending order. Taking a position
to the vertex there is increasing, so the positions can stand for the vertices wherever a graph is
written down without its holes.
-/

namespace CliquePath

namespace Graph

variable {g : Graph}

/-- Without holes the vertices are the numbers below the bound. -/
theorem vertices_eq_range (h : ∀ i < g.bound, g.contains i = true) :
    g.vertices = List.range g.bound :=
  List.filter_eq_self.2 fun i hi => h i (List.mem_range.1 hi)

/-- The vertex at a position among the vertices. Positions past the last vertex name numbers past
the bound. -/
def nthVertex (g : Graph) (i : Vertex) : Vertex := g.vertices[i]?.getD (g.bound + i)

theorem nthVertex_of_lt {i : Nat} (h : i < g.vertices.length) : g.nthVertex i = g.vertices[i] := by
  simp [nthVertex, h]

theorem strictMono_nthVertex (g : Graph) : StrictMono g.nthVertex := by
  intro i j hij
  by_cases hj : j < g.vertices.length
  · rw [nthVertex_of_lt (Nat.lt_trans hij hj), nthVertex_of_lt hj]
    exact List.pairwise_iff_getElem.1 (pairwise_vertices g) i j _ hj hij
  · have hlast : g.nthVertex j = g.bound + j := by simp [nthVertex, Nat.le_of_not_lt hj]
    rw [hlast]
    by_cases hi : i < g.vertices.length
    · rw [nthVertex_of_lt hi]
      exact Nat.lt_of_lt_of_le (lt_bound (List.getElem_mem hi)) (Nat.le_add_right _ _)
    · have hfirst : g.nthVertex i = g.bound + i := by simp [nthVertex, Nat.le_of_not_lt hi]
      rw [hfirst]
      exact Nat.add_lt_add_left hij _

theorem nthVertex_idxOf {v : Vertex} (hv : v ∈ g.vertices) :
    g.nthVertex (g.vertices.idxOf v) = v := by
  rw [nthVertex_of_lt (List.idxOf_lt_length_iff.2 hv), List.getElem_idxOf]

theorem vertices_eq_map_nthVertex (g : Graph) :
    g.vertices = (List.range g.vertices.length).map g.nthVertex := by
  refine List.ext_getElem (by simp) fun i hi _ => ?_
  simp [nthVertex_of_lt hi]

/-- The positions of the ends of an edge. -/
def position (g : Graph) (e : Vertex × Vertex) : Vertex × Vertex :=
  (g.vertices.idxOf e.1, g.vertices.idxOf e.2)

theorem map_nthVertex_position {es : List (Vertex × Vertex)}
    (hends : ∀ e ∈ es, e.1 ∈ g.vertices ∧ e.2 ∈ g.vertices) :
    (es.map g.position).map (Prod.map g.nthVertex g.nthVertex) = es := by
  rw [List.map_map]
  conv_rhs => rw [← List.map_id es]
  refine List.map_congr_left fun e he => ?_
  obtain ⟨hleft, hright⟩ := hends e he
  simp [position, nthVertex_idxOf hleft, nthVertex_idxOf hright]

theorem Chronicled.mem_vertices (hg : g.Chronicled) (hc : g.Consistent) {e : Vertex × Vertex}
    (he : e ∈ g.edgeSet) : e.1 ∈ g.vertices ∧ e.2 ∈ g.vertices := by
  have hedge : (e.1, e.2) ∈ g.edges := (hg.perm_edges hc).mem_iff.2 he
  exact hc.mem_vertices_of_linked (mem_edges.1 hedge).1

end Graph

end CliquePath
