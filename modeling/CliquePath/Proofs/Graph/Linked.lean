import CliquePath.Proofs.Graph.History
import CliquePath.Proofs.Holes

set_option autoImplicit false

/-!
# Adjacency in a graph

This module names the adjacency of a graph as a relation, the form in which holes, intervals and
asteroidal triples speak of it.
-/

namespace CliquePath

namespace Graph

variable {g : Graph} {u v w : Vertex}

/-- The second vertex is a neighbour of the first. -/
abbrev Linked (g : Graph) (v w : Vertex) : Prop := w ∈ g.neighbors v

theorem Consistent.mem_vertices_of_linked (hg : g.Consistent) (h : g.Linked v w) :
    v ∈ g.vertices ∧ w ∈ g.vertices :=
  ⟨mem_vertices.2 (contains_of_mem_neighbors h), mem_vertices.2 (hg.live v w h)⟩

theorem Consistent.mutual (hg : g.Consistent) : Mutual g.vertices g.Linked :=
  fun v _ w _ _ => hg.symm v w

theorem mem_edges : (u, v) ∈ g.edges ↔ g.Linked u v ∧ u < v := by
  simp only [edges, List.mem_flatMap, List.mem_map, List.mem_filter, Prod.mk.injEq,
    decide_eq_true_eq]
  constructor
  · rintro ⟨a, -, b, ⟨hb, hlt⟩, rfl, rfl⟩
    exact ⟨hb, hlt⟩
  · rintro ⟨hv, hlt⟩
    exact ⟨u, mem_vertices.2 (contains_of_mem_neighbors hv), v, ⟨hv, hlt⟩, rfl, rfl⟩

theorem lt_bound (h : v ∈ g.vertices) : v < g.bound := by
  obtain ⟨r, hr⟩ := contains_iff.1 (mem_vertices.1 h)
  exact lt_bound_of_record? hr

theorem nodup_vertices (g : Graph) : g.vertices.Nodup :=
  (pairwise_vertices g).imp fun h => Nat.ne_of_lt h

end Graph

end CliquePath
