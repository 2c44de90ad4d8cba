import CliquePath.Proofs.Graph.Linked
import CliquePath.Proofs.Search.CliqueOrder
import CliquePath.Proofs.Search.Groups

set_option autoImplicit false

/-!
# Lexicographic breadth-first search of a graph

This module shows that the search visits every vertex of a graph once, that its order has the four
points, and that the earlier neighbours of each vertex are pairwise adjacent if the graph has no
holes.
-/

namespace CliquePath

namespace Graph

variable {g : Graph} {v w : Vertex}

/-- The vertices in the order in which the search visits them. -/
def visits (g : Graph) : List Vertex := Groups.visit g g.vertexCount [g.vertices]

theorem lexRanking_backward (g : Graph) : (g.lexRanking .backward).order = g.visits.reverse := rfl

theorem tidy_vertices (h : g.vertices ≠ []) : Groups.Tidy [g.vertices] :=
  ⟨by simpa using nodup_vertices g, by simpa using h⟩

/-- The search visits every vertex once. -/
theorem Consistent.perm_visits (hg : g.Consistent) : g.visits.Perm g.vertices := by
  rw [visits, hg.count]
  by_cases hnil : g.vertices = []
  · rw [hnil]
    exact List.Perm.refl []
  · have hperm := (tidy_vertices hnil).perm_visit hg.nodup (n := g.vertices.length) (by simp)
    simpa using hperm

theorem Consistent.nodup_visits (hg : g.Consistent) : g.visits.Nodup :=
  hg.perm_visits.nodup_iff.2 (nodup_vertices g)

theorem Consistent.mem_visits (hg : g.Consistent) : v ∈ g.visits ↔ v ∈ g.vertices :=
  hg.perm_visits.mem_iff

/-- At each visit the visited vertex is level with, or ahead of, every vertex visited later. -/
theorem Consistent.level_or_ahead (hg : g.Consistent) {pre post : List Vertex} {b c : Vertex}
    (hsplit : g.visits = pre ++ b :: post) (hc : c ∈ post) :
    Groups.Level g pre b c ∨ Groups.Ahead g pre b c := by
  have hne : g.vertices ≠ [] := by
    intro hnil
    have hb : b ∈ g.vertices := hg.mem_visits.1 (by simp [hsplit])
    simp [hnil] at hb
  have hordered : Groups.Ordered g (fun _ => False) [] [g.vertices] :=
    Groups.ordered_nil (by simp) (List.pairwise_singleton _ _)
  exact (hordered.visit (tidy_vertices hne) hg.nodup (n := g.vertexCount) (by simp [hg.count])
    hsplit hc).2 id

/-- The order of the search is lexicographic. -/
theorem Consistent.fourPoints (hg : g.Consistent) : FourPoints g.Linked g.visits := by
  intro a b c hab hbc hc hac hnab
  have hb : b ∈ g.visits :=
    List.idxOf_lt_length_iff.1 (Nat.lt_of_lt_of_le hbc List.idxOf_le_length)
  obtain ⟨pre, post, hsplit, hbpre⟩ := List.eq_append_cons_of_mem hb
  have hnodup : (pre ++ b :: post).Nodup := hsplit ▸ hg.nodup_visits
  have hlevel := fun hlater => hg.level_or_ahead (c := c) hsplit hlater
  rw [hsplit] at hab hbc hc ⊢
  obtain ⟨l, d, r, rfl, har, hdb, hdc⟩ := Groups.exists_of_level_or
    (hlevel (mem_of_idxOf_lt hbpre hbc hc)) ((idxOf_lt_iff_mem hbpre).1 hab) hac hnab
  have hreassoc : l ++ d :: r ++ b :: post = l ++ d :: (r ++ b :: post) := by simp
  rw [hreassoc] at hnodup ⊢
  exact ⟨d, by simp, idxOf_lt_of_mem hnodup (List.mem_append_left _ har), hdb, hdc⟩

/-- In a graph without holes the earlier neighbours of each vertex are pairwise adjacent. -/
theorem Consistent.cliqueOrder (hg : g.Consistent) (hchordal : Chordal g.vertices g.Linked) :
    CliqueOrder g.Linked g.visits :=
  hg.fourPoints.cliqueOrder hg.mutual (fun _ => hg.mem_visits) hchordal hg.irrefl

end Graph

end CliquePath
