import CliquePath.Proofs.CliqueTree.History

set_option autoImplicit false

/-!
# Correctness of the clique tree

This module states what the clique tree is for. The intervals of a tree with any history represent
the recorded graph, and a vertex whose neighbours are pairwise joined is placed whenever the
recorded graph with this vertex is an interval graph.
-/

namespace CliquePath

namespace CliqueTree

variable {calls : Calls} {t : CliqueTree} {g : Graph} {u : Vertex}

/-- The intervals of a tree with any history represent the recorded graph: the vertices put in have
intervals, in ascending order, these start at 1 or later and are not empty, and two of them overlap
exactly when their vertices are joined. In such a history only a clique of the recorded graph is
accepted as the neighbours of a new vertex. -/
theorem intervals_represent_recorded (h : After calls t) :
    Represents t.intervals (inserted calls).mergeSort (recorded calls) ∧
      (∀ e ∈ t.intervals, 1 ≤ e.2.start) ∧
      ∀ g u t', g.Reachable → t.insert g u = .ok (.placed t') →
        ∀ v ∈ g.neighbors u, ∀ w ∈ g.neighbors u, v ∈ inserted calls → w ∈ inserted calls →
          v ≠ w → recorded calls v w := by
  refine ⟨h.represents, fun e he => (h.keeps.sound.one_le_start he).1, ?_⟩
  intro g u t' hg hins v hv w hw hvc hwc hvw
  rw [← h.keeps.placed] at hvc hwc
  exact h.clique_of_placed hg hins (mem_placedNeighbors.2 ⟨hv, hvc⟩)
    (mem_placedNeighbors.2 ⟨hw, hwc⟩) hvw

/-- A vertex of a graph finds room in a tree with any history if its neighbours in the tree are
pairwise joined in the recorded graph and that graph, with the vertex joined to them, is an interval
graph. -/
theorem placed_of_intervalGraph (h : After calls t)
    (hu : g.contains u = true) (hnew : u ∉ inserted calls)
    (hclique : ∀ v ∈ g.neighbors u, ∀ w ∈ g.neighbors u, v ∈ inserted calls →
      w ∈ inserted calls → v ≠ w → recorded calls v w)
    (hinterval : IntervalGraph (u :: inserted calls) (recorded ((g, u) :: calls))) :
    ∃ t', t.insert g u = .ok (.placed t') := by
  have hplaced : t.placed = inserted calls := h.keeps.placed
  have hins := insert_eq (t := t) hu (hplaced ▸ hnew)
  cases hat : attach? t.root u (t.placedNeighbors g u) with
  | some root =>
      rw [hat] at hins
      exact ⟨_, hins⟩
  | none =>
      rw [hat] at hins
      -- A vertex without room would be in an asteroidal triple of an interval graph.
      obtain ⟨l, r, hast⟩ := h.asteroidal_of_noRoom hins fun v hv w hw hvw =>
        hclique v (mem_placedNeighbors.1 hv).1 w (mem_placedNeighbors.1 hw).1
          (hplaced ▸ (mem_placedNeighbors.1 hv).2) (hplaced ▸ (mem_placedNeighbors.1 hw).2) hvw
      exact absurd hast hinterval.not_asteroidal

end CliqueTree

end CliquePath
