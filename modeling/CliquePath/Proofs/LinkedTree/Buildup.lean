import CliquePath.Proofs.Buildup
import CliquePath.Proofs.LinkedTree.Intervals

set_option autoImplicit false

/-!
# The linked tree of a graph

This module puts the vertices of one graph into a linked tree and into a clique tree. The two trees answer
alike at each vertex, so they end alike: both fail, both reject the same vertex, or the linked tree of all
vertices stands for the clique tree of all vertices, and the two give the same intervals.
-/

namespace CliquePath

namespace LinkedTree

variable {t t' : LinkedTree} {ct : CliqueTree} {g : Graph} {u : Vertex} {S : Set Vertex}

/-- A tree that took in a vertex is sound, with one vertex more. -/
theorem Sound.inserted (h : t.Sound S) (hins : t.insert g u = (.ok .inserted, t')) :
    t'.Sound (Insert.insert u S) := by
  rcases h.insert_cases g u with ⟨-, hc⟩ | ⟨-, -, hc⟩ | ⟨-, -, t'', -, hc | ⟨hc, hsound⟩⟩
  · rw [hins] at hc
    cases hc
  · rw [hins] at hc
    cases hc
  · rw [hins] at hc
    cases hc
  · rw [hins] at hc
    cases hc
    exact hsound

/-- How a list of vertices ends in a linked tree and in a clique tree. -/
inductive Ends : Except Failure (Buildup LinkedTree) → Except Failure (Buildup CliqueTree) → Prop
  | failed (failure : Failure) : Ends (.error failure) (.error failure)
  | stuck (v : Vertex) : Ends (.ok (.stuck v)) (.ok (.stuck v))
  | complete {t : LinkedTree} {ct : CliqueTree} (mirrors : t.Mirrors ct) (proper : ct.Sound)
      (sound : t.Sound {v | v ∈ ct.placed}) : Ends (.ok (.complete t)) (.ok (.complete ct))

/-- A list of vertices ends in a linked tree as it does in the clique tree for which it stands. -/
theorem Mirrors.insertAll (h : t.Mirrors ct) (hct : ct.Sound) (ht : t.Sound {v | v ∈ ct.placed})
    (hg : g.Consistent) (vs : List Vertex) : Ends (t.insertAll g vs) (ct.insertAll g vs) := by
  induction vs generalizing t ct with
  | nil => exact .complete h hct ht
  | cons v rest ih =>
      have hfollows := h.insert hct (hg.nodup v)
      rw [LinkedTree.insertAll, CliqueTree.insertAll]
      generalize hins : t.insert g v = out at hfollows
      generalize hplaced : ct.insert g v = placement at hfollows
      obtain ⟨answer, t'⟩ := out
      cases hfollows with
      | failed failure => exact .failed failure
      | rejected => exact .stuck v
      | inserted mirrors =>
          obtain ⟨hct', hmore, -⟩ := hct.insert_placed (hg.nodup v) hplaced
          have hset : {w | w ∈ v :: ct.placed} = Insert.insert v {w | w ∈ ct.placed} := by
            ext w
            exact List.mem_cons
          exact ih mirrors hct' (by rw [hmore, hset]; exact ht.inserted hins)

end LinkedTree

namespace Graph

variable {g : Graph}

/-- The vertices of a graph, in any order, end alike in the two trees. -/
theorem Consistent.insertAll_ends (hg : g.Consistent) (b : Nat) (vs : List Vertex) :
    LinkedTree.Ends ((LinkedTree.new b).insertAll g vs) (CliqueTree.empty.insertAll g vs) := by
  refine (LinkedTree.mirrors_new b).insertAll CliqueTree.sound_empty ?_ hg vs
  simpa [CliqueTree.empty] using LinkedTree.sound_new b

theorem Consistent.linkedTree_ends (hg : g.Consistent) : LinkedTree.Ends g.linkedTree g.cliqueTree :=
  hg.insertAll_ends g.bound (g.lexRanking .forward).order

end Graph

end CliquePath
