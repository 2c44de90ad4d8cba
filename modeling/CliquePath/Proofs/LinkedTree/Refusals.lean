import CliquePath.Proofs.LinkedTree.Ascents
import CliquePath.Proofs.LinkedTree.Ways

set_option autoImplicit false

/-!
# Vertices without a path

This module shows that a linked tree refuses a vertex only where the clique tree has no room for it, as
far as the search for the path and its first test go. Without a path two different subtrees have
neighbours, and a row on the path that misses one of its neighbours at the section of the path does not
grow. Whatever does not grow keeps everything above it from growing.
-/

namespace CliquePath

open Plan (ctx)

/-- Of several entries that satisfy the test none is the only one. -/
theorem Sole.find_several {α : Type} {test : α → Bool} {before after : List α} {x : α}
    (hx : test x = true) (hother : ∃ y ∈ before ++ after, test y = true) :
    find test (before ++ x :: after) = .several := by
  have hcount : 1 < (before ++ x :: after).countP test := by
    have hpos : 0 < (before ++ after).countP test := List.countP_pos_iff.2 hother
    rw [List.countP_append] at hpos
    rw [List.countP_append, List.countP_cons, hx, if_pos rfl]
    omega
  -- with one or no entry that satisfies the test the count would be lower
  cases hfind : find test (before ++ x :: after) with
  | several => rfl
  | absent =>
      rw [List.countP_eq_zero.2 fun y hy => by simp [find_eq_absent hfind y hy]] at hcount
      omega
  | one before' y after' =>
      obtain ⟨hy, hothers⟩ := find_eq_one hfind
      rw [List.forall_mem_append] at hothers
      rw [eq_append_of_find hfind, List.countP_append, List.countP_cons, hy, if_pos rfl,
        List.countP_eq_zero.2 fun z hz => by simp [hothers.1 z hz],
        List.countP_eq_zero.2 fun z hz => by simp [hothers.2 z hz]] at hcount
      omega

/-- The node neither grows nor opens. -/
def Node.Refuses (u : Vertex) (nbrs : List Vertex) (N : Node) : Prop :=
  N.grow? u nbrs = none ∧ N.opening? nbrs = none

namespace Bough

variable {b : Bough} {T : Plan} {nbrs : List Vertex} {u : Vertex}

/-- A bough above a node that does not grow does not grow. -/
theorem Points.refuses (h : b.Points nbrs T) (hT : T.node.Refuses u nbrs) :
    (b.fill T).node.Refuses u nbrs :=
  ⟨h.grow?_eq_none hT.2 fun _ => hT.1, h.opening?_eq_none hT.2⟩

/-- A row that misses one of its neighbours at the section of the path does not grow. -/
theorem Points.refuses_of_not_holds (h : b.Points nbrs T)
    (hb : holdsAll (b.owned nbrs) b.held = false) : (b.fill T).node.Refuses u nbrs := by
  cases b with
  | branch id held before after => cases hb
  | inRow q flipped xs key id held ys =>
      have howned : holdsAll ((shownRow flipped xs key ⟨held, T.node⟩ ys).owned nbrs) held = false := by
        rw [@owned_shownRow q key id flipped xs ys held nbrs T]
        exact hb
      constructor
      · rw [node_inRow, Node.grow?_qnode, h.find_inRow]
        simp only [howned, Bool.not_false, if_true]
      · rw [node_inRow, Node.opening?_qnode, h.find_inRow]
        simp only [howned, Bool.not_false, if_true]

/-- A node with neighbours below two of its limbs does not grow. -/
theorem refuses_of_several (hvis : (b.fill T).Visible) (hT : T.node.meets nbrs = true)
    (hothers : ∃ l ∈ b.others, l.2.node.meets nbrs = true) : (b.fill T).node.Refuses u nbrs := by
  obtain ⟨l, hl, hm⟩ := hothers
  -- in a row the test is on the sections, below a P-node on the children
  cases b with
  | branch id held before after =>
      obtain ⟨c, hc, rfl⟩ := List.mem_map.1 hl
      have hfind : Sole.find (Node.meets nbrs)
          (before.map Plan.node ++ T.node :: after.map Plan.node) = .several := by
        refine Sole.find_several hT ⟨c.node, ?_, hm⟩
        rw [← List.map_append]
        exact List.mem_map_of_mem hc
      constructor
      · rw [node_branch hvis, Node.grow?_pnode, hfind]
      · rw [node_branch hvis, Node.opening?_pnode, hfind]
  | inRow q flipped xs key id held ys =>
      obtain ⟨e, he, rfl⟩ := List.mem_map.1 hl
      have hfind : Sole.find (fun s : Section Node => s.son.meets nbrs)
          (shownRow flipped xs key ⟨held, T.node⟩ ys).toList = .several := by
        rw [toList_shownRow]
        refine Sole.find_several hT ⟨e.2.shown, ?_, hm⟩
        rw [← List.map_append]
        exact List.mem_map_of_mem (f := fun e : Int × Part Plan => e.2.shown) he
      constructor
      · rw [node_inRow, Node.grow?_qnode, hfind]
      · rw [node_inRow, Node.opening?_qnode, hfind]

end Bough

namespace Plan

variable {T : Plan} {bs : List Bough} {nbrs : List Vertex} {u : Vertex}

/-- What does not grow keeps the nodes above it from growing. -/
theorem refuses_under (htrim : (T.under bs).Trim) (hT : T.node.meets nbrs = true)
    (hothers : ∀ b ∈ bs, ∀ l ∈ b.others, l.2.node.meets nbrs = false)
    (hr : T.node.Refuses u nbrs ∨ ∃ b ∈ bs, holdsAll (b.owned nbrs) b.held = false) :
    (T.under bs).node.Refuses u nbrs := by
  induction bs generalizing T with
  | nil => exact hr.resolve_right (by simp)
  | cons b bs ih =>
      rw [List.forall_mem_cons] at hothers
      have hpoints : b.Points nbrs T := ⟨htrim _ (mem_parts_under _ bs), hT, hothers.1⟩
      refine ih htrim (meets_fill b hT) hothers.2 ?_
      rcases hr with hr | ⟨c, hc, hcr⟩
      · exact Or.inl (hpoints.refuses hr)
      · rcases List.mem_cons.1 hc with rfl | hc
        · exact Or.inl (hpoints.refuses_of_not_holds hcr)
        · exact Or.inr ⟨c, hc, hcr⟩

/-- All neighbours lie along one way, or the plan does not grow. -/
theorem passes_or_refuses (p : Pass) (u : Vertex) (htrim : T.Trim) (hT : T.node.meets p.nbrs = true) :
    (∃ bs U, T = under U bs ∧ Work.Passes p U bs) ∨ T.node.Refuses u p.nbrs := by
  induction T using Plan.induction with
  | step T ih =>
      by_cases hsome : ∃ l ∈ T.limbs, l.2.node.meets p.nbrs = true
      · obtain ⟨l, hl, hm⟩ := hsome
        obtain ⟨b, rfl, -⟩ := exists_fill hl
        obtain ⟨hvis, hlimbs⟩ := trim_iff.1 htrim
        by_cases hothers : ∃ k ∈ b.others, k.2.node.meets p.nbrs = true
        · exact Or.inr (Bough.refuses_of_several hvis hm hothers)
        · push Not at hothers
          simp only [ne_eq, Bool.not_eq_true] at hothers
          rcases ih l hl (hlimbs l hl) hm with ⟨cs, U, hU, hpass⟩ | hrefuses
          · refine Or.inl ⟨cs ++ [b], U, by rw [under_append, ← hU]; rfl, hpass.focus, hpass.limbs, ?_⟩
            rw [List.forall_mem_append, List.forall_mem_singleton]
            exact ⟨hpass.others, hothers⟩
          · exact Or.inr (Bough.Points.refuses ⟨hvis, hm, hothers⟩ hrefuses)
      · push Not at hsome
        simp only [ne_eq, Bool.not_eq_true] at hsome
        exact Or.inl ⟨[], T, rfl, hT, hsome, by simp⟩

end Plan

namespace Work

variable {w : Work} {S : Set Vertex} {W T : Plan} {bs : List Bough} {p : Pass} {u : Vertex}

/-- Without a path there is no room. -/
theorem Draws.refuses_of_path? (h : w.Draws S W) (htrim : W.Trim) (hr : p.Reads W)
    (hW : W.node.meets p.nbrs = true) (hpath : w.path? p = .ok none) : W.node.Refuses u p.nbrs := by
  rcases Plan.passes_or_refuses p u htrim hW with ⟨bs, T, rfl, hpass⟩ | hrefuses
  · exact absurd hpath (h.path?_ne_none hr hpass)
  · exact hrefuses

/-- Along a path that is not accepted there is no room. -/
theorem Passes.refuses_of_pathHolds (h : Passes p T bs) (hdraws : w.Draws S (T.under bs))
    (htrim : (T.under bs).Trim) (hproper : (T.under bs).node.Proper) (hr : p.Reads (T.under bs))
    (hholds : w.pathHolds p (Ctx.steps (ctx bs) T.id) = .ok false) :
    (T.under bs).node.Refuses u p.nbrs := by
  have hall := Except.ok.inj ((hdraws.pathHolds_eq hproper hr).symm.trans hholds)
  refine Plan.refuses_under htrim h.focus h.others (Or.inr ?_)
  simpa using hall

end Work

end CliquePath
