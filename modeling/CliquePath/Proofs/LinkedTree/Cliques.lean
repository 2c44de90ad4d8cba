import CliquePath.Proofs.LinkedTree.Mirroring
import CliquePath.Proofs.LinkedTree.Numbering

set_option autoImplicit false

/-!
# The cliques of a linked tree

This module shows that a linked tree lists the cliques of the clique tree for which it stands. The way
from a leaf to the root leads through the boughs above the leaf, and what their cells hold is what the
clique tree collects on its way down.
-/

namespace CliquePath

open Plan (ctx)

/-- Lists that correspond, put together from lists that do. -/
theorem forall₂_flatMap {α β γ : Type} {R : β → γ → Prop} {f : α → List β} {g : α → List γ} {xs : List α}
    (h : ∀ x ∈ xs, List.Forall₂ R (f x) (g x)) : List.Forall₂ R (xs.flatMap f) (xs.flatMap g) := by
  induction xs with
  | nil => exact .nil
  | cons x rest ih =>
      rw [List.forall_mem_cons] at h
      exact List.rel_append h.1 (ih h.2)

/-- What is computed for every entry of a list. -/
theorem eq_of_mapM {α β : Type} {f : α → Except TreeFault β} {xs : List α} {ys zs : List β}
    (h : xs.mapM f = .ok ys) (hf : List.Forall₂ (fun x z => ∀ y, f x = .ok y → y = z) xs zs) : ys = zs := by
  induction hf generalizing ys with
  | nil => exact (Except.ok.inj h).symm
  | cons hx _ ih =>
      rw [List.mapM_cons] at h
      obtain ⟨y, hy, h⟩ := Arena.exists_of_bind h
      obtain ⟨rest, hrest, h⟩ := Arena.exists_of_bind h
      cases h
      rw [hx y hy, ih hrest]

/-- A bundle has the cliques of the P-node that it stands for. -/
theorem Node.cliques_bundle (above held : List Vertex) (children : List Node) :
    (bundle held children).cliques above = children.flatMap fun c => c.cliques (held ++ above) := by
  unfold bundle
  split
  next child => simp
  next => exact cliques_pnode above held children

namespace Work

variable {w : Work} {S : Set Vertex} {T : Plan} {bs : List Bough} {fuel : Nat} {held : List Vertex}

/-- What the cells on the way from a node to the root hold. -/
theorem Draws.heldAbove_eq (h : w.Draws S (T.under bs)) (h' : w.arena.heldAbove fuel T.id = .ok held) :
    ∃ c, w.arena.HasCell T.id c ∧ held = c.held ++ bs.flatMap Bough.held := by
  -- The vertices are collected from the node upwards; below a section, the walk takes two steps.
  induction bs generalizing T fuel held with
  | nil =>
      obtain ⟨c, hc, hparent⟩ := h.hasCell_focus
      cases fuel with
      | zero => cases h'
      | succ fuel =>
          simp only [Arena.heldAbove, hc.1, ok_bind, hparent] at h'
          exact ⟨c, hc, by simpa using (Except.ok.inj h').symm⟩
  | cons b bs ih =>
      obtain ⟨c, hc, hparent⟩ := h.hasCell_focus
      cases fuel with
      | zero => cases h'
      | succ fuel =>
          simp only [Arena.heldAbove, hc.1, ok_bind, hparent] at h'
          cases b with
          | branch x held' before after =>
              obtain ⟨above, habove, h'⟩ := Arena.exists_of_bind h'
              cases h'
              obtain ⟨d, hd, rfl⟩ := ih (T := .pnode x held' (before ++ T :: after)) h habove
              have hx := Draws.hasCell_own (T := .pnode x held' (before ++ T :: after)) h
                (Cells.mem_one.2 rfl)
              exact ⟨c, hc, by rw [hd.unique hx]; rfl⟩
          | inRow q flipped xs key s held' ys =>
              obtain ⟨above, habove, h'⟩ := Arena.exists_of_bind h'
              cases h'
              obtain ⟨left, right, rank, hs⟩ := Draws.hasCell_part (s := ⟨s, held', T⟩) h
                (by simp [Row.toList])
              cases fuel with
              | zero => cases habove
              | succ fuel =>
                  simp only [Arena.heldAbove, Bough.frame, Frame.holder, hs.1, ok_bind] at habove
                  obtain ⟨top, htop, habove⟩ := Arena.exists_of_bind habove
                  cases habove
                  obtain ⟨d, hd, rfl⟩ := ih (T := (Bough.inRow q flipped xs key s held' ys).fill T) h htop
                  have hq := Draws.hasCell_own (T := (Bough.inRow q flipped xs key s held' ys).fill T) h
                    Row.row_mem_cellsAt
                  -- The cell of a row holds nothing itself.
                  rw [hd.unique hq]
                  exact ⟨c, hc, by cases flipped <;> rfl⟩

/-- The cliques of a plan are those of its leaves. -/
theorem Draws.cliques_leaves (h : w.Draws S (T.under bs)) (fuel : Nat) : List.Forall₂
    (fun leaf K => ∀ held, w.arena.heldAbove fuel leaf = .ok held → held.mergeSort = K)
    T.leaves (T.node.cliques (bs.flatMap Bough.held)) := by
  -- What stands above is collected on the way down, as the boughs of the node in focus.
  induction T using Plan.induction generalizing bs with
  | step T ih =>
      cases T with
      | leaf x held =>
          rw [Plan.leaves_leaf, Plan.node_leaf, Node.cliques_leaf]
          refine .cons (fun all hall => ?_) .nil
          obtain ⟨c, hc, rfl⟩ := h.heldAbove_eq hall
          rw [hc.unique (h.hasCell_own (Cells.mem_one.2 rfl))]
          rfl
      | pnode x held children =>
          rw [Plan.leaves_eq, Plan.node_pnode, Node.cliques_bundle, List.flatMap_map, Plan.limbLeaves,
            Plan.limbs, List.flatMap_map]
          refine forall₂_flatMap fun c hc => ?_
          obtain ⟨before, after, rfl⟩ := List.append_of_mem hc
          have hfill : w.Draws S (c.under (.branch x held before after :: bs)) := h
          exact ih (x, c) (List.mem_map_of_mem hc) hfill
      | qnode q row =>
          rw [Plan.leaves_eq, Plan.node_qnode, Node.cliques_qnode, Row.toList_map, List.flatMap_map,
            Plan.limbLeaves, Plan.limbs, Plan.sons, List.flatMap_map]
          refine forall₂_flatMap fun s hs => ?_
          obtain ⟨xs, key, ys, hfill⟩ := Plan.exists_fill_part q hs
          rw [hfill] at h
          have hson : w.Draws S (s.son.under (.inRow q row.flipped xs key s.id s.held ys :: bs)) := h
          exact ih (s.id, s.son) (List.mem_map_of_mem hs) hson

end Work

namespace LinkedTree

variable {t : LinkedTree} {ct : CliqueTree} {S : Set Vertex}

/-- A linked tree lists the cliques of the clique tree for which it stands. -/
theorem Mirrors.cliques_eq (h : t.Mirrors ct) (ht : t.Sound S) : t.cliques = .ok ct.cliques := by
  obtain ⟨cliques, hcliques⟩ := ht.cliques_ok
  rw [hcliques]
  congr 1
  obtain ⟨l, hl, hmap⟩ := Arena.exists_of_bind hcliques
  rw [CliqueTree.cliques]
  rw [Mirrors] at h
  generalize ct.root = root at h
  cases h with
  | empty sound hroot live =>
      rw [Arena.layout, hroot] at hl
      cases hl
      exact (Except.ok.inj hmap).symm
  | plan draws trim nonempty =>
      obtain ⟨hleaves, -⟩ := draws.layout hl
      rw [hleaves] at hmap
      have hcorrespond := @Work.Draws.cliques_leaves _ _ _ [] draws (t.arena.cells.size + 1)
      refine eq_of_mapM hmap (List.Forall₂.imp (fun leaf K hK y hy => ?_) hcorrespond)
      obtain ⟨held, hheld, hy⟩ := Arena.exists_of_bind hy
      exact (Except.ok.inj hy).symm.trans (hK held hheld)

end LinkedTree

end CliquePath
