import CliquePath.Proofs.LinkedTree.Settling
import CliquePath.Proofs.LinkedTree.Simplifying

set_option autoImplicit false

/-!
# Trimming a plan

This module shows what simplifying does to a plan that shows a node in normal form. Of the P-nodes
that are noted, only those that do not show are taken out: each of them is replaced by its only child,
a Q-node. No P-node has to be merged into another one. The plan that results is trim, and it shows
the same node.
-/

namespace CliquePath

open Cells (one)
open Plan (ctx)

namespace Plan

variable {T U : Plan} {b : Bough} {bs : List Bough} {p : NodeId} {parent : Option NodeId} {d : Cell}
variable {held : List Vertex} {children : List Plan} {ids : List NodeId}

/-- The cell of a P-node belongs to a P-node of the plan. -/
theorem exists_pnode (h : (p, d) ∈ T.cells none) (hd : d.kind.isP = true) :
    ∃ children, pnode p d.held children ∈ T.parts := by
  obtain ⟨cs, U, rfl, hown⟩ := @exists_own _ _ _ [] h
  cases stores_of_own hown with
  | leaf x held => cases hd
  | pnode x held children => exact ⟨children, mem_parts_under _ cs⟩
  | qnode q row first last flipped => cases hd
  | part q row s hs left right rank => cases hd

/-- What a plan shows depends on what its parts show. -/
theorem node_under_congr (h : T.node = U.node) : (T.under bs).node = (U.under bs).node := by
  induction bs generalizing T U with
  | nil => exact h
  | cons b bs ih =>
      refine ih ?_
      cases b with
      | branch id held before after => simp [Bough.fill, h]
      | inRow q flipped xs key id held ys => rw [Bough.node_inRow, Bough.node_inRow, h]

/-- A note of a place is of no use if no P-node there has a Q-node for its only child. -/
theorem Slack.forget (h : T.Slack (p :: ids))
    (hp : ∀ V ∈ T.parts, V.id = p → ∀ id q row, V ≠ .pnode id [] [.qnode q row]) : T.Slack ids := by
  intro V hV
  rcases h V hV with hvis | ⟨hmem, id, q, row, hform⟩
  · exact Or.inl hvis
  · refine Or.inr ⟨(List.mem_cons.1 hmem).resolve_left fun hid => ?_, id, q, row, hform⟩
    exact hp V hV hid id q row hform

/-- A plan stays slack around a part that is replaced. Where the part was a Q-node, a Q-node has to
replace it. -/
theorem Slack.refill (h : (T.under bs).Slack ids) (hU : U.Slack ids)
    (hrow : ∀ q row, T = qnode q row → ∃ q row, U = qnode q row) : (U.under bs).Slack ids := by
  induction bs generalizing T U with
  | nil => exact hU
  | cons b bs ih =>
      have hfill : (b.fill T).Slack ids := fun V hV => h V (mem_parts_trans hV (mem_parts_under _ bs))
      refine ih (T := b.fill T) h (fun V hV => ?_) fun q row heq => ?_
      · rcases Bough.mem_parts_fill.1 hV with rfl | hV | ⟨l, hl, hV⟩
        · rcases hfill _ (b.fill T).self_mem_parts with hvis | ⟨hid, id, q, row, heq⟩
          · exact Or.inl (visible_fill b T U hvis)
          · -- The only child was a Q-node, so it is one again.
            cases b with
            | branch id' held before after =>
                rw [Bough.fill, pnode.injEq] at heq
                obtain ⟨rfl, rfl, hone⟩ := heq
                rcases List.append_eq_singleton_iff.1 hone with ⟨rfl, hT⟩ | ⟨-, hT⟩
                · rw [List.cons.injEq] at hT
                  obtain ⟨rfl, rfl⟩ := hT
                  obtain ⟨q', row', rfl⟩ := hrow q row rfl
                  exact Or.inr ⟨hid, id', q', row', rfl⟩
                · cases hT
            | inRow => cases heq
        · exact hU V hV
        · exact hfill V (Bough.mem_parts_fill.2 (Or.inr (Or.inr ⟨l, hl, hV⟩)))
      · cases b with
        | branch => cases heq
        | inRow => exact ⟨_, _, rfl⟩

end Plan

namespace Work

variable {w : Work} {S : Set Vertex} {W C : Plan} {bs : List Bough} {p : NodeId} {work : List NodeId}

/-- A P-node that holds nothing is replaced by its only child. -/
theorem Draws.skip (h : w.Draws S ((Plan.pnode p [] [C]).under bs)) :
    ∃ a₁ a₂, w.arena.replace p C.id = .ok a₁ ∧ a₁.discard p = .ok a₂ ∧
      Draws { w with arena := a₂ } S (C.under bs) ∧ a₂.life = w.arena.life.setIfInBounds p false := by
  obtain ⟨d, n, hkind, hcells⟩ := C.cells_top
  have hM : ((Plan.pnode p [] [C]).under bs).cells none = one p (pCell (ctx bs).parent [] [C.id]) +
      (one C.id { d with parent := some p } + (n + (ctx bs).cells p)) := by
    rw [Plan.cells_under, Plan.cells_pnode, List.map_singleton, List.map_singleton, Plan.limbCells_cons,
      Plan.limbCells_nil, add_zero, hcells, add_assoc, add_assoc]
    rfl
  have o := h.owns
  rw [Plan.id_under] at o
  obtain ⟨a₁, h₁, o₁⟩ := o.replace h.formed.ok hM rfl hkind
  obtain ⟨a₂, h₂, o₂⟩ := o₁.discard rfl
  have hlife : a₂.life = w.arena.life.setIfInBounds p false :=
    Arena.Lives.discard (Arena.Lives.replace rfl _ _ _ h₁) _ h₂
  have hM' : (C.under bs).cells none =
      one C.id { d with parent := (ctx bs).parent } + (n + (ctx bs).cells C.id) := by
    rw [Plan.cells_under, hcells, add_assoc]
  refine ⟨a₁, a₂, h₁, h₂, ⟨?_, ?_, ?_, ?_, ?_⟩, hlife⟩
  · rw [Plan.id_under, hM']
    exact o₂
  · -- one cell fewer is alive, and one cell fewer is in the plan
    have hcount := Plan.count_under (.pnode p [] [C]) C bs
    have hlive := Arena.count_discard (@Draws.life_of_mem _ _ _ p h (by rw [hM]; simp [one]))
    rw [← hlife, ← Arena.live, ← Arena.live, h.live] at hlive
    rw [Plan.count_pnode, List.map_singleton, List.sum_singleton] at hcount
    dsimp only
    omega
  · refine h.agree.congr_holds fun v r => ?_
    rw [hM, hM']
    simp only [Cells.holds_add, Cells.holds_one, held_pCell, List.not_mem_nil, false_and, false_or,
      Ctx.holds_cells (ctx bs) C.id p, Cell.row?, hkind, Bool.false_eq_true, if_false]
  · exact h.runs.refill ((Slots.Runs.iff_limbs.1 h.runs.focus).2 (p, C) (by simp [Plan.limbs]))
      fun _ _ _ => rfl
  · exact h.formed.refill (h.formed.focus.limb (l := (p, C)) (by simp [Plan.limbs]))

/-- The cell of a P-node in focus. -/
theorem Draws.cell_pnode {held : List Vertex} {children : List Plan}
    (h : w.Draws S ((Plan.pnode p held children).under bs)) :
    w.arena.cell p = .ok (pCell (ctx bs).parent held (children.map Plan.id)) := by
  refine h.owns.cell_of_mem ?_
  rw [Plan.cells_under, Plan.cells_pnode]
  simp

/-- Notes of places that are dead are of no use. -/
theorem Draws.slack_of_dead (h : w.Draws S W) (hslack : W.Slack (p :: work))
    (hp : w.arena.life[p]? ≠ some true) : W.Slack work := by
  refine hslack.forget fun V hV hid => absurd ?_ hp
  obtain ⟨bs, rfl⟩ := Plan.exists_under hV
  refine h.life_of_mem ?_
  rw [Plan.cells_under, Multiset.map_add, ← hid]
  exact Multiset.mem_add.2 (Or.inl (Plan.id_mem_cells _ _))

/-- A P-node that holds nothing and has several children is not the child of a P-node. -/
theorem Draws.not_under {children : List Plan} (h : w.Draws S ((Plan.pnode p [] children).under bs))
    (hslack : ((Plan.pnode p [] children).under bs).Slack work)
    (hproper : ((Plan.pnode p [] children).under bs).node.Proper) (hlen : children.length ≠ 1) :
    ∀ id, (ctx bs).parent = some id → w.arena.isP id = .ok false := by
  intro id hid
  cases bs with
  | nil => cases hid
  | cons b bs =>
      cases b with
      | inRow q flipped xs key s held ys =>
          obtain rfl : s = id := Option.some.inj hid
          obtain ⟨d, hd, -, hslice, -⟩ := @Frame.slice_mem q flipped (xs.map (Row.entry Part.top))
            (ys.map (Row.entry Part.top)) key s held (Plan.limbCells
              (Bough.inRow q flipped xs key s held ys).others) (ctx bs).parent p
          have hmem : (s, d) ∈ ((Plan.pnode p [] children).under
              (.inRow q flipped xs key s held ys :: bs)).cells none := by
            rw [Plan.cells_under]
            exact Multiset.mem_add.2 (Or.inr (Multiset.mem_add.2 (Or.inl hd)))
          have hcell := h.owns.cell_of_mem hmem
          rw [Arena.isP, hcell, ok_bind, pure_eq_ok]
          cases hk : d.kind <;> simp [hk, Kind.isSlice, Kind.isP] at hslice ⊢
      | branch x held before after =>
          -- The child of a P-node holds a vertex or is a Q-node.
          have hvis : ((Bough.branch x held before after).fill (.pnode p [] children)).Visible := by
            refine (hslack _ (Plan.mem_parts_under _ bs)).resolve_right ?_
            rintro ⟨-, id, q, row, heq⟩
            rw [Bough.fill, Plan.pnode.injEq] at heq
            have hmem : Plan.pnode p [] children ∈ before ++ .pnode p [] children :: after := by simp
            rw [heq.2.2, List.mem_singleton] at hmem
            cases hmem
          have hfirm := Bough.firm_child hvis (@Plan.proper_focus _ bs hproper)
          rw [Plan.node_of_visible (Or.inr hlen)] at hfirm
          exact absurd rfl hfirm

/-- The P-node of a cell in use that can be simplified. -/
theorem Draws.exists_simple {c : Cell} (h : w.Draws S W) (hc : w.arena.cell p = .ok c)
    (hskip : (!c.alive || !c.held.isEmpty || !c.kind.isP) = false) :
    ∃ children bs, W = (Plan.pnode p [] children).under bs ∧
      c = pCell (ctx bs).parent [] (children.map Plan.id) := by
  simp only [Bool.or_eq_false_iff, Bool.not_eq_false', List.isEmpty_iff] at hskip
  obtain ⟨⟨halive, hheld⟩, hkind⟩ := hskip
  have hlife : w.arena.life[p]? = some true := by
    rw [Arena.life_of_cell hc, halive]
  -- a live cell is one of the plan
  obtain ⟨⟨_, d⟩, hd, rfl⟩ := Multiset.mem_map.1 (h.mem_of_life hlife)
  obtain rfl : c = d := Except.ok.inj (hc.symm.trans (h.owns.cell_of_mem hd))
  obtain ⟨children, hmem⟩ := Plan.exists_pnode hd hkind
  rw [hheld] at hmem
  obtain ⟨bs, rfl⟩ := Plan.exists_under hmem
  exact ⟨children, bs, rfl, Except.ok.inj (hc.symm.trans h.cell_pnode)⟩

/-- A place that is passed over is not that of a P-node that has to go. -/
theorem Draws.slack_of_passed {c : Cell} (h : w.Draws S W) (hslack : W.Slack (p :: work))
    (hc : w.arena.cell p = .ok c) (hskip : (!c.alive || !c.held.isEmpty || !c.kind.isP) = true) :
    W.Slack work := by
  refine hslack.forget ?_
  rintro V hV hid id q row rfl
  obtain ⟨bs, rfl⟩ := Plan.exists_under hV
  have hcell := h.cell_pnode
  rw [← Plan.id_pnode id [] [.qnode q row], hid, hc] at hcell
  rw [Except.ok.inj hcell] at hskip
  simp [pCell, Kind.isP] at hskip

/-- A P-node whose only child is a Q-node is taken out. The plan shows the same. -/
theorem Draws.skip_row {q : NodeId} {row : Row (Part Plan)}
    (h : w.Draws S ((Plan.pnode p [] [.qnode q row]).under bs))
    (hslack : ((Plan.pnode p [] [.qnode q row]).under bs).Slack (p :: work)) :
    ∃ a₁ a₂, w.arena.replace p q = .ok a₁ ∧ a₁.discard p = .ok a₂ ∧ a₂.isP q = .ok false ∧
      Draws { w with arena := a₂ } S ((Plan.qnode q row).under bs) ∧
      ((Plan.qnode q row).under bs).Slack work ∧ a₂.cells.size = w.arena.cells.size ∧
      ((Plan.qnode q row).under bs).node = ((Plan.pnode p [] [.qnode q row]).under bs).node := by
  obtain ⟨a₁, a₂, h₁, h₂, hdraws, hlife⟩ := h.skip
  -- the Q-node needs no further visit
  have hrow : a₂.isP q = .ok false := by
    have hcell := hdraws.owns.cell_of_mem (Arena.Owns.mem_row (Plan.cells_under_row q row bs))
    obtain ⟨first, last, flipped, hkind⟩ := kind_rowCell (ctx bs).parent
      (row.map Part.top).flipped (row.map Part.top).firstPart (row.map Part.top).lastPart
    dsimp only at hcell
    rw [Arena.isP, hcell, ok_bind, hkind]
    rfl
  have hslack' : ((Plan.qnode q row).under bs).Slack (p :: work) := by
    refine hslack.refill ?_ fun _ _ heq => by cases heq
    exact fun V hV => hslack V (Plan.mem_parts_trans (Plan.mem_parts_iff.2
      (Or.inr ⟨(p, .qnode q row), by simp [Plan.limbs], hV⟩)) (Plan.mem_parts_under _ bs))
  have hsize : a₂.cells.size = w.arena.cells.size := by
    rw [Arena.size_of_life hlife, Array.size_setIfInBounds, Arena.size_life]
  exact ⟨a₁, a₂, h₁, h₂, hrow, hdraws,
    hdraws.slack_of_dead hslack' (by simp [hlife, Array.getElem?_setIfInBounds]), hsize,
    Plan.node_under_congr (by simp [Node.bundle])⟩

/-- Simplifying trims a slack plan. -/
theorem Draws.simplify (h : w.Draws S W) (hslack : W.Slack work) (hproper : W.node.Proper)
    (hnoted : ∀ t ∈ work, t < w.arena.cells.size) {fuel : Nat} (hfuel : work.length ≤ fuel) :
    ∃ a W', w.arena.simplify fuel work = .ok a ∧ Draws { w with arena := a } S W' ∧ W'.Trim ∧
      W'.node = W.node := by
  induction work generalizing w W fuel with
  | nil =>
      refine ⟨w.arena, W, by cases fuel <;> rfl, h, fun V hV => ?_, rfl⟩
      exact (hslack V hV).resolve_right fun hnote => by simp at hnote
  | cons p work ih =>
      obtain ⟨fuel, rfl⟩ : ∃ n, fuel = n + 1 := ⟨fuel - 1, by simp at hfuel; omega⟩
      rw [List.length_cons, Nat.add_le_add_iff_right] at hfuel
      rw [List.forall_mem_cons] at hnoted
      obtain ⟨c, hc⟩ : ∃ c, w.arena.cell p = .ok c := by
        rw [Arena.cell, Array.getElem?_eq_getElem hnoted.1]
        exact ⟨_, rfl⟩
      rw [Arena.simplify, hc, ok_bind]
      by_cases hskip : (!c.alive || !c.held.isEmpty || !c.kind.isP) = true
      · rw [if_pos hskip]
        exact ih h (h.slack_of_passed hslack hc hskip) hproper hnoted.2 hfuel
      · rw [if_neg hskip]
        rw [Bool.not_eq_true] at hskip
        obtain ⟨children, bs, rfl, rfl⟩ := h.exists_simple hc hskip
        simp only [Arena.children, hc, ok_bind, pCell, pure_eq_ok]
        have hstable := (Plan.formed_iff.1 h.formed.focus).1
        rcases children with _ | ⟨C, _ | ⟨D, rest⟩⟩
        · exact absurd rfl hstable
        · -- The node does not show, so its only child is a Q-node.
          obtain ⟨-, id, q, row, heq⟩ := (hslack _ (Plan.mem_parts_under _ bs)).resolve_left
            (by simp [Plan.Visible])
          obtain rfl : C = .qnode q row := by
            rw [Plan.pnode.injEq] at heq
            exact List.singleton_inj.1 heq.2.2
          obtain ⟨a₁, a₂, h₁, h₂, hrow, hdraws, hslack', hsize, hnode⟩ := h.skip_row hslack
          obtain ⟨a, W', hsimp, hdraws', htrim, hnode'⟩ := ih hdraws hslack' (hnode ▸ hproper)
            (hsize ▸ hnoted.2) hfuel
          refine ⟨a, W', ?_, hdraws', htrim, hnode'.trans hnode⟩
          simp only [List.map_cons, List.map_nil, Plan.id_qnode]
          simp only [h₁, h₂, hrow, ok_bind, Bool.false_eq_true, if_false, hsimp]
        · have hunder := h.not_under hslack hproper (by simp)
          have hslack' : ((Plan.pnode p [] (C :: D :: rest)).under bs).Slack work := by
            -- The node itself shows.
            refine hslack.forget ?_
            rintro V hV hid id q row rfl
            have heq := Plan.part_eq h.owns.nodup hV (Plan.mem_parts_under _ bs) hid
            simp at heq
          obtain ⟨a, W', hsimp, hdraws, htrim, hnode⟩ := ih h hslack' hproper hnoted.2 hfuel
          refine ⟨a, W', ?_, hdraws, htrim, hnode⟩
          cases hp : (ctx bs).parent with
          | none => simp [hsimp]
          | some id => simp [hunder id hp, hsimp, ok_bind]

end Work

end CliquePath
