import CliquePath.Proofs.LinkedTree.Climbing
import CliquePath.Proofs.LinkedTree.Placing

set_option autoImplicit false

/-!
# The path that the flags show

This module shows that the flags lead from the root down a path of the tree: whatever a flagged node
was entered from is one of its children, so following the flags passes through frames that lie on top
of each other. The lower part of the path passes through the lowest of them.
-/

namespace CliquePath

open Cells (one)

namespace Work

variable {w : Work} {r : Option NodeId} {S : Set Vertex} {M m n : Cells} {flags : Flags}
variable {root x y s q : NodeId} {c low : Ctx} {d : Cell} {R : Row (Part NodeId)}
variable {parent : Option NodeId} {p : Pass}

/-! ## What stands below a node -/

/-- What a cell looks like to which another one refers as its parent. -/
theorem Whole.below (h : w.Whole S root M) {e : Cell} (hy : (y, d) ∈ M) (hx : d.parent = some x)
    (he : (x, e) ∈ M) :
    (∃ before after, e.kind = .pnode (before ++ y :: after)) ∨
      (∃ left right rank, e.kind = .slice y left right rank) ∨
      (∃ first last flipped, e.kind = .qnode first last flipped) ∧ M.HasSlice y x := by
  cases hd : d.kind.isSlice with
  | true =>
      have hs : M.HasSlice y x := ⟨d, hy, by simp [Cell.row?, hd, hx]⟩
      obtain ⟨R, parent, n, xs, ys, e', hM, -, -⟩ := h.trees.row_of_slice hs
      rw [h.owns.eq_of_mem he (Arena.Owns.mem_row hM)]
      refine Or.inr (Or.inr ⟨?_, hs⟩)
      cases hf : R.flipped <;> simp [rowCell]
  | false =>
      obtain ⟨c, m, hc, hm, hM, -⟩ := h.locate hy hd
      obtain ⟨d', n, hd', -, hparent, -⟩ := hm.shape.reparent
      obtain rfl : d' = d := h.owns.eq_of_mem (by rw [hM, hd']; simp) hy
      rw [hparent] at hx
      cases c with
      | nil => cases hx
      | cons f c =>
          cases hx
          cases f with
          | branch id held before after rest =>
              have hcell : (id, pCell (Ctx.parent c) held (before ++ y :: after)) ∈ M := by
                simp [hM, Ctx.cells, Frame.cells]
              rw [h.owns.eq_of_mem he hcell]
              exact Or.inl ⟨before, after, rfl⟩
          | inRow q flipped xs key s held ys rest =>
              have hcell : (s, Loose.cell q flipped ⟨⟨s, held, y⟩, key, Entries.lastId xs none,
                  Entries.firstId ys none⟩) ∈ M := by
                rw [hM, Ctx.cells, Frame.cells, Row.cellsAt_part]
                simp
              rw [h.owns.eq_of_mem he hcell]
              refine Or.inr (Or.inl ?_)
              cases flipped <;> simp [Loose.cell]

/-- A section of a Q-node is one of its row. -/
theorem entry_of_slice (o : w.arena.Owns r M) (hM : M = R.cellsAt q parent + n) (hn : n.RowsInside)
    (hs : M.HasSlice s q) : ∃ xs e ys, R.keyed = xs ++ e :: ys ∧ e.2.id = s := by
  obtain ⟨d, hd, hrow⟩ := hs
  have hmem : s ∈ Entries.ids R.keyed := by
    rw [hM] at hd
    rcases Multiset.mem_add.1 hd with hd | hd
    · rcases Multiset.mem_add.1 hd with hd | hd
      · cases Cells.mem_one.1 hd
        cases hf : R.flipped <;> simp [rowCell, Cell.row?, Kind.isSlice, hf] at hrow
      · rw [Loose.cells_eq_coe, Multiset.mem_coe, List.mem_map] at hd
        obtain ⟨v, hv, heq⟩ := hd
        cases heq
        rw [← @Entries.map_id_linked R.keyed none none]
        exact List.mem_map_of_mem hv
    · -- what is beside the row has its own rows inside, so that it has no section of this one
      exact absurd (hn _ hd q hrow) (o.row_not_mem hM)
  obtain ⟨e, he, rfl⟩ := List.mem_map.1 hmem
  obtain ⟨xs, ys, hR⟩ := List.append_of_mem he
  exact ⟨xs, e, ys, hR, rfl⟩

/-! ## Following the flags -/

/-- The path leads down from the node below some frames through further ones to a node. -/
def Leads (M : Cells) (c : Ctx) (x : NodeId) (path : List Step) : Prop :=
  ∃ (low : Ctx) (y : NodeId) (m : Cells), path = low.steps y ∧ Ctx.Ok (low ++ c) ∧
    Trees {(Ctx.parent (low ++ c), y)} m ∧ M = m + Ctx.cells (low ++ c) y ∧
    Ctx.top (low ++ c) y = c.top x

/-- A path that starts below a frame goes through it. -/
theorem Leads.up {f : Frame} {path : List Step} (h : Leads M (f :: c) y path) :
    Leads M c f.node (f.step :: path) := by
  obtain ⟨low, z, m, rfl, hc, hm, hM, htop⟩ := h
  have hassoc : low ++ f :: c = low ++ [f] ++ c := by simp
  rw [hassoc] at hc hm hM htop
  exact ⟨low ++ [f], z, m, (Ctx.steps_concat low f z).symm, hc, hm, hM, htop⟩

/-- A flagged section was entered from the node below it. -/
theorem Whole.entered_son (h : w.Whole S root M) (hs : flags.Sound M none) {son : NodeId}
    {left right : Option NodeId} {rank : Int} (hd : (s, d) ∈ M)
    (hkind : d.kind = .slice son left right rank) (hflagged : flags.Flagged s) :
    flags.lookup s = some (some son) ∧ flags.Flagged son := by
  obtain ⟨child?, hlookup⟩ := hflagged
  cases child? with
  | none =>
      obtain ⟨d', hd', hnode⟩ := hs.started s hlookup
      rw [h.owns.eq_of_mem hd' hd, hkind] at hnode
      cases hnode
  | some child =>
      obtain ⟨⟨e, he, hparent⟩, hbelow⟩ := hs.entered s child hlookup
      obtain rfl : son = child := by
        simpa [hkind] using h.below he hparent hd
      exact ⟨hlookup, hbelow⟩

/-- Following the flags from a flagged node leads down a path. -/
theorem Whole.follow_ok (h : w.Whole S root M) (hs : flags.Sound M none) (hc : c.Ok)
    (hm : Trees {(c.parent, x)} m) (hM : M = m + c.cells x) (hx : flags.Flagged x) {fuel : Nat}
    (hfuel : m.card < fuel) :
    ∃ path, w.follow flags fuel x = .ok path ∧ Leads M c x path := by
  induction hn : m.card using Nat.strong_induction_on generalizing c x m fuel with
  | _ k ih =>
      subst hn
      obtain ⟨fuel, rfl⟩ : ∃ k, fuel = k + 1 := ⟨fuel - 1, by omega⟩
      obtain ⟨child?, hlookup⟩ := hx
      obtain ⟨d, n', hd, hnode, -⟩ := hm.shape.reparent
      have hxM : (x, d) ∈ M := by simp [hM, hd]
      cases child? with
      | none =>
          refine ⟨[⟨x, none⟩], ?_, [], x, m, rfl, hc, hm, hM, rfl⟩
          simp only [follow, hlookup, h.cell_ok hxM, ok_bind, pure_eq_ok]
          cases hk : d.kind <;> simp [hk, Kind.isSlice] at hnode ⊢
      | some child =>
          obtain ⟨⟨d', hchild, hparent⟩, hflagged⟩ := hs.entered x child hlookup
          have hbelow := h.below hchild hparent hxM
          have hshape := hm.shape
          cases hshape with
          | leaf held =>
              obtain rfl := h.owns.eq_of_mem hxM (d := leafCell c.parent held) (by simp [hM])
              simp [leafCell] at hbelow
          | @pnode held children n hne rest =>
              obtain rfl := h.owns.eq_of_mem hxM (d := pCell c.parent held children) (by simp [hM])
              obtain ⟨before, after, rfl⟩ : ∃ before after, children = before ++ child :: after := by
                simpa [pCell] using hbelow
              rw [childLinks_split] at rest
              obtain ⟨m₁, m₂, rfl, hm₁, hm₂⟩ := rest.split
              have hlow : m₁.card < fuel := by
                simp [one] at hfuel
                omega
              obtain ⟨path, hpath, hleads⟩ := ih m₁.card (by simp [one])
                (c := .branch x held before after m₂ :: c) (List.forall_mem_cons.2 ⟨hm₂, hc⟩) hm₁
                (by rw [hM, Ctx.cells, Frame.cells, Frame.node]; abel) hflagged hlow rfl
              refine ⟨_, ?_, hleads.up⟩
              simp only [follow, hlookup, h.cell_ok hxM, ok_bind, pCell, hpath, pure_eq_ok, Frame.step]
          | @qnode R n hne hasc rest =>
              have hM' : M = R.cellsAt x c.parent + (n + c.cells x) := by rw [hM, add_assoc]
              obtain rfl := h.owns.eq_of_mem hxM (Arena.Owns.mem_row hM')
              have hslice : M.HasSlice child x := by
                cases hf : R.flipped <;> simpa [rowCell, hf] using hbelow
              obtain ⟨xs, e, ys, hR, rfl⟩ :=
                entry_of_slice h.owns hM' (Stands.rowsInside rest hc) hslice
              obtain ⟨left, right, rank, hkind⟩ := Loose.kind_cell x R.flipped
                ⟨e.2, e.1, Entries.lastId xs none, Entries.firstId ys none⟩
              have hds := Arena.Owns.mem_slice (v := ⟨e.2, e.1, Entries.lastId xs none,
                Entries.firstId ys none⟩) hM' (by simp [hR, Entries.linked_append, Entries.linked])
              obtain ⟨hgrand, hzflagged⟩ :
                  flags.lookup e.2.id = some (some e.2.son) ∧ flags.Flagged e.2.son :=
                h.entered_son hs hds hkind hflagged
              rw [hR, sonLinks_split] at rest
              obtain ⟨m₁, m₂, rfl, hm₁, hm₂⟩ := rest.split
              have hkeys : (xs.map Prod.fst ++ e.1 :: ys.map Prod.fst).Pairwise (· < ·) := by
                rw [Row.Ascending, ← List.pairwise_map, hR] at hasc
                simpa using hasc
              obtain ⟨fuel, rfl⟩ : ∃ k, fuel = k + 1 :=
                ⟨fuel - 1, by simp [Row.cellsAt, one] at hfuel; omega⟩
              have hlow : m₁.card < fuel := by
                simp [Row.cellsAt, one, Loose.card_cells, Entries.length_linked, hR] at hfuel
                omega
              obtain ⟨path, hpath, hleads⟩ := ih m₁.card (by simp [Row.cellsAt, one]; omega)
                (c := .inRow x R.flipped xs e.1 e.2.id e.2.held ys m₂ :: c)
                (List.forall_mem_cons.2 ⟨⟨hm₂, hkeys⟩, hc⟩) hm₁
                (by rw [hM, Ctx.cells, Ctx.cells_inRow hR, Frame.node]; abel) hzflagged hlow rfl
              refine ⟨_, ?_, hleads.up⟩
              simp only [follow, hlookup, hgrand, h.cell_ok hxM, h.cell_ok hds, ok_bind, hkind, hpath,
                pure_eq_ok]
              cases hf : R.flipped <;> simp [rowCell, Frame.step]

/-! ## Owners -/

/-- A section belongs to a row. -/
theorem row_of_isSlice {L : Multiset Link} (h : Trees L M) {e : NodeId × Cell} (he : e ∈ M)
    (hs : e.2.kind.isSlice = true) : ∃ q, e.2.row? = some q := by
  induction h with
  | nil => simp at he
  | leaf parent id held _ ih =>
      rcases Multiset.mem_add.1 he with he | he
      · rw [Cells.mem_one.1 he] at hs
        cases hs
      · exact ih he
  | pnode parent id held hne _ ih =>
      rcases Multiset.mem_add.1 he with he | he
      · rw [Cells.mem_one.1 he] at hs
        cases hs
      · exact ih he
  | @qnode parent q R L m hne hasc _ ih =>
      rcases Multiset.mem_add.1 he with he | he
      · rcases Multiset.mem_add.1 he with he | he
        · rw [Cells.mem_one.1 he] at hs
          cases hf : R.flipped <;> simp [rowCell, Kind.isSlice, hf] at hs
        · rw [Loose.cells_eq_coe, Multiset.mem_coe, List.mem_map] at he
          obtain ⟨v, -, rfl⟩ := he
          exact ⟨q, Loose.row?_cell _ _ _⟩
      · exact ih he

/-- What holds a vertex, or the Q-node whose row does, is a node. -/
theorem Whole.hasNode (h : w.Whole S root M) {v : Vertex} {row? : Option NodeId}
    (hv : M.Holds v (s, row?)) : M.HasNode (row?.getD s) := by
  obtain ⟨d, hd, hheld, hrow⟩ := hv
  cases row? with
  | some q =>
      obtain ⟨R, parent, n, xs, ys, e, hM, -, -⟩ := h.trees.row_of_slice ⟨d, hd, hrow⟩
      refine ⟨_, Arena.Owns.mem_row hM, ?_⟩
      cases hf : R.flipped <;> rfl
  | none =>
      refine ⟨d, hd, ?_⟩
      -- a holder that is a section would name its row
      by_contra hs
      obtain ⟨q, hq⟩ := row_of_isSlice h.trees hd (by simpa using hs)
      rw [show d.row? = none from hrow] at hq
      cases hq

/-- A vertex of the tree has an owner. -/
theorem Whole.owner_ok (h : w.Whole S root M) {v : Vertex} (hv : v ∈ S) :
    ∃ id, w.owner v = .ok id ∧ ∃ s row?, M.Holds v (s, row?) ∧ row?.getD s = id := by
  have hfit := h.agree.fit v
  have hne := (h.agree.placed v).2 hv
  unfold owner
  -- the slot names the owner, or a section whose parent the owner is
  cases hslot : w.slots.get v with
  | absent => exact absurd hslot hne
  | node id =>
      rw [hslot] at hfit
      exact ⟨id, rfl, id, none, hfit.1, rfl⟩
  | span one other =>
      rw [hslot] at hfit
      obtain ⟨q, hone, -, -⟩ := hfit
      obtain ⟨d, hd, -, hrow⟩ := id hone
      have hparent : d.parent = some q := by
        unfold Cell.row? at hrow
        split at hrow
        · exact hrow
        · cases hrow
      exact ⟨q, by simp only [h.cell_ok hd, ok_bind, hparent, pure_eq_ok], one, some q, hone, rfl⟩

/-- The owners of the neighbours are found. -/
theorem Whole.pass_ok (h : w.Whole S root M) (u : Vertex) {nbrs : List Vertex}
    (hn : ∀ v ∈ nbrs, v ∈ S) :
    ∃ owners, w.pass u nbrs = .ok ⟨u, nbrs, owners⟩ ∧ owners.length = nbrs.length ∧
      Pass.Sound ⟨u, nbrs, owners⟩ M := by
  obtain ⟨owners, howners, hlen, hall⟩ := mapM_ok (fun v => do return (← w.owner v, v)) nbrs
    fun v hv => by
      obtain ⟨id, hid, -⟩ := h.owner_ok (hn v hv)
      exact ⟨(id, v), by simp only [hid, ok_bind, pure_eq_ok]⟩
  refine ⟨owners, ?_, hlen, fun e he => ?_⟩
  · simp only [pure_eq_ok] at howners
    simp only [pass, howners, ok_bind, pure_eq_ok]
  · obtain ⟨v, hv, heq⟩ := hall e he
    obtain ⟨id, hid, hholds⟩ := h.owner_ok (hn v hv)
    rw [hid] at heq
    cases heq
    exact hholds

/-! ## The path -/

/-- The search for the path ends with one from the root, or finds that there is none. -/
theorem Whole.path?_ok (h : w.Whole S root M) (hp : p.Sound M) (hne : p.owners ≠ []) :
    ∃ path?, w.path? p = .ok path? ∧ ∀ path ∈ path?, Leads M [] root path := by
  have hids : ∀ id ∈ (p.owners.map Prod.fst).eraseDups, M.HasNode id := by
    intro id hid
    obtain ⟨e, he, rfl⟩ := List.mem_map.1 (List.mem_eraseDups.1 hid)
    obtain ⟨s, row?, hholds, heq⟩ := hp e he
    exact heq ▸ h.hasNode hholds
  obtain ⟨out, hout, hall⟩ := h.climbAll_ok Flags.sound_nil hids
  cases out with
  | none => exact ⟨none, by simp only [Work.path?, hout, ok_bind, pure_eq_ok], by simp⟩
  | some flags =>
      obtain ⟨hsound, hflagged, -⟩ := hall flags rfl
      obtain ⟨e, rest, howners⟩ := List.exists_cons_of_ne_nil hne
      have hmem : e.1 ∈ (p.owners.map Prod.fst).eraseDups := by
        rw [List.mem_eraseDups, howners]
        exact List.mem_cons_self
      obtain ⟨d, hd, hnode⟩ := hids e.1 hmem
      obtain ⟨c, m, hc, hm, hM, htop⟩ := h.locate hd hnode
      -- a climb ends at the root, so that the walk down can begin there
      have hroot := root_flagged hsound hc hm hM (hflagged e.1 hmem)
      rw [htop] at hroot
      obtain ⟨path, hpath, hleads⟩ := h.follow_ok hsound (c := []) (m := M)
        (fun f hf => by cases hf) h.trees (by simp [Ctx.cells]) hroot
        (Nat.lt_succ_of_le h.owns.card_le)
      have hempty : path.isEmpty = false := by
        obtain ⟨low, y, m', rfl, -⟩ := hleads
        simp [Ctx.steps]
      refine ⟨some path, ?_, by simpa using hleads⟩
      simp only [Work.path?, hout, ok_bind, h.owns.root_eq, hpath, hempty, Bool.false_eq_true, if_false,
        pure_eq_ok]

end Work

/-- The cells of a frame are among those of the context. -/
theorem Ctx.frame_subset {c : Ctx} {f : Frame} (hf : f ∈ c) (x : NodeId) :
    ∃ parent y, f.cells parent y ⊆ c.cells x := by
  induction c generalizing x with
  | nil => cases hf
  | cons g c ih =>
      rcases List.mem_cons.1 hf with rfl | hf
      · exact ⟨Ctx.parent c, x, fun e he => Multiset.mem_add.2 (Or.inl he)⟩
      · obtain ⟨parent, y, hsub⟩ := ih hf g.node
        exact ⟨parent, y, fun e he => Multiset.mem_add.2 (Or.inr (hsub he))⟩

namespace Work

variable {w : Work} {S : Set Vertex} {M m : Cells} {root y : NodeId} {low c : Ctx} {p : Pass}
variable {f : Frame} {parent : Option NodeId}

/-- The section of a step belongs to the row of the step. -/
theorem hasSlice_step {x : NodeId} (hf : f.cells parent x ⊆ M) {s : NodeId}
    (hs : f.step.slice? = some s) : M.HasSlice s f.node := by
  cases f with
  | branch => cases hs
  | inRow q flipped xs key id held ys rest =>
      cases hs
      obtain ⟨d, hd, hparent, hslice⟩ :=
        @Frame.slice_mem q flipped xs ys key s held rest parent x
      exact ⟨d, hf hd, by simp [Cell.row?, hslice, hparent, Frame.node]⟩

/-- The neighbours that the Q-nodes of a path own can be tested. -/
theorem Whole.pathHolds_ok (h : w.Whole S root M) (p : Pass) {path : List Step}
    (hpath : ∀ step ∈ path, ∀ s, step.slice? = some s → ∃ q, M.HasSlice s q) :
    ∃ b, w.pathHolds p path = .ok b := by
  induction path with
  | nil => exact ⟨true, rfl⟩
  | cons step rest ih =>
      obtain ⟨b, hb⟩ := ih fun step hstep => hpath step (List.mem_cons_of_mem _ hstep)
      cases hs : step.slice? with
      | none => exact ⟨b, by simp only [pathHolds, hs, hb]⟩
      | some s =>
          obtain ⟨q, hq⟩ := hpath step List.mem_cons_self s hs
          obtain ⟨b', hb'⟩ := h.allSpan_ok hq (p.ownedBy step.node)
          cases b' with
          | true => exact ⟨b, by simp only [pathHolds, hs, hb', ok_bind, if_true, hb]⟩
          | false => exact ⟨false, by simp only [pathHolds, hs, hb', ok_bind]; rfl⟩

/-- A node of the path can be tested. -/
theorem Whole.isPartial_node (h : w.Whole S root M) (p : Pass) (hy : M.HasNode y) :
    ∃ b, w.isPartial p ⟨y, none⟩ = .ok b := by
  obtain ⟨d, hd, hnode⟩ := hy
  have hcell := h.cell_ok hd
  cases hk : d.kind with
  | slice => simp [hk, Kind.isSlice] at hnode
  | leaf => exact ⟨!isFull p.nbrs d.held, by simp only [isPartial, hcell, ok_bind, hk, pure_eq_ok]⟩
  | pnode => exact ⟨!isFull p.nbrs d.held, by simp only [isPartial, hcell, ok_bind, hk, pure_eq_ok]⟩
  | qnode => exact ⟨true, by simp only [isPartial, hcell, ok_bind, hk, pure_eq_ok]⟩

/-- A step through a frame is partial if not all vertices there are neighbours. -/
theorem Whole.isPartial_step (h : w.Whole S root M) (p : Pass) {x : NodeId}
    (hf : f.cells parent x ⊆ M) : w.isPartial p f.step = .ok (!isFull p.nbrs f.held) := by
  cases f with
  | branch id held before after rest =>
      have hcell := h.cell_ok (hf (by simp [Frame.cells] :
        (id, pCell parent held (before ++ x :: after)) ∈ _))
      simp only [isPartial, Frame.step, Frame.held, hcell, ok_bind, pCell, pure_eq_ok]
  | inRow q flipped xs key s held ys rest =>
      have hcell := h.cell_ok (hf (Multiset.mem_add.2 (Or.inl Row.row_mem_cellsAt)))
      obtain ⟨d, hd, -, -, hheld⟩ := @Frame.slice_mem q flipped xs ys key s held rest parent x
      have hslice := h.cell_ok (hf hd)
      cases flipped <;>
        simp only [isPartial, Frame.step, Frame.held, hcell, ok_bind, rowCell, Row.flipped_ofKeyed,
          if_true, Bool.false_eq_true, if_false, hslice, pure_eq_ok, hheld]

/-- The lower part of a path goes through the lowest frames, beginning with the highest one that is
not reached as a whole. -/
theorem Whole.lowerPath_ok (h : w.Whole S root M) (p : Pass) (hy : M.HasNode y)
    (hlow : ∀ f ∈ low, ∃ parent x, f.cells parent x ⊆ M) :
    ∃ low₁ c₁, low = low₁ ++ c₁ ∧ w.lowerPath p (Ctx.steps low y) = .ok (Ctx.steps low₁ y) ∧
      (∀ f ∈ c₁, isFull p.nbrs f.held = true) ∧
        ∀ ini f, low₁ = ini ++ [f] → isFull p.nbrs f.held = false := by
  induction low using List.reverseRecOn with
  | nil =>
      obtain ⟨b, hb⟩ := h.isPartial_node p hy
      refine ⟨[], [], rfl, ?_, by simp, by simp⟩
      simp [Ctx.steps, lowerPath, hb, ok_bind, pure_eq_ok]
  | append_singleton low f ih =>
      obtain ⟨parent, x, hf⟩ := hlow f (by simp)
      have hb := h.isPartial_step p hf
      have hrest : (Ctx.steps low y).isEmpty = false := by simp [Ctx.steps]
      rw [Ctx.steps_concat]
      -- the highest partial step ends the search; what is above it is reached as a whole
      cases hfull : isFull p.nbrs f.held with
      | false =>
          rw [hfull, Bool.not_false] at hb
          refine ⟨low ++ [f], [], (List.append_nil _).symm, ?_, by simp, fun ini g heq => ?_⟩
          · rw [Ctx.steps_concat]
            simp only [lowerPath, hb, ok_bind, Bool.true_or, if_true, pure_eq_ok]
          · rw [← (List.append_inj' heq rfl).2 |> List.singleton_inj.1]
            exact hfull
      | true =>
          rw [hfull, Bool.not_true] at hb
          obtain ⟨low₁, c₁, rfl, hlower, hupper, hlowest⟩ :=
            ih fun g hg => hlow g (List.mem_append.2 (Or.inl hg))
          refine ⟨low₁, c₁ ++ [f], by simp, ?_, fun g hg => ?_, hlowest⟩
          · simp only [lowerPath, hb, ok_bind, hrest, Bool.false_or, Bool.false_eq_true, if_false,
              hlower]
          · rcases List.mem_append.1 hg with hg | hg
            · exact hupper g hg
            · rwa [List.mem_singleton.1 hg]

end Work

end CliquePath
