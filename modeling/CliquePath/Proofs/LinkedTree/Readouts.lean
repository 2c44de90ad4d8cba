import CliquePath.LinkedTree.Readout
import CliquePath.Proofs.LinkedTree.Insertion

set_option autoImplicit false

/-!
# Reading out a linked tree

This module shows that the cliques and the intervals of a linked tree can always be read out. The walk
through the tree notes a range for every node and every section, so the range of a slot is there to be
read, and the way from any leaf to the root can be followed.
-/

namespace CliquePath

open Cells (one)

namespace Layout

variable {l l' : Layout} {id x : NodeId} {ids : List NodeId}

/-- A range is noted for the node. -/
def Noted (l : Layout) (id : NodeId) : Prop := ∃ range, l.range? id = some range

theorem noted_note {range : Nat × Nat} (hid : id < l.ranges.size) :
    (l.note id (some range)).Noted x ↔ x = id ∨ l.Noted x := by
  unfold Noted range? note
  rw [Array.getElem?_setIfInBounds]
  by_cases hx : id = x
  · subst hx
    simp [hid]
  · simp [hx, Ne.symm hx]

/-- The hull of ranges that are noted. -/
theorem hull_ok (h : ∀ id ∈ ids, l.Noted id) :
    ∃ hull?, l.hull ids = .ok hull? ∧ (ids ≠ [] → ∃ range, hull? = some range) := by
  induction ids with
  | nil => exact ⟨none, rfl, fun h => absurd rfl h⟩
  | cons id rest ih =>
      obtain ⟨⟨low, high⟩, hrange⟩ := h id List.mem_cons_self
      obtain ⟨hull?, hhull, -⟩ := ih fun x hx => h x (List.mem_cons_of_mem _ hx)
      cases hull? with
      | none => exact ⟨some (low, high), by simp only [hull, hrange, hhull, ok_bind, pure_eq_ok], by simp⟩
      | some r =>
          exact ⟨some (min low r.1, max high r.2),
            by simp only [hull, hrange, hhull, ok_bind, pure_eq_ok], by simp⟩

/-- What a walk through some cells adds to a layout. -/
structure Grows (a : Arena) (M : Cells) (places : Multiset NodeId) (l l' : Layout) : Prop where
  size : l'.ranges.size = a.cells.size
  noted : ∀ id ∈ places, l'.Noted id
  kept : ∀ id, l.Noted id → l'.Noted id
  leaves : ∀ id ∈ l'.leaves, id ∈ l.leaves ∨ M.HasNode id

variable {a : Arena} {M : Cells} {A B : Multiset NodeId} {l'' : Layout}

theorem Grows.refl (h : l.ranges.size = a.cells.size) : Grows a M 0 l l :=
  ⟨h, by simp, fun _ h => h, fun _ h => Or.inl h⟩

theorem Grows.trans (h : Grows a M A l l') (h' : Grows a M B l' l'') :
    Grows a M (A + B) l l'' := by
  refine ⟨h'.size, fun id hid => ?_, fun id hid => h'.kept id (h.kept id hid), fun id hid => ?_⟩
  · rcases Multiset.mem_add.1 hid with hid | hid
    · exact h'.kept id (h.noted id hid)
    · exact h'.noted id hid
  · rcases h'.leaves id hid with hid | hid
    · exact h.leaves id hid
    · exact Or.inr hid

/-- A range is noted for one more cell. -/
theorem Grows.note (h : Grows a M A l l') {id : NodeId} (hid : id < a.cells.size)
    (range : Nat × Nat) : Grows a M ({id} + A) l (l'.note id (some range)) := by
  rw [← h.size] at hid
  refine ⟨?_, fun x hx => (noted_note hid).2 ?_, fun x hx => (noted_note hid).2 (Or.inr (h.kept x hx)),
    h.leaves⟩
  · simpa [Layout.note] using h.size
  · rcases Multiset.mem_add.1 hx with hx | hx
    · exact Or.inl (Multiset.mem_singleton.1 hx)
    · exact Or.inr (h.noted x hx)

end Layout

namespace Arena

variable {a : Arena} {r : Option NodeId} {M m n : Cells} {x : NodeId} {l : Layout}
variable {parent : Option NodeId} {fuel : Nat}

/-- A node is laid out after what stands directly below it. -/
theorem layOut_above {ids : List NodeId} {A : Multiset NodeId} {l' : Layout} (o : a.Owns r M)
    {d : Cell} (hx : (x, d) ∈ M) (hbelow : a.below? x = .ok (some ids))
    (hwalk : ids.foldlM (a.layOut fuel) l = .ok l') (hgrows : Layout.Grows a M A l l')
    (hids : ∀ id ∈ ids, id ∈ A) (hne : ids ≠ []) :
    ∃ l'', a.layOut (fuel + 1) l x = .ok l'' ∧ Layout.Grows a M ({x} + A) l l'' := by
  obtain ⟨hull?, hhull, hsome⟩ := Layout.hull_ok fun id hid => hgrows.noted id (hids id hid)
  obtain ⟨range, rfl⟩ := hsome hne
  refine ⟨l'.note x (some range), ?_, hgrows.note (o.mem_lt hx) range⟩
  simp only [Arena.layOut, hbelow, hwalk, hhull, ok_bind, pure_eq_ok]

/-- Every tree within some cells can be laid out. -/
def LaysOut (a : Arena) (M : Cells) (fuel : Nat) (m : Cells) : Prop :=
  ∀ (parent : Option NodeId) (x : NodeId) (n : Cells), Trees {(parent, x)} n → n ≤ m →
    ∀ l : Layout, l.ranges.size = a.cells.size →
      ∃ l', a.layOut fuel l x = .ok l' ∧ Layout.Grows a M (n.map Prod.fst) l l'

/-- A list of nodes is laid out one by one. -/
theorem layOut_children {p : NodeId} {cs : List NodeId} (hall : a.LaysOut M fuel m)
    (hn : Trees (childLinks p cs) n) (hnm : n ≤ m) (hl : l.ranges.size = a.cells.size) :
    ∃ l', cs.foldlM (a.layOut fuel) l = .ok l' ∧ Layout.Grows a M (n.map Prod.fst) l l' := by
  induction cs generalizing n l with
  | nil =>
      obtain rfl := hn.eq_zero
      exact ⟨l, rfl, .refl hl⟩
  | cons y rest ih =>
      rw [childLinks_cons] at hn
      obtain ⟨n₁, n₂, rfl, h₁, h₂⟩ := hn.split
      obtain ⟨l₁, hl₁, hg₁⟩ := hall _ y n₁ h₁ (le_trans (Multiset.le_add_right _ _) hnm) l hl
      obtain ⟨l₂, hl₂, hg₂⟩ := ih h₂ (le_trans (Multiset.le_add_left _ _) hnm) hg₁.size
      refine ⟨l₂, by rw [List.foldlM_cons, hl₁, ok_bind, hl₂], ?_⟩
      rw [Multiset.map_add]
      exact hg₁.trans hg₂

/-- The sections of a row are laid out one by one, each after the node below it. -/
theorem layOut_sections {es : Entries} (o : a.Owns r M) (hall : a.LaysOut M fuel m)
    (hes : ∀ e ∈ es, ∃ d left right rank, (e.2.id, d) ∈ M ∧ d.kind = .slice e.2.son left right rank)
    (hn : Trees (sonLinks es) n) (hnm : n ≤ m) (hl : l.ranges.size = a.cells.size) :
    ∃ l', (Entries.ids es).foldlM (a.layOut (fuel + 1)) l = .ok l' ∧
      Layout.Grows a M (Entries.ids es + n.map Prod.fst) l l' := by
  induction es generalizing n l with
  | nil =>
      obtain rfl := hn.eq_zero
      exact ⟨l, rfl, .refl hl⟩
  | cons e rest ih =>
      rw [sonLinks_cons] at hn
      obtain ⟨n₁, n₂, rfl, h₁, h₂⟩ := hn.split
      obtain ⟨d, left, right, rank, hd, hkind⟩ := hes e List.mem_cons_self
      obtain ⟨l₁, hl₁, hg₁⟩ := hall _ e.2.son n₁ h₁ (le_trans (Multiset.le_add_right _ _) hnm) l hl
      have hbelow : a.below? e.2.id = .ok (some [e.2.son]) := by
        simp only [below?, o.cell_of_mem hd, ok_bind, hkind, pure_eq_ok]
      -- the node below a section is laid out before the section
      have hson : e.2.son ∈ n₁.map Prod.fst := h₁.mem_ids (Multiset.mem_singleton_self _)
      obtain ⟨l₂, hl₂, hg₂⟩ := layOut_above o hd hbelow (by
        rw [List.foldlM_cons, hl₁, ok_bind]
        rfl) hg₁ (by simpa using hson) (by simp)
      obtain ⟨l₃, hl₃, hg₃⟩ := ih (fun e he => hes e (List.mem_cons_of_mem _ he)) h₂
        (le_trans (Multiset.le_add_left _ _) hnm) hg₂.size
      refine ⟨l₃, by rw [Entries.ids_cons, List.foldlM_cons, hl₂, ok_bind, hl₃], ?_⟩
      have hplaces : ((Entries.ids (e :: rest) : List NodeId) : Multiset NodeId) +
          (n₁ + n₂).map Prod.fst = {e.2.id} + n₁.map Prod.fst + (Entries.ids rest + n₂.map Prod.fst) := by
        rw [Entries.ids_cons, ← Multiset.cons_coe, ← Multiset.singleton_add, Multiset.map_add]
        abel
      rw [hplaces]
      exact hg₂.trans hg₃

/-- The places of a row. -/
theorem ids_cellsAt (R : Row (Part NodeId)) (q : NodeId) (parent : Option NodeId) :
    (R.cellsAt q parent).map Prod.fst = {q} + (Entries.ids R.keyed : Multiset NodeId) := by
  have hids : (Entries.linked none none R.keyed).map (fun v => v.part.id) = Entries.ids R.keyed :=
    Entries.map_id_linked
  rw [Row.cellsAt, Multiset.map_add, Cells.map_fst_one, Loose.cells_eq_coe, Multiset.map_coe,
    List.map_map, ← hids]
  rfl

/-- A tree is laid out from any of its nodes. -/
theorem layOut_ok (o : a.Owns r M) (hm : Trees {(parent, x)} m) (hsub : m ≤ M)
    (hl : l.ranges.size = a.cells.size) (hfuel : m.card < fuel) :
    ∃ l', a.layOut fuel l x = .ok l' ∧ Layout.Grows a M (m.map Prod.fst) l l' := by
  induction hk : m.card using Nat.strong_induction_on generalizing parent x m l fuel with
  | _ k ih =>
      subst hk
      -- a tree has one cell at least, so that the walk can take its first step
      obtain ⟨fuel, rfl⟩ : ∃ k, fuel = k + 1 := ⟨fuel - 1, by omega⟩
      have hshape := hm.shape
      cases hshape with
      | leaf held =>
          have hx : (x, leafCell parent held) ∈ M := Multiset.mem_of_le hsub (Cells.mem_one.2 rfl)
          refine ⟨l.addLeaf x, ?_, ?_⟩
          · simp only [layOut, below?, o.cell_of_mem hx, leafCell, ok_bind, pure_eq_ok]
          · have hnote := (Layout.Grows.refl (M := M) hl).note (o.mem_lt hx)
              (l.leaves.length + 1, l.leaves.length + 1)
            refine ⟨hnote.size, fun id hid => hnote.noted id (by simpa using hid), hnote.kept,
              fun id hid => ?_⟩
            rcases List.mem_append.1 hid with hid | hid
            · exact Or.inl hid
            · rw [List.mem_singleton.1 hid]
              exact Or.inr ⟨_, hx, rfl⟩
      | @pnode held children n hne rest =>
          have hx : (x, pCell parent held children) ∈ M := Multiset.mem_of_le hsub (by simp)
          have hnM : n ≤ M := le_trans (Multiset.le_add_left _ _) hsub
          simp only [Multiset.card_add, one, Multiset.card_singleton] at hfuel ih
          have hall : a.LaysOut M fuel n := fun p y m' hm' hle l hl => by
            have hcard := Multiset.card_le_card hle
            exact ih m'.card (by omega) hm' (le_trans hle hnM) hl (by omega) rfl
          obtain ⟨l₁, hl₁, hg₁⟩ := layOut_children hall rest le_rfl hl
          obtain ⟨l₂, hl₂, hg₂⟩ := layOut_above o hx
            (by simp only [below?, o.cell_of_mem hx, pCell, ok_bind, pure_eq_ok]) hl₁ hg₁
            (fun y hy => rest.mem_ids (l := (some x, y)) (by
              rw [childLinks, Multiset.mem_coe]
              exact List.mem_map_of_mem hy)) hne
          exact ⟨l₂, hl₂, by simpa using hg₂⟩
      | @qnode R n hne hasc rest =>
          obtain ⟨k, hM⟩ := Multiset.le_iff_exists_add.1 hsub
          rw [add_assoc] at hM
          have hx := Arena.Owns.mem_row hM
          have hnM : n ≤ M := le_trans (Multiset.le_add_left _ _) hsub
          have hlen : 0 < R.keyed.length := List.length_pos_iff.2 hne
          simp only [Multiset.card_add, Row.cellsAt, one, Multiset.card_singleton, Loose.card_cells,
            Entries.length_linked] at hfuel ih
          -- a row takes two steps, one to its sections and one to the nodes below them
          obtain ⟨fuel, rfl⟩ : ∃ k, fuel = k + 1 := ⟨fuel - 1, by omega⟩
          have hall : a.LaysOut M fuel n := fun p y m' hm' hle l hl => by
            have hcard := Multiset.card_le_card hle
            exact ih m'.card (by omega) hm' (le_trans hle hnM) hl (by omega) rfl
          obtain ⟨l₁, hl₁, hg₁⟩ := layOut_sections o hall
            (fun e he => by
              obtain ⟨xs, ys, hR⟩ := List.append_of_mem he
              obtain ⟨left, right, rank, hkind⟩ := Loose.kind_cell x R.flipped
                ⟨e.2, e.1, Entries.lastId xs none, Entries.firstId ys none⟩
              refine ⟨_, left, right, rank, Arena.Owns.mem_slice hM (v := ⟨e.2, e.1,
                Entries.lastId xs none, Entries.firstId ys none⟩) ?_, hkind⟩
              simp [hR, Entries.linked_append, Entries.linked]) rest le_rfl hl
          have hbelow : a.below? x = .ok (some (Entries.ids R.keyed)) := by
            have hslices := o.slices_row hM hne
            simp only [below?, o.cell_of_mem hx, ok_bind, rowCell]
            cases R.flipped <;>
              simp only [if_true, Bool.false_eq_true, if_false, hslices, ok_bind, pure_eq_ok]
          obtain ⟨l₂, hl₂, hg₂⟩ := layOut_above o hx hbelow hl₁ hg₁
            (fun y hy => Multiset.mem_add.2 (Or.inl (Multiset.mem_coe.2 hy)))
            (by simpa [Entries.ids] using hne)
          refine ⟨l₂, hl₂, ?_⟩
          rw [Multiset.map_add, ids_cellsAt, add_assoc]
          exact hg₂

/-- The way from a node to the root can be followed. The induction is on the frames above it. -/
theorem heldAbove_ok {c : Ctx} (o : a.Owns r M) (hc : c.Ok) (hm : Trees {(c.parent, x)} m)
    (hM : M = m + c.cells x) (hfuel : (c.cells x).card < fuel) :
    ∃ held, a.heldAbove fuel x = .ok held := by
  induction c generalizing x m fuel with
  | nil =>
      obtain ⟨fuel, rfl⟩ : ∃ k, fuel = k + 1 := ⟨fuel - 1, by omega⟩
      obtain ⟨d, n, hd, -, hparent, -⟩ := hm.shape.reparent
      have hcell : a.cell x = .ok d := o.cell_of_mem (by simp [hM, hd])
      exact ⟨d.held, by simp only [heldAbove, hcell, ok_bind, hparent, Ctx.parent, pure_eq_ok]⟩
  | cons f c ih =>
      obtain ⟨fuel, rfl⟩ : ∃ k, fuel = k + 1 := ⟨fuel - 1, by omega⟩
      obtain ⟨d, n, hd, -, hparent, -⟩ := hm.shape.reparent
      have hcell : a.cell x = .ok d := o.cell_of_mem (by simp [hM, hd])
      have hM' : M = m + f.cells (Ctx.parent c) x + Ctx.cells c f.node := by
        rw [hM, Ctx.cells, add_assoc]
      have hclose : Trees {(Ctx.parent c, f.node)} _ := (hc f List.mem_cons_self).close hm
      -- the walk goes on from the node of the frame
      have hup : ∀ fuel, (Ctx.cells c f.node).card < fuel →
          ∃ held, a.heldAbove fuel f.node = .ok held := fun fuel hfuel =>
        ih (fun g hg => hc g (List.mem_cons_of_mem _ hg)) hclose hM' hfuel
      rw [Ctx.cells, Multiset.card_add] at hfuel
      simp only [heldAbove, hcell, ok_bind, hparent, Ctx.parent]
      -- a section is a cell of its own on the way up
      cases f with
      | branch id held before after rest =>
          obtain ⟨above, habove⟩ := hup fuel (by
            simp only [Frame.cells, Multiset.card_add, one, Multiset.card_singleton] at hfuel
            omega)
          simp only [Frame.node] at habove
          exact ⟨d.held ++ above, by simp only [Frame.holder, habove, ok_bind, pure_eq_ok]⟩
      | inRow q flipped xs key s held ys rest =>
          obtain ⟨ds, hds, hq, -⟩ := @Frame.slice_mem q flipped xs ys key s held rest (Ctx.parent c) x
          have hslice : a.cell s = .ok ds := o.cell_of_mem (by
            rw [hM']
            exact Multiset.mem_add.2 (Or.inl (Multiset.mem_add.2 (Or.inr hds))))
          simp only [Frame.cells, Row.cellsAt_part, Row.around, Multiset.card_add, one,
            Multiset.card_singleton] at hfuel
          obtain ⟨fuel, rfl⟩ : ∃ k, fuel = k + 1 := ⟨fuel - 1, by omega⟩
          obtain ⟨above, habove⟩ := hup fuel (by omega)
          simp only [Frame.node] at habove
          refine ⟨d.held ++ (ds.held ++ above), ?_⟩
          simp only [Frame.holder, heldAbove, hslice, hq, habove, ok_bind, pure_eq_ok]

end Arena

/-! ## The whole tree -/

namespace LinkedTree

/-- The vertices of `S` are in the tree, which can be followed wherever it leads. -/
structure Sound (t : LinkedTree) (S : Set Vertex) : Prop where
  tree : ∃ M, Work.Sound ⟨t.arena, t.slots, []⟩ S M
  below : ∀ v ∈ S, v < t.bound

variable {t : LinkedTree} {S : Set Vertex}

/-- The tree is laid out as a whole. -/
theorem Sound.layout_ok (h : t.Sound S) :
    ∃ l M, t.arena.layout = .ok l ∧ Work.Sound ⟨t.arena, t.slots, []⟩ S M ∧
      (∀ id ∈ M.map Prod.fst, l.Noted id) ∧ ∀ id ∈ l.leaves, M.HasNode id := by
  obtain ⟨M, hsound⟩ := h.tree
  have ⟨o, hf, _⟩ := hsound
  unfold Arena.layout
  dsimp only at o hf
  cases hroot : t.arena.root with
  | none =>
      rw [hroot] at hf
      obtain rfl := hf.eq_zero
      exact ⟨_, 0, rfl, hsound, by simp, by simp⟩
  | some root =>
      rw [hroot] at hf
      obtain ⟨l, hl, hgrows⟩ := Arena.layOut_ok (l := { ranges := Array.replicate t.arena.cells.size none })
        o hf le_rfl (by simp) (Nat.lt_succ_of_le o.card_le)
      refine ⟨l, M, hl, hsound, hgrows.noted, fun id hid => ?_⟩
      exact (hgrows.leaves id hid).resolve_left (by simp)

/-- The intervals of a tree can be read out. -/
theorem Sound.intervals_ok (h : t.Sound S) : ∃ intervals, t.intervals = .ok intervals := by
  obtain ⟨l, M, hl, ⟨-, -, hagree⟩, hnoted, -⟩ := h.layout_ok
  have hrange : ∀ v p, M.Holds v p → ∃ range, l.range p.1 = .ok range := by
    intro v p hp
    obtain ⟨range, hrange⟩ := hnoted p.1 hp.mem_ids
    exact ⟨range, by simp only [Layout.range, hrange, pure_eq_ok]⟩
  have hinterval : ∀ v, ∃ i?, l.interval? (t.slots.get v) = .ok i? := by
    intro v
    have hfit := hagree.fit v
    simp only at hfit
    -- the places that a slot names are noted in the layout
    cases hslot : t.slots.get v with
    | absent => exact ⟨none, rfl⟩
    | node id =>
        rw [hslot] at hfit
        obtain ⟨range, hr⟩ := hrange v (id, none) hfit.1
        exact ⟨_, by simp only [Layout.interval?, hr, ok_bind, pure_eq_ok]; rfl⟩
    | span one other =>
        rw [hslot] at hfit
        obtain ⟨q, hone, hother, -⟩ := hfit
        obtain ⟨r₁, h₁⟩ := hrange v (one, some q) hone
        obtain ⟨r₂, h₂⟩ := hrange v (other, some q) hother
        exact ⟨_, by simp only [Layout.interval?, h₁, h₂, ok_bind, pure_eq_ok]; rfl⟩
  have hall : ∀ vs, ∃ intervals, l.intervals t.slots vs = .ok intervals := by
    intro vs
    induction vs with
    | nil => exact ⟨[], rfl⟩
    | cons v rest ih =>
        obtain ⟨i?, hi⟩ := hinterval v
        obtain ⟨is, his⟩ := ih
        cases i? with
        | none => exact ⟨is, by simp only [Layout.intervals, hi, his, ok_bind]⟩
        | some i => exact ⟨(v, i) :: is, by simp only [Layout.intervals, hi, his, ok_bind, pure_eq_ok]⟩
  obtain ⟨is, his⟩ := hall (List.range t.bound)
  exact ⟨is, by simp only [LinkedTree.intervals, hl, ok_bind, his]⟩

/-- The cliques of a tree can be read out. -/
theorem Sound.cliques_ok (h : t.Sound S) : ∃ cliques, t.cliques = .ok cliques := by
  obtain ⟨l, M, hl, ⟨o, hf, hagree⟩, -, hleaves⟩ := h.layout_ok
  have hheld : ∀ leaf ∈ l.leaves, ∃ clique, (do
      return (← t.arena.heldAbove (t.arena.cells.size + 1) leaf).mergeSort :
        Except TreeFault (List Vertex)) = .ok clique := by
    intro leaf hleaf
    obtain ⟨d, hd, hnode⟩ := hleaves leaf hleaf
    dsimp only at o hf
    cases hroot : t.arena.root with
    | none =>
        rw [hroot] at hf
        rw [hf.eq_zero] at hd
        simp at hd
    | some root =>
        rw [hroot] at hf
        obtain ⟨c, m, hc, hm, hcells, -⟩ := Ctx.locate (c := []) (fun f hf => by cases hf) hf hd hnode
        have hM : M = m + Ctx.cells c leaf := by simpa [Ctx.cells] using hcells.symm
        -- the way up has no more cells than the arena
        have hfuel : (Ctx.cells c leaf).card < t.arena.cells.size + 1 := by
          have hcard := o.card_le
          rw [hM, Multiset.card_add] at hcard
          omega
        obtain ⟨held, hheld⟩ := Arena.heldAbove_ok o hc hm hM hfuel
        exact ⟨held.mergeSort, by simp only [hheld, ok_bind, pure_eq_ok]⟩
  obtain ⟨cliques, hcliques, -⟩ := Work.mapM_ok _ l.leaves hheld
  exact ⟨cliques, by simp only [LinkedTree.cliques, hl, ok_bind]; exact hcliques⟩

end LinkedTree

end CliquePath
