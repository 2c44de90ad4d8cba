import CliquePath.Proofs.LinkedTree.Paths
import CliquePath.Proofs.LinkedTree.Shown

set_option autoImplicit false

/-!
# Owners in a plan

This module finds the parts of a plan by their places. Different parts have different places, the
cells of a part refer to one another, and every vertex is held by the part whose place is its owner.
-/

namespace CliquePath

open Cells (one)
open Plan (ctx)

namespace Plan

variable {T U V W : Plan} {bs : List Bough} {parent : Option NodeId} {v : Vertex}
variable {l : NodeId × Plan} {id p : NodeId} {d : Cell}

/-! ## The places of the parts -/

/-- The node of a plan has a cell that refers to the parent. -/
theorem exists_own_cell (T : Plan) (parent : Option NodeId) :
    ∃ d, (T.id, d) ∈ T.own parent ∧ d.parent = parent ∧ d.kind.isSlice = false := by
  cases T with
  | leaf id held => exact ⟨_, Cells.mem_one.2 rfl, rfl, rfl⟩
  | pnode id held children => exact ⟨_, Cells.mem_one.2 rfl, rfl, rfl⟩
  | qnode q row =>
      refine ⟨_, Row.row_mem_cellsAt, rfl, ?_⟩
      cases hf : (row.map Part.top).flipped <;> simp [rowCell, Kind.isSlice]

theorem own_subset_cells : T.own parent ⊆ T.cells parent := by
  rw [cells_eq]
  exact Multiset.subset_of_le (Multiset.le_add_right _ _)

theorem id_mem_cells (T : Plan) (parent : Option NodeId) : T.id ∈ (T.cells parent).map Prod.fst := by
  obtain ⟨d, hd, -⟩ := T.exists_own_cell parent
  exact Multiset.mem_map_of_mem _ (own_subset_cells hd)

/-- The places to which the nodes directly below refer are those of cells of the node itself. -/
theorem holder_mem_own (h : l ∈ T.limbs) : l.1 ∈ (T.own parent).map Prod.fst := by
  cases T with
  | leaf id held => simp [limbs] at h
  | pnode id held children =>
      obtain ⟨c, -, rfl⟩ := List.mem_map.1 h
      simp [own]
  | qnode q row =>
      obtain ⟨s, hs, rfl⟩ := List.mem_map.1 h
      refine Cells.mem_ids_cellsAt.2 (Or.inr ⟨s.top, ?_, rfl⟩)
      rw [Row.toList_map]
      exact List.mem_map_of_mem hs

/-- The parents of the cells of a node are the parent of the node or the node itself. -/
theorem parent_own (h : (id, d) ∈ T.own parent) : d.parent = parent ∨ d.parent = some T.id := by
  cases stores_of_own h with
  | leaf x held => exact Or.inl rfl
  | pnode x held children => exact Or.inl rfl
  | qnode q row first last flipped => exact Or.inl rfl
  | part q row s hs left right rank => exact Or.inr rfl

/-- The parents of the cells of a plan are the parent of the plan or among these cells. -/
theorem parent_cells (h : (id, d) ∈ T.cells parent) :
    d.parent = parent ∨ ∃ p ∈ (T.cells parent).map Prod.fst, d.parent = some p := by
  induction T using Plan.induction generalizing parent with
  | step T ih =>
      rw [cells_eq] at h ⊢
      rcases Multiset.mem_add.1 h with h | h
      · refine (parent_own h).imp_right fun hp => ⟨T.id, ?_, hp⟩
        rw [← cells_eq]
        exact T.id_mem_cells parent
      · obtain ⟨l, hl, h⟩ := mem_limbCells.1 h
        refine Or.inr ?_
        -- a cell at the top of a limb has the holder of the limb as its parent
        rcases ih l hl h with hp | ⟨p, hp, hdp⟩
        · exact ⟨l.1, by rw [Multiset.map_add]; exact Multiset.mem_add.2 (Or.inl (holder_mem_own hl)), hp⟩
        · refine ⟨p, ?_, hdp⟩
          obtain ⟨e, he, rfl⟩ := Multiset.mem_map.1 hp
          exact Multiset.mem_map_of_mem _ (Multiset.mem_add.2 (Or.inr (mem_limbCells.2 ⟨l, hl, he⟩)))

/-- The cells of a bough are those of its node and of the other subtrees. -/
theorem frame_cells (b : Bough) (T : Plan) (parent : Option NodeId) :
    b.frame.cells parent T.id = (b.fill T).own parent + limbCells b.others := by
  obtain ⟨before, after, hlimbs, hothers⟩ := b.limbs_fill T
  have hcells := b.cells_fill T parent
  rw [cells_eq, hlimbs, limbCells_middle, ← hothers, add_left_comm] at hcells
  exact (add_left_cancel hcells).symm

/-- The parents of the cells around a focus are among these cells. -/
theorem parent_ctx {x : NodeId} (h : (id, d) ∈ (ctx bs).cells x) (hp : d.parent = some p) :
    p ∈ ((ctx bs).cells x).map Prod.fst := by
  induction bs generalizing x with
  | nil => simp [Ctx.cells] at h
  | cons b bs ih =>
      have hframe : b.frame.cells (ctx bs).parent x = _ := frame_cells b (.leaf x []) (ctx bs).parent
      simp only [List.map_cons, Ctx.cells, hframe, Multiset.map_add, Multiset.mem_add] at h ⊢
      -- a cell of the innermost bough, of a subtree beside it, or of a bough further up
      rcases h with (h | h) | h
      · rcases parent_own h with heq | heq
        · rw [hp] at heq
          cases bs with
          | nil => cases heq
          | cons b' bs =>
              cases heq
              obtain ⟨d', hd'⟩ := b'.frame.holder_mem (ctx bs).parent b.frame.node
              refine Or.inr (Multiset.mem_map_of_mem Prod.fst (a := (b'.frame.holder, d')) ?_)
              exact Multiset.mem_add.2 (Or.inl hd')
        · rw [hp] at heq
          cases heq
          obtain ⟨d', hd', -⟩ := (b.fill (.leaf x [])).exists_own_cell (ctx bs).parent
          exact Or.inl (Or.inl (Multiset.mem_map_of_mem Prod.fst hd'))
      · obtain ⟨l, hl, h⟩ := mem_limbCells.1 h
        rcases parent_cells h with heq | ⟨q, hq, heq⟩
        · rw [hp] at heq
          cases heq
          exact Or.inl (Or.inl (holder_mem_own (Bough.others_mem_limbs hl)))
        · rw [hp] at heq
          cases heq
          obtain ⟨e, he, rfl⟩ := Multiset.mem_map.1 hq
          exact Or.inl (Or.inr (Multiset.mem_map_of_mem _ (mem_limbCells.2 ⟨l, hl, he⟩)))
      · exact Or.inr (ih h)

/-- The places of the parts are those of different cells. -/
theorem ids_parts_le (T : Plan) (parent : Option NodeId) :
    ((T.parts.map Plan.id : List NodeId) : Multiset NodeId) ≤ (T.cells parent).map Prod.fst := by
  induction T using Plan.induction generalizing parent with
  | step T ih =>
      -- the parts of several limbs, since those of one are not enough for the sum
      have hlimbs : ∀ ls : List (NodeId × Plan), (∀ l ∈ ls, l ∈ T.limbs) →
          (((ls.flatMap fun l => l.2.parts).map Plan.id : List NodeId) : Multiset NodeId) ≤
            (limbCells ls).map Prod.fst := by
        intro ls hls
        induction ls with
        | nil => simp
        | cons l rest ihls =>
            rw [List.flatMap_cons, List.map_append, limbCells_cons, Multiset.map_add, ← Multiset.coe_add]
            exact add_le_add (ih l (hls l List.mem_cons_self) _)
              (ihls fun k hk => hls k (List.mem_cons_of_mem _ hk))
      obtain ⟨d, hd, -⟩ := T.exists_own_cell parent
      rw [parts_eq, cells_eq, Multiset.map_add, List.map_cons, ← Multiset.cons_coe,
        ← Multiset.singleton_add]
      refine add_le_add ?_ (hlimbs T.limbs fun l hl => hl)
      rw [Multiset.singleton_le]
      exact Multiset.mem_map_of_mem Prod.fst hd

/-- Different parts have different places. -/
theorem part_eq (hn : ((T.cells parent).map Prod.fst).Nodup) (hU : U ∈ T.parts) (hV : V ∈ T.parts)
    (hid : U.id = V.id) : U = V :=
  List.inj_on_of_nodup_map (Multiset.coe_nodup.1 (Multiset.nodup_of_le (ids_parts_le T parent) hn))
    hU hV hid

/-- The nodes directly below a node have different places. -/
theorem nodup_limbs (hn : ((T.cells parent).map Prod.fst).Nodup) :
    (T.limbs.map fun l => l.2.id).Nodup := by
  have hle := ids_parts_le T parent
  have hparts := Multiset.coe_nodup.1 (Multiset.nodup_of_le hle hn)
  rw [parts_eq, List.map_cons, List.nodup_cons] at hparts
  refine hparts.2.sublist ?_
  induction T.limbs with
  | nil => simp
  | cons l rest ih =>
      rw [List.map_cons, List.flatMap_cons, List.map_append, parts_eq, List.map_cons, List.cons_append]
      exact (ih.trans (List.sublist_append_right _ _)).cons_cons _

/-! ## What a node holds itself -/

/-- The vertices that the node holds, in its row if it is a Q-node. -/
def held : Plan → List Vertex
  | .leaf _ held => held
  | .pnode _ held _ => held
  | .qnode _ row => row.toList.flatMap Part.held

theorem holds_own (T : Plan) (parent : Option NodeId) (v : Vertex) :
    (∃ s row?, (T.own parent).Holds v (s, row?) ∧ row?.getD s = T.id) ↔ v ∈ T.held := by
  cases T with
  | leaf id held => simp [own, Plan.held, Plan.id]
  | pnode id held children => simp [own, Plan.held, Plan.id]
  | qnode q row =>
      simp only [holds_own_qnode, Plan.held, Plan.id, List.mem_flatMap]
      constructor
      · rintro ⟨s, row?, ⟨part, hpart, hv, -⟩, -⟩
        exact ⟨part, hpart, hv⟩
      · rintro ⟨part, hpart, hv⟩
        exact ⟨part.id, some q, ⟨part, hpart, hv, rfl⟩, rfl⟩

theorem getD_of_holds_own {p : NodeId × Option NodeId} (h : (T.own parent).Holds v p) :
    p.2.getD p.1 = T.id := by
  cases T with
  | leaf id held => simp [own] at h; simp [h.2, Plan.id]
  | pnode id held children => simp [own] at h; simp [h.2, Plan.id]
  | qnode q row =>
      obtain ⟨s, -, -, rfl⟩ := holds_own_qnode.1 h
      rfl

/-- What the cells of a plan hold is held by one of the parts itself. -/
theorem exists_part_of_holds {p : NodeId × Option NodeId} (h : (T.cells parent).Holds v p) :
    ∃ U ∈ T.parts, v ∈ U.held ∧ p.2.getD p.1 = U.id := by
  induction T using Plan.induction generalizing parent with
  | step T ih =>
      rcases holds_cells.1 h with h | ⟨l, hl, h⟩
      · have hid := getD_of_holds_own h
        exact ⟨T, T.self_mem_parts, (holds_own T parent v).1 ⟨p.1, p.2, h, hid⟩, hid⟩
      · obtain ⟨U, hU, hv⟩ := ih l hl h
        exact ⟨U, mem_parts_iff.2 (Or.inr ⟨l, hl, hU⟩), hv⟩

/-- What a part holds is held by the cells of the plan. -/
theorem exists_holds_of_part (parent : Option NodeId) (hU : U ∈ T.parts) (hv : v ∈ U.held) :
    ∃ p : NodeId × Option NodeId, (T.cells parent).Holds v p ∧ p.2.getD p.1 = U.id := by
  induction T using Plan.induction generalizing parent with
  | step T ih =>
      rcases mem_parts_iff.1 hU with rfl | ⟨l, hl, hU⟩
      · obtain ⟨s, row?, h, hid⟩ := (holds_own U parent v).2 hv
        exact ⟨(s, row?), holds_cells.2 (Or.inl h), hid⟩
      · obtain ⟨p, hp, hid⟩ := ih l hl (some l.1) hU
        exact ⟨p, holds_cells.2 (Or.inr ⟨l, hl, hp⟩), hid⟩

/-- The vertices of the node that a plan shows are what its parts hold. -/
theorem mem_vertices_iff : v ∈ T.node.vertices ↔ ∃ U ∈ T.parts, v ∈ U.held := by
  rw [← exists_holds_iff T none v]
  constructor
  · rintro ⟨p, hp⟩
    obtain ⟨U, hU, hv, -⟩ := exists_part_of_holds hp
    exact ⟨U, hU, hv⟩
  · rintro ⟨U, hU, hv⟩
    obtain ⟨p, hp, -⟩ := exists_holds_of_part none hU hv
    exact ⟨p, hp⟩

end Plan

/-! ## Owners -/

/-- All places that hold a vertex are those of one node and its row. -/
theorem Slots.Agree.owner_eq {slots : Slots} {S : Set Vertex} {M : Cells} {v : Vertex}
    {p q : NodeId × Option NodeId} (h : slots.Agree S M) (hp : M.Holds v p) (hq : M.Holds v q) :
    p.2.getD p.1 = q.2.getD q.1 := by
  have hfit := h.fit v
  -- a vertex without a slot is held nowhere
  cases hslot : slots.get v with
  | absent =>
      rw [hslot] at hfit
      exact absurd hp (hfit p)
  | node id =>
      rw [hslot] at hfit
      rw [hfit.2 p hp, hfit.2 q hq]
  | span one other =>
      rw [hslot] at hfit
      obtain ⟨r, -, -, hall⟩ := hfit
      rw [hall p hp, hall q hq]
      rfl

/-- Every neighbour has the part that holds it as its owner. -/
structure Pass.Reads (p : Pass) (W : Plan) : Prop where
  nbrs : p.owners.map Prod.snd = p.nbrs
  owner : ∀ e ∈ p.owners, ∀ T ∈ W.parts, e.1 = T.id ↔ e.2 ∈ T.held
  part : ∀ e ∈ p.owners, ∃ T ∈ W.parts, e.1 = T.id

namespace Pass.Reads

variable {p : Pass} {W T : Plan} {q : NodeId} {row : Row (Part Plan)}

/-- The neighbours that a part owns are those that it holds. -/
theorem ownedBy_eq (h : p.Reads W) (hT : T ∈ W.parts) :
    p.ownedBy T.id = p.nbrs.filter fun v => T.held.contains v := by
  rw [Pass.ownedBy, ← h.nbrs, List.filter_map]
  congr 1
  refine List.filter_congr fun e he => ?_
  rw [Bool.eq_iff_iff]
  simpa using h.owner e he T hT

/-- The neighbours that a Q-node owns are those that its row holds. -/
theorem ownedBy_row (h : p.Reads W) (hT : Plan.qnode q row ∈ W.parts) :
    p.ownedBy q = (row.map Part.shown).owned p.nbrs := by
  have heq := h.ownedBy_eq hT
  rw [Plan.id] at heq
  rw [heq, Row.owned]
  refine List.filter_congr fun v _ => ?_
  rw [Bool.eq_iff_iff]
  simp only [Plan.held, List.contains_iff_mem, List.mem_flatMap, Row.toList_map, List.any_map,
    List.any_eq_true, Function.comp_apply, Part.shown]

end Pass.Reads

namespace Work

variable {w : Work} {S : Set Vertex} {W : Plan} {p : Pass} {u : Vertex} {nbrs : List Vertex}

/-- What an insertion starts from. -/
theorem pass_eq (h : w.pass u nbrs = .ok p) :
    p.vertex = u ∧ p.nbrs = nbrs ∧ p.owners.map Prod.snd = nbrs := by
  unfold pass at h
  cases hmap : nbrs.mapM (fun v => do return (← w.owner v, v)) with
  | error e =>
      rw [hmap] at h
      cases h
  | ok owners =>
      rw [hmap] at h
      cases h
      refine ⟨rfl, rfl, ?_⟩
      induction nbrs generalizing owners with
      | nil => cases hmap; rfl
      | cons v rest ih =>
          rw [List.mapM_cons] at hmap
          cases howner : w.owner v with
          | error e =>
              rw [howner] at hmap
              cases hmap
          | ok id =>
              cases hrest : rest.mapM (fun v => do return (← w.owner v, v)) with
              | error e =>
                  rw [howner, hrest] at hmap
                  cases hmap
              | ok others =>
                  rw [howner, hrest] at hmap
                  cases hmap
                  rw [List.map_cons, ih others hrest]

/-- The owners that an insertion starts from are the parts that hold the neighbours. -/
theorem Draws.reads (h : w.Draws S W) (hn : ∀ v ∈ nbrs, v ∈ S) (hp : w.pass u nbrs = .ok p) :
    p.Sound (W.cells none) ∧ p.Reads W := by
  obtain ⟨owners, hpass, -, hsound⟩ := h.whole.pass_ok u hn
  rw [hp] at hpass
  cases hpass
  refine ⟨hsound, (pass_eq hp).2.2, fun e he T hT => ?_, fun e he => ?_⟩
  · obtain ⟨s, row?, hheld, hid⟩ := hsound e he
    rw [← hid]
    constructor
    · -- a part is known by its identity
      intro heq
      obtain ⟨U, hU, hv, hUid⟩ := Plan.exists_part_of_holds hheld
      rwa [← Plan.part_eq h.owns.nodup hU hT (hUid.symm.trans heq)]
    · intro hv
      obtain ⟨r, hr, hrid⟩ := Plan.exists_holds_of_part none hT hv
      exact (h.agree.owner_eq hheld hr).trans hrid
  · obtain ⟨s, row?, hheld, hid⟩ := hsound e he
    obtain ⟨U, hU, -, hUid⟩ := Plan.exists_part_of_holds hheld
    exact ⟨U, hU, hid.symm.trans hUid⟩

end Work

end CliquePath
