import CliquePath.Proofs.LinkedTree.Owners

set_option autoImplicit false

/-!
# The trail of the flags

This module shows that the flags mark the ways from the owners to the root and nothing else: a node of
a plan is flagged exactly if a neighbour is held at it or below it. So the path to which they lead
passes by all neighbours.
-/

namespace CliquePath

open Cells (one)
open Plan (ctx)

namespace Flags

/-- Every flagged cell is the only one from which its parent was entered, or is about to be, and lies
where climbs go. -/
structure Exact (flags : Flags) (M : Cells) (P : NodeId → Prop)
    (next? : Option (NodeId × NodeId)) : Prop where
  only : ∀ id d p, (id, d) ∈ M → flags.Flagged id → d.parent = some p →
    flags.lookup p = some (some id) ∨ next? = some (p, id)
  within : ∀ id, flags.Flagged id → P id

variable {flags : Flags} {M : Cells} {P : NodeId → Prop} {id x p : NodeId} {d : Cell}
variable {child? : Option NodeId}

theorem exact_nil : Exact [] M P none where
  only _ _ _ _ h _ := by
    obtain ⟨child?, h⟩ := h
    cases h
  within _ h := by
    obtain ⟨child?, h⟩ := h
    cases h

/-- The parent of a node flagged before is entered from that node after one more flag. -/
theorem Exact.only_push (h : flags.Exact M P (child?.map fun child => (id, child)))
    (hnew : ∀ seen, flags.lookup id ≠ some (some seen)) (hx : (x, d) ∈ M) (hf : flags.Flagged x)
    (hp : d.parent = some p) : List.lookup p ((id, child?) :: flags) = some (some x) := by
  rw [lookup_cons]
  -- the parent was entered from this node before, or is the one that is flagged now
  rcases h.only x d p hx hf hp with hp | hp
  · have hne : p ≠ id := fun heq => hnew x (heq ▸ hp)
    rwa [if_neg hne]
  · cases child? with
    | none => cases hp
    | some child =>
        cases hp
        rw [if_pos rfl]

theorem Exact.within_push {next? : Option (NodeId × NodeId)} (h : flags.Exact M P next?) (hid : P id) :
    ∀ x, Flagged ((id, child?) :: flags) x → P x := by
  intro x hf
  rcases flagged_cons.1 hf with rfl | hf
  · exact hid
  · exact h.within x hf

end Flags

theorem kind_rowCell (parent : Option NodeId) (flipped : Bool) (first last : NodeId) :
    ∃ first' last' flipped', (rowCell parent flipped first last).kind = .qnode first' last' flipped' := by
  cases flipped <;> simp [rowCell]

namespace Work

variable {w : Work} {r : Option NodeId} {M : Cells} {P : NodeId → Prop} {flags flags' : Flags}
variable {id : NodeId} {child? : Option NodeId} {ids : List NodeId} {fuel : Nat}

/-- A climb that meets no other one enters every node from one child only. -/
theorem climb_exact (o : w.arena.Owns r M)
    (hP : ∀ id d p, P id → w.arena.cell id = .ok d → d.parent = some p → P p) (hid : P id)
    (hs : flags.Exact M P (child?.map fun child => (id, child)))
    (h : w.climb fuel flags child? id = .ok (some flags')) : flags'.Exact M P none := by
  induction fuel generalizing flags child? id with
  | zero => cases h
  | succ fuel ih =>
      cases hlookup : flags.lookup id with
      | some seen? =>
          cases child? with
          | none =>
              have heq : flags' = flags := by
                cases seen? <;> simp only [climb, hlookup, pure_eq_ok, Except.ok.injEq,
                  Option.some.injEq] at h <;> exact h.symm
              rw [heq]
              exact hs
          | some child =>
              cases seen? with
              | some seen =>
                  simp only [climb, hlookup, pure_eq_ok, Except.ok.injEq] at h
                  split at h
                  next heq =>
                    cases h
                    subst heq
                    refine ⟨fun x d p hx hf hp => Or.inl ?_, hs.within⟩
                    rcases hs.only x d p hx hf hp with hp | hp
                    · exact hp
                    · cases hp
                      exact hlookup
                  next => cases h
              | none =>
                  simp only [climb, hlookup, pure_eq_ok, Except.ok.injEq, Option.some.injEq] at h
                  subst h
                  refine ⟨fun x d p hx hf hp => Or.inl ?_, hs.within_push hid⟩
                  refine hs.only_push (by simp [hlookup]) hx ?_ hp
                  rcases Flags.flagged_cons.1 hf with rfl | hf
                  · exact ⟨none, hlookup⟩
                  · exact hf
      | none =>
          simp only [climb, hlookup] at h
          cases hcell : w.arena.cell id with
          | error e =>
              rw [hcell] at h
              cases h
          | ok d =>
              rw [hcell, ok_bind] at h
              -- The node itself is the one from which its parent is about to be entered.
              have hnext : Flags.Exact ((id, child?) :: flags) M P (d.parent.map fun p => (p, id)) := by
                refine ⟨fun x d' p hx hf hp => ?_, hs.within_push hid⟩
                rcases Flags.flagged_cons.1 hf with rfl | hf
                · have hd := o.cell_of_mem hx
                  rw [hcell] at hd
                  cases hd
                  rw [hp]
                  exact Or.inr rfl
                · exact Or.inl (hs.only_push (by simp [hlookup]) hx hf hp)
              cases hparent : d.parent with
              | none =>
                  rw [hparent] at hnext h
                  simp only [pure_eq_ok, Except.ok.injEq, Option.some.injEq] at h
                  subst h
                  exact hnext
              | some p =>
                  rw [hparent] at hnext h
                  exact ih (hP id d p hid hcell hparent) hnext h

theorem climbAll_exact (o : w.arena.Owns r M)
    (hP : ∀ id d p, P id → w.arena.cell id = .ok d → d.parent = some p → P p)
    (hids : ∀ id ∈ ids, P id) (hs : flags.Exact M P none)
    (h : w.climbAll flags ids = .ok (some flags')) : flags'.Exact M P none := by
  induction ids generalizing flags with
  | nil =>
      cases h
      exact hs
  | cons id rest ih =>
      rw [climbAll] at h
      cases hclimb : w.climb (w.arena.cells.size + 1) flags none id with
      | error e =>
          rw [hclimb] at h
          cases h
      | ok out =>
          rw [hclimb, ok_bind] at h
          cases out with
          | none => cases h
          | some flags₁ =>
              have hexact : flags₁.Exact M P none :=
                @climb_exact _ _ _ _ _ _ _ none _ o hP (hids id List.mem_cons_self) hs hclimb
              exact ih (fun x hx => hids x (List.mem_cons_of_mem _ hx)) hexact h

variable {S : Set Vertex} {T : Plan} {bs : List Bough} {path : List Step}

/-- Climbs from outside a part do not enter it. -/
theorem Draws.outside (h : w.Draws S (T.under bs)) {id p : NodeId} {d : Cell}
    (hid : id ∈ ((ctx bs).cells T.id).map Prod.fst) (hcell : w.arena.cell id = .ok d)
    (hp : d.parent = some p) : p ∈ ((ctx bs).cells T.id).map Prod.fst := by
  obtain ⟨e, he, rfl⟩ := Multiset.mem_map.1 hid
  have howns := h.owns
  rw [Plan.cells_under] at howns
  have hd := howns.cell_of_mem (Multiset.mem_add.2 (Or.inr he))
  rw [hcell] at hd
  cases hd
  exact Plan.parent_ctx he hp

/-- A flagged node below a part flags the node of the part. -/
theorem Draws.flagged_up {U : Plan} {cs : List Bough} (h : w.Draws S ((U.under cs).under bs))
    (hs : flags.Sound (((U.under cs).under bs).cells none) none) (hU : flags.Flagged U.id) :
    flags.Flagged (U.under cs).id := by
  rw [← Plan.under_append] at h hs
  rw [Plan.id_under]
  have hok := h.formed.ok
  have htrees := h.formed.focus.trees (ctx (cs ++ bs)).parent
  have hcells := Plan.cells_under U (cs ++ bs)
  rw [Plan.ctx, List.map_append] at hok htrees hcells
  exact flagged_above hs hok htrees hcells hU

/-- The cells of the node in focus and below it have different places. -/
theorem Draws.nodup_focus (h : w.Draws S (T.under bs)) :
    ((T.cells (ctx bs).parent).map Prod.fst).Nodup := by
  have hn := h.owns.nodup
  rw [Plan.cells_under, Multiset.map_add] at hn
  exact (Multiset.nodup_add.1 hn).1

variable {p : Pass} {l : NodeId × Plan}

/-- The flags of climbs from all owners. -/
structure Trailed (w : Work) (S : Set Vertex) (p : Pass) (W : Plan) (flags : Flags) : Prop where
  draws : w.Draws S W
  sound : flags.Sound (W.cells none) none
  only : ∀ id d q, (id, d) ∈ W.cells none → flags.Flagged id → d.parent = some q →
    flags.lookup q = some (some id)
  flagged_iff : ∀ T ∈ W.parts, flags.Flagged T.id ↔ T.node.meets p.nbrs = true

theorem Draws.trailed {W : Plan} (h : w.Draws S W) (hp : p.Sound (W.cells none)) (hr : p.Reads W)
    (hclimb : w.climbAll [] (p.owners.map Prod.fst).eraseDups = .ok (some flags)) :
    w.Trailed S p W flags := by
  have hids : ∀ id ∈ (p.owners.map Prod.fst).eraseDups, (W.cells none).HasNode id := by
    intro id hid
    obtain ⟨e, he, rfl⟩ := List.mem_map.1 (List.mem_eraseDups.1 hid)
    obtain ⟨s, row?, hholds, heq⟩ := hp e he
    exact heq ▸ h.whole.hasNode hholds
  obtain ⟨out, hout, hall⟩ := h.whole.climbAll_ok Flags.sound_nil hids
  rw [hclimb] at hout
  cases hout
  obtain ⟨hsound, hflagged, -⟩ := hall flags rfl
  refine ⟨h, hsound, fun id d q hid hf hq => ?_, fun T hT => ?_⟩
  · have hexact := climbAll_exact (P := fun _ => True) h.owns (fun _ _ _ _ _ _ => trivial)
      (fun _ _ => trivial) Flags.exact_nil hclimb
    exact (hexact.only id d q hid hf hq).resolve_right (by simp)
  · obtain ⟨bs, rfl⟩ := Plan.exists_under hT
    rw [Node.meets_iff]
    constructor
    · intro hf
      by_contra hnone
      push Not at hnone
      -- All owners are outside the part, and so are all nodes above them.
      have hout : ∀ id ∈ (p.owners.map Prod.fst).eraseDups,
          id ∈ ((ctx bs).cells T.id).map Prod.fst := by
        intro id hid
        obtain ⟨e, he, rfl⟩ := List.mem_map.1 (List.mem_eraseDups.1 hid)
        obtain ⟨s, row?, hholds, heq⟩ := hp e he
        rcases Plan.holds_under.1 hholds with hinside | ⟨d, hd, -, hrow⟩
        · refine absurd ((T.exists_holds_iff _ _).1 ⟨_, hinside⟩) (hnone e.2 ?_)
          exact hr.nbrs ▸ List.mem_map_of_mem he
        · rw [← heq]
          cases row? with
          | none => exact Multiset.mem_map_of_mem Prod.fst hd
          | some q => exact h.formed.ok.rowsInside _ hd q hrow
      have hexact := climbAll_exact (P := fun id => id ∈ ((ctx bs).cells T.id).map Prod.fst) h.owns
        (fun _ _ _ hid hcell hq => h.outside hid hcell hq) hout Flags.exact_nil hclimb
      have hn := h.owns.nodup
      rw [Plan.cells_under, Multiset.map_add, Multiset.nodup_add] at hn
      exact Multiset.disjoint_left.1 hn.2.2 (T.id_mem_cells _) (hexact.within _ hf)
    · rintro ⟨v, hv, hvT⟩
      obtain ⟨U, hU, hvU⟩ := Plan.mem_vertices_iff.1 hvT
      obtain ⟨cs, rfl⟩ := Plan.exists_under hU
      rw [← hr.nbrs] at hv
      obtain ⟨e, he, rfl⟩ := List.mem_map.1 hv
      have hUW : U ∈ ((U.under cs).under bs).parts :=
        Plan.mem_parts_trans hU (Plan.mem_parts_under _ bs)
      refine h.flagged_up hsound ?_
      rw [← (hr.owner e he U hUW).2 hvU]
      exact hflagged e.1 (List.mem_eraseDups.2 (List.mem_map_of_mem he))

/-- All neighbours lie at a node or at the boughs above it, some at the node itself. -/
structure Passes (p : Pass) (T : Plan) (bs : List Bough) : Prop where
  focus : T.node.meets p.nbrs = true
  limbs : ∀ l ∈ T.limbs, l.2.node.meets p.nbrs = false
  others : ∀ b ∈ bs, ∀ l ∈ b.others, l.2.node.meets p.nbrs = false

namespace Trailed

variable {b : Bough}

/-- A node with a neighbour at it or below it is entered from there. -/
theorem lookup_limb (h : w.Trailed S p (T.under bs) flags) (hl : l ∈ T.limbs)
    (hm : l.2.node.meets p.nbrs = true) : flags.lookup l.1 = some (some l.2.id) := by
  obtain ⟨b, rfl, hholder⟩ := Plan.exists_fill hl
  have hW : (b.fill l.2).under bs = l.2.under (b :: bs) := rfl
  obtain ⟨d, hd, hparent, -⟩ := l.2.exists_own_cell (some l.1)
  have hmem : (l.2.id, d) ∈ ((b.fill l.2).under bs).cells none := by
    rw [hW, Plan.cells_under, Plan.ctx, List.map_cons, Ctx.parent, Bough.holder_frame, hholder]
    exact Multiset.mem_add.2 (Or.inl (Plan.own_subset_cells hd))
  refine h.only l.2.id d l.1 hmem ((h.flagged_iff l.2 ?_).2 hm) hparent
  rw [hW]
  exact Plan.mem_parts_under _ _

/-- All neighbours below a node are below the same place. -/
theorem holder_eq {k : NodeId × Plan} (h : w.Trailed S p (T.under bs) flags) (hk : k ∈ T.limbs)
    (hl : l ∈ T.limbs) (hmk : k.2.node.meets p.nbrs = true) (hml : l.2.node.meets p.nbrs = true) :
    k.1 = l.1 := by
  cases T with
  | leaf id held => simp [Plan.limbs] at hk
  | pnode id held children =>
      obtain ⟨c, -, rfl⟩ := List.mem_map.1 hk
      obtain ⟨c', -, rfl⟩ := List.mem_map.1 hl
      rfl
  | qnode q row =>
      -- a Q-node is entered from one section only
      have hentered : ∀ l ∈ (Plan.qnode q row).limbs, l.2.node.meets p.nbrs = true →
          flags.lookup q = some (some l.1) := by
        intro l hl hm
        have hlookup := h.lookup_limb hl hm
        obtain ⟨s, hs, rfl⟩ := List.mem_map.1 hl
        obtain ⟨e, he, rfl⟩ := List.mem_map.1 hs
        obtain ⟨xs, ys, hrow⟩ := List.append_of_mem he
        have hM := Plan.cells_under_row q row bs
        have hkeyed : (row.map Part.top).keyed = xs.map (Row.entry Part.top) ++
            Row.entry Part.top e :: ys.map (Row.entry Part.top) := by
          rw [Row.keyed_map, hrow]
          simp
        exact h.only _ _ q (Arena.Owns.mem_part hM hkeyed) ⟨_, hlookup⟩ rfl
      have heq := hentered k hk hmk
      rw [hentered l hl hml] at heq
      exact (Option.some.inj (Option.some.inj heq)).symm

/-- The way down from a node goes through a bough to the node below it. -/
theorem follow_fill {U : Plan} (h : w.Trailed S p ((b.fill U).under bs) flags)
    (hm : U.node.meets p.nbrs = true) (hf : w.follow flags fuel (b.fill U).id = .ok path) :
    ∃ fuel' rest, w.follow flags fuel' U.id = .ok rest ∧ path = b.frame.step :: rest := by
  have hlimb : (b.holder, U) ∈ (b.fill U).limbs := Bough.mem_limbs_fill.2 (Or.inl rfl)
  have hlookup := h.lookup_limb hlimb hm
  obtain ⟨fuel, rfl⟩ : ∃ k, fuel = k + 1 := by
    cases fuel with
    | zero => cases hf
    | succ k => exact ⟨k, rfl⟩
  rw [Bough.id_fill] at hf
  -- a step to a child takes one unit of fuel, a step through a section takes two
  cases b with
  | branch id held before after =>
      have hcell : w.arena.cell id = .ok (pCell (ctx bs).parent held
          ((before ++ U :: after).map Plan.id)) := by
        refine h.draws.owns.cell_of_mem ?_
        rw [Plan.cells_under]
        exact Multiset.mem_add.2 (Or.inl (Plan.own_subset_cells (Cells.mem_one.2 rfl)))
      simp only [Bough.holder] at hlookup
      simp only [Bough.frame, Frame.node, follow, hlookup, hcell, ok_bind, pCell] at hf
      cases hrest : w.follow flags fuel U.id with
      | error e =>
          rw [hrest] at hf
          cases hf
      | ok rest =>
          rw [hrest] at hf
          cases hf
          exact ⟨fuel, rest, hrest, rfl⟩
  | inRow q flipped xs key s held ys =>
      have hM := Plan.cells_under ((Bough.inRow q flipped xs key s held ys).fill U) bs
      rw [Bough.fill, Plan.cells_qnode, add_assoc] at hM
      have hrow := h.draws.owns.cell_of_mem (Arena.Owns.mem_row hM)
      have hkeyed : ((Row.ofKeyed flipped (xs ++ (key, ⟨s, held, U⟩) :: ys)).map Part.top).keyed =
          xs.map (Row.entry Part.top) ++ (key, ⟨s, held, U.id⟩) :: ys.map (Row.entry Part.top) := by
        simp [Row.keyed_map, Row.entry, Part.top]
      have hslice := Arena.Owns.mem_part hM hkeyed
      obtain ⟨left, right, rank, hkind⟩ := Loose.kind_cell q flipped ⟨⟨s, held, U.id⟩, key,
        Entries.lastId (xs.map (Row.entry Part.top)) none,
        Entries.firstId (ys.map (Row.entry Part.top)) none⟩
      simp only [Bough.holder] at hlookup
      have hq : flags.lookup q = some (some s) := h.only s _ q hslice ⟨_, hlookup⟩ rfl
      have hcell := h.draws.owns.cell_of_mem hslice
      simp only [Row.map, Row.withKeyed_eq, Row.flipped_ofKeyed] at hcell
      obtain ⟨first, last, flip, hqkind⟩ := kind_rowCell (ctx bs).parent
        ((Row.ofKeyed flipped (xs ++ (key, ⟨s, held, U⟩) :: ys)).map Part.top).flipped
        ((Row.ofKeyed flipped (xs ++ (key, ⟨s, held, U⟩) :: ys)).map Part.top).firstPart
        ((Row.ofKeyed flipped (xs ++ (key, ⟨s, held, U⟩) :: ys)).map Part.top).lastPart
      simp only [Bough.frame, Frame.node, follow, hq, hrow, ok_bind, hqkind] at hf
      cases fuel with
      | zero => cases hf
      | succ fuel =>
          simp only [follow, hlookup, hcell, ok_bind, hkind] at hf
          cases hrest : w.follow flags fuel U.id with
          | error e =>
              rw [hrest] at hf
              cases hf
          | ok rest =>
              rw [hrest] at hf
              cases hf
              exact ⟨fuel, rest, hrest, rfl⟩

/-- A node with no neighbours below it is entered from nowhere. -/
theorem lookup_end (h : w.Trailed S p (T.under bs) flags)
    (hnone : ∀ l ∈ T.limbs, l.2.node.meets p.nbrs = false) (child : NodeId) :
    flags.lookup T.id ≠ some (some child) := by
  intro hlookup
  have hflagged : ∀ l ∈ T.limbs, ¬ flags.Flagged l.2.id := by
    intro l hl hf
    have hlW : l.2 ∈ (T.under bs).parts := Plan.mem_parts_trans
      (Plan.mem_parts_iff.2 (Or.inr ⟨l, hl, l.2.self_mem_parts⟩)) (Plan.mem_parts_under T bs)
    rw [h.flagged_iff l.2 hlW, hnone l hl] at hf
    cases hf
  have hM := Plan.cells_under T bs
  obtain ⟨⟨d, hd, hparent⟩, hf⟩ := h.sound.entered _ _ hlookup
  cases T with
  | leaf id held =>
      have hcell : (id, leafCell (ctx bs).parent held) ∈ ((Plan.leaf id held).under bs).cells none := by
        simp [hM]
      have := h.draws.whole.below hd hparent hcell
      simp [leafCell] at this
  | pnode id held children =>
      have hcell : (id, pCell (ctx bs).parent held (children.map Plan.id)) ∈
          ((Plan.pnode id held children).under bs).cells none := by
        rw [hM, Plan.cells_pnode]
        simp
      have hmem : child ∈ children.map Plan.id := by
        obtain ⟨before, after, heq⟩ : ∃ before after,
            children.map Plan.id = before ++ child :: after := by
          simpa [pCell] using h.draws.whole.below hd hparent hcell
        simp [heq]
      obtain ⟨c, hc, rfl⟩ := List.mem_map.1 hmem
      exact hflagged (id, c) (List.mem_map_of_mem hc) hf
  | qnode q row =>
      rw [Plan.cells_qnode, add_assoc] at hM
      have hslice : (((Plan.qnode q row).under bs).cells none).HasSlice child q := by
        obtain ⟨_, _, _, hkind⟩ := kind_rowCell (ctx bs).parent (row.map Part.top).flipped
          (row.map Part.top).firstPart (row.map Part.top).lastPart
        have hbelow := h.draws.whole.below hd hparent (Arena.Owns.mem_row hM)
        rw [hkind] at hbelow
        simpa [Plan.id] using hbelow
      have hinside : (Plan.limbCells (Plan.sons row) + (ctx bs).cells q).RowsInside :=
        (Cells.RowsInside.of_trees (Plan.trees_limbs fun l (hl : l ∈ Plan.sons row) =>
          (h.draws.formed.focus.limb hl).trees (some l.1))).add h.draws.formed.ok.rowsInside
      obtain ⟨xs, e, ys, hkeyed, rfl⟩ := entry_of_slice h.draws.owns hM hinside hslice
      have hsec := Arena.Owns.mem_part hM hkeyed
      obtain ⟨_, _, _, hkind⟩ := Loose.kind_cell q (row.map Part.top).flipped
        ⟨e.2, e.1, Entries.lastId xs none, Entries.firstId ys none⟩
      obtain ⟨child?, hchild⟩ := hf
      cases child? with
      | none =>
          -- No climb starts at a section.
          obtain ⟨d', hd', hnode⟩ := h.sound.started _ hchild
          rw [h.draws.owns.eq_of_mem hd' hsec, hkind] at hnode
          cases hnode
      | some y =>
          obtain ⟨⟨d', hd', hparent'⟩, hf⟩ := h.sound.entered _ _ hchild
          have hson : e.2.son = y := by
            have hbelow := h.draws.whole.below hd' hparent' hsec
            rw [hkind] at hbelow
            simpa using hbelow
          have hmem : e.2 ∈ (row.map Part.top).toList := by
            rw [Row.toList, hkeyed]
            simp
          rw [Row.toList_map] at hmem
          obtain ⟨part, hpart, heq⟩ := List.mem_map.1 hmem
          refine hflagged (part.id, part.son) (List.mem_map_of_mem hpart) ?_
          rw [← heq] at hson
          exact (congrArg flags.Flagged hson).mpr hf

/-- The path to which the flags lead from a node passes by no other neighbour. -/
theorem follow_eq (h : w.Trailed S p (T.under bs) flags) (hT : T.node.meets p.nbrs = true)
    (hf : w.follow flags fuel T.id = .ok path) :
    ∃ (cs : List Bough) (U : Plan), T = U.under cs ∧ path = Ctx.steps (ctx cs) U.id ∧
      Passes p U cs := by
  induction T using Plan.induction generalizing bs fuel path with
  | step T ih =>
      by_cases hsome : ∃ l ∈ T.limbs, l.2.node.meets p.nbrs = true
      · obtain ⟨l, hl, hm⟩ := hsome
        obtain ⟨b, rfl, hholder⟩ := Plan.exists_fill hl
        obtain ⟨fuel', rest, hrest, rfl⟩ := h.follow_fill hm hf
        obtain ⟨cs, U, hU, rfl, hmeets, hlimbs, hothers⟩ := @ih l hl _ (b :: bs) _ h hm hrest
        refine ⟨cs ++ [b], U, by rw [Plan.under_append, ← hU]; rfl, ?_, hmeets, hlimbs, fun b' hb' => ?_⟩
        · rw [show ctx (cs ++ [b]) = ctx cs ++ [b.frame] from List.map_append, Ctx.steps_concat]
        rcases List.mem_append.1 hb' with hb' | hb'
        · exact hothers b' hb'
        obtain rfl := List.mem_singleton.1 hb'
        intro k hk
        -- a neighbour beside the path would be in the subtree into which the flags of its holder lead
        by_contra hmk
        rw [Bool.not_eq_false] at hmk
        have hk' := Bough.others_mem_limbs (T := l.2) hk
        have hl' := Bough.mem_limbs_fill.2 (Or.inl (rfl : (b'.holder, l.2) = _))
        have hlookup := h.lookup_limb hk' hmk
        rw [h.holder_eq hk' hl' hmk hm, h.lookup_limb hl' hm] at hlookup
        have hn := Plan.nodup_limbs (h.draws.nodup_focus)
        obtain ⟨before, after, hlist, hothers'⟩ := b'.limbs_fill l.2
        rw [hlist, List.map_append, List.map_cons, List.nodup_middle, ← List.map_append, ← hothers',
          List.nodup_cons] at hn
        refine hn.1 ?_
        rw [Option.some.inj (Option.some.inj hlookup)]
        exact List.mem_map_of_mem (f := fun k : NodeId × Plan => k.2.id) hk
      · push Not at hsome
        simp only [ne_eq, Bool.not_eq_true] at hsome
        refine ⟨[], T, rfl, ?_, hT, hsome, by simp⟩
        cases fuel with
        | zero => cases hf
        | succ fuel =>
            -- without a neighbour below it the node has no flag of a child
            cases hlookup : flags.lookup T.id with
            | none =>
                simp only [follow, hlookup] at hf
                cases hf
            | some child? =>
                cases child? with
                | some child => exact absurd hlookup (h.lookup_end hsome child)
                | none =>
                    obtain ⟨d, hd, -, hnode⟩ := T.exists_own_cell (ctx bs).parent
                    have hcell : w.arena.cell T.id = .ok d := by
                      refine h.draws.owns.cell_of_mem ?_
                      rw [Plan.cells_under]
                      exact Multiset.mem_add.2 (Or.inl (Plan.own_subset_cells hd))
                    simp only [follow, hlookup, hcell, ok_bind, pure_eq_ok] at hf
                    cases hk : d.kind <;> rw [hk] at hf hnode <;> cases hf <;>
                      first | rfl | cases hnode

end Trailed

/-- The path of an insertion leads to the lowest node with a neighbour and passes by all others. -/
theorem Draws.path_eq {W : Plan} (h : w.Draws S W) (hp : p.Sound (W.cells none)) (hr : p.Reads W)
    (hne : p.owners ≠ []) (hpath : w.path? p = .ok (some path)) :
    ∃ (bs : List Bough) (T : Plan), W = T.under bs ∧ path = Ctx.steps (ctx bs) T.id ∧
      Passes p T bs := by
  unfold Work.path? at hpath
  cases hclimb : w.climbAll [] (p.owners.map Prod.fst).eraseDups with
  | error e =>
      rw [hclimb] at hpath
      cases hpath
  | ok out =>
      cases out with
      | none =>
          rw [hclimb] at hpath
          cases hpath
      | some flags =>
          have htrail := h.trailed hp hr hclimb
          have hW : W.node.meets p.nbrs = true := by
            obtain ⟨e, he⟩ := List.exists_mem_of_ne_nil _ hne
            obtain ⟨T, hT, hid⟩ := hr.part e he
            refine Node.meets_iff.2 ⟨e.2, hr.nbrs ▸ List.mem_map_of_mem he, ?_⟩
            exact Plan.mem_vertices_iff.2 ⟨T, hT, (hr.owner e he T hT).1 hid⟩
          simp only [hclimb, ok_bind, h.owns.root_eq] at hpath
          cases hfollow : w.follow flags (w.arena.cells.size + 1) W.id with
          | error e =>
              rw [hfollow] at hpath
              cases hpath
          | ok steps =>
              rw [hfollow, ok_bind] at hpath
              -- the path that is returned is the one that was followed
              have hsteps : steps = path := by
                split at hpath
                · cases hpath
                · simpa [pure_eq_ok] using hpath
              exact @Trailed.follow_eq _ _ _ _ _ [] _ _ htrail hW (hsteps ▸ hfollow)

end Work

end CliquePath
