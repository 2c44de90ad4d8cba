import CliquePath.Proofs.LinkedTree.Reading

set_option autoImplicit false

/-!
# Changes at one row

This module shows that a vertex can be put in below a section of a row or below a new section, and
that the vertices of a whole row can move into a P-node above it. A new section stands in a gap that
the search has found; it holds what the row owns of the neighbours, so the runs of these vertices may
grow into it.
-/

namespace CliquePath

open Cells (one)

/-- The owner of every neighbour holds it, itself or in its row. -/
def Pass.Sound (p : Pass) (M : Cells) : Prop :=
  ∀ e ∈ p.owners, ∃ s row?, M.Holds e.2 (s, row?) ∧ row?.getD s = e.1

namespace Work

variable {w : Work} {S : Set Vertex} {c : Ctx} {x q s : NodeId} {m n : Cells} {p : Pass}
variable {R : Row (Part NodeId)} {xs ys : Entries} {u v : Vertex} {d : Cell}

/-! ## A row in focus -/

/-- The node in focus is a Q-node with the given row, above trees of the given cells. -/
structure RowStands (w : Work) (S : Set Vertex) (c : Ctx) (q : NodeId) (R : Row (Part NodeId))
    (n : Cells) : Prop where
  owns : w.arena.Owns (some (c.top q)) (R.cellsAt q c.parent + n + c.cells q)
  agree : w.slots.Agree S (R.cellsAt q c.parent + n + c.cells q)
  touched : ∀ t ∈ w.touched, t ∈ n.map Prod.fst
  sons : Trees (sonLinks R.keyed) n
  ascending : R.Ascending
  keyed_ne : R.keyed ≠ []

theorem RowStands.stands (h : w.RowStands S c q R n) :
    w.Stands S c q (R.cellsAt q c.parent + n) := by
  refine ⟨h.owns, h.agree, fun t ht => ?_⟩
  rw [Multiset.map_add, Multiset.mem_add]
  exact Or.inr (h.touched t ht)

theorem RowStands.settled (h : w.RowStands S c q R n) : w.Settled S c :=
  ⟨q, _, h.stands, .of_shape (.qnode h.keyed_ne h.ascending h.sons)⟩

theorem RowStands.whole (h : w.RowStands S c q R n) (hc : c.Ok) :
    w.Whole S (c.top q) (R.cellsAt q c.parent + n + c.cells q) :=
  h.stands.whole hc (.of_shape (.qnode h.keyed_ne h.ascending h.sons))

/-- The neighbours that a Q-node owns have runs in its row. -/
theorem RowStands.ends_of_owned (h : w.RowStands S c q R n) (hc : c.Ok)
    (hp : p.Sound (R.cellsAt q c.parent + n + c.cells q)) (hv : v ∈ p.ownedBy q) :
    (w.slots.get v).Ends (R.HoldsAt v) := by
  obtain ⟨e, he, rfl⟩ := List.mem_map.1 hv
  rw [List.mem_filter, beq_iff_eq] at he
  obtain ⟨s, row?, hholds, hrow⟩ := hp e he.1
  rw [add_assoc, Cells.holds_add] at hholds
  rw [he.2] at hrow
  -- outside the row no cell is held by a node with this identity
  rcases hholds with hholds | hholds
  · obtain ⟨part, hpart, hheld, -⟩ := Cells.holds_cellsAt.1 hholds
    exact (h.stands.of_row hc h.sons hpart hheld).2.1
  · have hnot := h.stands.row_not_mem_ids
    cases row? with
    | none =>
        cases hrow
        exact absurd hholds.mem_ids hnot
    | some q' =>
        cases hrow
        exact absurd hholds ((Stands.rowsInside h.sons hc).not_holds hnot)

/-! ## Going up -/

/-- A tree in the focus is part of a tree around the frame above. -/
theorem Settled.up {f : Frame} (h : w.Settled S (f :: c)) (hf : f.Ok) : w.Settled S c := by
  obtain ⟨x, m, hs, hm⟩ := h
  have hcells : m + Ctx.cells (f :: c) x = m + f.cells c.parent x + c.cells f.node := by
    rw [Ctx.cells, add_assoc]
  refine ⟨f.node, m + f.cells c.parent x, ⟨hs.owns.congr hcells, hcells ▸ hs.agree,
    fun t ht => ?_⟩, hf.close hm⟩
  rw [Multiset.map_add, Multiset.mem_add]
  exact Or.inl (hs.touched t ht)

/-! ## Below a section -/

/-- A node gets a new P-node above it, with a new leaf beside it. -/
theorem Stands.pairUp (h : w.Stands S c x (one x d + n)) (hc : c.Ok) (hd : d.parent = c.parent)
    (hs : d.kind.isSlice = false) (hu : u ∉ S) :
    ∃ w' top leaf, w.pairUp x u = .ok (w', top) ∧ w'.slots = w.slots.put u (.node leaf) ∧
      w'.Stands (insert u S) c top
      (one top (pCell c.parent [] [x, leaf]) + (one leaf (leafCell (some top) [u]) +
        (one x { d with parent := some top } + n))) := by
  obtain ⟨a, top, leaf, h', o'⟩ := pairUp_owns h.owns hc (add_assoc _ _ _) hd hs u
  refine ⟨_, top, leaf, h', rfl, o'.congr (by abel), ?_, fun t ht => ?_⟩
  · refine h.agree.newcomer hu fun v r => ?_
    simp only [Cells.holds_add, Cells.holds_one, held_pCell, held_leafCell, List.mem_singleton,
      List.not_mem_nil, false_and, false_or, Ctx.holds_cells c top x, Cell.row?,
      hs, Bool.false_eq_true, if_false]
    tauto
  · have hmem := h.touched t ht
    simp only [Multiset.map_add, Cells.map_fst_one, Multiset.mem_add, Multiset.mem_singleton]
      at hmem ⊢
    tauto

/-- A vertex can be put in below a section. -/
theorem Stands.attachBelow {f : Frame} (h : w.Stands S (f :: c) x m) (hc : Ctx.Ok (f :: c))
    (hm : Trees {(some f.holder, x)} m) {l : SliceLinks} (hl : w.arena.links s = .ok l)
    (hson : l.son = x) (hu : p.vertex ∉ S) :
    ∃ w', w.attachBelow p s = .ok w' ∧ w'.Settled (insert p.vertex S) (f :: c) := by
  -- Whatever does not take the vertex itself is paired up with it.
  have hpair : ∀ d, w.arena.cell x = .ok d → (d.held.isEmpty && d.kind = .leaf) = false →
      (d.held.isEmpty && d.kind.isP) = false →
      ∃ w', w.attachBelow p s = .ok w' ∧ w'.Settled (insert p.vertex S) (f :: c) := by
    intro d hd hleaf hp
    obtain ⟨d', n, rfl, hs, hparent, hall⟩ := hm.shape.reparent
    obtain rfl : d' = d := by
      rw [h.owns.cell (add_assoc _ _ _)] at hd
      exact Except.ok.inj hd
    obtain ⟨w', top, leaf, h', -, hst⟩ := h.pairUp hc hparent hs hu
    refine ⟨w'.touch [top], ?_, top, _, hst.touch (by simp), .of_shape (.pnode _ (by simp) ?_)⟩
    · simp only [Work.attachBelow, hl, hson, hd, ok_bind, hleaf, hp, Bool.false_eq_true, if_false,
        h', pure_eq_ok]
    · rw [childLinks_cons, childLinks_cons, add_left_comm]
      refine (Trees.of_shape (.leaf _)).add ?_
      simpa [childLinks] using hall (some top)
  have hshape := hm.shape
  cases hshape with
  | leaf held =>
      have hcell := h.owns.cell rfl
      cases held with
      | cons v rest => exact hpair _ hcell rfl rfl
      | nil =>
          obtain ⟨a, h', hst⟩ := Stands.joinLeaf (c := f :: c) h hu
          refine ⟨_, ?_, x, _, hst, .of_shape (.leaf _)⟩
          simp only [Work.attachBelow, hl, hson, hcell, ok_bind, held_leafCell]
          simp only [List.nil_append] at h'
          simp [leafCell, h', ok_bind, pure_eq_ok]
  | @pnode held children n hne rest =>
      have hcell := h.owns.cell (add_assoc _ _ _)
      cases held with
      | cons v rest => exact hpair _ hcell rfl rfl
      | nil =>
          obtain ⟨w', leaf, h', -, hst⟩ := Stands.adoptLeaf (c := f :: c) h hu
          refine ⟨w'.touch [x], ?_, x, _, hst.touch (by simp), .of_shape (.pnode _ (by simp) ?_)⟩
          · simp only [Work.attachBelow, hl, hson, hcell, ok_bind, held_pCell]
            simp [pCell, Kind.isP, h', ok_bind, pure_eq_ok]
          · rw [childLinks_append, add_comm]
            exact (Trees.of_shape (.leaf _)).add rest
  | @qnode R n hne hasc rest =>
      have hcell := h.owns.cell_of_mem (Multiset.mem_add.2 (Or.inl (Arena.Owns.mem_row rfl)))
      refine hpair _ hcell ?_ ?_ <;> cases R.flipped <;> rfl

/-! ## Runs that grow -/

/-- Replacing an end of the run of a vertex changes no other slot, and the ends of the run keep a
condition that the new end satisfies. -/
theorem moveEnd?_spec (w : Work) (v : Vertex) (old? : Option NodeId) (new : NodeId) :
    (w.moveEnd? v old? new).arena = w.arena ∧ (w.moveEnd? v old? new).touched = w.touched ∧
      (∀ x, x ≠ v → (w.moveEnd? v old? new).slots.get x = w.slots.get x) ∧
      ∀ x P, P new → (w.slots.get x).Ends P → ((w.moveEnd? v old? new).slots.get x).Ends P := by
  cases old? with
  | none => exact ⟨rfl, rfl, fun _ _ => rfl, fun _ _ _ h => h⟩
  | some old =>
      simp only [moveEnd?, moveEnd]
      cases hslot : w.slots.get v with
      | absent => exact ⟨rfl, rfl, fun _ _ => rfl, fun _ _ _ h => h⟩
      | node id => exact ⟨rfl, rfl, fun _ _ => rfl, fun _ _ _ h => h⟩
      | span one other =>
          -- the ends of the one slot that changes are ends of the old slot, or the new end
          have hput : ∀ slot, (∀ P : NodeId → Prop, P new → P one ∧ P other → slot.Ends P) →
              (∀ x, x ≠ v → (w.slots.put v slot).get x = w.slots.get x) ∧
                ∀ x P, P new → (w.slots.get x).Ends P → ((w.slots.put v slot).get x).Ends P := by
            intro slot hends
            refine ⟨fun x hx => by simp [hx], fun x P hnew hP => ?_⟩
            by_cases hx : x = v
            · subst hx
              rw [hslot] at hP
              simpa using hends P hnew hP
            · simpa [hx] using hP
          dsimp only
          split
          next =>
            obtain ⟨hother, hends⟩ := hput (.span new other) fun P hnew hP => ⟨hnew, hP.2⟩
            exact ⟨rfl, rfl, hother, hends⟩
          next =>
            split
            next =>
              obtain ⟨hone, hends⟩ := hput (.span one new) fun P hnew hP => ⟨hP.1, hnew⟩
              exact ⟨rfl, rfl, hone, hends⟩
            next => exact ⟨rfl, rfl, fun _ _ => rfl, fun _ _ _ h => h⟩

theorem foldl_moveEnd?_spec (moves : List (Vertex × Option NodeId)) (new : NodeId) (w : Work) :
    (moves.foldl (fun w m => w.moveEnd? m.1 m.2 new) w).arena = w.arena ∧
      (moves.foldl (fun w m => w.moveEnd? m.1 m.2 new) w).touched = w.touched ∧
      (∀ x, x ∉ moves.map Prod.fst →
        (moves.foldl (fun w m => w.moveEnd? m.1 m.2 new) w).slots.get x = w.slots.get x) ∧
      ∀ x P, P new → (w.slots.get x).Ends P →
        ((moves.foldl (fun w m => w.moveEnd? m.1 m.2 new) w).slots.get x).Ends P := by
  induction moves generalizing w with
  | nil => exact ⟨rfl, rfl, fun _ _ => rfl, fun _ _ _ h => h⟩
  | cons m rest ih =>
      obtain ⟨h₁, h₂, h₃, h₄⟩ := moveEnd?_spec w m.1 m.2 new
      obtain ⟨k₁, k₂, k₃, k₄⟩ := ih (w.moveEnd? m.1 m.2 new)
      rw [List.foldl_cons]
      refine ⟨k₁.trans h₁, k₂.trans h₂, fun x hx => ?_, fun x P hnew hP => k₄ x P hnew (h₄ x P hnew hP)⟩
      rw [List.map_cons, List.mem_cons, not_or] at hx
      rw [k₃ x hx.2, h₃ x hx.1]

/-! ## A new section -/

/-- The slots agree with a row that has one more section, with the new vertex below it, if the runs of
the neighbours that the row owns end there or where they ended. -/
theorem RowStands.agree_newSection (h : w.RowStands S c q R n) (hc : c.Ok) (hu : p.vertex ∉ S)
    (howned : ∀ v ∈ p.ownedBy q, (w.slots.get v).Ends (R.HoldsAt v)) {slots : Slots} {i : Nat}
    {s leaf : NodeId}
    (hother : ∀ v, v ∉ p.ownedBy q → slots.get v = (w.slots.put p.vertex (.node leaf)).get v)
    (hends : ∀ v P, P s → ((w.slots.put p.vertex (.node leaf)).get v).Ends P → (slots.get v).Ends P) :
    slots.Agree (insert p.vertex S)
      ((R.insertAt i ⟨s, p.ownedBy q, leaf⟩).cellsAt q c.parent +
        (one leaf (leafCell (some s) [p.vertex]) + n) + c.cells q) := by
  have hst := h.stands
  -- first the leaf with the new vertex, then the section with the neighbours
  have hnew : (w.slots.put p.vertex (.node leaf)).Agree (insert p.vertex S)
      (one leaf (leafCell (some s) [p.vertex]) + (R.cellsAt q c.parent + n + c.cells q)) := by
    refine hst.agree.newcomer hu fun v r => ?_
    simp only [Cells.holds_add, Cells.holds_one, held_leafCell, row?_leafCell,
      List.mem_singleton]
    tauto
  refine hnew.update fun v => ?_
  -- a neighbour in the row has a run there, which may have a new end
  by_cases hv : v ∈ p.ownedBy q
  · obtain ⟨part, hpart, hheld⟩ := (howned v hv).exists_part
    obtain ⟨hvS, hrun, hout⟩ := hst.of_row hc h.sons hpart hheld
    have hne : v ≠ p.vertex := fun heq => hu (heq ▸ hvS)
    have hends' := hends v (fun id => id = s ∨ R.HoldsAt v id) (Or.inl rfl) (by
      simpa [hne] using hrun.mono fun id hid => Or.inr hid)
    refine Or.inr ⟨Or.inr hvS, hends'.ne_absent, hends'.fits (q := q) (fun id hid => ?_)
      fun r hr => ?_⟩
    · rw [Cells.holds_add, Cells.holds_add, Cells.holds_insertAt]
      rcases hid with rfl | hid
      · exact Or.inl (Or.inl (Or.inr ⟨hv, rfl⟩))
      · exact Or.inl (Or.inl (Or.inl (hid.holds q c.parent)))
    · simp only [Cells.holds_add, Cells.holds_insertAt, Cells.holds_one, held_leafCell,
        List.mem_singleton, hne, false_and, false_or] at hr hout
      rcases hr with (((hr | hr) | hr) | hr)
      · obtain ⟨part, -, -, rfl⟩ := Cells.holds_cellsAt.1 hr
        rfl
      · rw [hr.2]
      · exact absurd (Or.inl hr) (hout r)
      · exact absurd (Or.inr hr) (hout r)
  · refine Or.inl ⟨hother v hv, fun r => ?_⟩
    simp only [Cells.holds_add, Cells.holds_insertAt, hv, false_and, or_false]
    tauto

/-- A vertex can be put in below a new section, at a gap or an end of a row. -/
theorem RowStands.newSection (h : w.RowStands S c q R n) (hc : c.Ok) (hR : R.keyed = xs ++ ys)
    (hu : p.vertex ∉ S)
    (howned : ∀ v ∈ p.ownedBy q, (w.slots.get v).Ends (R.HoldsAt v))
    {moves : List (Vertex × Option NodeId)} (hmoves : ∀ m ∈ moves, m.1 ∈ p.ownedBy q) :
    ∃ w' s leaf, w.newSection p q (Entries.lastId xs none) (Entries.firstId ys none) moves =
        .ok (w', s) ∧
      w'.RowStands (insert p.vertex S) c q (R.insertAt xs.length ⟨s, p.ownedBy q, leaf⟩)
        (one leaf (leafCell (some s) [p.vertex]) + n) := by
  obtain ⟨a₁, leaf, hnew, o₁⟩ := newLeaf_owns h.owns p.vertex
  obtain ⟨a₂, s, hins, o₂⟩ := o₁.insertSlice_row (R := R) (q := q) (m := n + c.cells q)
    (by abel) hR (p.ownedBy q)
  have hspec := foldl_moveEnd?_spec moves s
    { w with arena := a₂, slots := w.slots.put p.vertex (.node leaf) }
  generalize hw' : moves.foldl (fun w m => w.moveEnd? m.1 m.2 s)
    { w with arena := a₂, slots := w.slots.put p.vertex (.node leaf) } = w' at hspec
  obtain ⟨harena, htouched, hother, hends⟩ := hspec
  refine ⟨w', s, leaf, by simp only [Work.newSection, hnew, hins, ok_bind, pure_eq_ok, hw'],
    ?_, ?_, ?_, ?_, h.ascending.insertAt _ _, ?_⟩
  · rw [harena]
    refine o₂.congr ?_
    rw [show ({ leafCell none [p.vertex] with parent := some s } : Cell) =
      leafCell (some s) [p.vertex] from rfl]
    abel
  · refine h.agree_newSection hc hu howned (fun v hv => hother v fun hmem => ?_) hends
    obtain ⟨m, hm, rfl⟩ := List.mem_map.1 hmem
    exact hv (hmoves m hm)
  · rw [htouched]
    intro t ht
    rw [Multiset.map_add, Multiset.mem_add]
    exact Or.inr (h.touched t ht)
  · -- the sons of the row are the old ones and the leaf
    have hlinks : sonLinks (R.insertAt xs.length ⟨s, p.ownedBy q, leaf⟩).keyed =
        sonLinks (xs ++ (0, ⟨s, p.ownedBy q, leaf⟩) :: ys) := by
      refine sonLinks_congr ?_
      have hlist := Row.toList_insertAt R xs.length ⟨s, p.ownedBy q, leaf⟩
      simpa [Row.toList, hR] using hlist
    rw [hlinks, sonLinks_split, ← hR]
    exact (Trees.of_shape (.leaf _)).add h.sons
  · intro hnil
    have hmem : ⟨s, p.ownedBy q, leaf⟩ ∈ (R.insertAt xs.length ⟨s, p.ownedBy q, leaf⟩).toList :=
      Row.mem_insertAt.2 (Or.inr rfl)
    simp [Row.toList, hnil] at hmem

/-- The node below a section of the row in focus comes into focus. -/
theorem RowStands.down (h : w.RowStands S c q R n) (ht : w.touched = [])
    {e : Int × Part NodeId} (hR : R.keyed = xs ++ e :: ys) :
    ∃ rest m, (Frame.inRow q R.flipped xs e.1 e.2.id e.2.held ys rest).Ok ∧
      w.Stands S (.inRow q R.flipped xs e.1 e.2.id e.2.held ys rest :: c) e.2.son m ∧
      Trees {(some e.2.id, e.2.son)} m := by
  have hsons := h.sons
  rw [hR, sonLinks_split] at hsons
  obtain ⟨m, rest, rfl, hm, hrest⟩ := hsons.split
  have hasc := h.ascending
  rw [Row.Ascending, ← List.pairwise_map, hR] at hasc
  have hcells : R.cellsAt q c.parent + (m + rest) + c.cells q =
      m + Ctx.cells (.inRow q R.flipped xs e.1 e.2.id e.2.held ys rest :: c) e.2.son := by
    rw [Ctx.cells, Ctx.cells_inRow hR, Frame.node]
    abel
  exact ⟨rest, m, ⟨hrest, by simpa using hasc⟩, ⟨h.stands.owns.congr hcells,
    hcells ▸ h.stands.agree, by simp [ht]⟩, hm⟩

/-! ## Putting a vertex in at a Q-node -/

/-- What becomes of a tree in which a vertex was put in at some node: it is a tree again, and if the
answer names a Q-node, that one is in focus. If there was no room, it may be no tree any longer. -/
def Placed (w : Work) (S : Set Vertex) (c : Ctx) : Option (Option NodeId) → Prop
  | none => w.Within S
  | some none => w.Settled S c
  | some (some q) => ∃ R n, w.RowStands S c q R n

/-- A list of steps that succeed. -/
theorem mapM_ok {α β : Type} (f : α → Except TreeFault β) (l : List α)
    (h : ∀ x ∈ l, ∃ y, f x = .ok y) :
    ∃ ys, l.mapM f = .ok ys ∧ ys.length = l.length ∧ ∀ y ∈ ys, ∃ x ∈ l, f x = .ok y := by
  induction l with
  | nil => exact ⟨[], rfl, rfl, by simp⟩
  | cons x rest ih =>
      obtain ⟨y, hy⟩ := h x List.mem_cons_self
      obtain ⟨ys, hys, hlen, hall⟩ := ih fun z hz => h z (List.mem_cons_of_mem _ hz)
      refine ⟨y :: ys, by simp only [List.mapM_cons, hy, hys, ok_bind, pure_eq_ok], by simp [hlen],
        fun z hz => ?_⟩
      rcases List.mem_cons.1 hz with rfl | hz
      · exact ⟨x, List.mem_cons_self, hy⟩
      · obtain ⟨x', hx', hfx⟩ := hall z hz
        exact ⟨x', List.mem_cons_of_mem _ hx', hfx⟩

/-- At a Q-node a vertex is put in below a section or into a new one, or there is no room for it. -/
theorem RowStands.placeInRow (h : w.RowStands S c q R n) (hc : c.Ok)
    (ht : w.touched = []) (hp : p.Sound (R.cellsAt q c.parent + n + c.cells q))
    (hu : p.vertex ∉ S) :
    ∃ w' r, w.placeInRow p q = .ok (w', r) ∧ w'.Placed (insert p.vertex S) c r := by
  have hwhole := h.whole hc
  have hM : R.cellsAt q c.parent + n + c.cells q = R.cellsAt q c.parent + (n + c.cells q) :=
    add_assoc _ _ _
  have howned := fun v (hv : v ∈ p.ownedBy q) => h.ends_of_owned hc hp hv
  rcases hwhole.commonEnds_row hM h.keyed_ne h.ascending howned with hends |
    ⟨xs, e, ys, f, hf, hR, hends⟩
  · exact ⟨w, none, by simp only [Work.placeInRow, hends, ok_bind, pure_eq_ok],
      h.stands.within.insert _⟩
  have hfuel : (e :: ys).length ≤ w.arena.cells.size + 1 := by
    have hcard := h.stands.owns.card_le
    have hlen : (e :: ys).length ≤ R.keyed.length := by simp [hR]
    simp only [Multiset.card_add, Row.cellsAt, Loose.card_cells, Entries.length_linked] at hcard
    omega
  obtain ⟨range, hrange, hmem⟩ := hwhole.sliceRange_row hM hR hf hfuel
  rcases hwhole.findHolding_row hM (p.ownedBy q).length hmem with hfound | ⟨d, hd, hfound⟩
  · rcases hwhole.gapAt_row hM p hR hmem f.2.id with hgap | ⟨as, bs, hsplit, hgap⟩
    · exact ⟨w, none, by simp only [Work.placeInRow, hends, hrange, hfound, hgap, ok_bind, pure_eq_ok],
        h.stands.within.insert _⟩
    · obtain ⟨moves, hmoves, -, hall⟩ := mapM_ok
        (fun v => do return (v, ← w.growsFrom v (Entries.lastId as none, Entries.firstId bs none)))
        (p.ownedBy q) (fun v _ => by
          obtain ⟨old?, hold⟩ := hwhole.growsFrom_ok hM hsplit v
          exact ⟨(v, old?), by simp only [hold, ok_bind, pure_eq_ok]⟩)
      have hfst : ∀ m ∈ moves, m.1 ∈ p.ownedBy q := by
        intro m hm
        obtain ⟨v, hv, heq⟩ := hall m hm
        obtain ⟨old?, hold⟩ := hwhole.growsFrom_ok hM hsplit v
        rw [hold] at heq
        cases heq
        exact hv
      obtain ⟨w', s, leaf, hnew, hrow⟩ := h.newSection hc hsplit hu howned hfst
      refine ⟨w', some (some q), ?_, _, _, hrow⟩
      simp only [pure_eq_ok] at hmoves
      simp only [Work.placeInRow, hends, hrange, hfound, hgap, ok_bind, hmoves, hnew, pure_eq_ok]
  · obtain ⟨xs', ys', hR'⟩ := List.append_of_mem hd
    obtain ⟨rest, m, hok, hst, hm⟩ := h.down ht hR'
    have hlinks := h.stands.owns.links_row hM hR'
    obtain ⟨w', hattach, hset⟩ := hst.attachBelow (List.forall_mem_cons.2 ⟨hok, hc⟩) hm hlinks rfl hu
    refine ⟨w', some none, ?_, hset.up hok⟩
    simp only [Work.placeInRow, hends, hrange, hfound, ok_bind, hattach, pure_eq_ok]

/-- A vertex is put in at a single node, or there is no room for it there. -/
theorem Stands.placeAt (h : w.Stands S c x m) (hc : c.Ok) (hm : Trees {(c.parent, x)} m)
    (ht : w.touched = []) (hp : p.Sound (m + c.cells x)) (hu : p.vertex ∉ S) :
    ∃ w' r, w.placeAt p x = .ok (w', r) ∧ w'.Placed (insert p.vertex S) c r := by
  have hshape := hm.shape
  cases hshape with
  | leaf held =>
      have hcell := h.owns.cell rfl
      obtain ⟨w', h', hset⟩ := h.placeInLeaf hc hu
      refine ⟨w', some none, ?_, hset⟩
      simp only [Work.placeAt, hcell, ok_bind, leafCell, h', pure_eq_ok]
  | @pnode held children n hne rest =>
      have hcell := h.owns.cell (add_assoc _ _ _)
      obtain ⟨w', h', hset⟩ := h.placeBelow hc rest hne hu
      refine ⟨w', some none, ?_, hset⟩
      simp only [Work.placeAt, hcell, ok_bind, pCell, h', pure_eq_ok]
  | @qnode R n hne hasc rest =>
      have hcell := h.owns.cell_of_mem (Multiset.mem_add.2 (Or.inl (Arena.Owns.mem_row rfl)))
      obtain ⟨w', r, h', hset⟩ := RowStands.placeInRow ⟨h.owns, h.agree, by simp [ht], rest, hasc, hne⟩ hc ht
        hp hu
      refine ⟨w', r, ?_, hset⟩
      cases hf : R.flipped <;> simp [Work.placeAt, hcell, ok_bind, rowCell, hf, h']

end Work

end CliquePath
