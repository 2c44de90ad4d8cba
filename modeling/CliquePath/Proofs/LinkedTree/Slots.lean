import CliquePath.Proofs.LinkedTree.Focus
import Mathlib.Data.Set.Insert

set_option autoImplicit false

/-!
# Slots that fit the cells

This module states when the slots of the vertices agree with what the cells hold. A vertex in the slot
of a leaf or P-node is held there and nowhere else. A vertex with a run of sections is held at both
ends of the run and only in the row to which they belong. What the operations on a tree have to keep
up is this, for one vertex at a time.
-/

namespace CliquePath

open Cells (one)

/-! ## Slots -/

namespace Slots

@[simp]
theorem get_empty (v : Vertex) : get #[] v = .absent := rfl

@[simp]
theorem get_put (slots : Slots) (v x : Vertex) (slot : Slot) :
    (slots.put v slot).get x = if x = v then slot else slots.get x := by
  have hsize : v < slots.size + (v + 1 - slots.size) :=
    Nat.lt_of_lt_of_le (Nat.lt_succ_self v) le_add_tsub
  unfold get put
  rw [Array.getD_eq_getD_getElem?, Array.getD_eq_getD_getElem?, Array.getElem?_setIfInBounds]
  by_cases hx : x = v
  · subst hx
    simp [hsize]
  · rw [if_neg (Ne.symm hx), if_neg hx, Array.getElem?_append]
    split
    next => rfl
    next hge =>
      rw [Array.getElem?_eq_none (Nat.not_lt.1 hge), Array.getElem?_replicate]
      split <;> rfl

@[simp]
theorem get_putAll (slots : Slots) (vs : List Vertex) (x : Vertex) (slot : Slot) :
    (slots.putAll vs slot).get x = if x ∈ vs then slot else slots.get x := by
  unfold putAll
  induction vs generalizing slots with
  | nil => simp
  | cons v rest ih =>
      rw [List.foldl_cons, ih, get_put]
      by_cases hrest : x ∈ rest
      · simp [hrest]
      · by_cases hv : x = v <;> simp [hrest, hv]

end Slots

/-! ## Who holds a vertex -/

/-- The Q-node to whose row a section belongs. -/
def Cell.row? (c : Cell) : Option NodeId := if c.kind.isSlice then c.parent else none

theorem Loose.row?_cell (q : NodeId) (flipped : Bool) (v : Loose) :
    (v.cell q flipped).row? = some q := by
  cases flipped <;> rfl

@[simp]
theorem row?_leafCell (parent : Option NodeId) (held : List Vertex) :
    (leafCell parent held).row? = none := rfl

@[simp]
theorem row?_pCell (parent : Option NodeId) (held : List Vertex) (children : List NodeId) :
    (pCell parent held children).row? = none := rfl

@[simp]
theorem held_leafCell (parent : Option NodeId) (held : List Vertex) :
    (leafCell parent held).held = held := rfl

@[simp]
theorem held_pCell (parent : Option NodeId) (held : List Vertex) (children : List NodeId) :
    (pCell parent held children).held = held := rfl

namespace Cells

/-- One of the cells, at the given place and in the given row, if any, holds the vertex. -/
def Holds (M : Cells) (v : Vertex) (p : NodeId × Option NodeId) : Prop :=
  ∃ c, (p.1, c) ∈ M ∧ v ∈ c.held ∧ c.row? = p.2

variable {M N : Cells} {v : Vertex} {p : NodeId × Option NodeId} {id q : NodeId} {c : Cell}

@[simp]
theorem holds_zero : ¬ Holds 0 v p := by
  rintro ⟨c, hc, -⟩
  simp at hc

@[simp]
theorem holds_add : (M + N).Holds v p ↔ M.Holds v p ∨ N.Holds v p := by
  simp only [Holds, Multiset.mem_add, or_and_right, exists_or]

@[simp]
theorem holds_one : (one id c).Holds v p ↔ v ∈ c.held ∧ p = (id, c.row?) := by
  constructor
  · rintro ⟨d, hd, hv, hrow⟩
    cases mem_one.1 hd
    exact ⟨hv, Prod.ext rfl hrow.symm⟩
  · rintro ⟨hv, rfl⟩
    exact ⟨c, mem_one.2 rfl, hv, rfl⟩

theorem Holds.mem_ids (h : M.Holds v p) : p.1 ∈ M.map Prod.fst := by
  obtain ⟨c, hc, -⟩ := h
  exact Multiset.mem_map_of_mem Prod.fst hc

@[simp]
theorem holds_loose {flipped : Bool} {vs : List Loose} :
    (Loose.cells q flipped vs).Holds v p ↔
      ∃ w ∈ vs, v ∈ w.part.held ∧ p = (w.part.id, some q) := by
  induction vs with
  | nil => simp [Loose.cells]
  | cons w rest ih =>
      rw [Loose.cells, holds_add, ih, holds_one, Loose.row?_cell]
      simp [Loose.cell]

/-- A row holds what its sections hold. -/
@[simp]
theorem holds_cellsAt {R : Row (Part NodeId)} {parent : Option NodeId} :
    (R.cellsAt q parent).Holds v p ↔
      ∃ part ∈ R.toList, v ∈ part.held ∧ p = (part.id, some q) := by
  rw [Row.cellsAt, holds_add, holds_one, holds_loose]
  have hparts : (Entries.linked none none R.keyed).map Loose.part = R.toList := by
    conv_rhs => rw [Row.toList, ← @Entries.map_entry_linked R.keyed none none, List.map_map]
    rfl
  simp only [← hparts, List.mem_map, rowCell, List.not_mem_nil, false_and, false_or,
    exists_exists_and_eq_and]

/-- The places of a row are that of the Q-node and those of its sections. -/
theorem mem_ids_cellsAt {R : Row (Part NodeId)} {parent : Option NodeId} :
    id ∈ (R.cellsAt q parent).map Prod.fst ↔ id = q ∨ ∃ part ∈ R.toList, part.id = id := by
  have hids : (Entries.linked none none R.keyed).map (fun v => v.part.id) = R.toList.map Part.id := by
    rw [Entries.map_id_linked, Row.toList, List.map_map]
    rfl
  rw [Row.cellsAt, Multiset.map_add, Multiset.mem_add, map_fst_one, Multiset.mem_singleton,
    Loose.cells_eq_coe, Multiset.map_coe, List.map_map, Multiset.mem_coe,
    show (Prod.fst ∘ fun v : Loose => (v.part.id, v.cell q R.flipped)) = fun v => v.part.id from rfl,
    hids, List.mem_map]

theorem mem_entries_ids {R : Row (Part NodeId)} :
    id ∈ Entries.ids R.keyed ↔ ∃ part ∈ R.toList, part.id = id := by
  simp only [Entries.ids, Row.toList, List.mem_map, exists_exists_and_eq_and]

/-- Sections belong to rows of Q-nodes among the cells. -/
def RowsInside (M : Cells) : Prop := ∀ e ∈ M, ∀ q, e.2.row? = some q → q ∈ M.map Prod.fst

theorem RowsInside.add (hM : M.RowsInside) (hN : N.RowsInside) : (M + N).RowsInside := by
  intro e he q hq
  rw [Multiset.map_add, Multiset.mem_add]
  rcases Multiset.mem_add.1 he with he | he
  · exact Or.inl (hM e he q hq)
  · exact Or.inr (hN e he q hq)

theorem RowsInside.of_none (h : c.row? = none) : (one id c).RowsInside := by
  intro e he q hq
  rw [mem_one.1 he, h] at hq
  cases hq

theorem rowsInside_cellsAt (R : Row (Part NodeId)) (q : NodeId) (parent : Option NodeId) :
    (R.cellsAt q parent).RowsInside := by
  intro e he q' hq'
  rw [Row.cellsAt, Multiset.map_add, Multiset.mem_add, map_fst_one, Multiset.mem_singleton]
  left
  rcases Multiset.mem_add.1 he with he | he
  · rw [mem_one.1 he] at hq'
    cases hf : R.flipped <;> simp [rowCell, Cell.row?, Kind.isSlice, hf] at hq'
  · rw [Loose.cells_eq_coe, Multiset.mem_coe, List.mem_map] at he
    obtain ⟨v, -, rfl⟩ := he
    rw [Loose.row?_cell] at hq'
    exact (Option.some.inj hq').symm

theorem RowsInside.of_trees {L : Multiset Link} (h : Trees L M) : M.RowsInside := by
  induction h with
  | nil =>
      intro e he
      simp at he
  | leaf parent id held _ ih => exact (RowsInside.of_none rfl).add ih
  | pnode parent id held hne _ ih => exact (RowsInside.of_none rfl).add ih
  | qnode parent q hne hasc _ ih => exact (rowsInside_cellsAt _ _ _).add ih

/-- Cells without a Q-node have no sections of its row. -/
theorem RowsInside.not_holds (h : M.RowsInside) (hq : q ∉ M.map Prod.fst) :
    ¬ M.Holds v (id, some q) := by
  rintro ⟨c, hc, -, hrow⟩
  exact hq (h _ hc q hrow)

end Cells

namespace Ctx

variable {c : Ctx} {x y : NodeId} {v : Vertex} {p : NodeId × Option NodeId}

/-- What the frames hold does not depend on the node in focus. -/
theorem holds_cells (c : Ctx) (x y : NodeId) (v : Vertex) (p : NodeId × Option NodeId) :
    (c.cells x).Holds v p ↔ (c.cells y).Holds v p := by
  cases c with
  | nil => rfl
  | cons f c =>
      cases f with
      | branch id held before after rest => simp [cells, Frame.cells, Frame.node]
      | inRow q flipped xs key id held ys rest =>
          simp [cells, Frame.cells, Frame.node, Row.toList, or_and_right, exists_or]

/-- The places of the cells of the frames do not depend on the node in focus. -/
theorem ids_cells (c : Ctx) (x y : NodeId) :
    (c.cells x).map Prod.fst = (c.cells y).map Prod.fst := by
  cases c with
  | nil => rfl
  | cons f c =>
      cases f with
      | branch id held before after rest => simp [cells, Frame.cells, Frame.node]
      | inRow q flipped xs key id held ys rest =>
          simp [cells, Frame.cells, Frame.node, Row.cellsAt_part]

theorem Ok.rowsInside (h : c.Ok) : (c.cells x).RowsInside := by
  induction c generalizing x with
  | nil =>
      intro e he
      simp [cells] at he
  | cons f c ih =>
      have hc := ih (x := f.node) fun g hg => h g (List.mem_cons_of_mem _ hg)
      have hf := h f List.mem_cons_self
      cases f with
      | branch id held before after rest =>
          exact ((Cells.RowsInside.of_none rfl).add (.of_trees hf)).add hc
      | inRow q flipped xs key id held ys rest =>
          exact ((Cells.rowsInside_cellsAt _ _ _).add (.of_trees hf.1)).add hc

end Ctx

/-! ## Slots in agreement with the cells -/

/-- The slot of a vertex agrees with the places that hold it. -/
def Slot.Fits (holds : NodeId × Option NodeId → Prop) : Slot → Prop
  | .absent => ∀ p, ¬ holds p
  | .node id => holds (id, none) ∧ ∀ p, holds p → p = (id, none)
  | .span one other =>
      ∃ q, holds (one, some q) ∧ holds (other, some q) ∧ ∀ p, holds p → p.2 = some q

/-- The ends of the run in a slot satisfy a condition. -/
def Slot.Ends (P : NodeId → Prop) : Slot → Prop
  | .span one other => P one ∧ P other
  | _ => False

theorem Slot.Ends.ne_absent {P : NodeId → Prop} {slot : Slot} (h : slot.Ends P) :
    slot ≠ .absent := by
  rintro rfl
  exact h

/-- A run between two sections that hold the vertex fits if only their row holds it. -/
theorem Slot.Ends.fits {P : NodeId → Prop} {slot : Slot} (h : slot.Ends P) {q : NodeId}
    {holds : NodeId × Option NodeId → Prop} (hP : ∀ id, P id → holds (id, some q))
    (hall : ∀ p, holds p → p.2 = some q) : slot.Fits holds := by
  cases slot with
  | absent => exact h.elim
  | node id => exact h.elim
  | span one other => exact ⟨q, hP _ h.1, hP _ h.2, hall⟩

theorem Slot.Ends.mono {P Q : NodeId → Prop} {slot : Slot} (h : slot.Ends P)
    (hPQ : ∀ id, P id → Q id) : slot.Ends Q := by
  cases slot with
  | absent => exact h
  | node id => exact h
  | span one other => exact ⟨hPQ _ h.1, hPQ _ h.2⟩

theorem Row.mem_insertAt {α : Type} {R : Row α} {i : Nat} {x y : α} :
    y ∈ (R.insertAt i x).toList ↔ y ∈ R.toList ∨ y = x := by
  rw [Row.toList_insertAt, List.mem_append, List.mem_cons]
  conv_rhs => rw [← List.take_append_drop i R.toList, List.mem_append]
  tauto

/-- A section of the row, at the given place, holds the vertex. -/
def Row.HoldsAt (R : Row (Part NodeId)) (v : Vertex) (s : NodeId) : Prop :=
  ∃ part ∈ R.toList, part.id = s ∧ v ∈ part.held

/-- A run in a row shows that the row holds the vertex. -/
theorem Slot.Ends.exists_part {R : Row (Part NodeId)} {v : Vertex} {slot : Slot}
    (h : slot.Ends (R.HoldsAt v)) : ∃ part ∈ R.toList, v ∈ part.held := by
  cases slot with
  | absent => exact h.elim
  | node id => exact h.elim
  | span one other =>
      obtain ⟨part, hpart, -, hv⟩ := h.1
      exact ⟨part, hpart, hv⟩

theorem Row.HoldsAt.holds {R : Row (Part NodeId)} {v : Vertex} {s : NodeId} (h : R.HoldsAt v s)
    (q : NodeId) (parent : Option NodeId) : (R.cellsAt q parent).Holds v (s, some q) := by
  obtain ⟨part, hpart, rfl, hv⟩ := h
  exact Cells.holds_cellsAt.2 ⟨part, hpart, hv, rfl⟩

/-- A row with a new section holds what it held before and what that section holds. -/
theorem Cells.holds_insertAt {R : Row (Part NodeId)} {i : Nat} {part : Part NodeId} {q : NodeId}
    {parent : Option NodeId} {v : Vertex} {p : NodeId × Option NodeId} :
    ((R.insertAt i part).cellsAt q parent).Holds v p ↔
      (R.cellsAt q parent).Holds v p ∨ v ∈ part.held ∧ p = (part.id, some q) := by
  simp only [Cells.holds_cellsAt, Row.mem_insertAt, or_and_right, exists_or, exists_eq_left]

/-- The slots of all vertices agree with the cells. -/
def Slots.Fit (slots : Slots) (M : Cells) : Prop := ∀ v, (slots.get v).Fits (M.Holds v)

namespace Slots.Fit

variable {slots : Slots} {M N : Cells} {v : Vertex} {x q : NodeId} {d : Cell}

theorem congr_holds (h : slots.Fit M) (hN : ∀ v p, N.Holds v p ↔ M.Holds v p) : slots.Fit N := by
  intro v
  rw [show N.Holds v = M.Holds v from funext fun p => propext (hN v p)]
  exact h v

/-- A vertex that is held somewhere has a slot. -/
theorem ne_absent (h : slots.Fit M) {p : NodeId × Option NodeId} (hp : M.Holds v p) :
    slots.get v ≠ .absent := by
  intro habs
  have hv := h v
  rw [habs] at hv
  exact hv p hp

/-- A vertex that a leaf or P-node holds is in its slot and held nowhere else. -/
theorem of_node (h : slots.Fit (one x d + N)) (hn : x ∉ N.map Prod.fst) (hd : d.row? = none)
    (hv : v ∈ d.held) : slots.get v = .node x ∧ ∀ p, ¬ N.Holds v p := by
  have hfit := h v
  have hx : (one x d + N).Holds v (x, none) := Cells.holds_add.2 (Or.inl (by simp [hv, hd]))
  cases hslot : slots.get v with
  | absent =>
      rw [hslot] at hfit
      exact absurd hx (hfit _)
  | node id =>
      rw [hslot] at hfit
      cases hfit.2 _ hx
      refine ⟨rfl, fun p hp => hn ?_⟩
      cases hfit.2 p (Cells.holds_add.2 (Or.inr hp))
      exact hp.mem_ids
  | span one other =>
      rw [hslot] at hfit
      obtain ⟨q, -, -, hall⟩ := hfit
      cases hall _ hx

/-- A vertex that a row holds has a run of sections there and is held nowhere else. -/
theorem of_row {R : Row (Part NodeId)} {parent : Option NodeId}
    (h : slots.Fit (R.cellsAt q parent + N)) (hn : q ∉ N.map Prod.fst) (hN : N.RowsInside)
    {part : Part NodeId} (hpart : part ∈ R.toList) (hv : v ∈ part.held) :
    (slots.get v).Ends (R.HoldsAt v) ∧ ∀ p, ¬ N.Holds v p := by
  have hfit := h v
  have hx : (R.cellsAt q parent + N).Holds v (part.id, some q) :=
    Cells.holds_add.2 (Or.inl (Cells.holds_cellsAt.2 ⟨part, hpart, hv, rfl⟩))
  cases hslot : slots.get v with
  | absent =>
      rw [hslot] at hfit
      exact absurd hx (hfit _)
  | node id =>
      rw [hslot] at hfit
      cases hfit.2 _ hx
  | span one other =>
      rw [hslot] at hfit
      obtain ⟨q', hone, hother, hall⟩ := hfit
      cases hall _ hx
      -- the row of the holder is the one of the slot, and that is nowhere else
      have hout : ∀ p, ¬ N.Holds v p := by
        rintro ⟨id, row⟩ hp
        cases hall _ (Cells.holds_add.2 (Or.inr hp))
        exact hN.not_holds hn hp
      refine ⟨?_, hout⟩
      obtain ⟨p₁, hp₁, hv₁, heq₁⟩ :=
        Cells.holds_cellsAt.1 ((Cells.holds_add.1 hone).resolve_right (hout _))
      obtain ⟨p₂, hp₂, hv₂, heq₂⟩ :=
        Cells.holds_cellsAt.1 ((Cells.holds_add.1 hother).resolve_right (hout _))
      cases heq₁
      cases heq₂
      exact ⟨⟨p₁, hp₁, rfl, hv₁⟩, ⟨p₂, hp₂, rfl, hv₂⟩⟩

end Slots.Fit

/-- The slots of all vertices agree with the cells, and those of the given vertices are in use. -/
structure Slots.Agree (slots : Slots) (S : Set Vertex) (M : Cells) : Prop where
  fit : slots.Fit M
  placed : ∀ v, slots.get v ≠ .absent ↔ v ∈ S

namespace Slots.Agree

variable {slots : Slots} {S : Set Vertex} {M N : Cells} {u v : Vertex} {x : NodeId}
variable {vs : List Vertex} {slot : Slot}

theorem congr_holds (h : slots.Agree S M) (hN : ∀ v p, N.Holds v p ↔ M.Holds v p) :
    slots.Agree S N :=
  ⟨h.fit.congr_holds hN, h.placed⟩

theorem mem_of_holds (h : slots.Agree S M) {p : NodeId × Option NodeId} (hp : M.Holds v p) :
    v ∈ S :=
  (h.placed v).1 (h.fit.ne_absent hp)

theorem not_holds (h : slots.Agree S M) (hv : v ∉ S) (p : NodeId × Option NodeId) :
    ¬ M.Holds v p :=
  fun hp => hv (h.mem_of_holds hp)

/-- The vertices of the tree are those that are held somewhere. -/
theorem mem_iff_exists_holds (h : slots.Agree S M) : v ∈ S ↔ ∃ p, M.Holds v p := by
  refine ⟨fun hv => ?_, fun ⟨p, hp⟩ => h.mem_of_holds hp⟩
  have hplaced := (h.placed v).2 hv
  have hfit := h.fit v
  cases hslot : slots.get v with
  | absent => exact absurd hslot hplaced
  | node id =>
      rw [hslot] at hfit
      exact ⟨_, hfit.1⟩
  | span one other =>
      rw [hslot] at hfit
      obtain ⟨q, hone, -⟩ := hfit
      exact ⟨_, hone⟩

/-- A vertex that was in no slot is put into a leaf or P-node. -/
theorem newcomer (h : slots.Agree S M) (hu : u ∉ S)
    (hN : ∀ v p, N.Holds v p ↔ M.Holds v p ∨ (v = u ∧ p = (x, none))) :
    (slots.put u (.node x)).Agree (insert u S) N := by
  refine ⟨fun v => ?_, fun v => ?_⟩
  · -- the new vertex was held nowhere
    by_cases hv : v = u
    · subst hv
      rw [Slots.get_put, if_pos rfl]
      refine ⟨(hN _ _).2 (Or.inr ⟨rfl, rfl⟩), fun p hp => ?_⟩
      exact (((hN _ _).1 hp).resolve_left (h.not_holds hu p)).2
    · rw [Slots.get_put, if_neg hv]
      have hsame : N.Holds v = M.Holds v := by
        funext p
        simp [hN, hv]
      rw [hsame]
      exact h.fit v
  · rw [Slots.get_put, Set.mem_insert_iff]
    by_cases hv : v = u
    · simp [hv]
    · simp only [hv, if_false, false_or]
      exact h.placed v

/-- Vertices of the tree get other slots that fit. -/
theorem update {slots' : Slots} (h : slots.Agree S M)
    (hv : ∀ v, (slots'.get v = slots.get v ∧ ∀ p, N.Holds v p ↔ M.Holds v p) ∨
      (v ∈ S ∧ slots'.get v ≠ .absent ∧ (slots'.get v).Fits (N.Holds v))) : slots'.Agree S N := by
  refine ⟨fun v => ?_, fun v => ?_⟩
  · rcases hv v with ⟨hslot, hholds⟩ | ⟨-, -, hfits⟩
    · rw [hslot, show N.Holds v = M.Holds v from funext fun p => propext (hholds p)]
      exact h.fit v
    · exact hfits
  · rcases hv v with ⟨hslot, -⟩ | ⟨hS, hne, -⟩
    · rw [hslot]
      exact h.placed v
    · exact iff_of_true hne hS

/-- Some vertices of the tree get the same other slot. -/
theorem reseat (h : slots.Agree S M) (hvs : ∀ v ∈ vs, v ∈ S) (hslot : slot ≠ .absent)
    (hin : ∀ v ∈ vs, slot.Fits (N.Holds v))
    (hout : ∀ v, v ∉ vs → ∀ p, N.Holds v p ↔ M.Holds v p) :
    (slots.putAll vs slot).Agree S N := by
  refine h.update fun v => ?_
  rw [Slots.get_putAll]
  by_cases hv : v ∈ vs
  · exact Or.inr ⟨hvs v hv, by simpa [hv] using hslot, by simpa [hv] using hin v hv⟩
  · exact Or.inl ⟨if_neg hv, hout v hv⟩

end Slots.Agree

end CliquePath
