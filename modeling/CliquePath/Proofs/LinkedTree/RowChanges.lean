import CliquePath.Proofs.LinkedTree.Rows
import CliquePath.Proofs.Row.Keys

set_option autoImplicit false

/-!
# Changes of linked rows

This module gives one statement for each operation on the row of a Q-node in an arena. The cells
that stand for a row become those of the row with a new section, with another row spliced in, or
reversed. Other cells stay as they are, except that a node below a new section gets a parent.
-/

namespace CliquePath

open Cells (one)

namespace Entries

variable {xs ys : Entries} {left right : Option NodeId} {e : Int × Part NodeId}

theorem lastId_reflect : lastId (Row.reflect xs) right = firstId xs right := by
  cases xs with
  | nil => rfl
  | cons e rest =>
      have h : Row.reflect (e :: rest) = Row.reflect rest ++ [(-e.1, e.2)] := by
        simp [Row.reflect]
      rw [h, lastId_concat]
      rfl

theorem firstId_reflect : firstId (Row.reflect xs) left = lastId xs left := by
  rw [← lastId_reflect, Row.reflect_reflect]

/-- A section that is read the other way round is stored in the same cell. -/
theorem cell_flip (q : NodeId) (flipped : Bool) (v : Loose) :
    v.cell q flipped = Loose.cell q (!flipped) ⟨v.part, -v.key, v.right, v.left⟩ := by
  cases flipped <;> simp [Loose.cell]

/-- The cells of some sections can be read in both directions. -/
theorem cells_flip (q : NodeId) (flipped flipped' : Bool) (vs : List Loose) :
    ∃ ws : List Loose, ws.map Loose.part = vs.map Loose.part ∧
      Loose.cells q flipped vs = Loose.cells q flipped' ws := by
  induction vs with
  | nil => exact ⟨[], rfl, rfl⟩
  | cons v rest ih =>
      obtain ⟨ws, hparts, hcells⟩ := ih
      by_cases hf : flipped = flipped'
      · exact ⟨v :: ws, by simp [hparts], by rw [Loose.cells, Loose.cells, hcells, hf]⟩
      · refine ⟨⟨v.part, -v.key, v.right, v.left⟩ :: ws, by simp [hparts], ?_⟩
        rw [Loose.cells, Loose.cells, hcells, cell_flip, Bool.eq_not_of_ne (Ne.symm hf)]

/-- A row that is read the other way round is stored in the same cells. -/
theorem cells_reflect (q : NodeId) (flipped : Bool) :
    Loose.cells q flipped (linked left right xs) =
      Loose.cells q (!flipped) (linked right left (Row.reflect xs)) := by
  induction xs generalizing left with
  | nil => rfl
  | cons e rest ih =>
      have h : Row.reflect (e :: rest) = Row.reflect rest ++ [(-e.1, e.2)] := by
        simp [Row.reflect]
      rw [h, linked_append, Loose.cells_append, linked, Loose.cells, ih, add_comm, cell_flip]
      congr 1
      simp only [linked, Loose.cells, firstId, add_zero, lastId_reflect]

/-- The sections with other vertices. -/
def mapHeld (f : List Vertex → List Vertex) (es : Entries) : Entries :=
  es.map fun e => (e.1, { e.2 with held := f e.2.held })

theorem length_linked : (linked left right xs).length = xs.length := by
  rw [← List.length_map (f := Loose.entry), map_entry_linked]

end Entries

theorem Loose.card_cells (q : NodeId) (flipped : Bool) (vs : List Loose) :
    (Loose.cells q flipped vs).card = vs.length := by
  induction vs with
  | nil => rfl
  | cons v rest ih => simp [Loose.cells, ih, one]

/-! ## The cells of a row -/

namespace Row

/-- The first section. -/
def firstPart (R : Row (Part NodeId)) : NodeId := (Entries.firstId R.keyed none).getD 0

/-- The last section. -/
def lastPart (R : Row (Part NodeId)) : NodeId := (Entries.lastId R.keyed none).getD 0

/-- The cells that stand for a Q-node and its sections. -/
def cellsAt (q : NodeId) (parent : Option NodeId) (R : Row (Part NodeId)) : Cells :=
  one q (rowCell parent R.flipped R.firstPart R.lastPart) +
    Loose.cells q R.flipped (Entries.linked none none R.keyed)

variable {R : Row (Part NodeId)} {q : NodeId} {parent : Option NodeId}

theorem row_mem_cellsAt :
    (q, rowCell parent R.flipped R.firstPart R.lastPart) ∈ R.cellsAt q parent := by
  simp [cellsAt]

theorem firstId_eq_some (h : R.keyed ≠ []) : Entries.firstId R.keyed none = some R.firstPart := by
  obtain ⟨e, rest, he⟩ := List.exists_cons_of_ne_nil h
  simp [firstPart, he, Entries.firstId]

theorem lastId_eq_some (h : R.keyed ≠ []) : Entries.lastId R.keyed none = some R.lastPart := by
  rcases List.eq_nil_or_concat R.keyed with hnil | ⟨ini, e, he⟩
  · exact absurd hnil h
  · rw [List.concat_eq_append] at he
    simp [lastPart, he, Entries.lastId_concat]

theorem firstPart_eq {e : Int × Part NodeId} {ys : Entries} (h : R.keyed = e :: ys) :
    R.firstPart = e.2.id := by
  have hid := firstId_eq_some (R := R) (by simp [h])
  rw [h] at hid
  exact (Option.some.inj hid).symm

theorem lastPart_eq {xs : Entries} {e : Int × Part NodeId} (h : R.keyed = xs ++ [e]) :
    R.lastPart = e.2.id := by
  have hid := lastId_eq_some (R := R) (by simp [h])
  rw [h, Entries.lastId_concat] at hid
  exact (Option.some.inj hid).symm

/-- The row with the given entries from left to right. -/
def ofKeyed {α : Type} (flipped : Bool) (es : List (Int × α)) : Row α :=
  ⟨if flipped then reflect es else es, flipped⟩

@[simp]
theorem keyed_ofKeyed {α : Type} (flipped : Bool) (es : List (Int × α)) :
    (ofKeyed flipped es).keyed = es := by
  cases flipped <;> simp [ofKeyed, keyed]

@[simp]
theorem flipped_ofKeyed {α : Type} (flipped : Bool) (es : List (Int × α)) :
    (ofKeyed flipped es).flipped = flipped := rfl

theorem withKeyed_eq {α β : Type} (r : Row α) (es : List (Int × β)) :
    r.withKeyed es = ofKeyed r.flipped es := rfl

/-- A row is given by its flag and its entries. -/
theorem ofKeyed_keyed {α : Type} (r : Row α) : ofKeyed r.flipped r.keyed = r := by
  cases r with
  | mk cells flipped => cases flipped <;> simp [ofKeyed, keyed]

/-- The cells of a row with the given entries. -/
theorem cellsAt_ofKeyed (flipped : Bool) (es : Entries) :
    (ofKeyed flipped es).cellsAt q parent =
      one q (rowCell parent flipped ((Entries.firstId es none).getD 0)
        ((Entries.lastId es none).getD 0)) +
        Loose.cells q flipped (Entries.linked none none es) := by
  simp only [cellsAt, firstPart, lastPart, keyed_ofKeyed, flipped_ofKeyed]

/-- The cells of a row but that of one section. -/
def around (q : NodeId) (parent : Option NodeId) (flipped : Bool) (xs : Entries) (id : NodeId)
    (ys : Entries) : Cells :=
  one q (rowCell parent flipped ((Entries.firstId xs (some id)).getD 0)
      ((Entries.lastId ys (some id)).getD 0)) +
    (Loose.cells q flipped (Entries.linked none (some id) xs) +
      Loose.cells q flipped (Entries.linked (some id) none ys))

variable {flipped : Bool} {xs ys : Entries} {e : Int × Part NodeId}

theorem cellsAt_part :
    (ofKeyed flipped (xs ++ e :: ys)).cellsAt q parent =
      one e.2.id (Loose.cell q flipped
          ⟨e.2, e.1, Entries.lastId xs none, Entries.firstId ys none⟩) +
        around q parent flipped xs e.2.id ys := by
  rw [cellsAt_ofKeyed, Entries.linked_append, Loose.cells_append, Entries.firstId_append,
    Entries.lastId_append, around]
  simp only [Entries.linked, Loose.cells, Entries.firstId, Entries.lastId]
  abel

theorem ascending_ofKeyed {es : Entries} :
    (ofKeyed flipped es).Ascending ↔ (es.map Prod.fst).Pairwise (· < ·) := by
  rw [Ascending, keyed_ofKeyed, List.pairwise_map]

end Row

namespace Arena

namespace Owns

variable {a : Arena} {r parent : Option NodeId} {M m : Cells} {q s son inner : NodeId} {c : Cell}
variable {R S : Row (Part NodeId)} {xs ys : Entries} {e : Int × Part NodeId} {flipped : Bool}
variable {first last : NodeId}

/-! ## Reading -/

theorem mem_row (h : M = R.cellsAt q parent + m) :
    (q, rowCell parent R.flipped R.firstPart R.lastPart) ∈ M := by
  rw [h]
  exact Multiset.mem_add.2 (Or.inl Row.row_mem_cellsAt)

theorem mem_slice (h : M = R.cellsAt q parent + m) {v : Loose}
    (hv : v ∈ Entries.linked none none R.keyed) : (v.part.id, v.cell q R.flipped) ∈ M := by
  rw [h]
  exact Multiset.mem_add.2 (Or.inl (Multiset.mem_add.2 (Or.inr (Loose.mem_cells hv))))

/-- A Q-node is not among the cells besides its row. -/
theorem row_not_mem (o : a.Owns r M) (h : M = R.cellsAt q parent + m) : q ∉ m.map Prod.fst := by
  have hne := o.not_mem_map (h.trans (add_assoc _ _ _))
  intro hq
  refine hne ?_
  rw [Multiset.map_add, Multiset.mem_add]
  exact Or.inr hq

/-- The ends of a row are its first and its last section. -/
theorem ends_row (o : a.Owns r M) (h : M = R.cellsAt q parent + m) :
    a.ends q = .ok (R.firstPart, R.lastPart) :=
  o.ends (mem_row h)

/-- The sections of a row are listed from left to right. -/
theorem slices_row (o : a.Owns r M) (h : M = R.cellsAt q parent + m) (hne : R.keyed ≠ []) :
    a.slices q = .ok (Entries.ids R.keyed) := by
  have hcard : R.keyed.length ≤ a.cells.size := by
    have hle := o.card_le
    rw [h, Row.cellsAt] at hle
    simp only [Multiset.card_add, Loose.card_cells, Entries.length_linked] at hle
    omega
  rw [Arena.slices, o.ends_row h, ok_bind]
  exact o.slicesFrom (mem_row h) (fun v hv => mem_slice h hv) (by omega)
    (Row.firstId_eq_some hne)

/-- What a section of a row refers to. -/
theorem links_row (o : a.Owns r M) (h : M = R.cellsAt q parent + m)
    (hR : R.keyed = xs ++ e :: ys) :
    a.links e.2.id = .ok ⟨e.2.son, Entries.lastId xs none, Entries.firstId ys none, e.1⟩ := by
  have hv : (⟨e.2, e.1, Entries.lastId xs none, Entries.firstId ys none⟩ : Loose) ∈
      Entries.linked none none R.keyed := by
    simp [hR, Entries.linked_append, Entries.linked]
  exact o.links (mem_row h) (mem_slice h hv)

theorem rank_row (o : a.Owns r M) (h : M = R.cellsAt q parent + m)
    (hR : R.keyed = xs ++ e :: ys) : a.rank e.2.id = .ok e.1 := by
  simp only [Arena.rank, o.links_row h hR, ok_bind]
  rfl

theorem mem_part (h : M = R.cellsAt q parent + m) (hR : R.keyed = xs ++ e :: ys) :
    (e.2.id, Loose.cell q R.flipped
      ⟨e.2, e.1, Entries.lastId xs none, Entries.firstId ys none⟩) ∈ M :=
  mem_slice (v := ⟨e.2, e.1, Entries.lastId xs none, Entries.firstId ys none⟩) h
    (by simp [hR, Entries.linked_append, Entries.linked])

theorem cell_row (o : a.Owns r M) (h : M = R.cellsAt q parent + m)
    (hR : R.keyed = xs ++ e :: ys) :
    a.cell e.2.id = .ok (Loose.cell q R.flipped
      ⟨e.2, e.1, Entries.lastId xs none, Entries.firstId ys none⟩) :=
  o.cell_of_mem (mem_part h hR)

theorem rank?_last (o : a.Owns r M) (h : M = R.cellsAt q parent + m) (hR : R.keyed = xs ++ ys) :
    a.rank? (Entries.lastId xs none) = .ok (xs.getLast?.map Prod.fst) := by
  rcases List.eq_nil_or_concat xs with rfl | ⟨ini, e, rfl⟩
  · rfl
  · rw [List.concat_eq_append] at hR ⊢
    rw [List.append_assoc] at hR
    rw [Entries.lastId_concat, Arena.rank?, o.rank_row h hR, ok_bind]
    simp [pure_eq_ok]

theorem rank?_first (o : a.Owns r M) (h : M = R.cellsAt q parent + m) (hR : R.keyed = xs ++ ys) :
    a.rank? (Entries.firstId ys none) = .ok (ys.head?.map Prod.fst) := by
  cases ys with
  | nil => rfl
  | cons e rest =>
      rw [Entries.firstId, Arena.rank?, o.rank_row h hR, ok_bind]
      rfl

/-! ## Reversing -/

/-- Reversing a linked row. -/
theorem reverse_row (o : a.Owns r M) (h : M = R.cellsAt q parent + m) :
    ∃ a', a.reverse q = .ok a' ∧ a'.Owns r (R.reverse.cellsAt q parent + m) := by
  have hcell := o.cell_of_mem (mem_row h)
  obtain ⟨a', ha, o'⟩ := o.setKind
    (m := Loose.cells q R.flipped (Entries.linked none none R.keyed) + m)
    (by rw [h, Row.cellsAt, add_assoc])
    (if R.flipped then .qnode R.lastPart R.firstPart false
      else .qnode R.firstPart R.lastPart true)
  refine ⟨a', ?_, o'.congr ?_⟩
  · rw [Arena.reverse, hcell, ok_bind]
    cases hf : R.flipped <;> simpa [rowCell, hf] using ha
  · -- only the cell of the Q-node changes: the flag says how those of the sections are read
    have hkeyed := Row.keyed_reverse R
    have hfirst : R.reverse.firstPart = R.lastPart := by
      rw [Row.firstPart, hkeyed, Entries.firstId_reflect]
      rfl
    have hlast : R.reverse.lastPart = R.firstPart := by
      rw [Row.lastPart, hkeyed, Entries.lastId_reflect]
      rfl
    rw [Row.cellsAt, hkeyed, hfirst, hlast, ← add_assoc,
      show R.reverse.flipped = !R.flipped from rfl, ← Entries.cells_reflect]
    congr 3
    cases hf : R.flipped <;> simp [rowCell]

/-! ## Renumbering -/

/-- Spreading the ranks of some neighbouring sections of a linked row. -/
theorem rankFrom_row (o : a.Owns r M) (xs mid ys : Entries)
    (h : M = (Row.ofKeyed flipped (xs ++ (mid ++ ys))).cellsAt q parent + m) (low step : Int) :
    ∃ a', a.rankFrom low step (Entries.ids mid) = .ok a' ∧
      a'.Owns r ((Row.ofKeyed flipped
        (xs ++ (Row.spaced low step (mid.map Prod.snd) ++ ys))).cellsAt q parent + m) := by
  -- the identities stay, so that the links do
  have hlast : ∀ left, Entries.lastId (Row.spaced low step (mid.map Prod.snd)) left =
      Entries.lastId mid left := by
    intro left
    rcases List.eq_nil_or_concat mid with rfl | ⟨ini, e, rfl⟩
    · rfl
    · rw [List.concat_eq_append, List.map_append, List.map_singleton, Row.spaced_concat,
        Entries.lastId_concat, Entries.lastId_concat]
  rw [Row.cellsAt_ofKeyed, Entries.linked_append, Entries.linked_append, Loose.cells_append,
    Loose.cells_append] at h
  have hmid : M = Loose.cells q flipped
      (Entries.linked (Entries.lastId xs none) (Entries.firstId ys none) mid) +
        (one q (rowCell parent flipped ((Entries.firstId (xs ++ (mid ++ ys)) none).getD 0)
            ((Entries.lastId (xs ++ (mid ++ ys)) none).getD 0)) +
          (Loose.cells q flipped (Entries.linked none (Entries.firstId (mid ++ ys) none) xs) +
            (Loose.cells q flipped
              (Entries.linked (Entries.lastId mid (Entries.lastId xs none)) none ys) + m))) := by
    rw [h]
    abel
  obtain ⟨a', ha, o'⟩ := o.rankFrom _ hmid (Multiset.mem_add.2 (Or.inl (Cells.mem_one.2 rfl))) low
    step
  refine ⟨a', by rw [← ha, Entries.map_id_linked], o'.congr ?_⟩
  rw [Row.cellsAt_ofKeyed, Entries.linked_append, Entries.linked_append, Loose.cells_append,
    Loose.cells_append, Entries.respace_linked]
  simp only [Entries.firstId_append, Entries.lastId_append, Entries.firstId_spaced, hlast]
  abel

/-- Spreading the ranks of a linked row. -/
theorem renumber_row (o : a.Owns r M) (h : M = R.cellsAt q parent + m) (hne : R.keyed ≠ []) :
    ∃ a', a.renumber q = .ok a' ∧
      a'.Owns r ((Row.ofKeyed R.flipped (Row.spaced 0 Row.keyGap R.toList)).cellsAt q parent +
        m) := by
  have hall : M = (Row.ofKeyed R.flipped ([] ++ (R.keyed ++ []))).cellsAt q parent + m := by
    simpa [Row.ofKeyed_keyed] using h
  obtain ⟨a', ha, o'⟩ := o.rankFrom_row [] R.keyed [] hall 0 Row.keyGap
  refine ⟨a', ?_, by simpa [Row.toList] using o'⟩
  rw [Arena.renumber, o.slices_row h hne, ok_bind, ha]

/-! ## Changing what sections hold -/

/-- Changing what some neighbouring sections of a linked row hold. -/
theorem mapHeld_row (o : a.Owns r M) (f : List Vertex → List Vertex) (xs mid ys : Entries)
    (h : M = (Row.ofKeyed flipped (xs ++ (mid ++ ys))).cellsAt q parent + m) :
    ∃ a', a.mapHeld f (Entries.ids mid) = .ok a' ∧
      a'.Owns r ((Row.ofKeyed flipped (xs ++ (mid.mapHeld f ++ ys))).cellsAt q parent + m) := by
  induction mid generalizing a M xs with
  | nil => exact ⟨a, rfl, o.congr h⟩
  | cons e rest ih =>
      -- one section after the other moves from the part still to change to the part before it
      have hpart : M = one e.2.id (Loose.cell q flipped
          ⟨e.2, e.1, Entries.lastId xs none, Entries.firstId (rest ++ ys) none⟩) +
            (Row.around q parent flipped xs e.2.id (rest ++ ys) + m) := by
        rw [h, List.cons_append, Row.cellsAt_part, add_assoc]
      have hcell := o.cell hpart
      obtain ⟨a₁, h₁, o₁⟩ := o.setHeld hpart (f e.2.held)
      obtain ⟨a₂, h₂, o₂⟩ := ih o₁ (xs ++ [(e.1, { e.2 with held := f e.2.held })]) (by
        rw [List.append_assoc, List.singleton_append, Row.cellsAt_part, add_assoc]
        simp only [Loose.cell])
      refine ⟨a₂, ?_, ?_⟩
      · rw [Entries.ids_cons, Arena.mapHeld, hcell, ok_bind]
        simp only [Loose.cell, h₁, ok_bind, h₂]
      · simpa [Entries.mapHeld] using o₂

/-! ## Filling a gap -/

/-- The cells of a row at a gap between two parts of it. -/
theorem cellsAt_gap (hR : R.keyed = xs ++ ys) :
    R.cellsAt q parent = one q (rowCell parent R.flipped R.firstPart R.lastPart) +
      (Loose.cells q R.flipped (Entries.linked none (Entries.firstId ys none) xs) +
        Loose.cells q R.flipped (Entries.linked (Entries.lastId xs none) none ys)) := by
  rw [Row.cellsAt, hR, Entries.linked_append, Loose.cells_append]

/-- Sections that are linked to both sides of a gap, and to which both sides are linked in turn, are
part of the row. Only the outer ends of the two sides count for the ends of the row. -/
theorem rejoin_row (o : a.Owns r M) (xs mid ys : Entries) {left right : Option NodeId}
    {first last low high : NodeId}
    (h : M = one q (rowCell parent flipped low high) +
      (Loose.cells q flipped (Entries.linked none right xs) +
        (Loose.cells q flipped
            (Entries.linked (Entries.lastId xs none) (Entries.firstId ys none) mid) +
          (Loose.cells q flipped (Entries.linked left none ys) + m))))
    (hfirst : Entries.firstId mid none = some first) (hlast : Entries.lastId mid none = some last)
    (hlow : xs ≠ [] → Entries.firstId xs none = some low)
    (hhigh : ys ≠ [] → Entries.lastId ys none = some high) :
    ∃ a', a.rejoin q (Entries.lastId xs none) (Entries.firstId ys none) first last = .ok a' ∧
      a'.Owns r ((Row.ofKeyed flipped (xs ++ (mid ++ ys))).cellsAt q parent + m) := by
  have hends := o.ends (q := q) (by rw [h]; exact Multiset.mem_add.2 (Or.inl (Cells.mem_one.2 rfl)))
  have hleft : M = Loose.cells q flipped (Entries.linked none right xs) +
      (one q (rowCell parent flipped low high) + (Loose.cells q flipped
        (Entries.linked (Entries.lastId xs none) (Entries.firstId ys none) mid) +
          (Loose.cells q flipped (Entries.linked left none ys) + m))) := by
    rw [h]
    abel
  obtain ⟨a₁, h₁, o₁⟩ := o.joinLeft hleft (Multiset.mem_add.2 (Or.inl (Cells.mem_one.2 rfl))) first
  have hright : Loose.cells q flipped (Entries.linked none (some first) xs) +
      (one q (rowCell parent flipped low high) + (Loose.cells q flipped
        (Entries.linked (Entries.lastId xs none) (Entries.firstId ys none) mid) +
          (Loose.cells q flipped (Entries.linked left none ys) + m))) =
      Loose.cells q flipped (Entries.linked left none ys) +
        (one q (rowCell parent flipped low high) + (Loose.cells q flipped
          (Entries.linked (Entries.lastId xs none) (Entries.firstId ys none) mid) +
            (Loose.cells q flipped (Entries.linked none (some first) xs) + m))) := by
    abel
  obtain ⟨a₂, h₂, o₂⟩ := o₁.joinRight hright (Multiset.mem_add.2 (Or.inl (Cells.mem_one.2 rfl)))
    last
  obtain ⟨a₃, h₃, o₃⟩ := o₂.setEnds (add_left_comm _ _ _)
    (if (Entries.lastId xs none).isNone then first else low)
    (if (Entries.firstId ys none).isNone then last else high)
  have hfirst' : ∀ right, Entries.firstId mid right = some first := by
    intro right
    cases mid with
    | nil => cases hfirst
    | cons e rest => exact hfirst
  have hlast' : ∀ left, Entries.lastId mid left = some last := by
    intro left
    cases mid with
    | nil => cases hlast
    | cons e rest => exact hlast
  refine ⟨a₃, by simp only [Arena.rejoin, hends, ok_bind, h₁, h₂, h₃], o₃.congr ?_⟩
  -- a new first section replaces the end on its side, if nothing stands there
  have hlowEnd : (Entries.firstId (xs ++ (mid ++ ys)) none).getD 0 =
      if (Entries.lastId xs none).isNone then first else low := by
    rw [Entries.firstId_append, Entries.firstId_append, hfirst']
    rcases List.eq_nil_or_concat xs with rfl | ⟨ini, e, rfl⟩
    · rfl
    · rw [List.concat_eq_append] at hlow ⊢
      rw [Entries.lastId_concat]
      rw [Entries.firstId_append] at hlow ⊢
      have := hlow (by simp)
      cases ini with
      | nil => simpa [Entries.firstId] using this
      | cons e' rest => simpa [Entries.firstId] using this
  have hhighEnd : (Entries.lastId (xs ++ (mid ++ ys)) none).getD 0 =
      if (Entries.firstId ys none).isNone then last else high := by
    rw [Entries.lastId_append, Entries.lastId_append, hlast']
    cases ys with
    | nil => rfl
    | cons e rest => exact congrArg (Option.getD · 0) (hhigh (by simp))
  rw [Row.cellsAt_ofKeyed, hlowEnd, hhighEnd, Entries.linked_append, Entries.linked_append,
    Loose.cells_append, Loose.cells_append, Entries.firstId_append, hfirst', hlast']
  abel

/-- The left part of a row begins where the row does. -/
theorem firstId_left (hR : R.keyed = xs ++ ys) (hne : xs ≠ []) :
    Entries.firstId xs none = some R.firstPart := by
  rw [← Row.firstId_eq_some (by simp [hR, hne]), hR, Entries.firstId_append]
  cases xs with
  | nil => exact absurd rfl hne
  | cons e rest => rfl

/-- The right part of a row ends where the row does. -/
theorem lastId_right (hR : R.keyed = xs ++ ys) (hne : ys ≠ []) :
    Entries.lastId ys none = some R.lastPart := by
  rw [← Row.lastId_eq_some (by simp [hR, hne]), hR, Entries.lastId_append]
  cases ys with
  | nil => exact absurd rfl hne
  | cons e rest => rfl

/-! ## A new section -/

/-- A new cell for a section, linked to no neighbour yet. -/
theorem newSlice (o : a.Owns r M) (h : M = one son c + m) (held : List Vertex) :
    ∃ a' s, a.newSlice son held = .ok (a', s) ∧
      a'.Owns r (one s { kind := .slice son none none 0, held } +
        (one son { c with parent := some s } + m)) := by
  have o₀ := o.alloc (.slice son none none 0) held
  obtain ⟨a', h', o'⟩ := o₀.setParent (m := one (a.alloc (.slice son none none 0) held).2
    { kind := .slice son none none 0, held } + m) (by rw [h]; exact add_left_comm _ _ _)
    (some (a.alloc (.slice son none none 0) held).2)
  refine ⟨a', _, ?_, o'.congr (add_left_comm _ _ _)⟩
  simp only [Arena.newSlice, h', ok_bind, pure_eq_ok]

theorem cell_newSlice (q s son : NodeId) (flipped : Bool) (held : List Vertex) :
    Loose.cell q flipped ⟨⟨s, held, son⟩, 0, none, none⟩ =
      { kind := .slice son none none 0, parent := some q, held } := by
  cases flipped <;> simp [Loose.cell]

/-- The rank of a new section that is linked already. The row may have to be renumbered for it. -/
theorem rankBetween_row {part : Part NodeId} {key : Int} (o : a.Owns r M)
    (h : M = (Row.ofKeyed flipped (xs ++ (key, part) :: ys)).cellsAt q parent + m) :
    ∃ a', a.rankBetween q part.id (xs.getLast?.map Prod.fst) (ys.head?.map Prod.fst) = .ok a' ∧
      a'.Owns r ((Row.ofKeyed flipped (Row.insertBetween xs part ys)).cellsAt q parent + m) := by
  -- a rank that is set directly, whichever number it is
  have hset : ∀ k, ∃ a', a.setRank part.id k = .ok a' ∧ a'.Owns r ((Row.ofKeyed flipped
      (xs ++ (k, part) :: ys)).cellsAt q parent + m) := by
    intro k
    obtain ⟨a', ha, o'⟩ := o.rankFrom_row xs [(key, part)] ys h k 0
    refine ⟨a', ?_, by simpa [Row.spaced] using o'⟩
    rw [← ha]
    simp only [Entries.ids, List.map_cons, List.map_nil, Arena.rankFrom, pure_eq_ok]
    cases a.setRank part.id k <;> rfl
  unfold Arena.rankBetween Row.insertBetween
  cases hl : xs.getLast? with
  | none =>
      rw [List.getLast?_eq_none_iff] at hl
      subst hl
      cases hh : ys.head? with
      | none =>
          rw [List.head?_eq_none_iff] at hh
          subst hh
          exact hset 0
      | some f => exact hset _
  | some l =>
      cases hh : ys.head? with
      | none =>
          rw [List.head?_eq_none_iff] at hh
          subst hh
          exact hset _
      | some f =>
          simp only [Option.map_some]
          split
          next => exact hset _
          next =>
            -- no number is left between the two neighbours
            obtain ⟨a', ha, o'⟩ := o.renumber_row h (by simp)
            exact ⟨a', ha, by simpa [Row.toList] using o'⟩

/-- A new cell for a section is linked between two parts of a row, or at an end. The section may be a
new parent for the Q-node itself. -/
theorem insertSlice_linked {a₁ : Arena} {parent' : Option NodeId} {m' : Cells} (o : a.Owns r M)
    (h : M = R.cellsAt q parent + m) (hR : R.keyed = xs ++ ys) {held : List Vertex}
    (h₁ : a.newSlice son held = .ok (a₁, s))
    (o₁ : a₁.Owns r (one s { kind := .slice son none none 0, held } +
      (R.cellsAt q parent' + m'))) :
    ∃ a', a.insertSlice q (Entries.lastId xs none) (Entries.firstId ys none) son held =
        .ok (a', s) ∧
      a'.Owns r ((R.insertAt xs.length ⟨s, held, son⟩).cellsAt q parent' + m') := by
  have hlow := o.rank?_last h hR
  have hhigh := o.rank?_first h hR
  obtain ⟨a₂, h₂, o₂⟩ := o₁.setParent rfl (some q)
  have hrow : (q, rowCell parent' R.flipped R.firstPart R.lastPart) ∈ R.cellsAt q parent' + m' :=
    Multiset.mem_add.2 (Or.inl Row.row_mem_cellsAt)
  rw [← cell_newSlice q s son R.flipped held] at o₂
  obtain ⟨a₃, h₃, o₃⟩ := o₂.setLinks (v := ⟨⟨s, held, son⟩, 0, none, none⟩) rfl hrow
    (Entries.lastId xs none) (Entries.firstId ys none)
  -- the section is linked to both sides, and both sides are linked to it now
  obtain ⟨a₄, h₄, o₄⟩ := o₃.rejoin_row xs [(0, ⟨s, held, son⟩)] ys
    (m := m')
    (by
      rw [cellsAt_gap hR]
      simp only [Entries.linked, Entries.firstId, Loose.cells, add_zero]
      abel)
    rfl rfl (firstId_left hR) (lastId_right hR)
  have hrow₄ : (Row.ofKeyed R.flipped (xs ++ ([(0, ⟨s, held, son⟩)] ++ ys))).cellsAt q parent' +
      m' = (Row.ofKeyed R.flipped (xs ++ (0, ⟨s, held, son⟩) :: ys)).cellsAt q parent' + m' := rfl
  obtain ⟨a₅, h₅, o₅⟩ := o₄.rankBetween_row hrow₄
  refine ⟨a₅, ?_, o₅.congr ?_⟩
  · simp only [Arena.insertSlice, hlow, hhigh, ok_bind, h₁, h₂, h₃, h₄, h₅, pure_eq_ok]
  · rw [Row.insertAt, hR, List.take_left, List.drop_left, Row.withKeyed_eq]

/-- Linking a new section between two parts of a row, or at an end. -/
theorem insertSlice_row (o : a.Owns r M) (h : M = R.cellsAt q parent + (one son c + m))
    (hR : R.keyed = xs ++ ys) (held : List Vertex) :
    ∃ a' s, a.insertSlice q (Entries.lastId xs none) (Entries.firstId ys none) son held =
        .ok (a', s) ∧
      a'.Owns r ((R.insertAt xs.length ⟨s, held, son⟩).cellsAt q parent +
        (one son { c with parent := some s } + m)) := by
  obtain ⟨a₁, s, h₁, o₁⟩ := o.newSlice (m := R.cellsAt q parent + m)
    (by rw [h, add_left_comm]) held
  obtain ⟨a', h', o'⟩ := o.insertSlice_linked h hR h₁ (o₁.congr (by
    rw [add_left_comm (one son _)]))
  exact ⟨a', s, h', o'⟩

/-- A new row of two sections. -/
theorem newQNode_row {x y : NodeId} {d : Cell} (o : a.Owns r M)
    (h : M = one x c + (one y d + m)) (left right : List Vertex) :
    ∃ a' q s k, a.newQNode [(left, x), (right, y)] = .ok (a', q) ∧
      a'.Owns r ((Row.ofList [⟨s, left, x⟩, ⟨k, right, y⟩]).cellsAt q none +
        (one x { c with parent := some s } + (one y { d with parent := some k } + m))) := by
  obtain ⟨a₁, s, h₁, o₁⟩ := o.newSlice h left
  obtain ⟨a₂, k, h₂, o₂⟩ := o₁.newSlice (c := d)
    (m := one s { kind := .slice x none none 0, held := left } +
      (one x { c with parent := some s } + m))
    (by rw [add_left_comm (one y d), add_left_comm (one y d)]) right
  have o₃ := o₂.alloc (.qnode s k false) []
  generalize hq : (a₂.alloc (.qnode s k false) []).2 = q at o₃
  rw [show ({ kind := .qnode s k false, held := [] } : Cell) = rowCell none false s k from rfl] at o₃
  -- two cells for the sections and one for the Q-node are there, not yet linked
  obtain ⟨a₄, h₄, o₄⟩ := o₃.setParents
    [(s, { kind := .slice x none none 0, held := left }),
      (k, { kind := .slice y none none 0, held := right })]
    (m := one q (rowCell none false s k) + (one x { c with parent := some s } +
      (one y { d with parent := some k } + m)))
    (by
      rw [← Multiset.cons_coe, ← Multiset.cons_coe, ← Multiset.singleton_add,
        ← Multiset.singleton_add]
      simp only [one, Multiset.coe_nil, add_zero]
      abel) q
  obtain ⟨a₅, h₅, o₅⟩ := o₄.chain
    [⟨⟨s, left, x⟩, 0, none, none⟩, ⟨⟨k, right, y⟩, 0, none, none⟩]
    (by rw [Loose.cells_eq_coe]; rfl) (Multiset.mem_add.2 (Or.inl (Cells.mem_one.2 rfl))) none none
  obtain ⟨a₆, h₆, o₆⟩ := o₅.rankFrom _ rfl (Multiset.mem_add.2 (Or.inl (Cells.mem_one.2 rfl))) 0
    Row.keyGap
  refine ⟨a₆, q, s, k, ?_, o₆.congr ?_⟩
  · have hlast : [s, k].getLast? = some k := rfl
    simp only [List.map_cons, List.map_nil, Entries.linked, Loose.entry] at h₄ h₅ h₆
    simp only [Arena.newQNode, Arena.newSlices, h₁, h₂, ok_bind, pure_eq_ok, List.head?_cons, hlast,
      hq, h₄, h₅, h₆]
  · rw [Entries.respace_linked, Row.cellsAt, Row.firstPart, Row.lastPart]
    simp only [Row.ofList, Row.keyed, Row.spaced, Bool.false_eq_true, if_false, List.map_cons,
      List.map_nil, Loose.entry, List.mapIdx_cons, List.mapIdx_nil, Entries.firstId, Entries.lastId,
      Option.getD_some]
    abel

/-! ## Splicing -/

/-- The sections of an inner row become a chain of sections of an outer one. What they hold and what
stands below them stays the same; their ranks have yet to be set. -/
theorem moveParts {inner' : Option NodeId} (o : a.Owns r M)
    (h : M = S.cellsAt inner inner' + m) (hq : (q, rowCell parent flipped first last) ∈ m)
    (left right : Option NodeId) :
    ∃ a₁ a₂ mid, a.setParents (Entries.ids S.keyed) q = .ok a₁ ∧
      a₁.chain left (Entries.ids S.keyed) right = .ok a₂ ∧ mid.map Prod.snd = S.toList ∧
      a₂.Owns r (Loose.cells q flipped (Entries.linked left right mid) +
        (one inner (rowCell inner' S.flipped S.firstPart S.lastPart) + m)) := by
  obtain ⟨a₁, h₁, o₁⟩ := o.setParents _
    (m := one inner (rowCell inner' S.flipped S.firstPart S.lastPart) + m)
    (by rw [h, Row.cellsAt, Loose.cells_eq_coe]; abel) q
  have hids : (Entries.linked none none S.keyed).map (fun v => v.part.id) = Entries.ids S.keyed :=
    Entries.map_id_linked
  -- The outer row may be flipped the other way.
  obtain ⟨vs, hparts, hcells⟩ :=
    Entries.cells_flip q S.flipped flipped (Entries.linked none none S.keyed)
  have hmap : vs.map (fun v => v.part.id) = Entries.ids S.keyed := by
    rw [← hids]
    simpa [Function.comp_def] using congrArg (List.map Part.id) hparts
  have hsons : (vs.map Loose.entry).map Prod.snd = S.toList := by
    rw [Row.toList, ← @Entries.map_entry_linked S.keyed none none, List.map_map, List.map_map]
    exact hparts
  obtain ⟨a₂, h₂, o₂⟩ := o₁.chain vs
    (m := one inner (rowCell inner' S.flipped S.firstPart S.lastPart) + m)
    (by rw [← hcells, Loose.cells_eq_coe]; simp [Loose.cell, Function.comp_def])
    (Multiset.mem_add.2 (Or.inr hq)) left right
  refine ⟨a₁, a₂, vs.map Loose.entry, ?_, ?_, hsons, o₂⟩
  · rw [← h₁]
    simp [← hids, Function.comp_def]
  · rw [← hmap]
    exact h₂

/-- The ranks of sections that are linked already and stand between two parts of a row. -/
theorem rankAllBetween_row {mid : Entries} (o : a.Owns r M) (key : Int)
    (h : M = (Row.ofKeyed flipped (xs ++ (mid ++ ys))).cellsAt q parent + m) (hne : mid ≠ []) :
    ∃ a', a.rankAllBetween q (Entries.ids mid) key (xs.getLast?.map Prod.fst)
        (ys.head?.map Prod.fst) = .ok a' ∧
      a'.Owns r ((Row.ofKeyed flipped
        (Row.spliceBetween xs key (mid.map Prod.snd) ys)).cellsAt q parent + m) := by
  -- ranks that are set directly, from whichever number on
  have hset : ∀ low step, ∃ a', a.rankFrom low step (Entries.ids mid) = .ok a' ∧
      a'.Owns r ((Row.ofKeyed flipped
        (xs ++ Row.spaced low step (mid.map Prod.snd) ++ ys)).cellsAt q parent + m) := by
    intro low step
    rw [List.append_assoc]
    exact o.rankFrom_row xs mid ys h low step
  have hlen : (Entries.ids mid).length = (mid.map Prod.snd).length := by simp [Entries.ids]
  unfold Arena.rankAllBetween Row.spliceBetween
  rw [hlen]
  cases hh : ys.head? with
  | none =>
      rw [List.head?_eq_none_iff] at hh
      subst hh
      cases xs.getLast? <;> simpa using hset key Row.keyGap
  | some f =>
      cases hl : xs.getLast? with
      | none =>
          rw [List.getLast?_eq_none_iff] at hl
          subst hl
          exact hset _ _
      | some l =>
          simp only [Option.map_some]
          split
          next => exact hset _ _
          next =>
            obtain ⟨a', ha, o'⟩ := o.renumber_row h (by simp [hne])
            exact ⟨a', ha, by simpa [Row.toList] using o'⟩

/-- Splicing an inner row into the place of a section of an outer one. -/
theorem spliceSlices_row {inner' : Option NodeId} (o : a.Owns r M)
    (h : M = R.cellsAt q parent + (S.cellsAt inner inner' + m)) (hR : R.keyed = xs ++ e :: ys)
    (hS : S.keyed ≠ []) :
    ∃ a', a.spliceSlices q e.2.id inner = .ok a' ∧
      a'.Owns r ((R.splice xs.length S).cellsAt q parent + m) := by
  have hlinks := o.links_row h hR
  have hlow := o.rank?_last h hR
  have hsplit : R.keyed = (xs ++ [e]) ++ ys := by simp [hR]
  have hhigh := o.rank?_first h hsplit
  have hslices := o.slices_row (h.trans (add_left_comm _ _ _)) hS
  have hhead : (Entries.ids S.keyed).head? = some S.firstPart :=
    Entries.head?_ids.trans (Row.firstId_eq_some hS)
  have hlast : (Entries.ids S.keyed).getLast? = some S.lastPart :=
    Entries.getLast?_ids.trans (Row.lastId_eq_some hS)
  -- the inner sections change their parent and their outer links; then the gap is closed around them
  obtain ⟨a₁, a₂, mid, h₁, h₂, hmid, o₂⟩ := o.moveParts (h.trans (add_left_comm _ _ _))
    (Multiset.mem_add.2 (Or.inl Row.row_mem_cellsAt)) (Entries.lastId xs none)
    (Entries.firstId ys none)
  have hids : Entries.ids mid = Entries.ids S.keyed := by
    simpa [Entries.ids, Row.toList, Function.comp_def] using congrArg (List.map Part.id) hmid
  obtain ⟨a₃, h₃, o₃⟩ := o₂.rejoin_row xs mid ys
    (m := one e.2.id (Loose.cell q R.flipped
        ⟨e.2, e.1, Entries.lastId xs none, Entries.firstId ys none⟩) +
      (one inner (rowCell inner' S.flipped S.firstPart S.lastPart) + m))
    (by
      rw [cellsAt_gap hR]
      simp only [Entries.linked, Entries.firstId, Loose.cells]
      abel)
    (by rw [← Entries.head?_ids, hids, hhead]) (by rw [← Entries.getLast?_ids, hids, hlast])
    (firstId_left hR)
    (lastId_right hsplit)
  obtain ⟨a₄, h₄, o₄⟩ := o₃.discard (add_left_comm _ _ _)
  obtain ⟨a₅, h₅, o₅⟩ := o₄.discard (add_left_comm _ _ _)
  obtain ⟨a₆, h₆, o₆⟩ := o₅.rankAllBetween_row e.1 rfl (by
    rintro rfl
    exact hS (by simpa [Row.toList] using hmid.symm))
  refine ⟨a₆, ?_, o₆.congr ?_⟩
  · rw [hids] at h₆
    simp only [Arena.spliceSlices, hlinks, hlow, hhigh, hslices, hhead, hlast, ok_bind, h₁, h₂, h₃,
      h₄, h₅, h₆]
  · have hget : R.keyed[xs.length]? = some e := by simp [hR]
    have hdrop : R.keyed.drop (xs.length + 1) = ys := by simp [hR]
    simp only [Row.splice, hget, hdrop, hmid, Row.withKeyed_eq]
    rw [hR, List.take_left]

end Owns

end Arena

end CliquePath
