import CliquePath.LinkedTree.Slices
import CliquePath.Proofs.LinkedTree.Ownership

set_option autoImplicit false

/-!
# Linked rows are rows

This module shows that the row of a Q-node in an arena does what a `Row` of its sections does.
`Arena.rowCells` says which cells stand for a row. Reading the ends, the sections and the links of
these cells reads the row from left to right; linking a new section, splicing a row into another one
and reversing give the cells of `Row.insertAt`, `Row.splice` and `Row.reverse`, ranks included.
-/

namespace CliquePath

theorem Row.spaced_cons {α : Type} (first step : Int) (x : α) (xs : List α) :
    Row.spaced first step (x :: xs) = (first, x) :: Row.spaced (first + step) step xs := by
  simp only [Row.spaced, List.mapIdx_cons, List.cons.injEq, Prod.mk.injEq, and_true]
  refine ⟨by simp, ?_⟩
  congr 1
  funext i y
  rw [Prod.mk.injEq]
  refine ⟨?_, rfl⟩
  push_cast
  ring

theorem Row.spaced_concat {α : Type} (first step : Int) (xs : List α) (x : α) :
    Row.spaced first step (xs ++ [x]) =
      Row.spaced first step xs ++ [(first + xs.length * step, x)] := by
  simp [Row.spaced, List.mapIdx_append]

/-- A section of a row with its place in the arena. -/
structure Part (ν : Type) where
  id : NodeId
  held : List Vertex
  son : ν

/-- Sections from left to right with their ranks. -/
abbrev Entries := List (Int × Part NodeId)

namespace Entries

/-- The places of the sections. -/
def ids (es : Entries) : List NodeId := es.map fun e => e.2.id

/-- The place of the first section, or of what follows if there is none. -/
def firstId : Entries → Option NodeId → Option NodeId
  | [], right => right
  | e :: _, _ => some e.2.id

/-- The place of the last section, or of what stands before if there is none. -/
def lastId : Entries → Option NodeId → Option NodeId
  | [], left => left
  | e :: rest, _ => lastId rest (some e.2.id)

variable {xs ys : Entries} {left right : Option NodeId} {e : Int × Part NodeId}

theorem ids_cons : ids (e :: xs) = e.2.id :: ids xs := rfl

theorem ids_append : ids (xs ++ ys) = ids xs ++ ids ys := by
  simp [ids]

theorem lastId_append : lastId (xs ++ ys) left = lastId ys (lastId xs left) := by
  induction xs generalizing left with
  | nil => rfl
  | cons e rest ih => exact ih

theorem firstId_append : firstId (xs ++ ys) right = firstId xs (firstId ys right) := by
  cases xs with
  | nil => rfl
  | cons e rest => rfl

theorem lastId_concat : lastId (xs ++ [e]) left = some e.2.id := by
  rw [lastId_append]
  rfl

theorem head?_ids : (ids xs).head? = firstId xs none := by
  cases xs with
  | nil => rfl
  | cons e rest => rfl

theorem getLast?_ids : (ids xs).getLast? = lastId xs none := by
  rcases List.eq_nil_or_concat xs with rfl | ⟨ini, e, rfl⟩
  · rfl
  · rw [List.concat_eq_append, ids_append, lastId_concat]
    simp [ids]

end Entries

/-- A section that is linked to any neighbours. -/
structure Loose where
  part : Part NodeId
  key : Int
  left : Option NodeId
  right : Option NodeId

open Cells (one)

namespace Loose

/-- What a loose section refers to. -/
def links (v : Loose) : SliceLinks := ⟨v.part.son, v.left, v.right, v.key⟩

/-- The section without its neighbours. -/
def entry (v : Loose) : Int × Part NodeId := (v.key, v.part)

/-- The cell of a section of a Q-node, as it is stored. -/
def cell (q : NodeId) (flipped : Bool) (v : Loose) : Cell where
  kind :=
    if flipped then .slice v.part.son v.right v.left (-v.key)
    else .slice v.part.son v.left v.right v.key
  parent := some q
  held := v.part.held

/-- What the cell of a section stands for. -/
theorem kind_cell (q : NodeId) (flipped : Bool) (v : Loose) :
    ∃ left right rank, (v.cell q flipped).kind = .slice v.part.son left right rank := by
  cases flipped <;> simp [cell]

/-- The cells of several sections. -/
def cells (q : NodeId) (flipped : Bool) : List Loose → Cells
  | [] => 0
  | v :: rest => one v.part.id (v.cell q flipped) + cells q flipped rest

theorem cells_append (q : NodeId) (flipped : Bool) (vs ws : List Loose) :
    cells q flipped (vs ++ ws) = cells q flipped vs + cells q flipped ws := by
  induction vs with
  | nil => simp [cells]
  | cons v rest ih => rw [List.cons_append, cells, cells, ih, add_assoc]

theorem cells_eq_coe (q : NodeId) (flipped : Bool) (vs : List Loose) :
    cells q flipped vs = (vs.map fun v => (v.part.id, v.cell q flipped) : List _) := by
  induction vs with
  | nil => rfl
  | cons v rest ih =>
      rw [cells, ih, List.map_cons, ← Multiset.cons_coe, ← Multiset.singleton_add]
      rfl

theorem mem_cells {q : NodeId} {flipped : Bool} {vs : List Loose} {v : Loose} (h : v ∈ vs) :
    (v.part.id, v.cell q flipped) ∈ cells q flipped vs := by
  obtain ⟨before, after, rfl⟩ := List.append_of_mem h
  simp [cells_append, cells]

/-- The sections with evenly spaced ranks. -/
def respace (first step : Int) : List Loose → List Loose
  | [] => []
  | v :: rest => { v with key := first } :: respace (first + step) step rest

end Loose

namespace Entries

/-- Sections linked into a chain between two neighbours. -/
def linked (left right : Option NodeId) : Entries → List Loose
  | [] => []
  | e :: rest => ⟨e.2, e.1, left, firstId rest right⟩ :: linked (some e.2.id) right rest

variable {xs ys : Entries} {left right : Option NodeId} {e : Int × Part NodeId}

theorem linked_append :
    linked left right (xs ++ ys) =
      linked left (firstId ys right) xs ++ linked (lastId xs left) right ys := by
  induction xs generalizing left with
  | nil => rfl
  | cons e rest ih =>
      rw [List.cons_append, linked, linked, ih, firstId_append]
      rfl

theorem map_entry_linked : (linked left right xs).map Loose.entry = xs := by
  induction xs generalizing left with
  | nil => rfl
  | cons e rest ih =>
      rw [linked, List.map_cons, ih]
      rfl

theorem map_id_linked : (linked left right xs).map (fun v => v.part.id) = ids xs := by
  conv_rhs => rw [← @map_entry_linked xs left right]
  simp [ids, Loose.entry]

theorem firstId_spaced (first step : Int) (xs : Entries) :
    firstId (Row.spaced first step (xs.map Prod.snd)) right = firstId xs right := by
  cases xs with
  | nil => rfl
  | cons e rest => simp [Row.spaced, firstId]

theorem respace_linked (first step : Int) :
    Loose.respace first step (linked left right xs) =
      linked left right (Row.spaced first step (xs.map Prod.snd)) := by
  induction xs generalizing left first with
  | nil => rfl
  | cons e rest ih =>
      rw [List.map_cons, Row.spaced_cons, linked, linked, Loose.respace, ih, firstId_spaced]

end Entries

/-- The cell of a Q-node whose row begins and ends with the given sections. -/
def rowCell (parent : Option NodeId) (flipped : Bool) (first last : NodeId) : Cell where
  kind := if flipped then .qnode last first true else .qnode first last false
  parent := parent
  held := []

namespace Arena

namespace Owns

variable {a : Arena} {r parent left right : Option NodeId} {M m : Cells} {q first last : NodeId}
variable {flipped : Bool} {v w : Loose} {es : Entries}

/-! ## Reading a row -/

theorem isFlipped (o : a.Owns r M) (hq : (q, rowCell parent flipped first last) ∈ M) :
    a.isFlipped q = .ok flipped := by
  simp only [Arena.isFlipped, o.cell_of_mem hq, ok_bind, rowCell]
  cases flipped <;> rfl

theorem ends (o : a.Owns r M) (hq : (q, rowCell parent flipped first last) ∈ M) :
    a.ends q = .ok (first, last) := by
  simp only [Arena.ends, o.cell_of_mem hq, ok_bind, rowCell]
  cases flipped <;> rfl

theorem sliceFlipped (o : a.Owns r M) (hq : (q, rowCell parent flipped first last) ∈ M)
    (hv : (v.part.id, v.cell q flipped) ∈ M) : a.sliceFlipped v.part.id = .ok flipped := by
  simp only [Arena.sliceFlipped, o.cell_of_mem hv, ok_bind, Loose.cell]
  exact o.isFlipped hq

theorem links (o : a.Owns r M) (hq : (q, rowCell parent flipped first last) ∈ M)
    (hv : (v.part.id, v.cell q flipped) ∈ M) : a.links v.part.id = .ok v.links := by
  simp only [Arena.links, o.cell_of_mem hv, ok_bind, Loose.cell, o.sliceFlipped hq hv]
  cases flipped
  · rfl
  · simp [Loose.links, pure_eq_ok]

/-- A walk to the right lists the sections from the first one on. -/
theorem slicesFrom (o : a.Owns r M) (hq : (q, rowCell parent flipped first last) ∈ M)
    (hs : ∀ v ∈ Entries.linked left none es, (v.part.id, v.cell q flipped) ∈ M) {fuel : Nat}
    (hfuel : es.length ≤ fuel) {s : NodeId} (hfirst : Entries.firstId es none = some s) :
    a.slicesFrom fuel s = .ok (Entries.ids es) := by
  induction es generalizing left fuel s with
  | nil => cases hfirst
  | cons e rest ih =>
      obtain ⟨fuel, rfl⟩ : ∃ n, fuel = n + 1 := ⟨fuel - 1, by simp at hfuel; omega⟩
      cases hfirst
      have hl := o.links hq (hs _ List.mem_cons_self)
      simp only at hl
      simp only [Arena.slicesFrom, hl, ok_bind, Loose.links]
      -- the walk stops where the links do, at the end of the row
      cases hrest : Entries.firstId rest none with
      | none =>
          have hnil : rest = [] := by
            cases rest with
            | nil => rfl
            | cons e rest => cases hrest
          rw [hnil]
          rfl
      | some next =>
          have hs' : ∀ v ∈ Entries.linked (some e.2.id) none rest,
              (v.part.id, v.cell q flipped) ∈ M :=
            fun v hv => hs v (List.mem_cons_of_mem _ hv)
          have hnext := ih hs' (by simpa using hfuel) hrest
          simp only [hnext, ok_bind, pure_eq_ok]
          rfl

/-! ## Writing a row -/

/-- Changing what a section refers to. -/
theorem setSlice (o : a.Owns r M) (h : M = one v.part.id (v.cell q flipped) + m)
    (hq : (q, rowCell parent flipped first last) ∈ m) (f : SliceLinks → SliceLinks)
    (hpart : w.part.id = v.part.id ∧ w.part.held = v.part.held) (hlinks : w.links = f v.links) :
    ∃ a', a.setSlice v.part.id f = .ok a' ∧ a'.Owns r (one w.part.id (w.cell q flipped) + m) := by
  have hq' : (q, rowCell parent flipped first last) ∈ M := by simp [h, hq]
  have hv' : (v.part.id, v.cell q flipped) ∈ M := by simp [h]
  simp only [Arena.setSlice, o.sliceFlipped hq' hv', ok_bind]
  refine (o.modify h _).imp fun a' hset => ⟨hset.1, hset.2.congr ?_⟩
  congr 1
  rw [hpart.1]
  congr 1
  -- in a flipped row the links are stored the other way round and the rank with the other sign
  cases flipped
  · simp only [Loose.cell, Bool.false_eq_true, if_false]
    rw [show (⟨v.part.son, v.left, v.right, v.key⟩ : SliceLinks) = v.links from rfl, ← hlinks,
      hpart.2]
    rfl
  · simp only [Loose.cell, if_true, neg_neg]
    rw [show (⟨v.part.son, v.left, v.right, v.key⟩ : SliceLinks) = v.links from rfl, ← hlinks,
      hpart.2]
    rfl

theorem setLinks (o : a.Owns r M) (h : M = one v.part.id (v.cell q flipped) + m)
    (hq : (q, rowCell parent flipped first last) ∈ m) (left right : Option NodeId) :
    ∃ a', a.setLinks v.part.id left right = .ok a' ∧
      a'.Owns r (one v.part.id (Loose.cell q flipped { v with left, right }) + m) :=
  o.setSlice (w := { v with left, right }) h hq _ ⟨rfl, rfl⟩ rfl

theorem setLeft (o : a.Owns r M) (h : M = one v.part.id (v.cell q flipped) + m)
    (hq : (q, rowCell parent flipped first last) ∈ m) (left : Option NodeId) :
    ∃ a', a.setLeft v.part.id left = .ok a' ∧
      a'.Owns r (one v.part.id (Loose.cell q flipped { v with left }) + m) :=
  o.setSlice (w := { v with left }) h hq _ ⟨rfl, rfl⟩ rfl

theorem setRight (o : a.Owns r M) (h : M = one v.part.id (v.cell q flipped) + m)
    (hq : (q, rowCell parent flipped first last) ∈ m) (right : Option NodeId) :
    ∃ a', a.setRight v.part.id right = .ok a' ∧
      a'.Owns r (one v.part.id (Loose.cell q flipped { v with right }) + m) :=
  o.setSlice (w := { v with right }) h hq _ ⟨rfl, rfl⟩ rfl

theorem setRank (o : a.Owns r M) (h : M = one v.part.id (v.cell q flipped) + m)
    (hq : (q, rowCell parent flipped first last) ∈ m) (key : Int) :
    ∃ a', a.setRank v.part.id key = .ok a' ∧
      a'.Owns r (one v.part.id (Loose.cell q flipped { v with key }) + m) :=
  o.setSlice (w := { v with key }) h hq _ ⟨rfl, rfl⟩ rfl

theorem setEnds (o : a.Owns r M) (h : M = one q (rowCell parent flipped first last) + m)
    (first' last' : NodeId) :
    ∃ a', a.setEnds q first' last' = .ok a' ∧
      a'.Owns r (one q (rowCell parent flipped first' last') + m) := by
  refine (o.modify h _).imp fun a' hset => ⟨hset.1, hset.2.congr ?_⟩
  congr 2
  cases flipped <;> rfl

/-- Sections of one Q-node become a chain. -/
theorem chain (o : a.Owns r M) (vs : List Loose) (h : M = Loose.cells q flipped vs + m)
    (hq : (q, rowCell parent flipped first last) ∈ m) (left right : Option NodeId) :
    ∃ a', a.chain left (vs.map fun v => v.part.id) right = .ok a' ∧
      a'.Owns r (Loose.cells q flipped (Entries.linked left right (vs.map Loose.entry)) + m) := by
  induction vs generalizing a M m left with
  | nil => exact ⟨a, rfl, o.congr h⟩
  | cons v rest ih =>
      -- the right neighbour is the next section, or what follows the chain
      have hright : ((rest.map fun v => v.part.id).head? <|> right) =
          Entries.firstId (rest.map Loose.entry) right := by
        cases rest with
        | nil => rfl
        | cons v rest => rfl
      obtain ⟨a₁, h₁, o₁⟩ := o.setLinks (m := Loose.cells q flipped rest + m)
        (by rw [h, Loose.cells, add_assoc]) (Multiset.mem_add.2 (Or.inr hq)) left
        (Entries.firstId (rest.map Loose.entry) right)
      obtain ⟨a₂, h₂, o₂⟩ := ih (o₁.congr (add_left_comm _ _ _)) rfl
        (Multiset.mem_add.2 (Or.inr hq)) (some v.part.id)
      refine ⟨a₂, ?_, o₂.congr ?_⟩
      · rw [List.map_cons, Arena.chain, hright, h₁, ok_bind, h₂]
      · rw [List.map_cons, Entries.linked, Loose.cells, add_left_comm, add_assoc]
        rfl

/-- Sections of one Q-node get evenly spaced ranks. -/
theorem rankFrom (o : a.Owns r M) (vs : List Loose) (h : M = Loose.cells q flipped vs + m)
    (hq : (q, rowCell parent flipped first last) ∈ m) (low step : Int) :
    ∃ a', a.rankFrom low step (vs.map fun v => v.part.id) = .ok a' ∧
      a'.Owns r (Loose.cells q flipped (Loose.respace low step vs) + m) := by
  induction vs generalizing a M m low with
  | nil => exact ⟨a, rfl, o.congr h⟩
  | cons v rest ih =>
      obtain ⟨a₁, h₁, o₁⟩ := o.setRank (m := Loose.cells q flipped rest + m)
        (by rw [h, Loose.cells, add_assoc]) (Multiset.mem_add.2 (Or.inr hq)) low
      obtain ⟨a₂, h₂, o₂⟩ := ih (o₁.congr (add_left_comm _ _ _)) rfl
        (Multiset.mem_add.2 (Or.inr hq)) (low + step)
      refine ⟨a₂, ?_, o₂.congr ?_⟩
      · rw [List.map_cons, Arena.rankFrom, h₁, ok_bind, h₂]
      · rw [Loose.respace, Loose.cells, add_left_comm, add_assoc]

/-- The left part of a row is linked with its new right neighbour. -/
theorem joinLeft (o : a.Owns r M)
    (h : M = Loose.cells q flipped (Entries.linked none right es) + m)
    (hq : (q, rowCell parent flipped first last) ∈ m) (s : NodeId) :
    ∃ a', a.joinLeft (Entries.lastId es none) s = .ok a' ∧
      a'.Owns r (Loose.cells q flipped (Entries.linked none (some s) es) + m) := by
  -- only the last section of the left part changes
  rcases List.eq_nil_or_concat es with rfl | ⟨ini, e, rfl⟩
  · exact ⟨a, rfl, o.congr h⟩
  · rw [List.concat_eq_append] at h ⊢
    rw [Entries.linked_append, Loose.cells_append] at h ⊢
    obtain ⟨a', ha, o'⟩ := o.setRight
      (v := ⟨e.2, e.1, Entries.lastId ini none, right⟩)
      (m := Loose.cells q flipped (Entries.linked none (Entries.firstId [e] right) ini) + m)
      (by rw [h]; simp only [Entries.linked, Loose.cells, Entries.firstId]; abel)
      (Multiset.mem_add.2 (Or.inr hq)) (some s)
    refine ⟨a', ?_, o'.congr ?_⟩
    · rw [Entries.lastId_concat]
      exact ha
    · simp only [Entries.linked, Loose.cells, Entries.firstId]
      abel

/-- The right part of a row is linked with its new left neighbour. -/
theorem joinRight (o : a.Owns r M)
    (h : M = Loose.cells q flipped (Entries.linked left none es) + m)
    (hq : (q, rowCell parent flipped first last) ∈ m) (s : NodeId) :
    ∃ a', a.joinRight s (Entries.firstId es none) = .ok a' ∧
      a'.Owns r (Loose.cells q flipped (Entries.linked (some s) none es) + m) := by
  cases es with
  | nil => exact ⟨a, rfl, o.congr h⟩
  | cons e rest =>
      obtain ⟨a', ha, o'⟩ := o.setLeft (v := ⟨e.2, e.1, left, Entries.firstId rest none⟩)
        (m := Loose.cells q flipped (Entries.linked (some e.2.id) none rest) + m)
        (by rw [h]; simp only [Entries.linked, Loose.cells]; abel)
        (Multiset.mem_add.2 (Or.inr hq)) (some s)
      refine ⟨a', ha, o'.congr ?_⟩
      simp only [Entries.linked, Loose.cells]
      abel

end Owns

end Arena

end CliquePath
