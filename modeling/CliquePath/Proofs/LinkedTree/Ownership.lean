import CliquePath.LinkedTree.Arena
import Mathlib.Algebra.BigOperators.Group.Multiset.Basic
import Mathlib.Algebra.Order.Group.Multiset
import Mathlib.Data.Multiset.Count
import Mathlib.Tactic

set_option autoImplicit false

/-!
# Owned cells

This module states what an operation on an arena does in terms of the cells that a part of the tree
owns. `Arena.Owns` says that an arena has the root and the cells named, at places that are all
different. Each operation then has one statement: given the cells on which it works and any others,
it succeeds, changes those cells and leaves the others as they are.
-/

namespace CliquePath

/-! ## Steps that succeed -/

section Steps

variable {α β : Type}

theorem ok_bind (x : α) (f : α → Except TreeFault β) : (Except.ok x >>= f) = f x := rfl

theorem pure_eq_ok (x : α) : (pure x : Except TreeFault α) = .ok x := rfl

end Steps

/-- Cells with their places. -/
abbrev Cells := Multiset (NodeId × Cell)

namespace Cells

/-- One cell. -/
def one (id : NodeId) (c : Cell) : Cells := {(id, c)}

@[simp]
theorem map_fst_one (id : NodeId) (c : Cell) : (one id c).map Prod.fst = {id} := rfl

@[simp]
theorem mem_one {id : NodeId} {c : Cell} {e : NodeId × Cell} : e ∈ one id c ↔ e = (id, c) :=
  Multiset.mem_singleton

end Cells

open Cells (one)

namespace Arena

/-- The arena has the given root and, at different places, the given cells. -/
structure Owns (a : Arena) (root : Option NodeId) (m : Cells) : Prop where
  root_eq : a.root = root
  nodup : (m.map Prod.fst).Nodup
  cells : ∀ e ∈ m, a.cells[e.1]? = some e.2

variable {a : Arena} {r : Option NodeId} {M m n : Cells} {id p x old new : NodeId} {c d : Cell}

namespace Owns

theorem congr (o : a.Owns r M) (h : M = m) : a.Owns r m := h ▸ o

theorem mem_lt (o : a.Owns r M) {e : NodeId × Cell} (he : e ∈ M) : e.1 < a.cells.size := by
  have h := o.cells e he
  exact (Array.getElem?_eq_some_iff.1 h).1

/-- Owned cells can be read. -/
theorem cell_of_mem (o : a.Owns r M) (h : (id, c) ∈ M) : a.cell id = .ok c := by
  have hc := o.cells _ h
  simp only at hc
  simp only [cell, hc]

theorem cell (o : a.Owns r M) (h : M = one id c + m) : a.cell id = .ok c :=
  o.cell_of_mem (by simp [h])

/-- Two owned cells at one place are the same. -/
theorem eq_of_mem (o : a.Owns r M) (h : (id, c) ∈ M) (h' : (id, d) ∈ M) : c = d := by
  have hc := o.cells _ h
  have hd := o.cells _ h'
  simp only at hc hd
  rw [hc] at hd
  exact Option.some.inj hd

/-- Part of the owned cells. -/
theorem left (o : a.Owns r (m + n)) : a.Owns r m where
  root_eq := o.root_eq
  nodup := by
    have h := o.nodup
    rw [Multiset.map_add] at h
    exact (Multiset.nodup_add.1 h).1
  cells e he := o.cells e (Multiset.mem_add.2 (Or.inl he))

theorem not_mem_map (o : a.Owns r M) (h : M = one id c + m) : id ∉ m.map Prod.fst := by
  have hn := o.nodup
  rw [h, Multiset.map_add, Cells.map_fst_one, Multiset.singleton_add, Multiset.nodup_cons] at hn
  exact hn.1

/-- The arena has at least as many cells as are owned. -/
theorem card_le (o : a.Owns r M) : M.card ≤ a.cells.size := by
  have hsub : M.map Prod.fst ≤ Multiset.range a.cells.size := by
    rw [Multiset.le_iff_subset o.nodup]
    intro id hid
    obtain ⟨e, he, rfl⟩ := Multiset.mem_map.1 hid
    exact Multiset.mem_range.2 (o.mem_lt he)
  simpa using Multiset.card_le_card hsub

/-! ## Changing a cell -/

/-- Changing an owned cell. -/
theorem modify (o : a.Owns r M) (h : M = one id c + m) (f : Cell → Cell) :
    ∃ a', a.modify id f = .ok a' ∧ a'.Owns r (one id (f c) + m) := by
  have hlt : id < a.cells.size := o.mem_lt (e := (id, c)) (by simp [h])
  refine ⟨{ a with cells := a.cells.setIfInBounds id (f c) }, ?_, o.root_eq, ?_, ?_⟩
  · simp only [Arena.modify, o.cell h, ok_bind, pure_eq_ok]
  · have hn := o.nodup
    rw [h] at hn
    simpa using hn
  · have hnot := o.not_mem_map h
    intro e he
    rcases Multiset.mem_add.1 he with he | he
    · rw [Cells.mem_one.1 he]
      simp [hlt]
    · -- the other owned cells have other identities
      have hne : id ≠ e.1 := fun heq => hnot (Multiset.mem_map.2 ⟨e, he, heq.symm⟩)
      rw [Array.getElem?_setIfInBounds_ne hne]
      exact o.cells e (by simp [h, he])

theorem setParent (o : a.Owns r M) (h : M = one id c + m) (parent : Option NodeId) :
    ∃ a', a.setParent id parent = .ok a' ∧ a'.Owns r (one id { c with parent } + m) :=
  o.modify h _

theorem setHeld (o : a.Owns r M) (h : M = one id c + m) (held : List Vertex) :
    ∃ a', a.setHeld id held = .ok a' ∧ a'.Owns r (one id { c with held } + m) :=
  o.modify h _

theorem setKind (o : a.Owns r M) (h : M = one id c + m) (kind : Kind) :
    ∃ a', a.setKind id kind = .ok a' ∧ a'.Owns r (one id { c with kind } + m) :=
  o.modify h _

/-- Several cells get the same parent. -/
theorem setParents (o : a.Owns r M) (es : List (NodeId × Cell)) (h : M = (es : Cells) + m)
    (p : NodeId) :
    ∃ a', a.setParents (es.map Prod.fst) p = .ok a' ∧
      a'.Owns r (((es.map fun e => (e.1, { e.2 with parent := some p }) : List _) : Cells) + m) := by
  induction es generalizing a M m with
  | nil => exact ⟨a, rfl, o.congr h⟩
  | cons e rest ih =>
      obtain ⟨a₁, h₁, o₁⟩ := o.setParent (m := ↑rest + m)
        (by rw [h, ← Multiset.cons_coe, ← Multiset.singleton_add, add_assoc]; rfl) (some p)
      obtain ⟨a₂, h₂, o₂⟩ := ih (o₁.congr (add_left_comm _ _ _)) rfl
      refine ⟨a₂, ?_, o₂.congr ?_⟩
      · rw [Arena.setParents] at h₂ ⊢
        rw [List.map_cons, List.foldlM_cons, h₁, ok_bind, h₂]
      · -- the cell that was set joins the ones beside the rest
        rw [List.map_cons, ← Multiset.cons_coe, ← Multiset.singleton_add, add_assoc, add_left_comm]
        rfl

/-- A cell is taken out of use. -/
theorem discard_dead (o : a.Owns r M) (h : M = one id c + m) :
    ∃ a', a.discard id = .ok a' ∧
      a'.Owns r (one id { c with alive := false, parent := none, held := [] } + m) :=
  o.modify h _

/-- A cell out of use need not be owned any longer. -/
theorem discard (o : a.Owns r M) (h : M = one id c + m) :
    ∃ a', a.discard id = .ok a' ∧ a'.Owns r m := by
  obtain ⟨a', ha, o'⟩ := o.discard_dead h
  exact ⟨a', ha, (o'.congr (add_comm _ _)).left⟩

/-- A new cell. -/
theorem alloc (o : a.Owns r M) (kind : Kind) (held : List Vertex) :
    (a.alloc kind held).1.Owns r (one (a.alloc kind held).2 { kind, held } + M) where
  root_eq := o.root_eq
  nodup := by
    rw [Multiset.map_add, Cells.map_fst_one, Multiset.singleton_add, Multiset.nodup_cons]
    refine ⟨fun hmem => ?_, o.nodup⟩
    obtain ⟨e, he, heq⟩ := Multiset.mem_map.1 hmem
    -- the new identity is the size of the arena, above every owned one
    exact Nat.ne_of_lt (o.mem_lt he) heq
  cells e he := by
    rcases Multiset.mem_add.1 he with he | he
    · rw [Cells.mem_one.1 he]
      simp [Arena.alloc]
    · have hne : e.1 ≠ a.cells.size := Nat.ne_of_lt (o.mem_lt he)
      simpa [Arena.alloc, Array.getElem?_push, hne] using o.cells e he

end Owns

end Arena

end CliquePath
