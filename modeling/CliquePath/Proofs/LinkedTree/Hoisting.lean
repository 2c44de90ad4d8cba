import CliquePath.Proofs.LinkedTree.Climbing
import CliquePath.Proofs.LinkedTree.Life
import CliquePath.Proofs.LinkedTree.Sections

set_option autoImplicit false

/-!
# Hoisting vertices out of a row

This module shows that the vertices that all sections of a row hold can move into a P-node directly
above the row, which is a new one unless the row is the only child of one already.
-/

namespace CliquePath

open Cells (one)

namespace Row

/-- The row without some of the vertices of its sections. -/
def without (R : Row (Part NodeId)) (vs : List Vertex) : Row (Part NodeId) :=
  ofKeyed R.flipped (Entries.mapHeld (·.filter fun v => !vs.contains v) R.keyed)

variable {R : Row (Part NodeId)} {vs : List Vertex}

theorem sonLinks_without : sonLinks (R.without vs).keyed = sonLinks R.keyed := by
  simp [without, sonLinks, Entries.mapHeld, Function.comp_def]

theorem ascending_without (h : R.Ascending) : (R.without vs).Ascending := by
  rw [without, ascending_ofKeyed]
  rw [Ascending, ← List.pairwise_map] at h
  simpa [Entries.mapHeld, Function.comp_def] using h

theorem without_ne_nil (h : R.keyed ≠ []) : (R.without vs).keyed ≠ [] := by
  simpa [without, Entries.mapHeld] using h

/-- The sections hold what they held before, less the vertices that were taken out. -/
theorem holds_without {q : NodeId} {parent : Option NodeId} (parent' : Option NodeId) {v : Vertex}
    {r : NodeId × Option NodeId} :
    ((R.without vs).cellsAt q parent).Holds v r ↔ (R.cellsAt q parent').Holds v r ∧ v ∉ vs := by
  simp only [Cells.holds_cellsAt, toList, without, keyed_ofKeyed, Entries.mapHeld, List.map_map,
    List.mem_map, Function.comp_apply, exists_exists_and_eq_and, List.mem_filter,
    Bool.not_eq_true', List.contains_eq_mem, decide_eq_false_iff_not]
  constructor
  · rintro ⟨e, he, ⟨hv, hn⟩, rfl⟩
    exact ⟨⟨e, he, hv, rfl⟩, hn⟩
  · rintro ⟨⟨e, he, hv, rfl⟩, hn⟩
    exact ⟨e, he, ⟨hv, hn⟩, rfl⟩

end Row

namespace Arena.Owns

variable {a : Arena} {r parent : Option NodeId} {M m : Cells} {q : NodeId} {R : Row (Part NodeId)}

/-- Taking vertices out of all sections of a linked row. -/
theorem without_row (o : a.Owns r M) (h : M = R.cellsAt q parent + m) (vs : List Vertex) :
    ∃ a', a.mapHeld (·.filter fun v => !vs.contains v) (Entries.ids R.keyed) = .ok a' ∧
      a'.Owns r ((R.without vs).cellsAt q parent + m) := by
  have hM : M = (Row.ofKeyed R.flipped ([] ++ (R.keyed ++ []))).cellsAt q parent + m := by
    rw [h, List.nil_append, List.append_nil, Row.ofKeyed_keyed]
  obtain ⟨a', h', o'⟩ := o.mapHeld_row (·.filter fun v => !vs.contains v) [] R.keyed [] hM
  exact ⟨a', h', by simpa [Row.without] using o'⟩

end Arena.Owns

/-- The node in focus is the only child of a P-node `p` that holds `held`, in the context `c'`. That
P-node stood there before, or it is a new cell. -/
inductive Hosted (f : Array Bool) (c : Ctx) : Array Bool → NodeId → List Vertex → Ctx → Prop
  | old {p : NodeId} {held : List Vertex} {c' : Ctx} (hc : c = .branch p held [] [] 0 :: c') :
      Hosted f c f p held c'
  | fresh {p : NodeId} (hc : ∀ p held rest c', c ≠ .branch p held [] [] rest :: c') :
      Hosted f c (f.push true) p [] c

namespace Hosted

variable {f f' : Array Bool} {c c' : Ctx} {p q : NodeId} {held : List Vertex}

theorem ok (h : Hosted f c f' p held c') (hc : c.Ok) : Ctx.Ok c' := by
  cases h with
  | old heq =>
      subst heq
      exact fun f hf => hc f (List.mem_cons_of_mem _ hf)
  | fresh hne => exact hc

/-- What is held above the node in focus is held by the P-node or above that one. -/
theorem holds (h : Hosted f c f' p held c') (v : Vertex) (r : NodeId × Option NodeId) :
    (c.cells q).Holds v r ↔ v ∈ held ∧ r = (p, none) ∨ (c'.cells p).Holds v r := by
  cases h with
  | old heq =>
      subst heq
      simp [Ctx.cells, Frame.cells, Frame.node]
  | fresh hne => simp [Ctx.holds_cells c q p]

end Hosted

namespace Work

variable {w : Work} {S : Set Vertex} {c c' : Ctx} {p q : NodeId} {n : Cells}
variable {R : Row (Part NodeId)} {held vs : List Vertex} {M m : Cells}

/-- The vertices that were taken out of a row are in a P-node above it. -/
theorem RowStands.agree_hoist (h : w.RowStands S c q R n) (hc : c.Ok)
    (hvs : ∀ v ∈ vs, ∃ part ∈ R.toList, v ∈ part.held)
    (habove : ∀ v r, (c.cells q).Holds v r ↔
      v ∈ held ∧ r = (p, none) ∨ (c'.cells p).Holds v r) :
    (w.slots.putAll vs (.node p)).Agree S (one p (pCell c'.parent (held ++ vs) [q]) +
      ((R.without vs).cellsAt q (some p) + n) + c'.cells p) := by
  refine h.agree.reseat (fun v hv => ?_) (by simp) (fun v hv => ?_) fun v hv r => ?_
  · -- the row is the only place of such a vertex, so that nothing but the P-node holds it in the end
    obtain ⟨part, hpart, hheld⟩ := hvs v hv
    exact (h.stands.of_row hc h.sons hpart hheld).1
  · obtain ⟨part, hpart, hheld⟩ := hvs v hv
    have hout := (h.stands.of_row hc h.sons hpart hheld).2.2
    refine ⟨by simp [hv], fun r hr => ?_⟩
    simp only [Cells.holds_add, habove, not_or] at hout
    simp only [Cells.holds_add, Cells.holds_one, held_pCell, row?_pCell,
      Row.holds_without c.parent, hv, not_true, and_false, false_or] at hr
    rcases hr with (⟨-, hr⟩ | hr) | hr
    · exact hr
    · exact absurd hr (hout r).1
    · exact absurd hr (hout r).2.2
  · simp only [Cells.holds_add, Cells.holds_one, held_pCell, row?_pCell,
      Row.holds_without c.parent, hv, not_false_eq_true, and_true, habove,
      List.mem_append, or_false]
    tauto

/-- A Q-node in focus is the only child of the P-node above it, or it is of no P-node. -/
theorem wrapper?_row {a : Arena} {r : Option NodeId} (o : a.Owns r M)
    (h : M = R.cellsAt q c.parent + n + c.cells q) :
    (a.wrapper? q = .ok none ∧ ∀ p held rest c', c ≠ .branch p held [] [] rest :: c') ∨
      ∃ p held rest c', c = .branch p held [] [] rest :: c' ∧ a.wrapper? q = .ok (some p) := by
  have hcell := o.cell_of_mem (Arena.Owns.mem_row (h.trans (add_assoc _ _ _)))
  -- the node asks for its holder alone, so that the innermost frame decides
  cases c with
  | nil =>
      refine Or.inl ⟨?_, by simp⟩
      simp only [Arena.wrapper?, hcell, ok_bind, rowCell, Ctx.parent, pure_eq_ok]
  | cons f c =>
      cases f with
      | branch p held before after rest =>
          have hp : a.cell p = .ok (pCell (Ctx.parent c) held (before ++ q :: after)) := by
            refine o.cell_of_mem ?_
            simp [h, Ctx.cells, Frame.cells]
          simp only [Arena.wrapper?, hcell, ok_bind, rowCell, Ctx.parent, Frame.holder, hp, pCell]
          -- only the first child that is also the last one has a wrapper
          cases before with
          | cons x xs => exact Or.inl ⟨by cases xs <;> rfl, by simp⟩
          | nil =>
              cases after with
              | cons x xs => exact Or.inl ⟨rfl, by simp⟩
              | nil => exact Or.inr ⟨p, held, rest, c, rfl, rfl⟩
      | inRow x flipped xs key s held ys rest =>
          obtain ⟨d, hd, -, hslice, -⟩ := @Frame.slice_mem x flipped xs ys key s held rest (Ctx.parent c) q
          have hs : a.cell s = .ok d := by
            refine o.cell_of_mem ?_
            rw [h, Ctx.cells]
            exact Multiset.mem_add.2 (Or.inr (Multiset.mem_add.2 (Or.inl hd)))
          refine Or.inl ⟨?_, by simp⟩
          simp only [Arena.wrapper?, hcell, ok_bind, rowCell, Ctx.parent, Frame.holder, hs]
          cases hk : d.kind <;> simp [hk, Kind.isSlice] at hslice ⊢
          rfl

/-- The node in focus has a P-node above it of which it is the only child. -/
theorem hostAbove_row {a : Arena} (o : a.Owns (some (c.top q)) M) (hc : c.Ok)
    (h : M = R.cellsAt q c.parent + n + c.cells q) :
    ∃ a' p c' held, a.hostAbove q = .ok (a', p) ∧ Hosted a.life c a'.life p held c' ∧
      a'.Owns (some (Ctx.top c' p)) (one p (pCell (Ctx.parent c') held [q]) +
        (R.cellsAt q (some p) + n + Ctx.cells c' p)) := by
  rcases wrapper?_row o h with ⟨hnone, hne⟩ | ⟨p, held, rest, c', rfl, hsome⟩
  · obtain ⟨a₁, a₂, p, h₁, h₂, a₃, h₃, o₃⟩ := wrapNode_owns o hc
      (d := rowCell c.parent R.flipped R.firstPart R.lastPart)
      (m := Loose.cells q R.flipped (Entries.linked none none R.keyed) + n)
      (by rw [h, Row.cellsAt]; abel) rfl (by cases R.flipped <;> rfl)
    have hhost : a.hostAbove q = .ok (a₃, p) := by
      simp only [Arena.hostAbove, hnone, ok_bind, h₁, h₂, h₃, pure_eq_ok]
    have hlife : a₃.life = a.life.push true := by
      rcases Arena.life_hostAbove hhost with ⟨hsome, -⟩ | ⟨-, hlife⟩
      · cases hnone.symm.trans hsome
      · exact hlife
    refine ⟨a₃, p, c, [], hhost, hlife ▸ .fresh hne, o₃.congr ?_⟩
    rw [Row.cellsAt]
    simp only [rowCell]
    abel
  · have hok : Trees (childLinks p ([] ++ [])) rest := hc _ List.mem_cons_self
    -- an only child has no siblings, so that there are no cells beside the row
    obtain rfl := hok.eq_zero
    refine ⟨a, p, c', held, ?_, .old rfl, o.congr ?_⟩
    · simp only [Arena.hostAbove, hsome, ok_bind, pure_eq_ok]
    · rw [h, Ctx.cells, Frame.cells, Frame.node, add_zero, List.nil_append]
      simp only [Ctx.parent, Frame.holder]
      abel

/-- The run of the vertex goes from the one section to the other. -/
def spans (w : Work) (first last : NodeId) (v : Vertex) : Bool :=
  w.slots.get v = .span first last || w.slots.get v = .span last first

/-- Those vertices of the first section of a row whose runs reach from end to end are hoisted. -/
theorem RowStands.hoist_row {e : Int × Part NodeId} {ys : Entries} (h : w.RowStands S c q R n)
    (hc : c.Ok) (hR : R.keyed = e :: ys)
    (hvs : e.2.held.filter (w.spans R.firstPart R.lastPart) = vs) :
    (vs = [] ∧ w.hoist q = .ok w) ∨ (vs ≠ [] ∧ ∃ w' p c' held, w.hoist q = .ok w' ∧
      Hosted w.arena.life c w'.arena.life p held c' ∧ w'.slots = w.slots.putAll vs (.node p) ∧
      w'.touched = w.touched ∧ w'.Stands S c' p (one p (pCell (Ctx.parent c') (held ++ vs) [q]) +
        ((R.without vs).cellsAt q (some p) + n))) := by
  -- the sections at which the run of a vertex begins and ends are those of its slot
  have hM : R.cellsAt q c.parent + n + c.cells q = R.cellsAt q c.parent + (n + c.cells q) :=
    add_assoc _ _ _
  have hfirst := Row.firstPart_eq hR
  have hends := h.owns.ends_row hM
  have hcell := h.owns.cell_row hM (show R.keyed = [] ++ e :: ys from hR)
  rw [hfirst] at hends hvs
  have hheld : ∀ v ∈ vs, ∃ part ∈ R.toList, v ∈ part.held := by
    intro v hv
    rw [← hvs] at hv
    exact ⟨e.2, by simp [Row.toList, hR], (List.mem_filter.1 hv).1⟩
  have hspans : (fun v => decide (w.slots.get v = .span e.2.id R.lastPart) ||
      decide (w.slots.get v = .span R.lastPart e.2.id)) = w.spans e.2.id R.lastPart := rfl
  simp only [Work.hoist, hends, hcell, ok_bind, Loose.cell, hspans, hvs]
  -- without such vertices no P-node is asked for
  by_cases hempty : vs = []
  · exact Or.inl ⟨hempty, by rw [hempty]; rfl⟩
  refine Or.inr ⟨hempty, ?_⟩
  obtain ⟨a₁, h₁, o₁⟩ := h.owns.without_row hM vs
  obtain ⟨a₂, p, c', held, h₂, hhost, o₂⟩ := hostAbove_row o₁ hc (add_assoc _ _ _).symm
  have hcell := o₂.cell rfl
  obtain ⟨a₃, h₃, o₃⟩ := o₂.setHeld rfl (held ++ vs)
  have hcells : one p (pCell (Ctx.parent c') (held ++ vs) [q]) +
      ((R.without vs).cellsAt q (some p) + n + Ctx.cells c' p) =
        one p (pCell (Ctx.parent c') (held ++ vs) [q]) +
          ((R.without vs).cellsAt q (some p) + n) + Ctx.cells c' p := (add_assoc _ _ _).symm
  refine ⟨⟨a₃, w.slots.putAll vs (.node p), w.touched⟩, p, c', held, ?_, ?_, rfl, rfl,
    o₃.congr hcells, h.agree_hoist hc hheld hhost.holds, fun t ht => ?_⟩
  · simp only [List.isEmpty_iff, hempty, if_false, h.owns.slices_row hM h.keyed_ne, ok_bind, h₁, h₂,
      hcell, held_pCell, h₃, pure_eq_ok]
  · rw [Arena.Lives.setHeld rfl _ _ h₃, ← Arena.Lives.mapHeld rfl _ _ _ h₁]
    exact hhost
  · simp only [Multiset.map_add, Multiset.mem_add]
    exact Or.inr (Or.inr (h.touched t ht))

/-- Some of the vertices of the first section of a row are hoisted. -/
theorem RowStands.hoist (h : w.RowStands S c q R n) (hc : c.Ok) :
    ∃ w' c', w.hoist q = .ok w' ∧ w'.Settled S c' ∧ Ctx.Ok c' := by
  obtain ⟨e, ys, hR⟩ := List.exists_cons_of_ne_nil h.keyed_ne
  rcases h.hoist_row hc hR rfl with ⟨-, hsame⟩ | ⟨-, w', p, c', held, h', hhost, -, -, hst⟩
  · exact ⟨w, c, hsame, h.settled, hc⟩
  · refine ⟨w', c', h', ⟨p, _, hst, .of_shape (.pnode _ (by simp) ?_)⟩, hhost.ok hc⟩
    have hson : ∀ vs, Trees {(some p, q)} ((R.without vs).cellsAt q (some p) + n) := by
      intro vs
      refine .of_shape (.qnode (Row.without_ne_nil h.keyed_ne) (Row.ascending_without h.ascending) ?_)
      rw [Row.sonLinks_without]
      exact h.sons
    simpa [childLinks] using hson _

end Work

end CliquePath
