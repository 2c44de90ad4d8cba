import CliquePath.Proofs.CliqueTree.Proper
import CliquePath.Proofs.LinkedTree.Life
import CliquePath.Proofs.LinkedTree.Placing
import CliquePath.Proofs.LinkedTree.Plans

set_option autoImplicit false

/-!
# Runs of sections

This module states that the slot of a vertex which a row holds names the first and the last section
that hold it, and keeps this with a plan. The state of a linked tree whose cells stand for a plan is
`Work.Draws`.
-/

namespace CliquePath

open Cells (one)

/-! ## Ends of runs -/

/-- The places of those sections that hold a vertex. -/
def hits (v : Vertex) (ss : List (NodeId × List Vertex)) : List NodeId :=
  (ss.filter fun s => s.2.contains v).map Prod.fst

section Hits

variable {v : Vertex} {ss ts : List (NodeId × List Vertex)} {id : NodeId}

theorem hits_append : hits v (ss ++ ts) = hits v ss ++ hits v ts := by
  simp [hits]

theorem hits_eq_nil : hits v ss = [] ↔ ∀ s ∈ ss, v ∉ s.2 := by
  simp [hits]

theorem hits_of_all (h : ∀ s ∈ ss, v ∈ s.2) : hits v ss = ss.map Prod.fst := by
  rw [hits, List.filter_eq_self.2 fun s hs => by simpa using h s hs]

theorem mem_hits : id ∈ hits v ss ↔ ∃ held, (id, held) ∈ ss ∧ v ∈ held := by
  simp [hits]

end Hits

/-- The slot of every vertex that the sections hold names the first and the last one that do. -/
def Slots.Marks (slots : Slots) (ss : List (NodeId × List Vertex)) : Prop :=
  ∀ v f l, (hits v ss).head? = some f → (hits v ss).getLast? = some l →
    slots.get v = .span f l ∨ slots.get v = .span l f

theorem Slots.Marks.congr {slots slots' : Slots} {ss : List (NodeId × List Vertex)}
    (h : slots.Marks ss) (hsame : ∀ s ∈ ss, ∀ v ∈ s.2, slots'.get v = slots.get v) :
    slots'.Marks ss := by
  intro v f l hf hl
  obtain ⟨held, hs, hv⟩ := mem_hits.1 (List.mem_of_head? hf)
  rw [hsame _ hs v hv]
  exact h v f l hf hl

theorem Slots.marks_of_nil {slots : Slots} {ss : List (NodeId × List Vertex)} (h : ss = []) :
    slots.Marks ss := by
  intro v f l hf
  simp [h, hits] at hf

/-- A row and its reverse have the same runs. -/
theorem Slots.Marks.reverse {slots : Slots} {ss : List (NodeId × List Vertex)} (h : slots.Marks ss) :
    slots.Marks ss.reverse := by
  intro v f l hf hl
  have hrev : hits v ss.reverse = (hits v ss).reverse := by
    simp [hits]
  rw [hrev, List.head?_reverse] at hf
  rw [hrev, List.getLast?_reverse] at hl
  exact (h v l f hl hf).symm

/-! ## Runs of a plan -/

namespace Part

variable {ν : Type}

/-- The place of a section with what it holds. -/
def span (s : Part ν) : NodeId × List Vertex := (s.id, s.held)

end Part

namespace Plan

/-- The sections of the node itself. -/
def spans : Plan → List (NodeId × List Vertex)
  | .qnode _ row => row.toList.map Part.span
  | _ => []

variable {T U V : Plan} {bs : List Bough} {b : Bough} {parent : Option NodeId} {v : Vertex}
variable {s : NodeId × List Vertex} {ls : List (NodeId × Plan)} {l : NodeId × Plan}
variable {p : NodeId × Option NodeId}

theorem spans_fill (b : Bough) (T U : Plan) : (b.fill T).spans = (b.fill U).spans := by
  cases b with
  | branch id held before after => rfl
  | inRow q flipped xs key id held ys => simp [Bough.fill, spans, Row.toList, Part.span]

theorem holds_limbCells :
    (limbCells ls).Holds v p ↔ ∃ l ∈ ls, (l.2.cells (some l.1)).Holds v p := by
  induction ls with
  | nil => simp
  | cons l rest ih => rw [limbCells_cons, Cells.holds_add, ih]; simp

theorem holds_cells : (T.cells parent).Holds v p ↔
    (T.own parent).Holds v p ∨ ∃ l ∈ T.limbs, (l.2.cells (some l.1)).Holds v p := by
  rw [cells_eq, Cells.holds_add, holds_limbCells]

/-- The row of a Q-node holds what its sections do. -/
theorem holds_own_qnode {q : NodeId} {row : Row (Part Plan)} :
    ((qnode q row).own parent).Holds v p ↔ ∃ s ∈ row.toList, v ∈ s.held ∧ p = (s.id, some q) := by
  rw [own, Cells.holds_cellsAt, Row.toList_map]
  simp [Part.top]

/-- What sections of a plan hold is held by its cells. -/
theorem holds_of_spans (parent : Option NodeId) (hV : V ∈ T.parts) (hs : s ∈ V.spans) (hv : v ∈ s.2) :
    ∃ q, (T.cells parent).Holds v (s.1, some q) := by
  induction T using Plan.induction generalizing parent with
  | step T ih =>
      rcases mem_parts_iff.1 hV with rfl | ⟨l, hl, hV⟩
      · cases V with
        | leaf id held => simp [spans] at hs
        | pnode id held children => simp [spans] at hs
        | qnode q row =>
            obtain ⟨part, hpart, rfl⟩ := List.mem_map.1 hs
            exact ⟨q, holds_cells.2 (Or.inl (holds_own_qnode.2 ⟨part, hpart, hv, rfl⟩))⟩
      · obtain ⟨q, hq⟩ := ih l hl (some l.1) hV
        exact ⟨q, holds_cells.2 (Or.inr ⟨l, hl, hq⟩)⟩

theorem holds_of_limb_spans (hl : l ∈ ls) (hV : V ∈ l.2.parts) (hs : s ∈ V.spans) (hv : v ∈ s.2) :
    ∃ q, (limbCells ls).Holds v (s.1, some q) := by
  obtain ⟨q, hq⟩ := holds_of_spans (some l.1) hV hs hv
  exact ⟨q, holds_limbCells.2 ⟨l, hl, hq⟩⟩

/-- What is held in a plan taken apart is held in the focus or around it. -/
theorem holds_under : ((T.under bs).cells none).Holds v p ↔
    (T.cells (ctx bs).parent).Holds v p ∨ ((ctx bs).cells T.id).Holds v p := by
  rw [cells_under, Cells.holds_add]

end Plan

open Plan (ctx)

/-- The slots name the ends of all runs in a plan. -/
def Slots.Runs (slots : Slots) (T : Plan) : Prop := ∀ V ∈ T.parts, slots.Marks V.spans

namespace Slots.Runs

variable {slots slots' : Slots} {T U : Plan} {bs : List Bough} {b : Bough} {l : NodeId × Plan}

theorem iff_limbs : slots.Runs T ↔ slots.Marks T.spans ∧ ∀ l ∈ T.limbs, slots.Runs l.2 := by
  unfold Slots.Runs
  rw [Plan.parts_eq]
  simp only [List.forall_mem_cons, List.mem_flatMap]
  exact and_congr_right fun _ => ⟨fun h l hl U hU => h U ⟨l, hl, hU⟩,
    fun h U ⟨l, hl, hU⟩ => h l hl U hU⟩

theorem leaf (slots : Slots) (id : NodeId) (held : List Vertex) : slots.Runs (.leaf id held) :=
  iff_limbs.2 ⟨marks_of_nil rfl, by simp [Plan.limbs]⟩

theorem focus (h : slots.Runs (T.under bs)) : slots.Runs T :=
  fun _ hV => h _ (Plan.mem_parts_trans hV (Plan.mem_parts_under T bs))

/-- Another plan in the focus keeps the runs around it if the slots of what is held there stay. -/
theorem refill (h : slots.Runs (T.under bs)) (hU : slots'.Runs U)
    (hother : ∀ v p, ((ctx bs).cells T.id).Holds v p → slots'.get v = slots.get v) :
    slots'.Runs (U.under bs) := by
  induction bs generalizing T U with
  | nil => exact hU
  | cons b bs ih =>
      have hcells : ∀ v p, (b.frame.cells (ctx bs).parent T.id).Holds v p →
          slots'.get v = slots.get v := fun v p hp => hother v p (Cells.holds_add.2 (Or.inl hp))
      have hfocus : slots.Runs (b.fill T) := @focus _ _ bs h
      refine ih (T := b.fill T) h ?_ fun v p hp => hother v p (Cells.holds_add.2 (Or.inr ?_))
      · rw [iff_limbs] at hfocus ⊢
        refine ⟨?_, fun l hl => ?_⟩
        · rw [Plan.spans_fill b U T]
          refine hfocus.1.congr fun s hs v hv => ?_
          -- below a P-node there are no runs; those of a row are held in its sections
          cases b with
          | branch id held before after => simp [Bough.fill, Plan.spans] at hs
          | inRow q flipped xs key id held ys =>
              refine hcells v (s.1, some q) (Cells.holds_add.2 (Or.inl (Cells.holds_cellsAt.2 ?_)))
              obtain ⟨part, hpart, rfl⟩ := List.mem_map.1 hs
              refine ⟨part.top, ?_, hv, rfl⟩
              have hmem := List.mem_map_of_mem (f := Part.top) hpart
              simpa [Row.toList, Part.top] using hmem
        · rcases Bough.mem_limbs_fill.1 hl with rfl | hl
          · exact hU
          · -- the rows beside the focus keep their slots, which are held around it
            intro V hV
            refine (hfocus.2 l (Bough.others_mem_limbs hl) V hV).congr fun s hs v hv => ?_
            obtain ⟨q, hrest⟩ := Plan.holds_of_limb_spans hl hV hs hv
            refine hcells v (s.1, some q) ?_
            cases b with
            | branch id held before after => exact Cells.holds_add.2 (Or.inr hrest)
            | inRow q flipped xs key id held ys => exact Cells.holds_add.2 (Or.inr hrest)
      · rwa [Bough.id_fill] at hp

end Slots.Runs

/-! ## Cells that stand for a plan -/

namespace Work

variable {w : Work} {S : Set Vertex} {T U W : Plan} {bs : List Bough} {v : Vertex}

/-- The vertices of `S` are in the tree whose cells stand for the plan. No other cell is alive. -/
structure Draws (w : Work) (S : Set Vertex) (W : Plan) : Prop where
  owns : w.arena.Owns (some W.id) (W.cells none)
  live : w.arena.live = W.count
  agree : w.slots.Agree S (W.cells none)
  runs : w.slots.Runs W
  formed : W.Formed

theorem Draws.whole (h : w.Draws S W) : w.Whole S W.id (W.cells none) :=
  ⟨h.owns, h.formed.trees none, h.agree⟩

/-- The cells that stand for the plan are alive. -/
theorem Draws.life_of_mem {id : NodeId} (h : w.Draws S W) (hid : id ∈ (W.cells none).map Prod.fst) :
    w.arena.life[id]? = some true := by
  obtain ⟨e, he, rfl⟩ := Multiset.mem_map.1 hid
  rw [h.owns.life_of_mem he, Plan.alive_cells he]

/-- The live cells are those that stand for the plan. -/
theorem Draws.mem_of_life {id : NodeId} (h : w.Draws S W) (hid : w.arena.life[id]? = some true) :
    id ∈ (W.cells none).map Prod.fst :=
  h.owns.mem_of_life (fun _ he => Plan.alive_cells he) h.live hid

/-- The slots name the ends of the runs of the row in focus. -/
theorem Draws.marks_row {q : NodeId} {row : Row (Part Plan)}
    (h : w.Draws S ((Plan.qnode q row).under bs)) : w.slots.Marks (row.toList.map Part.span) :=
  h.runs.focus _ (Plan.self_mem_parts _)

/-- A node of a plan comes into focus. -/
theorem Draws.stands (h : w.Draws S (T.under bs))
    (ht : ∀ t ∈ w.touched, t ∈ (T.cells (ctx bs).parent).map Prod.fst) :
    w.Stands S (ctx bs) T.id (T.cells (ctx bs).parent) := by
  have hcells := Plan.cells_under T bs
  refine ⟨?_, hcells ▸ h.agree, ht⟩
  rw [← Plan.id_under, ← hcells]
  exact h.owns

/-- What stands in the focus completes a plan. -/
theorem Stands.draws (h : w.Stands S (ctx bs) T.id (T.cells (ctx bs).parent))
    (hlive : w.arena.live = (T.under bs).count) (hruns : w.slots.Runs (T.under bs))
    (hformed : (T.under bs).Formed) : w.Draws S (T.under bs) := by
  have hcells := Plan.cells_under T bs
  refine ⟨?_, hlive, hcells ▸ h.agree, hruns, hformed⟩
  rw [Plan.id_under, hcells]
  exact h.owns

end Work

end CliquePath
