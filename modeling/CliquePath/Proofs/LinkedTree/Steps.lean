import CliquePath.Proofs.LinkedTree.Spans
import CliquePath.Proofs.LinkedTree.Trails

set_option autoImplicit false

/-!
# The steps of the path

This module reads the tests along the path of an insertion in a plan: the path is accepted only if the
row of every bough holds its neighbours at the section of the path, and its lower part begins with the
highest bough that is not reached as a whole.
-/

namespace CliquePath

open Cells (one)
open Plan (ctx)

/-! ## Boughs along a path -/

/-- The vertices of the P-node, or of the section above the node in focus. -/
def Bough.held : Bough → List Vertex
  | branch _ held _ _ => held
  | inRow _ _ _ _ _ held _ => held

@[simp]
theorem Bough.held_frame (b : Bough) : b.frame.held = b.held := by
  cases b <;> rfl

/-- The neighbours that the row of a bough holds. -/
def Bough.owned (nbrs : List Vertex) : Bough → List Vertex
  | branch _ _ _ _ => []
  | inRow _ _ xs _ _ held ys => nbrs.filter fun v =>
      (xs.map (fun e => e.2.held) ++ held :: ys.map fun e => e.2.held).any fun vs => vs.contains v

/-- The row of a bough holds them whatever node is in focus. -/
theorem Bough.owned_row (nbrs : List Vertex) {q key id : _} {flipped : Bool}
    {xs ys : List (Int × Part Plan)} {held : List Vertex} (T : Plan) :
    ((Row.ofKeyed flipped (xs ++ (key, ⟨id, held, T⟩) :: ys)).map Part.shown).owned nbrs =
      (inRow q flipped xs key id held ys).owned nbrs := by
  rw [Row.owned, owned]
  refine List.filter_congr fun v _ => ?_
  simp [Row.toList, Row.keyed_map, Row.entry, Part.shown, Function.comp_def]

/-- The sections of a row with what they hold do not depend on what stands below them. -/
theorem Row.spans_top (row : Row (Part Plan)) :
    (row.map Part.top).toList.map Part.span = row.toList.map Part.span := by
  rw [Row.toList_map, List.map_map]
  rfl

namespace Work

variable {w : Work} {S : Set Vertex} {T : Plan} {bs : List Bough} {p : Pass} {path : List Step}

/-- The test along the steps of some boughs asks whether each row holds its neighbours at the section of
the path. -/
theorem pathHolds_steps (y : NodeId) (h : ∀ b ∈ bs, ∀ s, b.frame.step.slice? = some s →
    w.allSpan (p.ownedBy b.frame.step.node) s = .ok (holdsAll (b.owned p.nbrs) b.held)) :
    w.pathHolds p (bs.map (fun b => b.frame.step) ++ [⟨y, none⟩]) =
      .ok (bs.all fun b => holdsAll (b.owned p.nbrs) b.held) := by
  induction bs with
  | nil => rfl
  | cons b bs ih =>
      rw [List.forall_mem_cons] at h
      have hrest := ih h.2
      -- only a step through a section asks a question
      cases b with
      | branch id held before after => exact hrest
      | inRow q flipped xs key s held ys =>
          have hall := h.1 s rfl
          rw [List.map_cons, List.cons_append, pathHolds, List.all_cons]
          simp only [Bough.frame, Frame.step] at hall ⊢
          rw [hall, ok_bind]
          cases holdsAll ((Bough.inRow q flipped xs key s held ys).owned p.nbrs)
            (Bough.inRow q flipped xs key s held ys).held with
          | false => rfl
          | true => exact hrest

/-- What the searches in a row of a plan rely on. -/
theorem Draws.row_facts {q : NodeId} {row : Row (Part Plan)}
    (h : w.Draws S ((Plan.qnode q row).under bs)) (hproper : (Plan.qnode q row).node.Proper) :
    ((Plan.qnode q row).under bs).cells none = (row.map Part.top).cellsAt q (ctx bs).parent +
        (Plan.limbCells (Plan.sons row) + (ctx bs).cells q) ∧
      (row.map Part.top).Ascending ∧ w.slots.Marks ((row.map Part.top).toList.map Part.span) ∧
        (row.map Part.top).InBlocks := by
  have hlined := (Plan.standing hproper).rigid.lined
  rw [Row.size_map] at hlined
  refine ⟨Plan.cells_under_row q row bs, (Plan.formed_iff.1 h.formed.focus).1.2.map _, ?_,
    Row.inBlocks_top hlined⟩
  rw [Row.spans_top]
  exact h.marks_row

/-- The neighbours that a row owns are held by sections of it. -/
theorem exists_part_of_owned {q : NodeId} {row : Row (Part Plan)} {v : Vertex}
    (hr : p.Reads ((Plan.qnode q row).under bs)) (hv : v ∈ p.ownedBy q) :
    ∃ s ∈ row.toList, v ∈ s.held := by
  rw [hr.ownedBy_row (Plan.mem_parts_under _ _), Row.owned, List.mem_filter] at hv
  obtain ⟨s, hs, hvs⟩ := List.any_eq_true.1 hv.2
  rw [Row.toList_map] at hs
  obtain ⟨part, hpart, rfl⟩ := List.mem_map.1 hs
  exact ⟨part, hpart, List.contains_iff_mem.1 hvs⟩

/-- The runs of the neighbours that a row owns are tested at a section of it. -/
theorem Draws.allSpan_owned {q : NodeId} {row : Row (Part Plan)} {e : Int × Part Plan}
    (h : w.Draws S ((Plan.qnode q row).under bs)) (hproper : (Plan.qnode q row).node.Proper)
    (hr : p.Reads ((Plan.qnode q row).under bs)) (he : e ∈ row.keyed) :
    w.allSpan (p.ownedBy q) e.2.id = .ok (holdsAll (p.ownedBy q) e.2.held) := by
  obtain ⟨hM, hasc, hmarks, hblocks⟩ := h.row_facts hproper
  have htop : (e.1, e.2.top) ∈ (row.map Part.top).keyed := by
    rw [Row.keyed_map]
    exact List.mem_map_of_mem (f := Row.entry Part.top) he
  refine h.whole.allSpan_row hM hasc hmarks hblocks (fun v hv => ?_) htop
  obtain ⟨part, hpart, hvs⟩ := exists_part_of_owned hr hv
  rw [Row.toList_map]
  exact ⟨part.top, List.mem_map_of_mem hpart, hvs⟩

/-- A path is accepted if the rows along it hold their neighbours there. -/
theorem Draws.pathHolds_eq (h : w.Draws S (T.under bs)) (hproper : (T.under bs).node.Proper)
    (hr : p.Reads (T.under bs)) : w.pathHolds p (Ctx.steps (ctx bs) T.id) =
      .ok (bs.all fun b => holdsAll (b.owned p.nbrs) b.held) := by
  have hsteps : Ctx.steps (ctx bs) T.id =
      bs.reverse.map (fun b => b.frame.step) ++ [⟨T.id, none⟩] := by
    rw [Ctx.steps, List.map_map, ← List.map_reverse]
    rfl
  rw [hsteps, pathHolds_steps, List.all_reverse]
  intro b hb s hs
  rw [List.mem_reverse] at hb
  cases b with
  | branch id held before after => cases hs
  | inRow q flipped xs key s' held ys =>
      cases hs
      -- the row of a bough stands above the boughs below it
      obtain ⟨cs, ds, rfl⟩ := List.append_of_mem hb
      rw [Plan.under_append] at h hproper hr
      have heq := @Draws.allSpan_owned _ _ ds _ _ _ (key, ⟨s, held, T.under cs⟩) h
        (Plan.proper_focus hproper) hr (by simp)
      have howned : p.ownedBy q = (Bough.inRow q flipped xs key s held ys).owned p.nbrs :=
        (hr.ownedBy_row (Plan.mem_parts_under _ _)).trans
          (Bough.owned_row p.nbrs (q := q) (T.under cs))
      rw [← howned]
      exact heq

/-- The lower part of a path begins with the highest bough that is not reached as a whole. -/
theorem Draws.lowerPath_eq (h : w.Draws S (T.under bs)) (p : Pass) :
    ∃ low upper, bs = low ++ upper ∧
      w.lowerPath p (Ctx.steps (ctx bs) T.id) = .ok (Ctx.steps (ctx low) T.id) ∧
        (∀ b ∈ upper, isFull p.nbrs b.held = true) ∧
          ∀ ini b, low = ini ++ [b] → isFull p.nbrs b.held = false := by
  have hM := Plan.cells_under T bs
  have hnode : ((T.under bs).cells none).HasNode T.id := by
    obtain ⟨d, hd, -, hnode⟩ := T.exists_own_cell (ctx bs).parent
    exact ⟨d, hM ▸ Multiset.mem_add.2 (Or.inl (Plan.own_subset_cells hd)), hnode⟩
  have hframes : ∀ f ∈ ctx bs, ∃ parent x, f.cells parent x ⊆ (T.under bs).cells none := by
    intro f hf
    obtain ⟨parent, x, hsub⟩ := Ctx.frame_subset hf T.id
    exact ⟨parent, x, fun e he => hM ▸ Multiset.mem_add.2 (Or.inr (hsub he))⟩
  obtain ⟨low₁, c₁, hlow, hlower, hupper, hlowest⟩ := h.whole.lowerPath_ok p hnode hframes
  -- the frames are split where the path is, and the boughs with them
  obtain ⟨low, upper, rfl, rfl, rfl⟩ := List.map_eq_append_iff.1 hlow
  refine ⟨low, upper, rfl, hlower, fun b hb => ?_, fun ini b heq => ?_⟩
  · simpa using hupper b.frame (List.mem_map_of_mem hb)
  · simpa using hlowest (ini.map Bough.frame) b.frame (by rw [heq]; simp)

end Work

end CliquePath
