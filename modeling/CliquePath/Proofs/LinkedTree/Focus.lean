import CliquePath.LinkedTree.Path
import CliquePath.Proofs.LinkedTree.Trees

set_option autoImplicit false

/-!
# A node in focus

This module takes a tree of cells apart around one of its nodes. A `Frame` is a node above it without
the subtree through which the way down goes; the frames up to the root are a context. Every node of a
tree can be brought into focus, and a tree below the focus makes the whole a tree again.
`Arena.replace` changes what stands in the focus and nothing else.
-/

namespace CliquePath

open Cells (one)

/-! ## Contexts -/

/-- A node above the one in focus. `rest` are the cells of the other subtrees. -/
inductive Frame where
  /-- A P-node above the focus, with the children on both sides of it. -/
  | branch (id : NodeId) (held : List Vertex) (before after : List NodeId) (rest : Cells)
  /-- A Q-node with the section above the focus and the sections on both sides of it. -/
  | inRow (q : NodeId) (flipped : Bool) (xs : Entries) (key : Int) (id : NodeId)
      (held : List Vertex) (ys : Entries) (rest : Cells)

namespace Frame

/-- The P-node or Q-node. -/
def node : Frame → NodeId
  | branch id _ _ _ _ => id
  | inRow q _ _ _ _ _ _ _ => q

/-- The parent of the node in focus. -/
def holder : Frame → NodeId
  | branch id _ _ _ _ => id
  | inRow _ _ _ _ id _ _ _ => id

/-- The cells of the frame if its own parent and the node in focus are as given. -/
def cells (parent : Option NodeId) (x : NodeId) : Frame → Cells
  | branch id held before after rest => one id (pCell parent held (before ++ x :: after)) + rest
  | inRow q flipped xs key id held ys rest =>
      (Row.ofKeyed flipped (xs ++ (key, ⟨id, held, x⟩) :: ys)).cellsAt q parent + rest

/-- The vertices of the P-node, or of the section above the focus. -/
def held : Frame → List Vertex
  | branch _ held _ _ _ => held
  | inRow _ _ _ _ _ held _ _ => held

/-- The step of a path through the frame. -/
def step : Frame → Step
  | branch id _ _ _ _ => ⟨id, none⟩
  | inRow q _ _ _ id _ _ _ => ⟨q, some id⟩

/-- The other subtrees are trees and the row ascends. -/
def Ok : Frame → Prop
  | branch id _ before after rest => Trees (childLinks id (before ++ after)) rest
  | inRow _ _ xs key _ _ ys rest =>
      Trees (sonLinks (xs ++ ys)) rest ∧
        (xs.map Prod.fst ++ key :: ys.map Prod.fst).Pairwise (· < ·)

/-- A tree in the focus makes the frame a tree. -/
theorem Ok.close {f : Frame} (h : f.Ok) {m : Cells} {parent : Option NodeId} {x : NodeId}
    (hx : Trees {(some f.holder, x)} m) : Trees {(parent, f.node)} (m + f.cells parent x) := by
  cases f with
  | branch id held before after rest =>
      rw [cells, add_left_comm]
      refine .of_shape (.pnode held (by simp) ?_)
      rw [childLinks_split]
      exact hx.add h
  | inRow q flipped xs key id held ys rest =>
      rw [cells, add_left_comm]
      refine .of_shape (.qnode (by simp) (Row.ascending_ofKeyed.2 (by simpa using h.2)) ?_)
      rw [Row.keyed_ofKeyed, sonLinks_split]
      exact hx.add h.1

/-- The cell of the section of a frame. -/
theorem slice_mem {q : NodeId} {flipped : Bool} {xs ys : Entries} {key : Int} {s : NodeId}
    {held : List Vertex} {rest : Cells} {parent : Option NodeId} {x : NodeId} :
    ∃ d, (s, d) ∈ (Frame.inRow q flipped xs key s held ys rest).cells parent x ∧
      d.parent = some q ∧ d.kind.isSlice = true ∧ d.held = held := by
  refine ⟨Loose.cell q flipped ⟨⟨s, held, x⟩, key, Entries.lastId xs none, Entries.firstId ys none⟩,
    ?_, rfl, by cases flipped <;> rfl, rfl⟩
  rw [Frame.cells, Row.cellsAt_part]
  exact Multiset.mem_add.2 (Or.inl (Multiset.mem_add.2 (Or.inl (Cells.mem_one.2 rfl))))

/-- The parent of the node in focus has a cell. -/
theorem holder_mem (f : Frame) (parent : Option NodeId) (x : NodeId) :
    ∃ d, (f.holder, d) ∈ f.cells parent x := by
  cases f with
  | branch id held before after rest =>
      exact ⟨pCell parent held (before ++ x :: after), by simp [cells, holder]⟩
  | inRow q flipped xs key s held ys rest =>
      obtain ⟨d, hd, -⟩ := @slice_mem q flipped xs ys key s held rest parent x
      exact ⟨d, hd⟩

end Frame

/-- The frames above a node, the lowest first. -/
abbrev Ctx := List Frame

namespace Ctx

/-- The parent of the node in focus. -/
def parent : Ctx → Option NodeId
  | [] => none
  | f :: _ => some f.holder

/-- The root of the tree with the given node in focus. -/
def top : Ctx → NodeId → NodeId
  | [], x => x
  | f :: c, _ => top c f.node

/-- The cells of the frames with the given node in focus. -/
def cells : Ctx → NodeId → Cells
  | [], _ => 0
  | f :: c, x => f.cells (parent c) x + cells c f.node

/-- Every frame is in order. -/
def Ok (c : Ctx) : Prop := ∀ f ∈ c, f.Ok

variable {c : Ctx} {x id : NodeId} {m : Cells} {d : Cell}

/-- A tree in the focus makes the whole a tree. -/
theorem Ok.close (h : c.Ok) (hx : Trees {(c.parent, x)} m) :
    Trees {(none, c.top x)} (m + c.cells x) := by
  induction c generalizing x m with
  | nil => simpa [top, cells, parent] using hx
  | cons f c ih =>
      rw [top, cells, ← add_assoc]
      exact ih (fun g hg => h g (List.mem_cons_of_mem _ hg))
        ((h f List.mem_cons_self).close hx)

theorem mem_childLinks {p : NodeId} {children : List NodeId} {l : Link}
    (h : l ∈ childLinks p children) :
    ∃ before after, children = before ++ l.2 :: after ∧ l.1 = some p := by
  rw [childLinks, Multiset.mem_coe, List.mem_map] at h
  obtain ⟨y, hy, rfl⟩ := h
  obtain ⟨before, after, rfl⟩ := List.append_of_mem hy
  exact ⟨before, after, rfl, rfl⟩

theorem mem_sonLinks {es : Entries} {l : Link} (h : l ∈ sonLinks es) :
    ∃ xs e ys, es = xs ++ e :: ys ∧ l = (some e.2.id, e.2.son) := by
  rw [sonLinks, Multiset.mem_coe, List.mem_map] at h
  obtain ⟨e, he, rfl⟩ := h
  obtain ⟨xs, ys, rfl⟩ := List.append_of_mem he
  exact ⟨xs, e, ys, rfl, rfl⟩

/-- The row of a frame, filled with its own son. -/
theorem cells_inRow {R : Row (Part NodeId)} {q : NodeId} {xs ys : Entries}
    {e : Int × Part NodeId} {rest : Cells} {parent : Option NodeId}
    (hR : R.keyed = xs ++ e :: ys) :
    (Frame.inRow q R.flipped xs e.1 e.2.id e.2.held ys rest).cells parent e.2.son =
      R.cellsAt q parent + rest := by
  rw [Frame.cells, ← Row.ofKeyed_keyed R, hR]
  rfl

/-- Every node below the focus can come into focus itself. -/
theorem locate (h : c.Ok) (hx : Trees {(c.parent, x)} m) (hid : (id, d) ∈ m)
    (hd : d.kind.isSlice = false) :
    ∃ (c' : Ctx) (m' : Cells), c'.Ok ∧ Trees {(c'.parent, id)} m' ∧
      m' + c'.cells id = m + c.cells x ∧ c'.top id = c.top x := by
  -- The subtree in focus gets smaller with each step down.
  induction hn : m.card using Nat.strong_induction_on generalizing c x m with
  | _ n ih =>
      subst hn
      have hshape := hx.shape
      cases hshape with
      | leaf held =>
          cases Cells.mem_one.1 hid
          exact ⟨c, _, h, hx, rfl, rfl⟩
      | @pnode held children n hne rest =>
          rcases Multiset.mem_add.1 hid with hid | hid
          · cases Cells.mem_one.1 hid
            exact ⟨c, _, h, hx, rfl, rfl⟩
          · obtain ⟨⟨p, y⟩, K, m₁, m₂, hl, rfl, hm₁, hm₂, hid₁⟩ := rest.split_mem hid
            obtain ⟨before, after, rfl, rfl⟩ := mem_childLinks (l := (p, y)) (by rw [hl]; simp)
            have hK : K = childLinks x (before ++ after) := by
              rw [childLinks_split] at hl
              exact (add_left_cancel hl).symm
            obtain ⟨c', m', hc', hm', hcells, htop⟩ := ih m₁.card (by simp [one])
              (c := .branch x held before after m₂ :: c)
              (List.forall_mem_cons.2 ⟨by rwa [hK] at hm₂, h⟩) hm₁ hid₁ rfl
            refine ⟨c', m', hc', hm', hcells.trans ?_, htop⟩
            rw [cells, Frame.cells, Frame.node]
            abel
      | @qnode R n hne hasc rest =>
          rcases Multiset.mem_add.1 hid with hid | hid
          · rcases Multiset.mem_add.1 hid with hid | hid
            · cases Cells.mem_one.1 hid
              exact ⟨c, _, h, hx, rfl, rfl⟩
            · -- The cell is no section, so it is not one of the row.
              rw [Loose.cells_eq_coe, Multiset.mem_coe, List.mem_map] at hid
              obtain ⟨v, -, hv⟩ := hid
              cases hv
              cases hf : R.flipped <;> simp [Loose.cell, hf, Kind.isSlice] at hd
          · obtain ⟨⟨p, y⟩, K, m₁, m₂, hl, rfl, hm₁, hm₂, hid₁⟩ := rest.split_mem hid
            obtain ⟨xs, e, ys, hR, he⟩ := mem_sonLinks (l := (p, y)) (by rw [hl]; simp)
            cases he
            have hK : K = sonLinks (xs ++ ys) := by
              rw [hR, sonLinks_split] at hl
              exact (add_left_cancel hl).symm
            have hkeys : (xs.map Prod.fst ++ e.1 :: ys.map Prod.fst).Pairwise (· < ·) := by
              rw [Row.Ascending, ← List.pairwise_map, hR] at hasc
              simpa using hasc
            obtain ⟨c', m', hc', hm', hcells, htop⟩ := ih m₁.card (by simp [Row.cellsAt, one]; omega)
              (c := .inRow x R.flipped xs e.1 e.2.id e.2.held ys m₂ :: c)
              (List.forall_mem_cons.2 ⟨⟨by rwa [hK] at hm₂, hkeys⟩, h⟩) hm₁ hid₁ rfl
            refine ⟨c', m', hc', hm', hcells.trans ?_, htop⟩
            rw [cells, cells_inRow hR, Frame.node]
            abel

end Ctx

/-! ## Replacing what stands in the focus -/

namespace Arena

namespace Owns

variable {a : Arena} {r : Option NodeId} {M m : Cells} {c : Ctx} {x old new : NodeId} {d e : Cell}

/-- Another root. -/
theorem setRoot (o : a.Owns r M) (root : Option NodeId) : Owns { a with root } root M :=
  ⟨rfl, o.nodup, o.cells⟩

/-- The node in focus is not among the other children of a P-node above it. -/
theorem not_sibling {held : List Vertex} {before after : List NodeId} {rest : Cells} {id : NodeId}
    (o : a.Owns r M) (hc : Ctx.Ok (.branch id held before after rest :: c))
    (h : M = m + Ctx.cells (.branch id held before after rest :: c) x)
    (hx : x ∈ m.map Prod.fst) : x ∉ before ++ after := by
  intro hmem
  have hok : Trees (childLinks id (before ++ after)) rest := hc _ List.mem_cons_self
  have hrest := hok.mem_ids (l := (some id, x)) (by
    rw [childLinks, Multiset.mem_coe]
    exact List.mem_map_of_mem hmem)
  have hn := o.nodup
  rw [h, Multiset.map_add, Multiset.nodup_add] at hn
  refine Multiset.disjoint_left.1 hn.2.2 hx ?_
  simp only [Ctx.cells, Frame.cells, Multiset.map_add, Multiset.mem_add]
  exact Or.inl (Or.inr hrest)

/-- A child of a P-node is replaced by another node. -/
theorem replace_branch {held : List Vertex} {before after : List NodeId} {rest : Cells} {id : NodeId}
    (o : a.Owns r M) (hc : Ctx.Ok (.branch id held before after rest :: c))
    (h : M = one old d + (one new e + (m + Ctx.cells (.branch id held before after rest :: c) old)))
    (hd : d.parent = some id) (he : e.kind.isSlice = false) :
    ∃ a', a.replace old new = .ok a' ∧ a'.Owns r
      (one old { d with parent := none } + (one new { e with parent := some id } +
        (m + Ctx.cells (.branch id held before after rest :: c) new))) := by
  have hold := o.cell h
  have hnew := o.cell (h.trans (add_left_comm _ _ _))
  obtain ⟨a₁, h₁, o₁⟩ := o.setParent (h.trans (add_left_comm _ _ _)) (some id)
  have hbefore : old ∉ before := fun hmem =>
    o.not_sibling hc (m := one old d + (one new e + m)) (by rw [h]; abel) (by simp)
      (List.mem_append.2 (Or.inl hmem))
  have hp : one new { e with parent := some id } +
      (one old d + (m + Ctx.cells (.branch id held before after rest :: c) old)) =
      one id (pCell (Ctx.parent c) held (before ++ old :: after)) +
        (one new { e with parent := some id } +
          (one old d + (m + (rest + Ctx.cells c id)))) := by
    rw [Ctx.cells, Frame.cells, Frame.node]
    abel
  obtain ⟨a₂, h₂, o₂⟩ := o₁.setKind hp (.pnode (before ++ new :: after))
  have hp' : one id (pCell (Ctx.parent c) held (before ++ new :: after)) +
      (one new { e with parent := some id } + (one old d + (m + (rest + Ctx.cells c id)))) =
      one old d + (one id (pCell (Ctx.parent c) held (before ++ new :: after)) +
        (one new { e with parent := some id } + (m + (rest + Ctx.cells c id)))) := by
    abel
  obtain ⟨a₃, h₃, o₃⟩ := o₂.setParent hp' none
  have hcell := o₁.cell hp
  have hreplace : (before ++ old :: after).replace old new = before ++ new :: after := by
    rw [List.replace_append_right hbefore, List.replace_cons_self]
  refine ⟨a₃, ?_, o₃.congr ?_⟩
  · simp [Arena.replace, hold, hnew, he, hd, h₁, hcell, pCell, ok_bind, hreplace, h₂, h₃]
  · rw [Ctx.cells, Frame.cells, Frame.node]
    abel

/-- The son of a section is replaced by another node. -/
theorem replace_inRow {held : List Vertex} {q id : NodeId} {flipped : Bool} {xs ys : Entries}
    {key : Int} {rest : Cells} (o : a.Owns r M)
    (h : M = one old d +
      (one new e + (m + Ctx.cells (.inRow q flipped xs key id held ys rest :: c) old)))
    (hd : d.parent = some id) (he : e.kind.isSlice = false) :
    ∃ a', a.replace old new = .ok a' ∧ a'.Owns r
      (one old { d with parent := none } + (one new { e with parent := some id } +
        (m + Ctx.cells (.inRow q flipped xs key id held ys rest :: c) new))) := by
  have hold := o.cell h
  have hnew := o.cell (h.trans (add_left_comm _ _ _))
  obtain ⟨a₁, h₁, o₁⟩ := o.setParent (h.trans (add_left_comm _ _ _)) (some id)
  have hp : one new { e with parent := some id } +
      (one old d + (m + Ctx.cells (.inRow q flipped xs key id held ys rest :: c) old)) =
      one id (Loose.cell q flipped ⟨⟨id, held, old⟩, key, Entries.lastId xs none,
          Entries.firstId ys none⟩) +
        (one new { e with parent := some id } + (one old d + (m +
          (Row.around q (Ctx.parent c) flipped xs id ys + (rest + Ctx.cells c q))))) := by
    rw [Ctx.cells, Frame.cells, Frame.node, Row.cellsAt_part]
    abel
  obtain ⟨a₂, h₂, o₂⟩ := o₁.setKind hp (Loose.cell q flipped ⟨⟨id, held, new⟩, key,
    Entries.lastId xs none, Entries.firstId ys none⟩).kind
  have hp' : one id (Loose.cell q flipped ⟨⟨id, held, new⟩, key, Entries.lastId xs none,
        Entries.firstId ys none⟩) + (one new { e with parent := some id } +
          (one old d + (m +
            (Row.around q (Ctx.parent c) flipped xs id ys + (rest + Ctx.cells c q))))) =
      one old d + (one id (Loose.cell q flipped ⟨⟨id, held, new⟩, key,
        Entries.lastId xs none, Entries.firstId ys none⟩) +
          (one new { e with parent := some id } + (m +
            (Row.around q (Ctx.parent c) flipped xs id ys + (rest + Ctx.cells c q))))) := by
    abel
  obtain ⟨a₃, h₃, o₃⟩ := o₂.setParent hp' none
  have hcell := o₁.cell hp
  refine ⟨a₃, ?_, o₃.congr ?_⟩
  · cases flipped <;>
      simp_all [Arena.replace, Loose.cell, ok_bind]
  · rw [Ctx.cells, Frame.cells, Frame.node, Row.cellsAt_part]
    abel

/-- The node in focus is replaced by another one. -/
theorem replace (o : a.Owns (some (c.top old)) M) (hc : c.Ok)
    (h : M = one old d + (one new e + (m + c.cells old))) (hd : d.parent = c.parent)
    (he : e.kind.isSlice = false) :
    ∃ a', a.replace old new = .ok a' ∧ a'.Owns (some (c.top new))
      (one old { d with parent := none } +
        (one new { e with parent := c.parent } + (m + c.cells new))) := by
  -- Without frames, the root changes; below a P-node, its list of children; below a section, its son.
  cases c with
  | nil =>
      have hold := o.cell h
      have hnew := o.cell (h.trans (add_left_comm _ _ _))
      obtain ⟨a₁, h₁, o₁⟩ := o.setParent (h.trans (add_left_comm _ _ _)) none
      refine ⟨{ a₁ with root := some new }, ?_, (o₁.setRoot (some new)).congr ?_⟩
      · simp only [Ctx.parent] at hd
        simp [Arena.replace, hold, hnew, he, hd, h₁, ok_bind, pure_eq_ok]
      · obtain ⟨kind, parent, held, alive⟩ := d
        cases hd
        exact add_left_comm _ _ _
  | cons f c =>
      cases f with
      | branch => exact o.replace_branch hc h hd he
      | inRow => exact o.replace_inRow h hd he

end Owns

end Arena

end CliquePath
