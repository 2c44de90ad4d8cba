import CliquePath.LinkedTree.Basic
import CliquePath.Proofs.CliqueTree.Ready
import CliquePath.Proofs.LinkedTree.Slots

set_option autoImplicit false

/-!
# Changes at one node

This module shows that a vertex can be put in at a leaf, at a P-node or below a section. Each change
succeeds, leaves a tree in the place of the node, and keeps the slots in agreement with the cells.
-/

namespace CliquePath

open Cells (one)

/-! ## Adopting and lifting -/

namespace Arena.Owns

variable {a : Arena} {r parent : Option NodeId} {M m : Cells} {p child x : NodeId} {d : Cell}
variable {held : List Vertex} {cs : List NodeId}

/-- A node becomes the last child of a P-node. -/
theorem adopt (o : a.Owns r M) (h : M = one p (pCell parent held cs) + (one child d + m))
    (hd : d.kind.isSlice = false) :
    ∃ a', a.adopt p child = .ok a' ∧ a'.Owns r
      (one p (pCell parent held (cs ++ [child])) + (one child { d with parent := some p } + m)) := by
  have hp := o.cell h
  have hchild := o.cell (h.trans (add_left_comm _ _ _))
  obtain ⟨a₁, h₁, o₁⟩ := o.setKind h (.pnode (cs ++ [child]))
  obtain ⟨a₂, h₂, o₂⟩ := o₁.setParent (add_left_comm _ _ _) (some p)
  refine ⟨a₂, ?_, o₂.congr (add_left_comm _ _ _)⟩
  simp [Arena.adopt, Arena.children, hp, hchild, hd, ok_bind, pCell, pure_eq_ok, h₁, h₂]

end Arena.Owns

namespace Work

variable {w : Work} {r parent : Option NodeId} {M m : Cells} {x p : NodeId} {d : Cell}
variable {held : List Vertex} {cs : List NodeId} {c : Ctx} {u : Vertex}

/-- A new leaf. -/
theorem newLeaf_owns (o : w.arena.Owns r M) (u : Vertex) :
    ∃ a leaf, w.newLeaf u = ({ w with arena := a, slots := w.slots.put u (.node leaf) }, leaf) ∧
      a.Owns r (one leaf (leafCell none [u]) + M) :=
  ⟨_, _, rfl, o.alloc .leaf [u]⟩

/-- A new leaf below a P-node. -/
theorem adoptLeaf_owns (o : w.arena.Owns r M) (h : M = one p (pCell parent held cs) + m)
    (u : Vertex) :
    ∃ a leaf, w.adoptLeaf p u = .ok { w with arena := a, slots := w.slots.put u (.node leaf) } ∧
      a.Owns r (one p (pCell parent held (cs ++ [leaf])) +
        (one leaf (leafCell (some p) [u]) + m)) := by
  obtain ⟨a, leaf, hnew, o₁⟩ := newLeaf_owns o u
  rw [h] at o₁
  obtain ⟨a', h', o'⟩ := o₁.adopt (add_left_comm _ _ _) rfl
  refine ⟨a', leaf, ?_, o'⟩
  simp only [adoptLeaf, hnew, h', ok_bind, pure_eq_ok]

/-- A new P-node without vertices takes the place of the node in focus, which becomes its child. -/
theorem wrapNode_owns {a : Arena} (o : a.Owns (some (c.top x)) M) (hc : c.Ok)
    (h : M = one x d + (m + c.cells x)) (hd : d.parent = c.parent)
    (hs : d.kind.isSlice = false) :
    ∃ a₁ a₂ p, a.alloc (.pnode []) [] = (a₁, p) ∧ a₁.replace x p = .ok a₂ ∧
      ∃ a₃, a₂.adopt p x = .ok a₃ ∧ a₃.Owns (some (c.top p))
        (one p (pCell c.parent [] [x]) + (one x { d with parent := some p } + (m + c.cells p))) := by
  have o₁ := o.alloc (.pnode []) []
  generalize hp : a.alloc (.pnode []) [] = new at o₁
  obtain ⟨a₁, p⟩ := new
  obtain ⟨a₂, h₂, o₂⟩ := o₁.replace hc (m := m) (by rw [h, add_left_comm]) hd rfl
  -- the P-node is in the place of the node, which is linked below it in turn
  have hp : one x { d with parent := none } +
      (one p (pCell c.parent [] []) + (m + c.cells p)) =
        one p (pCell c.parent [] []) + (one x { d with parent := none } + (m + c.cells p)) :=
    add_left_comm _ _ _
  obtain ⟨a₃, h₃, o₃⟩ := o₂.adopt hp hs
  exact ⟨a₁, a₂, p, rfl, h₂, a₃, h₃, o₃⟩

/-- The node in focus becomes the only child of a new P-node with some vertices. -/
theorem lift_owns (o : w.arena.Owns (some (c.top x)) M) (hc : c.Ok)
    (h : M = one x d + (m + c.cells x)) (hd : d.parent = c.parent)
    (hs : d.kind.isSlice = false) (held : List Vertex) :
    ∃ a p, w.lift x held =
        .ok ({ w with arena := a, slots := w.slots.putAll held (.node p) }, p) ∧
      a.Owns (some (c.top p)) (one p (pCell c.parent held [x]) +
        (one x { d with parent := some p } + (m + c.cells p))) := by
  obtain ⟨a₁, a₂, p, h₁, h₂, a₃, h₃, o₃⟩ := wrapNode_owns o hc h hd hs
  obtain ⟨a₄, h₄, o₄⟩ := o₃.setHeld rfl held
  refine ⟨a₄, p, ?_, o₄⟩
  simp only [lift, h₁, h₂, h₃, h₄, ok_bind, pure_eq_ok]

/-- The node in focus gets a new P-node above it, with a new leaf beside it. -/
theorem pairUp_owns (o : w.arena.Owns (some (c.top x)) M) (hc : c.Ok)
    (h : M = one x d + (m + c.cells x)) (hd : d.parent = c.parent)
    (hs : d.kind.isSlice = false) (u : Vertex) :
    ∃ a p leaf, w.pairUp x u =
        .ok ({ w with arena := a, slots := w.slots.put u (.node leaf) }, p) ∧
      a.Owns (some (c.top p)) (one p (pCell c.parent [] [x, leaf]) +
        (one leaf (leafCell (some p) [u]) +
          (one x { d with parent := some p } + (m + c.cells p)))) := by
  obtain ⟨a₁, a₂, p, h₁, h₂, a₃, h₃, o₃⟩ := wrapNode_owns o hc h hd hs
  obtain ⟨a₄, leaf, h₄, o₄⟩ := adoptLeaf_owns (w := { w with arena := a₃ }) o₃ rfl u
  refine ⟨a₄, p, leaf, ?_, o₄⟩
  simp only [pairUp, h₁, h₂, h₃, h₄, ok_bind, pure_eq_ok]

/-! ## The state around a node -/

/-- The vertices of `S` are in the tree; the cells `m` stand for the node in focus and all that is
below it. -/
structure Stands (w : Work) (S : Set Vertex) (c : Ctx) (x : NodeId) (m : Cells) : Prop where
  owns : w.arena.Owns (some (c.top x)) (m + c.cells x)
  agree : w.slots.Agree S (m + c.cells x)
  touched : ∀ t ∈ w.touched, t ∈ m.map Prod.fst

/-- The vertices of `S` are in the tree, and some tree of cells stands below the frames. -/
def Settled (w : Work) (S : Set Vertex) (c : Ctx) : Prop :=
  ∃ x m, w.Stands S c x m ∧ Trees {(c.parent, x)} m

/-- Only vertices of `S` have a slot. -/
def Within (w : Work) (S : Set Vertex) : Prop := ∀ v, w.slots.get v ≠ .absent → v ∈ S

variable {S : Set Vertex} {n : Cells} {k : Kind} {nbrs : List Vertex} {L : Multiset Link}

theorem Stands.within (h : w.Stands S c x m) : w.Within S := fun v hv => (h.agree.placed v).1 hv

theorem Within.insert (h : w.Within S) (u : Vertex) : w.Within (insert u S) :=
  fun v hv => Or.inr (h v hv)

theorem Stands.congr (h : w.Stands S c x m) (hn : m = n) : w.Stands S c x n := hn ▸ h

theorem Stands.not_mem_ids (h : w.Stands S c x (one p d + n)) :
    p ∉ (n + c.cells x).map Prod.fst :=
  h.owns.not_mem_map (add_assoc _ _ _)

theorem Stands.rowsInside (h : Trees L n) (hc : c.Ok) : (n + c.cells x).RowsInside :=
  (Cells.RowsInside.of_trees h).add hc.rowsInside

/-- The Q-node in focus is not among the other cells. -/
theorem Stands.row_not_mem_ids {R : Row (Part NodeId)}
    (h : w.Stands S c x (R.cellsAt x c.parent + n)) : x ∉ (n + c.cells x).map Prod.fst :=
  h.owns.row_not_mem (add_assoc _ _ _)

/-- What the row in focus holds is held nowhere else. -/
theorem Stands.of_row {R : Row (Part NodeId)} (h : w.Stands S c x (R.cellsAt x c.parent + n))
    (hc : c.Ok) (hf : Trees L n) {part : Part NodeId} (hpart : part ∈ R.toList) {v : Vertex}
    (hv : v ∈ part.held) :
    v ∈ S ∧ (w.slots.get v).Ends (R.HoldsAt v) ∧ ∀ p, ¬ (n + c.cells x).Holds v p := by
  have hagree := h.agree
  rw [add_assoc] at hagree
  exact ⟨hagree.mem_of_holds (Cells.holds_add.2 (Or.inl (Row.HoldsAt.holds
    ⟨part, hpart, rfl, hv⟩ x c.parent))),
    hagree.fit.of_row h.row_not_mem_ids (Stands.rowsInside hf hc) hpart hv⟩

/-- Some of the vertices of a node move into a new P-node above it. -/
theorem Stands.agree_lift (h : w.Stands S c x (one x ⟨k, c.parent, held, true⟩ + n))
    (hk : k.isSlice = false) (nbrs : List Vertex) {p y : NodeId} (children : List NodeId) :
    (w.slots.putAll (reached nbrs held) (.node p)).Agree S
      (one p (pCell c.parent (reached nbrs held) children) +
        (one x ⟨k, some p, missed nbrs held, true⟩ + (n + c.cells y))) := by
  have hrow : ∀ parent held, (⟨k, parent, held, true⟩ : Cell).row? = none := by
    intro parent held
    simp [Cell.row?, hk]
  have hagree := h.agree
  rw [add_assoc] at hagree
  refine hagree.reseat (fun v hv => ?_) (by simp) (fun v hv => ?_) fun v hv q => ?_
  · exact hagree.mem_of_holds (p := (x, none))
      (by simp [hrow, (mem_reached.1 hv).1])
  · -- a vertex of the node is held nowhere else, so that only the new P-node holds it now
    have hout := (hagree.fit.of_node h.not_mem_ids (hrow _ _) (mem_reached.1 hv).1).2
    refine ⟨by simp [hv], fun q hq => ?_⟩
    simp only [Cells.holds_add, Cells.holds_one, held_pCell, row?_pCell, hrow, mem_missed,
      (mem_reached.1 hv).2, Ctx.holds_cells c y x, not_true, and_false, false_and, false_or] at hq hout
    rcases hq with hq | hq
    · exact hq.2
    · exact absurd hq (hout q)
  · have hmem : v ∈ missed nbrs held ↔ v ∈ held := by
      rw [mem_reached] at hv
      rw [mem_missed]
      tauto
    simp [hrow, hv, hmem, Ctx.holds_cells c y x]

/-- A node that is not reached as a whole goes below a new P-node of its reached vertices, beside a
new leaf. -/
theorem Stands.shelve (h : w.Stands S c x (one x ⟨k, c.parent, held, true⟩ + n)) (hc : c.Ok)
    (hk : k.isSlice = false) (nbrs : List Vertex) (hu : u ∉ S) :
    ∃ a w₁ top w₂ leaf, w.arena.setHeld x (missed nbrs held) = .ok a ∧
      ({ w with arena := a } : Work).lift x (reached nbrs held) = .ok (w₁, top) ∧
      w₁.adoptLeaf top u = .ok w₂ ∧
      w₂.slots = (w.slots.putAll (reached nbrs held) (.node top)).put u (.node leaf) ∧
      w₂.Stands (insert u S) c top (one top (pCell c.parent (reached nbrs held) [x, leaf]) +
        (one leaf (leafCell (some top) [u]) +
          (one x ⟨k, some top, missed nbrs held, true⟩ + n))) := by
  obtain ⟨a₁, h₁, o₁⟩ := h.owns.setHeld (add_assoc _ _ _) (missed nbrs held)
  obtain ⟨a₂, top, h₂, o₂⟩ := lift_owns (w := { w with arena := a₁ }) o₁ hc rfl rfl hk
    (reached nbrs held)
  obtain ⟨a₃, leaf, h₃, o₃⟩ := adoptLeaf_owns
    (w := ⟨a₂, w.slots.putAll (reached nbrs held) (.node top), w.touched⟩) o₂ rfl u
  refine ⟨a₁, _, top, _, leaf, h₁, h₂, h₃, rfl, o₃.congr (by simp only [List.singleton_append]; abel), ?_,
    fun t ht => ?_⟩
  · -- the lifted vertices first, then the new one
    refine (h.agree_lift (y := top) hk nbrs [x]).newcomer hu fun v q => ?_
    simp only [Cells.holds_add, Cells.holds_one, held_pCell, row?_pCell, held_leafCell,
      row?_leafCell, List.mem_singleton]
    tauto
  · have hmem := h.touched t ht
    simp only [Multiset.map_add, Cells.map_fst_one, Multiset.mem_add, Multiset.mem_singleton]
      at hmem ⊢
    tauto

/-- A P-node gets a new leaf as its last child. -/
theorem Stands.adoptLeaf (h : w.Stands S c x (one x (pCell c.parent held cs) + n)) (hu : u ∉ S) :
    ∃ w' leaf, w.adoptLeaf x u = .ok w' ∧ w'.slots = w.slots.put u (.node leaf) ∧
      w'.Stands (insert u S) c x (one x (pCell c.parent held (cs ++ [leaf])) +
        (one leaf (leafCell (some x) [u]) + n)) := by
  obtain ⟨a, leaf, h', o'⟩ := adoptLeaf_owns h.owns (add_assoc _ _ _) u
  refine ⟨_, leaf, h', rfl, o'.congr (by abel), ?_, fun t ht => ?_⟩
  · refine h.agree.newcomer hu fun v q => ?_
    simp only [Cells.holds_add, Cells.holds_one, held_pCell, row?_pCell, held_leafCell,
      row?_leafCell, List.mem_singleton]
    tauto
  · have hmem := h.touched t ht
    simp only [Multiset.map_add, Cells.map_fst_one, Multiset.mem_add, Multiset.mem_singleton]
      at hmem ⊢
    tauto

/-- A vertex joins the vertices of a leaf. -/
theorem Stands.joinLeaf (h : w.Stands S c x (one x (leafCell c.parent held))) (hu : u ∉ S) :
    ∃ a, w.arena.setHeld x (held ++ [u]) = .ok a ∧
      Stands { w with arena := a, slots := w.slots.put u (.node x) } (insert u S) c x
        (one x (leafCell c.parent (held ++ [u]))) := by
  obtain ⟨a, h', o'⟩ := h.owns.setHeld rfl (held ++ [u])
  refine ⟨a, h', o', ?_, h.touched⟩
  refine h.agree.newcomer hu fun v q => ?_
  simp only [Cells.holds_add, Cells.holds_one, held_leafCell, row?_leafCell, List.mem_append,
    List.mem_singleton]
  tauto

/-- Noting places that are in use. -/
theorem Stands.touch (h : w.Stands S c x m) {ids : List NodeId}
    (hids : ∀ t ∈ ids, t ∈ m.map Prod.fst) : (w.touch ids).Stands S c x m where
  owns := h.owns
  agree := h.agree
  touched t ht := by
    rcases List.mem_append.1 ht with ht | ht
    · exact hids t ht
    · exact h.touched t ht

/-! ## Putting a vertex in at a node -/

variable {p : Pass}

/-- A vertex can be put in at a leaf. -/
theorem Stands.placeInLeaf (h : w.Stands S c x (one x (leafCell c.parent held))) (hc : c.Ok)
    (hu : p.vertex ∉ S) :
    ∃ w', w.placeInLeaf p x = .ok w' ∧ w'.Settled (insert p.vertex S) c := by
  have hcell := h.owns.cell rfl
  -- a leaf that is reached as a whole takes the vertex in
  by_cases hfull : isFull p.nbrs held = true
  · obtain ⟨a, h', hs⟩ := h.joinLeaf hu
    refine ⟨_, ?_, x, _, hs, .of_shape (.leaf _)⟩
    simp only [Work.placeInLeaf, hcell, ok_bind, held_leafCell, hfull, if_true, h', pure_eq_ok]
  · have h₀ := h.congr (add_zero _).symm
    obtain ⟨a, w₁, top, w₂, leaf, h₁, h₂, h₃, -, hs⟩ := h₀.shelve hc rfl p.nbrs hu
    refine ⟨w₂.touch [top], ?_, top, _, hs.touch (by simp), .of_shape (.pnode _ (by simp) ?_)⟩
    · simp only [Work.placeInLeaf, hcell, ok_bind, held_leafCell, hfull, h₁, h₂, h₃, pure_eq_ok]
      rfl
    · rw [childLinks_cons, childLinks_cons, add_left_comm]
      refine (Trees.of_shape (.leaf _)).add ?_
      simpa [childLinks, leafCell] using
        Trees.of_shape (.leaf (missed p.nbrs held) : Trees.Shape (some top) x _)

/-- A vertex can be put in at a P-node. -/
theorem Stands.placeBelow (h : w.Stands S c x (one x (pCell c.parent held cs) + n)) (hc : c.Ok)
    (hf : Trees (childLinks x cs) n) (hne : cs ≠ []) (hu : p.vertex ∉ S) :
    ∃ w', w.placeBelow p x = .ok w' ∧ w'.Settled (insert p.vertex S) c := by
  have hcell := h.owns.cell (add_assoc _ _ _)
  -- a P-node that is reached as a whole takes the new leaf as a child
  by_cases hfull : isFull p.nbrs held = true
  · obtain ⟨w', leaf, h', -, hs⟩ := h.adoptLeaf hu
    refine ⟨w'.touch [x], ?_, x, _, hs.touch (by simp), .of_shape (.pnode _ (by simp) ?_)⟩
    · simp only [Work.placeBelow, hcell, ok_bind, held_pCell, hfull, if_true, h', pure_eq_ok]
    · rw [childLinks_append, add_comm]
      exact (Trees.of_shape (.leaf _)).add hf
  · obtain ⟨a, w₁, top, w₂, leaf, h₁, h₂, h₃, -, hs⟩ := h.shelve hc rfl p.nbrs hu
    refine ⟨w₂.touch [x, top], ?_, top, _, hs.touch (by simp), .of_shape (.pnode _ (by simp) ?_)⟩
    · simp only [Work.placeBelow, hcell, ok_bind, held_pCell, hfull, h₁, h₂, h₃, pure_eq_ok]
      rfl
    · rw [childLinks_cons, childLinks_cons, add_left_comm]
      refine (Trees.of_shape (.leaf _)).add ?_
      simpa [childLinks, pCell] using
        Trees.of_shape (.pnode (missed p.nbrs held) hne hf : Trees.Shape (some top) x _)

end Work

end CliquePath
