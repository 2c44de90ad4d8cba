import CliquePath.Proofs.LinkedTree.Hoisting
import CliquePath.Proofs.LinkedTree.Paths
import CliquePath.Proofs.LinkedTree.Simplifying

set_option autoImplicit false

/-!
# Putting a vertex into a linked tree

This module shows that a vertex can be put into any linked tree, next to any of its vertices, or that
there is no room for it. No step meets a link that it cannot follow. Nothing is assumed about the
vertices next to it: they need not form a clique, and no order of the insertions is assumed.
-/

namespace CliquePath

open Cells (one)

/-- The link to the root, if there is one. -/
def rootLinks : Option NodeId → Multiset Link
  | none => 0
  | some root => {(none, root)}

namespace Work

/-- The vertices of `S` are in the tree that the cells form, if there are any. -/
structure Sound (w : Work) (S : Set Vertex) (M : Cells) : Prop where
  owns : w.arena.Owns w.arena.root M
  trees : Trees (rootLinks w.arena.root) M
  agree : w.slots.Agree S M

variable {w : Work} {S : Set Vertex} {M m : Cells} {c : Ctx} {u : Vertex} {nbrs : List Vertex}
variable {p : Pass} {root : NodeId}

theorem Sound.within (h : w.Sound S M) : w.Within S := fun v hv => (h.agree.placed v).1 hv

/-- A tree below some frames is part of a whole tree. -/
theorem Settled.close (h : w.Settled S c) (hc : c.Ok) : w.Settled S [] := by
  induction c with
  | nil => exact h
  | cons f c ih =>
      exact ih (h.up (hc f List.mem_cons_self)) fun g hg => hc g (List.mem_cons_of_mem _ hg)

theorem Settled.sound (h : w.Settled S []) : ∃ M, w.Sound S M := by
  obtain ⟨x, m, hst, hm⟩ := h
  have hcells : m + Ctx.cells [] x = m := add_zero m
  have o := hst.owns.congr hcells
  have hroot : w.arena.root = some x := o.root_eq
  exact ⟨m, hroot ▸ o, by rwa [hroot], hcells ▸ hst.agree⟩

/-- A tree with a root has it in focus. -/
theorem Sound.stands (h : w.Sound S M) (hroot : w.arena.root = some root) (ht : w.touched = []) :
    w.Stands S [] root M ∧ Trees {(none, root)} M := by
  have hcells : M = M + Ctx.cells [] root := (add_zero M).symm
  have o := h.owns
  have htrees := h.trees
  rw [hroot] at o htrees
  exact ⟨⟨o.congr hcells, hcells ▸ h.agree, by simp [ht]⟩, htrees⟩

/-! ## A vertex without neighbours -/

/-- A vertex without neighbours is put in beside the root. -/
theorem Sound.addIsolated (h : w.Sound S M) (ht : w.touched = []) (hu : u ∉ S) :
    ∃ w' M', w.addIsolated u = .ok w' ∧ w'.Sound (insert u S) M' := by
  unfold Work.addIsolated
  cases hroot : w.arena.root with
  | none =>
      have htrees := h.trees
      rw [hroot] at htrees
      obtain rfl := htrees.eq_zero
      obtain ⟨a, leaf, hnew, o⟩ := newLeaf_owns h.owns u
      rw [add_zero] at o
      refine ⟨⟨{ a with root := some leaf }, w.slots.put u (.node leaf), w.touched⟩,
        one leaf (leafCell none [u]), by simp only [hnew, pure_eq_ok], o.setRoot (some leaf),
        .of_shape (.leaf [u]), h.agree.newcomer hu fun v r => ?_⟩
      simp
  | some root =>
      obtain ⟨hst, htrees⟩ := h.stands hroot ht
      -- whatever the root is, a P-node above it with the new leaf is in order
      have hpair : ∀ d, w.arena.cell root = .ok d →
          ∃ w' top, w.pairUp root u = .ok (w', top) ∧ w'.Settled (insert u S) [] := by
        intro d hd
        obtain ⟨d', n, rfl, hs, hparent, hall⟩ := htrees.shape.reparent
        obtain rfl : d' = d := by
          rw [h.owns.cell rfl] at hd
          exact Except.ok.inj hd
        obtain ⟨w', top, leaf, h', -, hst'⟩ := hst.pairUp (fun f hf => by cases hf) hparent hs hu
        refine ⟨w', top, h', top, _, hst', .of_shape (.pnode _ (by simp) ?_)⟩
        rw [childLinks_cons, childLinks_cons, add_left_comm]
        refine (Trees.of_shape (.leaf _)).add ?_
        simpa [childLinks] using hall (some top)
      have hshape := htrees.shape
      cases hshape with
      | leaf held =>
          have hcell := h.owns.cell (add_zero _).symm
          obtain ⟨w', top, h', hsettled⟩ := hpair _ hcell
          obtain ⟨M', hsound⟩ := hsettled.sound
          refine ⟨w', M', ?_, hsound⟩
          simp only [hcell, ok_bind, leafCell, Kind.isP, Bool.false_and, Bool.false_eq_true, if_false,
            h', pure_eq_ok]
      | @pnode held children n hne rest =>
          have hcell := h.owns.cell rfl
          -- a P-node without vertices takes the leaf itself; any other root is paired up
          cases held with
          | nil =>
              obtain ⟨w', leaf, h', -, hst'⟩ := Stands.adoptLeaf (c := []) hst hu
              obtain ⟨M', hsound⟩ := Settled.sound (w := w') (S := insert u S) ⟨root, _, hst',
                .of_shape (.pnode _ (by simp) (by
                  rw [childLinks_append, add_comm]
                  exact (Trees.of_shape (.leaf _)).add rest))⟩
              refine ⟨w', M', ?_, hsound⟩
              simp only [hcell, ok_bind, pCell, Kind.isP, List.isEmpty_nil, Bool.and_self, if_true, h']
          | cons v vs =>
              obtain ⟨w', top, h', hsettled⟩ := hpair _ hcell
              obtain ⟨M', hsound⟩ := hsettled.sound
              refine ⟨w', M', ?_, hsound⟩
              simp only [hcell, ok_bind, pCell, List.isEmpty_cons, Bool.and_false, Bool.false_eq_true,
                if_false, h', pure_eq_ok]
      | @qnode R n hne hasc rest =>
          have hcell := h.owns.cell_of_mem (Arena.Owns.mem_row rfl)
          obtain ⟨w', top, h', hsettled⟩ := hpair _ hcell
          obtain ⟨M', hsound⟩ := hsettled.sound
          refine ⟨w', M', ?_, hsound⟩
          cases hf : R.flipped <;>
            simp only [hcell, ok_bind, rowCell, hf, if_true, Bool.false_eq_true, if_false, Kind.isP,
              Bool.false_and, h', pure_eq_ok]

/-! ## A vertex with neighbours -/

/-- A vertex is put in along the path of its neighbours, or there is no room for it. -/
theorem Whole.placePath (h : w.Whole S root M) (ht : w.touched = []) (hp : p.Sound M)
    (hu : p.vertex ∉ S) {path : List Step} (hpath : Leads M [] root path) :
    (∃ b, w.pathHolds p path = .ok b) ∧ ∃ steps w' r, w.lowerPath p path = .ok steps ∧
      w.place p steps = .ok (w', r) ∧ ∃ c, Ctx.Ok c ∧ w'.Placed (insert p.vertex S) c r := by
  obtain ⟨low, y, m, rfl, hc, hm, hM, htop⟩ := hpath
  rw [List.append_nil] at hc hm hM htop
  have hframes : ∀ f ∈ low, ∃ parent x, f.cells parent x ⊆ M := by
    intro f hf
    obtain ⟨parent, x, hsub⟩ := Ctx.frame_subset hf y
    exact ⟨parent, x, fun e he => by rw [hM]; exact Multiset.mem_add.2 (Or.inr (hsub he))⟩
  obtain ⟨d, n, hd, hnode, -⟩ := hm.shape.reparent
  have hy : M.HasNode y := ⟨d, by simp [hM, hd], hnode⟩
  refine ⟨h.pathHolds_ok p fun step hstep s hs => ?_, ?_⟩
  · rcases List.mem_append.1 hstep with hstep | hstep
    · obtain ⟨f, hf, rfl⟩ := List.mem_map.1 (List.mem_reverse.1 hstep)
      obtain ⟨parent, x, hsub⟩ := hframes f hf
      exact ⟨_, hasSlice_step hsub hs⟩
    · rw [List.mem_singleton.1 hstep] at hs
      cases hs
  · obtain ⟨low₁, c₁, rfl, hlower, -⟩ := h.lowerPath_ok p hy hframes
    have hst : w.Stands S (low₁ ++ c₁) y m := by
      refine ⟨?_, hM ▸ h.agree, by simp [ht]⟩
      rw [htop, ← hM]
      exact h.owns
    obtain ⟨w', r, hplace, hplaced⟩ := hst.place hc hm (hM ▸ hp) hu ht
    exact ⟨_, w', r, hlower, hplace, c₁, fun f hf => hc f (List.mem_append.2 (Or.inr hf)), hplaced⟩

/-- Vertices are hoisted out of a row with a new section. -/
theorem Placed.hoist?_ok {hoisted? : Option NodeId} (h : w.Placed S c (some hoisted?))
    (hc : c.Ok) : ∃ w', w.hoist? hoisted? = .ok w' ∧ w'.Settled S [] := by
  cases hoisted? with
  | none => exact ⟨w, rfl, Settled.close h hc⟩
  | some q =>
      obtain ⟨R, n, hrow⟩ := h
      obtain ⟨w', c', h', hsettled, hc'⟩ := hrow.hoist hc
      exact ⟨w', h', hsettled.close hc'⟩

/-- The noted P-nodes of a whole tree are simplified. -/
theorem Settled.simplify (h : w.Settled S []) :
    ∃ a M, w.arena.simplify (w.arena.cells.size + w.touched.length) w.touched = .ok a ∧
      Sound { w with arena := a } S M := by
  obtain ⟨x, m, hst, hm⟩ := h
  have hcells : m + Ctx.cells [] x = m := add_zero m
  have o := hst.owns.congr hcells
  have htidy : w.arena.Tidy w.slots S m 0 w.touched :=
    ⟨⟨x, by simpa [Ctx.top] using o, hm⟩, hcells ▸ hst.agree, by simp, by simpa using hst.touched⟩
  obtain ⟨a, M, D, ha, hafter⟩ := htidy.simplify (Nat.add_le_add_right o.card_le _)
  obtain ⟨root, o', hf⟩ := hafter.owns
  have hroot : a.root = some root := o'.root_eq
  exact ⟨a, M, ha, by simpa only [hroot] using o'.left,
    by simpa only [hroot, rootLinks] using hf, hafter.agree⟩

/-- A vertex with neighbours is put in, or there is no room for it. -/
theorem Sound.addAdjacent (h : w.Sound S M) (ht : w.touched = []) (hu : u ∉ S)
    (hn : ∀ v ∈ nbrs, v ∈ S) (hne : nbrs ≠ []) :
    ∃ w' b, w.addAdjacent u nbrs = .ok (w', b) ∧ w'.Within (insert u S) ∧
      (b = true → ∃ M', w'.Sound (insert u S) M') := by
  obtain ⟨v, rest, hnbrs⟩ := List.exists_cons_of_ne_nil hne
  obtain ⟨root, hroot⟩ : ∃ root, w.arena.root = some root := by
    cases hroot : w.arena.root with
    | some root => exact ⟨root, rfl⟩
    | none =>
        -- A neighbour is in the tree.
        have htrees := h.trees
        rw [hroot] at htrees
        obtain rfl := htrees.eq_zero
        obtain ⟨r, hr⟩ := h.agree.mem_iff_exists_holds.1 (hn v (by simp [hnbrs]))
        exact absurd hr Cells.holds_zero
  obtain ⟨hst, htrees⟩ := h.stands hroot ht
  have hwithin : w.Within (insert u S) := hst.within.insert u
  have hwhole : w.Whole S root M := ⟨by simpa [hroot] using h.owns, htrees, h.agree⟩
  obtain ⟨owners, hpass, hlen, hsound⟩ := hwhole.pass_ok u hn
  have howners : owners ≠ [] := by
    rintro rfl
    simp [hnbrs] at hlen
  obtain ⟨path?, hpath?, hleads⟩ := hwhole.path?_ok hsound howners
  cases path? with
  | none =>
      exact ⟨w, false, by simp only [Work.addAdjacent, hpass, hpath?, ok_bind, pure_eq_ok], hwithin,
        by simp⟩
  | some path =>
      obtain ⟨⟨b, hb⟩, steps, w₁, r, hlower, hplace, c, hc, hplaced⟩ :=
        hwhole.placePath ht hsound hu (hleads path rfl)
      cases b with
      | false =>
          exact ⟨w, false, by simp only [Work.addAdjacent, hpass, hpath?, hb, ok_bind]; rfl, hwithin,
            by simp⟩
      | true =>
          cases r with
          | none =>
              exact ⟨w₁, false, by simp only [Work.addAdjacent, hpass, hpath?, hb, hlower, hplace,
                ok_bind, if_true, pure_eq_ok], hplaced, by simp⟩
          | some hoisted? =>
              obtain ⟨w₂, hhoist, hsettled⟩ := hplaced.hoist?_ok hc
              obtain ⟨a, M', ha, hafter⟩ := hsettled.simplify
              refine ⟨{ w₂ with arena := a }, true, ?_, hafter.within, fun _ => ⟨M', hafter⟩⟩
              simp only [Work.addAdjacent, hpass, hpath?, hb, hlower, hplace, hhoist, ha, ok_bind, if_true,
                pure_eq_ok]

/-- A vertex is put in, or there is no room for it. -/
theorem Sound.add (h : w.Sound S M) (ht : w.touched = []) (hu : u ∉ S) (hn : ∀ v ∈ nbrs, v ∈ S) :
    ∃ w' b, w.add u nbrs = .ok (w', b) ∧ w'.Within (insert u S) ∧
      (b = true → ∃ M', w'.Sound (insert u S) M') := by
  unfold Work.add
  by_cases hempty : nbrs = []
  · obtain ⟨w', M', h', hsound⟩ := h.addIsolated ht hu
    refine ⟨w', true, ?_, hsound.within, fun _ => ⟨M', hsound⟩⟩
    simp only [hempty, List.isEmpty_nil, if_true, h', ok_bind, pure_eq_ok]
  · obtain ⟨w', b, h', hwithin, hsound⟩ := h.addAdjacent ht hu hn hempty
    refine ⟨w', b, ?_, hwithin, hsound⟩
    rw [if_neg (by simpa using hempty), h']

end Work

end CliquePath
