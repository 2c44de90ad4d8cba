import CliquePath.Proofs.LinkedTree.Absorbing

set_option autoImplicit false

/-!
# Putting a vertex in along a path

This module shows that a vertex can be put in along a path that leads down to a node. The last node
is opened, and the induction on the path shows that every node above it can be dissolved. All that is
needed of the neighbours is that their owners are known: whether the new vertex has room is found out
on the way.
-/

namespace CliquePath

namespace Work

variable {w : Work} {S : Set Vertex} {c low : Ctx} {f : Frame} {x y q k : NodeId} {m : Cells}
variable {p : Pass}

/-- What is known of a row that was opened and moved up: it is in focus, and if more is to be
dissolved, it is still open. -/
def Carried (w : Work) (S : Set Vertex) (c : Ctx) (isTop : Bool) (q k : NodeId) : Prop :=
  (∃ R n, w.RowStands S c q R n) ∧ (isTop = false → w.Opened S c q k)

theorem Opened.carried (h : w.Opened S c q k) (isTop : Bool) : w.Carried S c isTop q k := by
  have ⟨R, n, xs, e, hrow, _⟩ := h
  exact ⟨⟨R, n, hrow⟩, fun _ => h⟩

/-- A node above an opened row is dissolved into it, or there is no room for that. -/
theorem Opened.absorb (h : w.Opened S (f :: c) q k) (hc : Ctx.Ok (f :: c)) (p : Pass)
    (isTop : Bool) :
    ∃ w' top?, w.absorb p f.step q k isTop = .ok (w', top?) ∧ w'.Within S ∧
      ∀ top ∈ top?, w'.Carried S c isTop top k := by
  obtain ⟨R, n, xs, e, hrow, -⟩ := id h
  -- the node above is a P-node, or a Q-node that is reached through one of its sections
  cases f with
  | branch id held before after rest =>
      have hcell : w.arena.cell id = .ok (pCell (Ctx.parent c) held (before ++ q :: after)) := by
        refine hrow.owns.cell_of_mem ?_
        simp only [Ctx.cells, Frame.cells, Multiset.mem_add, Cells.mem_one]
        exact Or.inr (Or.inl (Or.inl trivial))
      obtain ⟨w', h', hopen⟩ := h.absorbChildren hc p
      refine ⟨w', some q, ?_, hopen.within, fun top htop => ?_⟩
      · simp only [Work.absorb, Frame.step, hcell, ok_bind, pCell, h', pure_eq_ok]
      · cases htop
        exact hopen.carried isTop
  | inRow x flipped xs key s held ys rest =>
      have hcell := hrow.owns.cell_of_mem (Multiset.mem_add.2 (Or.inr (Multiset.mem_add.2
        (Or.inl (Multiset.mem_add.2 (Or.inl Row.row_mem_cellsAt))))))
      obtain ⟨w', done, h', hwithin, hdone⟩ := h.absorbRow hc p isTop
      refine ⟨w', if done then some x else none, ?_, hwithin, fun top htop => ?_⟩
      · cases flipped <;>
          simp only [Work.absorb, Frame.step, hcell, ok_bind, rowCell, Row.flipped_ofKeyed, if_true,
            Bool.false_eq_true, if_false, h', pure_eq_ok]
      · cases done with
        | false => cases htop
        | true =>
            cases htop
            exact hdone rfl

/-- The last node of a path is opened, or there is no room for the new vertex at its ends. -/
theorem Stands.openBottom (h : w.Stands S c y m) (hc : c.Ok) (hm : Trees {(c.parent, y)} m)
    (hp : p.Sound (m + c.cells y)) (hu : p.vertex ∉ S) (htouched : w.touched = []) (isTop : Bool) :
    ∃ w' r, placeAlong p isTop w [⟨y, none⟩] = .ok (w', r) ∧ w'.Within (insert p.vertex S) ∧
      ∀ e ∈ r, w'.Opened (insert p.vertex S) c e.1 e.2 := by
  -- a node that is no Q-node is wrapped; a Q-node is extended at one end
  have hshape := hm.shape
  cases hshape with
  | leaf held =>
      have hcell := h.owns.cell rfl
      obtain ⟨w', q, k, h', hopen⟩ := (h.congr (add_zero _).symm).wrap_opened hc rfl (fun parent held => by
        rw [add_zero]
        exact .of_shape (.leaf held)) hu
      exact ⟨w', some (q, k), by simp only [Work.placeAlong, hcell, ok_bind, leafCell, h', pure_eq_ok],
        hopen.within, by simpa using hopen⟩
  | @pnode held children n hne rest =>
      have hcell := h.owns.cell (add_assoc _ _ _)
      obtain ⟨w', q, k, h', hopen⟩ := h.wrap_opened hc rfl (fun parent held =>
        .of_shape (.pnode held hne rest)) hu
      exact ⟨w', some (q, k), by simp only [Work.placeAlong, hcell, ok_bind, pCell, h', pure_eq_ok],
        hopen.within, by simpa using hopen⟩
  | @qnode R n hne hasc rest =>
      have hcell := h.owns.cell_of_mem (Multiset.mem_add.2 (Or.inl (Arena.Owns.mem_row rfl)))
      have hrow : w.RowStands S c y R n := ⟨h.owns, h.agree, by simp [htouched], rest, hasc, hne⟩
      obtain ⟨w', r, h', hwithin, hopen⟩ := hrow.append hc hp hu
      refine ⟨w', r, ?_, hwithin, fun e he => ?_⟩
      · cases hf : R.flipped <;> simp [Work.placeAlong, hcell, ok_bind, rowCell, hf, h']
      · obtain ⟨heq, hopen⟩ := hopen e he
        rwa [heq]

end Work

/-- The steps of a path that leads through some frames, the lowest of which comes first, to a
node. -/
def Ctx.steps (low : Ctx) (y : NodeId) : List Step := (low.map Frame.step).reverse ++ [⟨y, none⟩]

theorem Ctx.steps_concat (low : Ctx) (f : Frame) (y : NodeId) :
    Ctx.steps (low ++ [f]) y = f.step :: Ctx.steps low y := by
  simp [Ctx.steps]

namespace Work

variable {w : Work} {S : Set Vertex} {c low : Ctx} {f : Frame} {x y q k : NodeId} {m : Cells}
variable {p : Pass}

/-- A vertex is put in along a path, or there is no room for it. -/
theorem Stands.placeAlong (h : w.Stands S (low ++ c) y m) (hc : Ctx.Ok (low ++ c))
    (hm : Trees {((low ++ c).parent, y)} m) (hp : p.Sound (m + (low ++ c).cells y))
    (hu : p.vertex ∉ S) (htouched : w.touched = []) (isTop : Bool) :
    ∃ w' r, placeAlong p isTop w (low.steps y) = .ok (w', r) ∧ w'.Within (insert p.vertex S) ∧
      ∀ e ∈ r, w'.Carried (insert p.vertex S) c isTop e.1 e.2 := by
  -- The outermost frame comes first on the path.
  induction low using List.reverseRecOn generalizing c isTop with
  | nil =>
      obtain ⟨w', r, h', hwithin, hopen⟩ := h.openBottom hc hm hp hu htouched isTop
      exact ⟨w', r, h', hwithin, fun e he => (hopen e he).carried isTop⟩
  | append_singleton low f ih =>
      have hassoc : low ++ [f] ++ c = low ++ f :: c := by simp
      rw [hassoc] at h hc hm hp
      obtain ⟨w₁, r₁, h₁, hwithin, hcarried⟩ := ih h hc hm hp false
      obtain ⟨step, rest, hsteps⟩ : ∃ step rest, Ctx.steps low y = step :: rest :=
        List.exists_cons_of_ne_nil (by simp [Ctx.steps])
      rw [Ctx.steps_concat, hsteps, Work.placeAlong, ← hsteps, h₁, ok_bind]
      cases r₁ with
      | none => exact ⟨w₁, none, rfl, hwithin, by simp⟩
      | some e =>
          obtain ⟨w₂, top?, h₂, hwithin, htop⟩ := ((hcarried e rfl).2 rfl).absorb
            (fun g hg => hc g (List.mem_append.2 (Or.inr hg))) p isTop
          refine ⟨w₂, top?.map fun top => (top, e.2), by simp only [h₂, ok_bind, pure_eq_ok],
            hwithin, fun e' he' => ?_⟩
          obtain ⟨top, hmem, rfl⟩ := Option.mem_map.1 he'
          exact htop top hmem
      · simp

/-- A vertex is put in along the lower part of a path, or there is no room for it. -/
theorem Stands.place (h : w.Stands S (low ++ c) y m) (hc : Ctx.Ok (low ++ c))
    (hm : Trees {((low ++ c).parent, y)} m) (hp : p.Sound (m + (low ++ c).cells y))
    (hu : p.vertex ∉ S) (htouched : w.touched = []) :
    ∃ w' r, w.place p (low.steps y) = .ok (w', r) ∧ w'.Placed (insert p.vertex S) c r := by
  -- a path of one node is handled at that node
  rcases List.eq_nil_or_concat low with rfl | ⟨ini, f, rfl⟩
  · exact h.placeAt hc hm htouched hp hu
  · rw [List.concat_eq_append] at *
    obtain ⟨w', r, h', hwithin, hcarried⟩ := h.placeAlong hc hm hp hu htouched true
    obtain ⟨step, rest, hsteps⟩ : ∃ step rest, Ctx.steps ini y = step :: rest :=
      List.exists_cons_of_ne_nil (by simp [Ctx.steps])
    rw [Ctx.steps_concat, hsteps] at h' ⊢
    refine ⟨w', r.map fun e => some e.1, by simp only [Work.place, h', ok_bind, pure_eq_ok], ?_⟩
    cases r with
    | none => exact hwithin
    | some e => exact (hcarried e rfl).1

end Work

end CliquePath
