import CliquePath.Proofs.LinkedTree.Reading

set_option autoImplicit false

/-!
# Climbing to the root

This module shows that the climb from the owners of the neighbours to the root succeeds and what the
flags mean that it sets. Every flagged node is one at which a climb started or was entered from a
flagged child of it, and the parent of every flagged node is flagged, but for the node at which the
climb arrives next. After the last climb all owners are flagged, and so is the root.
-/

namespace CliquePath

open Cells (one)

/-- The cells have a node at the place, not a section. -/
def Cells.HasNode (M : Cells) (id : NodeId) : Prop := ∃ d, (id, d) ∈ M ∧ d.kind.isSlice = false

namespace Flags

/-- The node is flagged. -/
def Flagged (flags : Flags) (id : NodeId) : Prop := ∃ child?, flags.lookup id = some child?

/-- What the flags mean while a climb arrives at `next?`. -/
structure Sound (flags : Flags) (M : Cells) (next? : Option NodeId) : Prop where
  started : ∀ id, flags.lookup id = some none → M.HasNode id
  entered : ∀ id child, flags.lookup id = some (some child) →
    (∃ d, (child, d) ∈ M ∧ d.parent = some id) ∧ flags.Flagged child
  closed : ∀ id d p, (id, d) ∈ M → flags.Flagged id → d.parent = some p →
    flags.Flagged p ∨ next? = some p

variable {flags : Flags} {M : Cells} {next? : Option NodeId} {id x : NodeId}
variable {child? : Option NodeId} {d : Cell}

theorem lookup_cons (flags : Flags) (x : NodeId) (child? : Option NodeId) (id : NodeId) :
    List.lookup id ((x, child?) :: flags) = if id = x then some child? else flags.lookup id := by
  rw [List.lookup_cons]
  by_cases h : id = x
  · simp [h]
  · rw [if_neg h, beq_false_of_ne h]

theorem flagged_cons : Flagged ((x, child?) :: flags) id ↔ id = x ∨ flags.Flagged id := by
  unfold Flagged
  rw [lookup_cons]
  by_cases h : id = x <;> simp [h]

theorem sound_nil : Sound [] M next? :=
  ⟨fun _ h => by simp at h, fun _ _ h => by simp at h, fun _ _ _ _ h => by simp [Flagged] at h⟩

/-- A climb may start anywhere. -/
theorem Sound.start (h : flags.Sound M none) (next? : Option NodeId) : flags.Sound M next? :=
  ⟨h.started, h.entered, fun id d p hid hf hp =>
    Or.inl ((h.closed id d p hid hf hp).resolve_right (by simp))⟩

/-- A climb ends at a node that is flagged. -/
theorem Sound.stop (h : flags.Sound M next?) (hx : ∀ x ∈ next?, flags.Flagged x) :
    flags.Sound M none :=
  ⟨h.started, h.entered, fun id d p hid hf hp =>
    Or.inl ((h.closed id d p hid hf hp).elim (fun hp => hp) (hx p))⟩

/-- A climb goes on from a node to its parent. -/
theorem Sound.push (h : flags.Sound M (some x)) (hx : (x, d) ∈ M)
    (hunique : ∀ d', (x, d') ∈ M → d' = d) (hnode : child? = none → d.kind.isSlice = false)
    (hchild : ∀ child ∈ child?, (∃ d, (child, d) ∈ M ∧ d.parent = some x) ∧ flags.Flagged child) :
    Sound ((x, child?) :: flags) M d.parent := by
  refine ⟨fun id hid => ?_, fun id child hid => ?_, fun id d' p hid hf hp => ?_⟩
  · rw [lookup_cons] at hid
    split at hid
    next heq =>
      subst heq
      exact ⟨d, hx, hnode (Option.some.inj hid)⟩
    next => exact h.started id hid
  · rw [lookup_cons] at hid
    rw [flagged_cons]
    split at hid
    next heq =>
      subst heq
      obtain ⟨hparent, hf⟩ := hchild child (Option.some.inj hid)
      exact ⟨hparent, Or.inr hf⟩
    next =>
      obtain ⟨hparent, hf⟩ := h.entered id child hid
      exact ⟨hparent, Or.inr hf⟩
  · -- The node just flagged waits for its parent, which is where the climb goes on.
    rw [flagged_cons] at hf ⊢
    rcases hf with rfl | hf
    · rw [← hunique d' hid]
      exact Or.inr hp
    · rcases h.closed id d' p hid hf hp with hp | hp
      · exact Or.inl (Or.inr hp)
      · exact Or.inl (Or.inl (Option.some.inj hp).symm)

end Flags

namespace Work

variable {w : Work} {r : Option NodeId} {M m : Cells} {flags : Flags} {x id : NodeId} {c : Ctx}
variable {child? : Option NodeId} {d : Cell}

/-- What a climb through a node leaves behind. -/
structure Climbed (M : Cells) (flags flags' : Flags) (id : NodeId) : Prop where
  sound : flags'.Sound M none
  reached : flags'.Flagged id
  kept : ∀ x, flags.Flagged x → flags'.Flagged x

/-- A climb ends at a cell or goes on at its parent. -/
theorem climb_step (o : w.arena.Owns r M) (hid : (id, d) ∈ M)
    (hs : flags.Sound M (some id)) (hnode : child? = none → d.kind.isSlice = false)
    (hchild : ∀ child ∈ child?, (∃ d, (child, d) ∈ M ∧ d.parent = some id) ∧ flags.Flagged child)
    (fuel : Nat) :
    (∃ out, w.climb (fuel + 1) flags child? id = .ok out ∧
      ∀ flags' ∈ out, Climbed M flags flags' id) ∨
    ∃ p, d.parent = some p ∧ w.climb (fuel + 1) flags child? id =
        w.climb fuel ((id, child?) :: flags) (some id) p ∧
      Flags.Sound ((id, child?) :: flags) M (some p) := by
  have hpush := hs.push hid (fun d' hd' => o.eq_of_mem hd' hid) hnode hchild
  have hkept : ∀ x, flags.Flagged x → Flags.Flagged ((id, child?) :: flags) x :=
    fun x hx => Flags.flagged_cons.2 (Or.inr hx)
  have hreached : Flags.Flagged ((id, child?) :: flags) id := Flags.flagged_cons.2 (Or.inl rfl)
  cases hlookup : flags.lookup id with
  | some seen? =>
      -- The node is flagged already.
      have hf : flags.Flagged id := ⟨seen?, hlookup⟩
      have hstop : Climbed M flags flags id := ⟨hs.stop (by simpa using hf), hf, fun _ hx => hx⟩
      refine Or.inl ?_
      cases seen? with
      | some seen =>
          cases child? with
          | none => exact ⟨some flags, by simp only [climb, hlookup, pure_eq_ok], by simpa using hstop⟩
          | some child =>
              refine ⟨if seen = child then some flags else none,
                by simp only [climb, hlookup, pure_eq_ok], fun flags' h => ?_⟩
              split at h
              next => rwa [← Option.some.inj h]
              next => cases h
      | none =>
          cases child? with
          | none => exact ⟨some flags, by simp only [climb, hlookup, pure_eq_ok], by simpa using hstop⟩
          | some child =>
              refine ⟨some ((id, some child) :: flags), by simp only [climb, hlookup, pure_eq_ok],
                fun flags' h => ?_⟩
              cases h
              refine ⟨hpush.stop fun p hp => hkept p ?_, hreached, hkept⟩
              exact (hstop.sound.closed id d p hid hf hp).resolve_right (by simp)
  | none =>
      have hcell := o.cell_of_mem hid
      cases hparent : d.parent with
      | none =>
          refine Or.inl ⟨some ((id, child?) :: flags), ?_, fun flags' h => ?_⟩
          · simp only [climb, hlookup, hcell, ok_bind, hparent, pure_eq_ok]
          · cases h
            rw [hparent] at hpush
            exact ⟨hpush, hreached, hkept⟩
      | some p =>
          rw [hparent] at hpush
          refine Or.inr ⟨p, rfl, ?_, hpush⟩
          simp only [climb, hlookup, hcell, ok_bind, hparent]

/-- A climb that went on from a node. -/
theorem Climbed.of_cons {flags' : Flags} {p : NodeId}
    (h : Climbed M ((x, child?) :: flags) flags' p) : Climbed M flags flags' x :=
  ⟨h.sound, h.kept x (Flags.flagged_cons.2 (Or.inl rfl)),
    fun y hy => h.kept y (Flags.flagged_cons.2 (Or.inr hy))⟩

/-- A climb from a node succeeds. The induction is on the frames above it. -/
theorem climb_ok (o : w.arena.Owns r M) (hc : c.Ok) (hm : Trees {(c.parent, x)} m)
    (hM : M = m + c.cells x) (hs : flags.Sound M (some x))
    (hchild : ∀ child ∈ child?, (∃ d, (child, d) ∈ M ∧ d.parent = some x) ∧ flags.Flagged child)
    {fuel : Nat} (hfuel : (c.cells x).card < fuel) :
    ∃ out, w.climb fuel flags child? x = .ok out ∧
      ∀ flags' ∈ out, Climbed M flags flags' x := by
  induction c generalizing x m flags child? fuel with
  | nil =>
      obtain ⟨fuel, rfl⟩ : ∃ k, fuel = k + 1 := ⟨fuel - 1, by omega⟩
      obtain ⟨d, n, hd, hnode, hparent, -⟩ := hm.shape.reparent
      rcases climb_step o (by simp [hM, hd]) hs (fun _ => hnode) hchild fuel with hout | ⟨p, hp, -⟩
      · exact hout
      · rw [hparent] at hp
        cases hp
  | cons f c ih =>
      obtain ⟨fuel, rfl⟩ : ∃ k, fuel = k + 1 := ⟨fuel - 1, by omega⟩
      obtain ⟨d, n, hd, hnode, hparent, -⟩ := hm.shape.reparent
      have hx : (x, d) ∈ M := by simp [hM, hd]
      have hM' : M = m + f.cells (Ctx.parent c) x + Ctx.cells c f.node := by
        rw [hM, Ctx.cells, add_assoc]
      have hclose : Trees {(Ctx.parent c, f.node)} _ := (hc f List.mem_cons_self).close hm
      have hc' : Ctx.Ok c := fun g hg => hc g (List.mem_cons_of_mem _ hg)
      -- The climb ends here at a flagged node, or it goes on to the cell above.
      rcases climb_step o hx hs (fun _ => hnode) hchild fuel with hout | ⟨p, hp, hclimb, hsound⟩
      · exact hout
      rw [hparent] at hp
      cases hp
      have hentered : ∀ child ∈ some x, (∃ d, (child, d) ∈ M ∧ d.parent = some f.holder) ∧
          Flags.Flagged ((x, child?) :: flags) child := by
        intro child h
        cases h
        exact ⟨⟨d, hx, hparent⟩, Flags.flagged_cons.2 (Or.inl rfl)⟩
      rw [hclimb]
      rw [Ctx.cells, Multiset.card_add] at hfuel
      cases f with
      | branch id held before after rest =>
          have hlow : (Ctx.cells c id).card < fuel := by
            simp only [Frame.cells, Frame.node, Multiset.card_add, one, Multiset.card_singleton]
              at hfuel
            omega
          obtain ⟨out, hout, hclimbed⟩ := ih hc' hclose hM' hsound hentered hlow
          exact ⟨out, hout, fun flags' h => (hclimbed flags' h).of_cons⟩
      | inRow q flipped xs key s held ys rest =>
          -- Above stands a section, from which a second step leads to its row.
          obtain ⟨ds, hds, hq, -⟩ := @Frame.slice_mem q flipped xs ys key s held rest (Ctx.parent c) x
          have hsM : (s, ds) ∈ M := by
            rw [hM']
            exact Multiset.mem_add.2 (Or.inl (Multiset.mem_add.2 (Or.inr hds)))
          obtain ⟨fuel, rfl⟩ : ∃ k, fuel = k + 1 := ⟨fuel - 1, by
            simp only [Frame.cells, Row.cellsAt, one, Multiset.card_add, Multiset.card_singleton]
              at hfuel
            omega⟩
          rcases climb_step o hsM hsound (by simp) hentered fuel with hout |
            ⟨q', hq', hclimb, hsound'⟩
          · obtain ⟨out, hout, hclimbed⟩ := hout
            exact ⟨out, hout, fun flags' h => (hclimbed flags' h).of_cons⟩
          rw [hq] at hq'
          cases hq'
          have hentered' : ∀ child ∈ some s, (∃ d, (child, d) ∈ M ∧ d.parent = some q) ∧
              Flags.Flagged ((s, some x) :: (x, child?) :: flags) child := by
            intro child h
            cases h
            exact ⟨⟨ds, hsM, hq⟩, Flags.flagged_cons.2 (Or.inl rfl)⟩
          have hlow : (Ctx.cells c q).card < fuel := by
            simp only [Frame.cells, Row.cellsAt_part, Frame.node, Multiset.card_add, one,
              Multiset.card_singleton, Row.around] at hfuel
            omega
          obtain ⟨out, hout, hclimbed⟩ := ih hc' hclose hM' hsound' hentered' hlow
          exact ⟨out, hclimb.trans hout, fun flags' h => (hclimbed flags' h).of_cons.of_cons⟩

/-! ## All climbs -/

variable {S : Set Vertex} {root : NodeId} {ids : List NodeId}

/-- Every node of a tree can come into focus. -/
theorem Whole.locate (h : w.Whole S root M) (hid : (id, d) ∈ M) (hd : d.kind.isSlice = false) :
    ∃ c m, Ctx.Ok c ∧ Trees {(Ctx.parent c, id)} m ∧ M = m + Ctx.cells c id ∧
      Ctx.top c id = root := by
  obtain ⟨c, m, hc, hm, hcells, htop⟩ :=
    Ctx.locate (c := []) (fun f hf => by cases hf) h.trees hid hd
  exact ⟨c, m, hc, hm, by simpa [Ctx.cells] using hcells.symm, htop⟩

/-- The climbs from several nodes succeed, and all these nodes are flagged if they lie on a path. -/
theorem Whole.climbAll_ok (h : w.Whole S root M) (hs : flags.Sound M none)
    (hids : ∀ id ∈ ids, M.HasNode id) :
    ∃ out, w.climbAll flags ids = .ok out ∧ ∀ flags' ∈ out, flags'.Sound M none ∧
      (∀ id ∈ ids, flags'.Flagged id) ∧ ∀ x, flags.Flagged x → flags'.Flagged x := by
  induction ids generalizing flags with
  | nil =>
      refine ⟨some flags, rfl, fun flags' hf => ?_⟩
      cases hf
      exact ⟨hs, by simp, fun _ hx => hx⟩
  | cons id rest ih =>
      obtain ⟨d, hid, hd⟩ := hids id List.mem_cons_self
      obtain ⟨c, m, hc, hm, hM, -⟩ := h.locate hid hd
      have hfuel : (Ctx.cells c id).card < w.arena.cells.size + 1 := by
        have hcard := h.owns.card_le
        rw [hM, Multiset.card_add] at hcard
        omega
      have hfirst : ∀ child ∈ (none : Option NodeId),
          (∃ d, (child, d) ∈ M ∧ d.parent = some id) ∧ flags.Flagged child := by simp
      obtain ⟨out, hout, hclimbed⟩ := climb_ok h.owns hc hm hM (hs.start (some id)) hfirst hfuel
      cases out with
      | none => exact ⟨none, by simp only [climbAll, hout, ok_bind, pure_eq_ok], by simp⟩
      | some flags₁ =>
          -- The flags of the first climbs are kept by the later ones.
          have h₁ := hclimbed flags₁ rfl
          obtain ⟨out', hout', hall⟩ := ih h₁.sound fun id hid => hids id (List.mem_cons_of_mem _ hid)
          refine ⟨out', by simp only [climbAll, hout, ok_bind, hout'], fun flags' hf => ?_⟩
          obtain ⟨hsound, hflagged, hkept⟩ := hall flags' hf
          exact ⟨hsound, List.forall_mem_cons.2 ⟨hkept id h₁.reached, hflagged⟩,
            fun x hx => hkept x (h₁.kept x hx)⟩

/-- A flagged node has flagged nodes above it. -/
theorem flagged_above {low : Ctx} (hs : flags.Sound M none) (hc : Ctx.Ok (low ++ c))
    (hm : Trees {(Ctx.parent (low ++ c), x)} m) (hM : M = m + Ctx.cells (low ++ c) x)
    (hx : flags.Flagged x) : flags.Flagged (Ctx.top low x) := by
  -- By induction on the frames between: a flagged cell has its parent flagged.
  induction low generalizing x m with
  | nil => exact hx
  | cons f low ih =>
      obtain ⟨d, n, hd, -, hparent, -⟩ := hm.shape.reparent
      have hM' : M = m + f.cells (Ctx.parent (low ++ c)) x + Ctx.cells (low ++ c) f.node := by
        rw [hM, List.cons_append, Ctx.cells, add_assoc]
      have hholder := (hs.closed x d f.holder (by simp [hM, hd]) hx hparent).resolve_right (by simp)
      refine ih (fun g hg => hc g (List.mem_cons_of_mem _ hg))
        ((hc f List.mem_cons_self).close hm) hM' ?_
      cases f with
      | branch id held before after rest => exact hholder
      | inRow q flipped xs key s held ys rest =>
          obtain ⟨ds, hds, hq, -⟩ :=
            @Frame.slice_mem q flipped xs ys key s held rest (Ctx.parent (low ++ c)) x
          refine (hs.closed s ds q ?_ hholder hq).resolve_right (by simp)
          rw [hM']
          exact Multiset.mem_add.2 (Or.inl (Multiset.mem_add.2 (Or.inr hds)))

/-- The root is flagged if any node is. -/
theorem root_flagged (hs : flags.Sound M none) (hc : c.Ok) (hm : Trees {(c.parent, x)} m)
    (hM : M = m + c.cells x) (hx : flags.Flagged x) : flags.Flagged (c.top x) := by
  rw [← List.append_nil c] at hc hm hM
  exact flagged_above hs hc hm hM hx

end Work

end CliquePath
