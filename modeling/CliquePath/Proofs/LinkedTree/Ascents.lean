import CliquePath.Proofs.LinkedTree.OneTree

set_option autoImplicit false

/-!
# Climbs along one way

This module shows that the search for a path finds one if there is one. If all neighbours lie at a node
or at the nodes above it, then every climb from an owner follows the way from that node to the root. All
climbs enter a node of the way from the cell before it, so none of them meets another one from the side.
-/

namespace CliquePath

open Cells (one)
open Plan (ctx)

/-- The cells follow one another upwards, each as the parent of the one before, and the last one has no
parent. -/
structure Arena.Upward (a : Arena) (way : List NodeId) : Prop where
  nodup : way.Nodup
  parent : ∀ before x after d, way = before ++ x :: after → a.cell x = .ok d → d.parent = after.head?

/-- Every flag that names a child names the cell before the flagged one. -/
def Flags.Along (flags : Flags) (way : List NodeId) : Prop :=
  ∀ id child, flags.lookup id = some (some child) → ∃ before after, way = before ++ child :: id :: after

namespace Work

variable {w : Work} {way before after ids : List NodeId} {flags : Flags} {id : NodeId}
variable {child? : Option NodeId} {out : Option Flags} {fuel : Nat}

/-- One more cell of the way is flagged. -/
theorem along_push (hs : flags.Along way) (hid : way = before ++ id :: after)
    (hchild : ∀ child ∈ child?, ∃ ini, before = ini ++ [child]) :
    Flags.Along ((id, child?) :: flags) way := by
  intro x child hx
  rw [Flags.lookup_cons] at hx
  split at hx
  next heq =>
    subst heq
    obtain ⟨ini, rfl⟩ := hchild child (Option.some.inj hx)
    exact ⟨ini, after, by rw [hid, List.append_assoc]; rfl⟩
  next => exact hs x child hx

/-- A climb along a way comes to an end without meeting another one from the side. -/
theorem climb_along (hway : w.arena.Upward way) (hs : flags.Along way)
    (hid : way = before ++ id :: after) (hchild : ∀ child ∈ child?, ∃ ini, before = ini ++ [child])
    (h : w.climb fuel flags child? id = .ok out) : ∃ flags', out = some flags' ∧ flags'.Along way := by
  induction fuel generalizing flags child? id before after with
  | zero => cases h
  | succ fuel ih =>
      have hpush := along_push hs hid hchild
      cases hlookup : flags.lookup id with
      | none =>
          simp only [climb, hlookup] at h
          obtain ⟨d, hcell, h⟩ := Arena.exists_of_bind h
          have hparent := hway.parent before id after d hid hcell
          cases after with
          | nil =>
              rw [hparent] at h
              exact ⟨_, (Except.ok.inj h).symm, hpush⟩
          | cons p rest =>
              rw [hparent] at h
              have hnext : way = (before ++ [id]) ++ p :: rest := by rw [hid]; simp
              refine ih hpush hnext ?_ h
              rintro child ⟨⟩
              exact ⟨before, rfl⟩
      | some seen? =>
          cases child? with
          | none =>
              cases seen? <;> simp only [climb, hlookup, pure_eq_ok, Except.ok.injEq] at h <;>
                exact ⟨flags, h.symm, hs⟩
          | some child =>
              cases seen? with
              | none =>
                  simp only [climb, hlookup, pure_eq_ok, Except.ok.injEq] at h
                  exact ⟨_, h.symm, hpush⟩
              | some seen =>
                  -- The node was entered from the cell before it, as it is now.
                  obtain ⟨ini, rfl⟩ := hchild child rfl
                  obtain ⟨pre, post, hpre⟩ := hs id seen hlookup
                  have hsame : ini ++ [child] ++ id :: after = (pre ++ [seen]) ++ id :: post := by
                    rw [← hid, hpre, List.append_assoc]
                    rfl
                  have hn := hway.nodup
                  rw [hid, List.nodup_middle, List.nodup_cons, List.mem_append, not_or] at hn
                  obtain ⟨hini, -⟩ := (List.append_cons_inj_of_notMem hn.1.1 hn.1.2).1 hsame
                  have hseen : child = seen := by
                    simpa using congrArg List.getLast? hini
                  simp only [climb, hlookup, hseen, if_true, pure_eq_ok, Except.ok.injEq] at h
                  exact ⟨flags, h.symm, hs⟩

/-- All climbs that start on a way succeed. -/
theorem climbAll_along (hway : w.arena.Upward way) (hs : flags.Along way) (hids : ∀ id ∈ ids, id ∈ way)
    (h : w.climbAll flags ids = .ok out) : ∃ flags', out = some flags' := by
  induction ids generalizing flags with
  | nil => exact ⟨flags, (Except.ok.inj h).symm⟩
  | cons id rest ih =>
      rw [List.forall_mem_cons] at hids
      obtain ⟨before, after, hid⟩ := List.append_of_mem hids.1
      obtain ⟨out₁, hclimb, h⟩ := Arena.exists_of_bind h
      obtain ⟨flags₁, rfl, hs₁⟩ := climb_along hway hs hid (by simp) hclimb
      exact ih hs₁ hids.2 h

end Work

/-! ## The way above a node of a plan -/

/-- The cells of a bough through which the way to the root goes. -/
def Bough.rungs : Bough → List NodeId
  | branch id _ _ _ => [id]
  | inRow q _ _ _ id _ _ => [id, q]

namespace Plan

variable {T U : Plan} {bs : List Bough} {v : Vertex} {p : Pass}

/-- The way from the node in focus to the root. -/
def ascent (x : NodeId) (bs : List Bough) : List NodeId := x :: bs.flatMap Bough.rungs

/-- The way above the node in focus leads through different cells around it. -/
theorem rungs_le (x : NodeId) (bs : List Bough) :
    ((bs.flatMap Bough.rungs : List NodeId) : Multiset NodeId) ≤ ((ctx bs).cells x).map Prod.fst := by
  induction bs generalizing x with
  | nil => simp
  | cons b bs ih =>
      rw [List.flatMap_cons, ← Multiset.coe_add, ctx, List.map_cons, Ctx.cells, Multiset.map_add]
      refine add_le_add ?_ (ih _)
      cases b with
      | branch id held before after =>
          simp [Bough.rungs, Bough.frame, Frame.cells, one]
      | inRow q flipped xs key s held ys =>
          rw [Bough.frame, Frame.cells, Row.cellsAt_part]
          simp only [Row.around, one, Multiset.map_add, Multiset.map_singleton, Bough.rungs]
          have hrungs : (([s, q] : List NodeId) : Multiset NodeId) = {s} + {q} := rfl
          rw [hrungs, add_assoc, add_assoc, add_assoc]
          exact add_le_add le_rfl (Multiset.le_add_right _ _)

end Plan

namespace Work

variable {w : Work} {S : Set Vertex} {T : Plan} {bs : List Bough} {p : Pass}

/-- The parent of a cell on the way to the root is the next cell on it. -/
theorem Draws.parent_ascent (h : w.Draws S (T.under bs)) {before after : List NodeId} {x : NodeId} {d : Cell}
    (hway : Plan.ascent T.id bs = before ++ x :: after) (hcell : w.arena.cell x = .ok d) :
    d.parent = after.head? := by
  -- The induction is on the way up; below a section, two cells are passed at once.
  induction bs generalizing T before with
  | nil =>
      obtain ⟨rfl, hx⟩ | ⟨ini, -, hx⟩ := List.cons_eq_append_iff.1 hway
      · cases hx
        obtain ⟨c, hc, hparent⟩ := h.hasCell_focus
        rwa [Except.ok.inj (hcell.symm.trans hc.1)]
      · simp at hx
  | cons b bs ih =>
      obtain ⟨rfl, hx⟩ | ⟨ini, rfl, hx⟩ := List.cons_eq_append_iff.1 hway
      · cases hx
        obtain ⟨c, hc, hparent⟩ := h.hasCell_focus
        rw [Except.ok.inj (hcell.symm.trans hc.1), hparent]
        cases b <;> rfl
      · cases b with
        | branch id held before' after' => exact ih (T := (Bough.branch id held before' after').fill T) h hx
        | inRow q flipped xs key s held ys =>
            obtain ⟨left, right, rank, hc⟩ :=
              Draws.hasCell_part (s := ⟨s, held, T⟩) h (by simp [Row.toList])
            obtain ⟨rfl, hnext⟩ | ⟨ini', rfl, hnext⟩ := List.cons_eq_append_iff.1 hx
            · cases hnext
              rw [Except.ok.inj (hcell.symm.trans hc.1)]
              rfl
            · exact ih (T := (Bough.inRow q flipped xs key s held ys).fill T) h hnext

/-- The way from the node in focus to the root leads upwards. -/
theorem Draws.upward (h : w.Draws S (T.under bs)) : w.arena.Upward (Plan.ascent T.id bs) where
  nodup := by
    have hn := h.owns.nodup
    rw [Plan.cells_under, Multiset.map_add, Multiset.nodup_add] at hn
    refine List.nodup_cons.2 ⟨fun hmem => ?_, ?_⟩
    · refine Multiset.disjoint_left.1 hn.2.2 (T.id_mem_cells _) ?_
      exact Multiset.mem_of_le (Plan.rungs_le T.id bs) (Multiset.mem_coe.2 hmem)
    · exact Multiset.coe_nodup.1 (Multiset.nodup_of_le (Plan.rungs_le T.id bs) hn.2.1)
  parent _ _ _ _ hway hcell := h.parent_ascent hway hcell

/-- A part that holds a neighbour lies on the way to the root, or below the node in focus. -/
theorem mem_ascent {U : Plan} {v : Vertex} (hothers : ∀ b ∈ bs, ∀ l ∈ b.others, l.2.node.meets p.nbrs = false)
    (hU : U ∈ (T.under bs).parts) (hv : v ∈ p.nbrs) (hheld : v ∈ U.held) :
    U.id ∈ Plan.ascent T.id bs ∨ ∃ l ∈ T.limbs, U ∈ l.2.parts := by
  induction bs generalizing T with
  | nil =>
      rcases Plan.mem_parts_iff.1 hU with rfl | hU
      · exact Or.inl List.mem_cons_self
      · exact Or.inr hU
  | cons b bs ih =>
      rw [List.forall_mem_cons] at hothers
      rcases ih (T := b.fill T) hothers.2 hU with hway | ⟨l, hl, hU⟩
      · refine Or.inl (List.mem_cons_of_mem _ ?_)
        rw [Bough.id_fill] at hway
        rw [List.flatMap_cons, List.mem_append]
        rcases List.mem_cons.1 hway with hid | hid
        · refine Or.inl ?_
          rw [hid]
          cases b <;> simp [Bough.rungs, Bough.frame, Frame.node]
        · exact Or.inr hid
      · rcases Bough.mem_limbs_fill.1 hl with rfl | hl
        · rcases Plan.mem_parts_iff.1 hU with rfl | hU
          · exact Or.inl List.mem_cons_self
          · exact Or.inr hU
        · -- A node off the way meets no neighbour.
          have hmeets : l.2.node.meets p.nbrs = true :=
            Node.meets_iff.2 ⟨v, hv, Plan.mem_vertices_iff.2 ⟨U, hU, hheld⟩⟩
          rw [hothers.1 l hl] at hmeets
          cases hmeets

/-- If all neighbours lie along one way, the search finds a path. -/
theorem Draws.path?_ne_none (h : w.Draws S (T.under bs)) (hr : p.Reads (T.under bs))
    (hpass : Passes p T bs) : w.path? p ≠ .ok none := by
  intro hpath
  have howners : ∀ id ∈ (p.owners.map Prod.fst).eraseDups, id ∈ Plan.ascent T.id bs := by
    intro id hid
    obtain ⟨e, he, rfl⟩ := List.mem_map.1 (List.mem_eraseDups.1 hid)
    obtain ⟨U, hU, heU⟩ := hr.part e he
    have hheld := (hr.owner e he U hU).1 heU
    have hnbr : e.2 ∈ p.nbrs := hr.nbrs ▸ List.mem_map_of_mem he
    rw [heU]
    refine (mem_ascent hpass.others hU hnbr hheld).resolve_right ?_
    rintro ⟨l, hl, hUl⟩
    have hmeets : l.2.node.meets p.nbrs = true :=
      Node.meets_iff.2 ⟨e.2, hnbr, Plan.mem_vertices_iff.2 ⟨U, hUl, hheld⟩⟩
    rw [hpass.limbs l hl] at hmeets
    cases hmeets
  -- Climbs along one way never part, so flagging ends with flags and not with a refusal.
  obtain ⟨out, hclimb, hpath⟩ := Arena.exists_of_bind hpath
  obtain ⟨flags, rfl⟩ := climbAll_along h.upward (fun _ _ hlookup => by simp at hlookup) howners hclimb
  simp only [h.owns.root_eq] at hpath
  obtain ⟨path, -, hpath⟩ := Arena.exists_of_bind hpath
  split at hpath <;> cases hpath

end Work

end CliquePath
