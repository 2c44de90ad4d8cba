import CliquePath.Search.Detour
import Mathlib.Tactic

set_option autoImplicit false

/-!
# Hop counts along a list of visits

This module says which vertices get a hop count and which count they get. A count stays as it was
entered. It was there from the start, or it is one more than that of a visited neighbour; and every
vertex that is visited after a neighbour with a count has a count itself.
-/

namespace CliquePath

namespace HopCounts

variable {g : Graph} {hops : HopCounts} {visits unvisited ws : List Vertex} {v w x : Vertex}
  {count k : Nat}

theorem lookup_cons (v w : Vertex) (count : Nat) (hops : HopCounts) :
    List.lookup w ((v, count) :: hops) = if w = v then some count else hops.lookup w := by
  by_cases h : w = v
  · simp [h]
  · have hb : (w == v) = false := by simpa using h
    simp [List.lookup_cons, hb, h]

theorem lookup_enter (v w : Vertex) : (enter unvisited count hops v).lookup w =
    if w = v ∧ w ∈ unvisited ∧ hops.lookup w = none then some count else hops.lookup w := by
  unfold enter
  by_cases hwv : w = v
  · subst hwv
    by_cases hmem : w ∈ unvisited <;> cases hlook : hops.lookup w <;> simp [hmem, hlook]
  · split
    next => rw [lookup_cons, if_neg hwv, if_neg fun h => hwv h.1]
    next => rw [if_neg fun h => hwv h.1]

/-- Entering one count for several vertices. -/
theorem lookup_foldl_enter (ws : List Vertex) (hops : HopCounts) (w : Vertex) :
    (ws.foldl (enter unvisited count) hops).lookup w =
      if w ∈ ws ∧ w ∈ unvisited ∧ hops.lookup w = none then some count else hops.lookup w := by
  induction ws generalizing hops with
  | nil => simp
  | cons v rest ih =>
      rw [List.foldl_cons, ih, lookup_enter]
      by_cases hwv : w = v <;> by_cases hmem : w ∈ unvisited <;> cases hops.lookup w <;>
        simp [hwv, hmem]

/-- The counts after one visit. -/
def visit (g : Graph) (v : Vertex) (unvisited : List Vertex) (hops : HopCounts) : HopCounts :=
  match hops.lookup v with
  | none => hops
  | some count => (g.neighbors v).foldl (enter unvisited (count + 1)) hops

theorem along_cons (g : Graph) (v : Vertex) (unvisited : List Vertex) (hops : HopCounts) :
    along g (v :: unvisited) hops = along g unvisited (visit g v unvisited hops) := by
  rw [along, visit]
  cases hops.lookup v <;> rfl

/-- A visit leaves the counts that are there and enters one more than the count of the visited
vertex for its unvisited neighbours. -/
theorem lookup_visit : (visit g v unvisited hops).lookup w = some k ↔ hops.lookup w = some k ∨
    hops.lookup w = none ∧ w ∈ unvisited ∧ w ∈ g.neighbors v ∧
      ∃ count, hops.lookup v = some count ∧ k = count + 1 := by
  unfold visit
  cases hv : hops.lookup v with
  | none => simp
  | some count =>
      simp only [lookup_foldl_enter, Option.some.injEq, exists_eq_left']
      cases hw : hops.lookup w with
      | none =>
          by_cases hnear : w ∈ g.neighbors v <;> by_cases hmem : w ∈ unvisited <;>
            simp [hnear, hmem, eq_comm]
      | some j => simp

theorem lookup_along_of_lookup (h : hops.lookup w = some k) :
    (along g visits hops).lookup w = some k := by
  induction visits generalizing hops with
  | nil => exact h
  | cons v rest ih =>
      rw [along_cons]
      exact ih (lookup_visit.2 (Or.inl h))

/-- A vertex that is not to be visited any more keeps its count, or has none for good. -/
theorem lookup_along_of_notMem (hw : w ∉ visits) :
    (along g visits hops).lookup w = hops.lookup w := by
  induction visits generalizing hops with
  | nil => rfl
  | cons v rest ih =>
      have hrest : w ∉ rest := fun hin => hw (List.mem_cons_of_mem _ hin)
      rw [along_cons, ih hrest]
      refine Option.ext fun k => ?_
      rw [lookup_visit]
      exact ⟨fun h => h.resolve_right fun h' => hrest h'.2.1, Or.inl⟩

/-- Where a count comes from. -/
theorem source_of_lookup_along (h : (along g visits hops).lookup w = some k) :
    hops.lookup w = some k ∨ ∃ v ∈ visits, w ∈ g.neighbors v ∧
      ∃ count, (along g visits hops).lookup v = some count ∧ k = count + 1 := by
  induction visits generalizing hops with
  | nil => exact Or.inl h
  | cons v rest ih =>
      rw [along_cons] at h ⊢
      rcases ih h with h | ⟨x, hx, hwx, hcount⟩
      · rcases lookup_visit.1 h with h | ⟨-, -, hwv, count, hv, rfl⟩
        · exact Or.inl h
        · refine Or.inr ⟨v, List.mem_cons_self, hwv, count, ?_, rfl⟩
          exact lookup_along_of_lookup (lookup_visit.2 (Or.inl hv))
      · exact Or.inr ⟨x, List.mem_cons_of_mem _ hx, hwx, hcount⟩

/-- A vertex visited after a neighbour that has a count gets one. -/
theorem exists_lookup_along {pre post : List Vertex} (hnodup : (pre ++ v :: post).Nodup)
    (hv : (along g (pre ++ v :: post) hops).lookup v = some k) (hw : w ∈ post)
    (hwv : w ∈ g.neighbors v) : ∃ j, (along g (pre ++ v :: post) hops).lookup w = some j := by
  induction pre generalizing hops with
  | cons x pre ih =>
      rw [List.cons_append, along_cons] at hv ⊢
      exact ih (List.nodup_cons.1 hnodup).2 hv
  | nil =>
      rw [List.nil_append, along_cons] at hv ⊢
      have hvpost : v ∉ post := (List.nodup_cons.1 hnodup).1
      rw [lookup_along_of_notMem hvpost] at hv
      have hvold : hops.lookup v = some k := by
        rcases lookup_visit.1 hv with h | h
        · exact h
        · exact absurd h.2.1 hvpost
      -- a later neighbour without a count gets one from this visit
      cases hwold : hops.lookup w with
      | some j => exact ⟨j, lookup_along_of_lookup (lookup_visit.2 (Or.inl hwold))⟩
      | none =>
          exact ⟨k + 1, lookup_along_of_lookup
            (lookup_visit.2 (Or.inr ⟨hwold, hw, hwv, k, hvold, rfl⟩))⟩

/-- A count that was not there from the start comes from the first visited neighbour that has one. -/
theorem first_source_of_lookup_along (hnodup : visits.Nodup) (hw : hops.lookup w = none)
    (h : (along g visits hops).lookup w = some k) :
    ∃ f count, visits.idxOf f < visits.idxOf w ∧ w ∈ g.neighbors f ∧
      (along g visits hops).lookup f = some count ∧ k = count + 1 ∧
      ∀ e, visits.idxOf e < visits.idxOf f → w ∈ g.neighbors e →
        (along g visits hops).lookup e = none := by
  induction visits generalizing hops with
  | nil =>
      rw [along, hw] at h
      cases h
  | cons v rest ih =>
      obtain ⟨hv, hrest⟩ := List.nodup_cons.1 hnodup
      rw [along_cons] at h ⊢
      have hwrest : w ∈ rest := by
        by_contra hno
        rw [lookup_along_of_notMem hno] at h
        rcases lookup_visit.1 h with h | ⟨-, hin, -⟩
        · rw [hw] at h
          cases h
        · exact hno hin
      have hwv : v ≠ w := fun heq => hv (heq ▸ hwrest)
      have hvisit : (along g rest (visit g v rest hops)).lookup v = hops.lookup v := by
        rw [lookup_along_of_notMem hv]
        refine Option.ext fun j => ?_
        rw [lookup_visit]
        exact ⟨fun h => h.resolve_right fun h' => hv h'.2.1, Or.inl⟩
      cases hnow : (visit g v rest hops).lookup w with
      | some j =>
          -- The visit of `v` enters the count.
          rcases lookup_visit.1 hnow with hold | ⟨-, -, hwn, count, hcount, rfl⟩
          · rw [hw] at hold
            cases hold
          · rw [lookup_along_of_lookup hnow] at h
            refine ⟨v, count, ?_, hwn, hvisit.trans hcount, (Option.some.inj h).symm, ?_⟩
            · rw [List.idxOf_cons_self, List.idxOf_cons_ne _ hwv]
              exact Nat.succ_pos _
            · intro e he
              rw [List.idxOf_cons_self] at he
              exact absurd he (Nat.not_lt_zero _)
      | none =>
          obtain ⟨f, count, hfw, hwf, hcount, hk, hfirst⟩ := ih hrest hnow h
          have hfrest : f ∈ rest :=
            List.idxOf_lt_length_iff.1 (Nat.lt_of_lt_of_le hfw List.idxOf_le_length)
          have hvf : v ≠ f := fun heq => hv (heq ▸ hfrest)
          refine ⟨f, count, ?_, hwf, hcount, hk, fun e he hwe => ?_⟩
          · rw [List.idxOf_cons_ne _ hvf, List.idxOf_cons_ne _ hwv]
            exact Nat.succ_lt_succ hfw
          · by_cases heq : v = e
            · -- Had `v` a count, its visit would have entered one for `w`.
              subst heq
              rw [hvisit]
              cases hv' : hops.lookup v with
              | none => rfl
              | some j =>
                  have := lookup_visit.2 (Or.inr ⟨hw, hwrest, hwe, j, hv', rfl⟩)
                  rw [hnow] at this
                  cases this
            · rw [List.idxOf_cons_ne _ heq, List.idxOf_cons_ne _ hvf] at he
              exact hfirst e (Nat.lt_of_succ_lt_succ he) hwe

end HopCounts

end CliquePath
