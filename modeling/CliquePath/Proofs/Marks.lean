import CliquePath.Graph.Basic
import CliquePath.Marks

set_option autoImplicit false

/-!
# What marks tell

This module shows what flags the marks have after some of them were set, and that marks which were
set are gone after the same ones were taken off. So a round that starts without marks and marks the
neighbours of a vertex reads adjacency to that vertex, and leaves no mark to the next round.
-/

namespace CliquePath

variable {g : Graph} {v w : Vertex} {n : Nat}

namespace Marks

@[simp]
theorem size_setAll (marks : Marks) (value : Bool) (vs : List Vertex) :
    (marks.setAll value vs).size = marks.size := by
  induction vs generalizing marks with
  | nil => rfl
  | cons v rest ih => simpa [setAll] using ih (marks.setIfInBounds v value)

theorem has_setAll {marks : Marks} (value : Bool) (vs : List Vertex) (hv : v < marks.size) :
    (marks.setAll value vs).has v = if v ∈ vs then value else marks.has v := by
  induction vs generalizing marks with
  | nil => rfl
  | cons w rest ih =>
      have hstep : marks.setAll value (w :: rest) =
          setAll (marks.setIfInBounds w value) value rest := rfl
      have hone : has (marks.setIfInBounds w value) v = if v = w then value else marks.has v := by
        by_cases hvw : v = w
        · subst hvw
          simp [has, hv]
        · simp [has, hvw, Ne.symm hvw]
      rw [hstep, ih (by simpa using hv), hone]
      by_cases hrest : v ∈ rest
      · simp [hrest]
      · simp [hrest]

@[simp]
theorem size_clear (n : Nat) : (clear n).size = n := by
  simp [clear]

@[simp]
theorem has_clear (n : Nat) (v : Vertex) : (clear n).has v = false := by
  by_cases hv : v < n
  · simp [has, clear, hv]
  · simp [has, clear, Nat.le_of_not_lt hv]

/-- Marks that were set can be taken off again. -/
theorem setAll_setAll_clear (n : Nat) (vs : List Vertex) :
    ((clear n).setAll true vs).setAll false vs = clear n := by
  refine Array.ext (by simp) fun i hi hn => ?_
  have hin : i < n := by simpa using hn
  have hhas : (((clear n).setAll true vs).setAll false vs).has i = (clear n).has i := by
    rw [has_setAll false vs (by simpa using hin), has_setAll true vs (by simpa using hin)]
    simp
  rwa [has, has, Array.getElem?_eq_getElem hi, Array.getElem?_eq_getElem hn] at hhas

end Marks

namespace Graph

/-- In a round that starts without marks, a mark tells adjacency. -/
theorem has_marked (hw : w < n) :
    ((Marks.clear n).setAll true (g.neighbors v)).has w = g.adjacent v w := by
  rw [Marks.has_setAll true _ (by simpa using hw), Marks.has_clear, adjacent]
  by_cases hmem : w ∈ g.neighbors v <;> simp [hmem]

end Graph

end CliquePath
