import CliquePath.Failure

set_option autoImplicit false

/-!
# Descending forests

This module defines a forest on the numbers below a bound in which every number points at a
parent that is not larger. The numbers that point at themselves are roots, and a class of the
forest is the set of numbers with one root. Joining two classes points the larger root at the
smaller one, so the root of a class is its least member.

Since no parent is larger, following the parents ends; `root` recurses on that.
-/

namespace CliquePath

/-- A forest in which no parent is larger than its child. -/
structure Forest where
  parents : Array Nat
  parent_le : ∀ (v : Nat) (h : v < parents.size), parents[v] ≤ v

namespace Forest

/-- The forest of `n` roots. -/
def roots (n : Nat) : Forest where
  parents := Array.range n
  parent_le v h := by simp

/-- The parent of `v`. A number outside the forest points at itself. -/
def parent (f : Forest) (v : Nat) : Nat := f.parents[v]?.getD v

theorem parent_le_self (f : Forest) (v : Nat) : f.parent v ≤ v := by
  unfold parent
  by_cases h : v < f.parents.size
  · simpa [h] using f.parent_le v h
  · simp [h]

/-- The number at which following the parents from `v` ends. -/
def root (f : Forest) (v : Nat) : Nat :=
  if f.parent v = v then v else f.root (f.parent v)
termination_by v
decreasing_by
  have := f.parent_le_self v
  omega

/-- Points `v` at a number that is not larger. -/
def point (f : Forest) (v target : Nat) (h : target ≤ v) : Forest where
  parents := f.parents.setIfInBounds v target
  parent_le w hw := by
    have hw' : w < f.parents.size := by simpa using hw
    rw [Array.getElem_setIfInBounds]
    split
    next e => exact e ▸ h
    next => exact f.parent_le w hw'

/-- Points every number on the way from `v` down to `target` straight at `target`. -/
def compress (f : Forest) (v target : Nat) : Forest :=
  if h : target < f.parent v ∧ f.parent v < v then
    (f.point v target (by omega)).compress (f.parent v) target
  else f
termination_by v
decreasing_by exact h.2

/-- The root of `v`, and the forest with the way to it shortened. -/
def find (f : Forest) (v : Nat) : Nat × Forest := (f.root v, f.compress v (f.root v))

/-- Joins the classes of two numbers under the smaller of their roots. -/
def join (f : Forest) (u v : Nat) : Forest :=
  let (a, f₁) := f.find u
  let (b, f₂) := f₁.find v
  if h : a < b then f₂.point b a (Nat.le_of_lt h)
  else if h : b < a then f₂.point a b (Nat.le_of_lt h)
  else f₂

/-- Joins along every pair of a list, from left to right. -/
def joinAll (f : Forest) (pairs : List (Nat × Nat)) : Forest :=
  pairs.foldl (fun f e => f.join e.1 e.2) f

theorem root_le_self (f : Forest) (v : Nat) : f.root v ≤ v := by
  fun_induction root f v with
  | case1 v h => exact Nat.le_refl v
  | case2 v h ih => exact Nat.le_trans ih (f.parent_le_self v)

theorem parent_root (f : Forest) (v : Nat) : f.parent (f.root v) = f.root v := by
  fun_induction root f v with
  | case1 v h => exact h
  | case2 v h ih => exact ih

end Forest

end CliquePath
