set_option autoImplicit false

/-!
# The sole entry that satisfies a test

This module defines the search for an entry of a list that satisfies a test and is the only one to
do so. The answer tells no such entry, one, and several apart, and gives the one with what stands
around it.
-/

namespace CliquePath

/-- Whether no entry, one entry or several entries of a list satisfy a test. -/
inductive Sole (α : Type) where
  | absent
  | one (before : List α) (entry : α) (after : List α)
  | several
deriving DecidableEq, Repr

namespace Sole

variable {α : Type}

/-- Looks for the only entry of a list that satisfies the test. -/
def find (test : α → Bool) (entries : List α) : Sole α :=
  match entries.dropWhile fun x => !test x with
  | [] => .absent
  | x :: after =>
      if after.any test then .several else .one (entries.takeWhile fun x => !test x) x after

/-- The entry found and what stands around it make up the list. -/
theorem eq_append_of_find {test : α → Bool} {entries before after : List α} {x : α}
    (h : find test entries = .one before x after) : entries = before ++ x :: after := by
  unfold find at h
  split at h
  next => cases h
  next y rest hd =>
    split at h
    next => cases h
    next =>
      cases h
      rw [← hd]
      exact (List.takeWhile_append_dropWhile).symm

theorem mem_of_find {test : α → Bool} {entries before after : List α} {x : α}
    (h : find test entries = .one before x after) : x ∈ entries := by
  rw [eq_append_of_find h]
  simp

end Sole

end CliquePath
