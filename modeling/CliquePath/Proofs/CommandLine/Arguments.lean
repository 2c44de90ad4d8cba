import CliquePath.CommandLine.Arguments
import Mathlib.Tactic

set_option autoImplicit false

/-!
# What one more option does to the arguments

Arguments are read from left to right, so an option at the end comes to everything that was read
before it. This module proves it of the file for the text, by induction along the reading.
-/

namespace CliquePath.CommandLine.Arguments

variable {a b : Arguments} {args : List String} {path : String}

theorem setInput?_eq_some (h : a.setInput? path = some b) : b = { a with input := some path } := by
  unfold setInput? at h
  split at h
  next => cases h
  next => exact (Option.some.inj h).symm

/-- Arguments that name no file for the text keep the one that is there. If they are read, they are
read in front of such a name as well, and it is all that changes. -/
theorem parseFrom?_append_out (path : String) (hout : "--out" ∉ args) (hend : "--" ∉ args)
    (h : parseFrom? a args = some b) :
    b.out = a.out ∧ parseFrom? a (args ++ ["--out", path]) = some { b with out := some path } := by
  -- By induction along the reading. An option that lacks its value at the end of `args` would now
  -- take `--out` for it, but then `args` could not be read.
  fun_induction parseFrom? a args with
  | case1 a =>
      cases h
      exact ⟨rfl, rfl⟩
  | case2 | case3 | case11 | case12 | case14 | case18 | case19 | case20 => cases h
  | case4 a rest ih | case5 a rest ih | case6 a rest ih | case7 a rest ih | case8 a rest ih
  | case9 a rest ih | case10 a rest ih =>
      rw [List.mem_cons, not_or] at hout hend
      exact ih hout.2 hend.2 h
  | case13 a n rest count hcount ih =>
      simp only [List.mem_cons, not_or] at hout hend
      rw [List.cons_append, List.cons_append, parseFrom?, hcount]
      exact ih hout.2.2 hend.2.2 h
  | case15 => exact absurd List.mem_cons_self hout
  | case16 | case17 => exact absurd List.mem_cons_self hend
  | case21 a arg rest _ _ _ _ _ _ _ _ _ hsole hvalue _ _ _ _ _ hpath b hinput ih =>
      rw [List.mem_cons, not_or] at hout hend
      obtain ⟨hkept, hrest⟩ := ih hout.2 hend.2 h
      refine ⟨hkept.trans ?_, ?_⟩
      · rw [setInput?_eq_some hinput]
      · have hvertices : arg ≠ "--vertices" := by
          intro harg
          cases rest with
          | nil => exact hsole harg rfl
          | cons n more => exact hvalue n more harg rfl
        -- What stands behind a path does not make another argument of it.
        rw [List.cons_append, parseFrom?, if_neg hpath, hinput]
        · exact hrest
        all_goals grind

/-- The same of all arguments, with their check for completeness. -/
theorem parse?_append_out (path : String) (hout : "--out" ∉ args) (hend : "--" ∉ args)
    (h : parse? args = some a) :
    a.out = none ∧ parse? (args ++ ["--out", path]) = some { a with out := some path } := by
  obtain ⟨hread, hready⟩ := Option.filter_eq_some_iff.1 h
  obtain ⟨hkept, happend⟩ := parseFrom?_append_out path hout hend hread
  refine ⟨hkept, ?_⟩
  rw [parse?, happend]
  exact Option.filter_eq_some_iff.2 ⟨rfl, hready⟩

end CliquePath.CommandLine.Arguments
