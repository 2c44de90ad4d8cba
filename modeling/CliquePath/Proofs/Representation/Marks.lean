import CliquePath.Proofs.Marks
import CliquePath.Proofs.Representation

set_option autoImplicit false

/-!
# The check of a representation with marks

This module shows that the check with marks answers what the check by adjacency answers, if all
vertices of the assignment have flags. Every round starts without marks, since the one before took
off all that it had set.
-/

namespace CliquePath

namespace Graph

variable {g : Graph} {a : Assignment} {entries : List (Vertex × Interval)} {n : Nat}

/-- The sweep with marks counts what the sweep by adjacency counts. -/
theorem countMarked_eq (hbound : ∀ e ∈ entries, e.1 < n) :
    g.countMarked (.clear n) entries = g.countOverlaps entries := by
  induction entries with
  | nil => rfl
  | cons first rest ih =>
      have hrest : ∀ e ∈ rest, e.1 < n := fun e he => hbound e (List.mem_cons_of_mem _ he)
      have hfind : ((rest.takeWhile fun e => e.2.start < first.2.stop).find? fun e =>
            !((Marks.clear n).setAll true (g.neighbors first.1)).has e.1) =
          (rest.takeWhile fun e => e.2.start < first.2.stop).find? fun e =>
            !g.adjacent first.1 e.1 :=
        List.find?_congr fun e he => by
          rw [has_marked (hrest e ((List.takeWhile_sublist _).mem he))]
      simp only [countMarked, hfind, Marks.setAll_setAll_clear, ih hrest]
      rfl

/-- The check with marks answers what the check by adjacency answers. -/
theorem markedDisagreement?_eq (hbound : ∀ e ∈ a, e.1 < g.bound) :
    g.markedDisagreement? a = g.disagreement? a := by
  rw [markedDisagreement?, countMarked_eq fun e he => hbound e (Assignment.mem_byStart.1 he)]
  rfl

/-- An assignment that represents the graph passes the check with marks. -/
theorem Consistent.markedDisagreement?_eq_none (hg : g.Consistent)
    (h : Represents a g.vertices g.Linked) : g.markedDisagreement? a = none := by
  rw [markedDisagreement?_eq, hg.disagreement?_eq_none h]
  intro e he
  have hin : e.1 ∈ a.map Prod.fst := List.mem_map_of_mem he
  rw [h.keys] at hin
  exact lt_bound hin

end Graph

end CliquePath
