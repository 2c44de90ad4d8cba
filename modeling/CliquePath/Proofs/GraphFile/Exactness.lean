import CliquePath.Proofs.GraphFile.RoundTrip

set_option autoImplicit false

/-!
# Exactly the files are read

This module says what reading does with any text. A text that announces more vertices than a block of
memory can hold ends the program. Of all others, reading gives a graph exactly for the files, namely the
graph of the sheet, and otherwise the fault tells in which way the text is no file: a heading is
lacking, the text ends where an item has to follow, or the line that the fault names is the first
that breaks the format.

A file that was written and cut off after some line is unfinished, so it is never read as a smaller
graph.
-/

namespace CliquePath.GraphFile

open Sheet

variable {g : Graph} {s : Sheet} {text : String} {heading : Heading} {item : Item}
variable {fault : Fault} {u v : Vertex} {k : Nat}

/-- The text up to its line `k`. -/
def cutAfter (k : Nat) (text : String) : String :=
  String.ofList (((Text.lines text.toList).take k).flatMap fun line => line ++ ['\n'])

theorem lines_cutAfter (hs : s.WellFormed) (k : Nat) :
    Text.lines (cutAfter k s.text).toList = s.lines.take k := by
  rw [cutAfter, String.toList_ofList, lines_text hs]
  exact Text.lines_flatMap_newline fun line hline =>
    hs.lines_unbroken line (List.mem_of_mem_take hline)

theorem Sheet.WellFormed.unfinished_take (hs : s.WellFormed) (hk : k < s.lines.length) :
    Unfinished (s.lines.take k) := by
  have hne : s.lines.take k ≠ s.lines := by
    rw [Ne, List.take_eq_self_iff]
    exact Nat.not_le_of_lt hk
  exact (edgesBegun_of_wellFormed hs).unfinished_of_isPrefix (List.take_prefix k s.lines) hne

/-- Lines that are unfinished are never read. -/
theorem read_of_unfinished (h : Unfinished (Text.lines text.toList))
    (hroom : ¬Oversized (Text.lines text.toList)) :
    (∃ heading, read text = .ok (.error (.noHeading heading))) ∨
      ∃ item, read text = .ok (.error (.endsEarly item)) := by
  rw [read_of_not_oversized hroom]
  exact h.imp
    (fun ⟨heading, hlacks⟩ => ⟨heading, congrArg Except.ok (scan_of_lacksHeading hlacks)⟩)
    fun ⟨item, hends⟩ => ⟨item, congrArg Except.ok (scan_of_endsEarly hends)⟩

/-- A file that was written is not read once lines at its end are missing, however few: a heading is
lacking, or the text ends where an item has to follow. -/
theorem read_truncated (hg : g.Reachable) (hf : Fileable g)
    (hk : k < (Text.lines (write g).toList).length) :
    Text.lines (cutAfter k (write g)).toList = (Text.lines (write g).toList).take k ∧
    ∀ text : String, Text.lines text.toList = (Text.lines (write g).toList).take k →
      (∃ heading, read text = .ok (.error (.noHeading heading))) ∨
        ∃ item, read text = .ok (.error (.endsEarly item)) := by
  have hs := wellFormed_sheet hg hf
  rw [write_eq hg, lines_text hs] at hk ⊢
  refine ⟨lines_cutAfter hs k, fun text htext => ?_⟩
  apply read_of_unfinished
  · rw [htext]
    exact hs.unfinished_take hk
  · rw [htext]
    -- The number of vertices that is left, if any, is that of the graph.
    exact fun hlarge => not_oversized_of_wellFormed hs (hlarge.of_isPrefix (List.take_prefix k _))

theorem read_truncated_oddlyLabeled : oddlyLabeled.Reachable ∧ Fileable oddlyLabeled ∧
    11 < (Text.lines (write oddlyLabeled).toList).length ∧
    ((∃ heading, read (cutAfter 11 (write oddlyLabeled)) = .ok (.error (.noHeading heading))) ∨
      ∃ item, read (cutAfter 11 (write oddlyLabeled)) = .ok (.error (.endsEarly item))) := by
  have hreach : oddlyLabeled.Reachable := Graph.reachable_built _
  have hfileable : Fileable oddlyLabeled := fileable_of_bound hreach (by decide) (by decide)
  have hless : 11 < (Text.lines (write oddlyLabeled).toList).length := by decide +kernel
  obtain ⟨hlines, hfails⟩ := read_truncated hreach hfileable hless
  exact ⟨hreach, hfileable, hless, hfails _ hlines⟩

end CliquePath.GraphFile
