import CliquePath.Text.Blank

set_option autoImplicit false

/-!
# Lines

This module defines the division of a text into numbered lines. A line feed ends a line and takes
one carriage return in front of it along; a carriage return elsewhere belongs to its line. What
follows the last line feed is a line only if it is not empty.
-/

namespace CliquePath.Text

/-- The lines of a text. -/
def lines : List Char → List (List Char)
  | [] => []
  | '\r' :: '\n' :: rest => [] :: lines rest
  | '\n' :: rest => [] :: lines rest
  | c :: rest =>
      match lines rest with
      | [] => [[c]]
      | line :: more => (c :: line) :: more

/-- A line with its number, counted from 1. -/
structure Line where
  number : Nat
  text : List Char
deriving DecidableEq, Repr

/-- The lines of a text with their numbers. -/
def numberedLines (text : List Char) : List Line :=
  (lines text).mapIdx fun i line => ⟨i + 1, line⟩

/-- A line feed after characters that are no line ends closes them off as a line. -/
theorem lines_append_newline {line : List Char} (rest : List Char) (hfeed : '\n' ∉ line)
    (hreturn : line.getLast? ≠ some '\r') :
    lines (line ++ '\n' :: rest) = line :: lines rest := by
  induction line with
  | nil => simp [lines]
  | cons c cs ih =>
      have hc : c ≠ '\n' := fun h => hfeed (h ▸ List.mem_cons_self)
      have hcs : '\n' ∉ cs := fun h => hfeed (List.mem_cons_of_mem c h)
      cases cs with
      | nil =>
          have hr : c ≠ '\r' := by
            intro h
            exact hreturn (by simp [h])
          simp [lines, hr]
      | cons d ds =>
          have hd : d ≠ '\n' := fun h => hcs (h ▸ List.mem_cons_self)
          have ih' := ih hcs (by simpa using hreturn)
          rw [List.cons_append] at ih' ⊢
          simp [lines, hd, ih']

/-- Lines that hold no line end come back from their text. -/
theorem lines_flatMap_newline {ls : List (List Char)}
    (h : ∀ line ∈ ls, '\n' ∉ line ∧ line.getLast? ≠ some '\r') :
    lines (ls.flatMap fun line => line ++ ['\n']) = ls := by
  induction ls with
  | nil => rfl
  | cons line rest ih =>
      obtain ⟨hfeed, hreturn⟩ := h line List.mem_cons_self
      rw [List.flatMap_cons, List.append_assoc, List.singleton_append,
        lines_append_newline _ hfeed hreturn, ih fun l hl => h l (List.mem_cons_of_mem line hl)]

/-- No line holds a line feed. -/
theorem newline_not_mem_of_mem_lines {cs line : List Char} (h : line ∈ lines cs) : '\n' ∉ line := by
  induction cs using lines.induct generalizing line with
  | case1 => simp [lines] at h
  | case2 rest ih =>
      rw [lines] at h
      rcases List.mem_cons.1 h with rfl | h
      · exact List.not_mem_nil
      · exact ih h
  | case3 rest ih =>
      rw [lines] at h
      rcases List.mem_cons.1 h with rfl | h
      · exact List.not_mem_nil
      · exact ih h
  | case4 c rest hreturn hfeed hnil ih =>
      rw [lines.eq_4 c rest hreturn hfeed, hnil] at h
      have hc : c ≠ '\n' := hfeed
      rw [List.mem_singleton.1 h, List.mem_singleton]
      exact hc.symm
  | case5 c rest hreturn hfeed first more hlines ih =>
      rw [lines.eq_4 c rest hreturn hfeed, hlines] at h
      rw [hlines] at ih
      rcases List.mem_cons.1 h with rfl | h
      · rw [List.mem_cons, not_or]
        exact ⟨Ne.symm hfeed, ih List.mem_cons_self⟩
      · exact ih (List.mem_cons_of_mem first h)

theorem map_text_numberedLines (text : List Char) :
    (numberedLines text).map Line.text = lines text := by
  refine List.ext_getElem (by simp [numberedLines]) fun i _ _ => ?_
  simp [numberedLines]

theorem number_of_numberedLines_eq {text : List Char} {front rest : List Line} {line : Line}
    (h : numberedLines text = front ++ line :: rest) : line.number = front.length + 1 := by
  have hline : (numberedLines text)[front.length]? = some line := by
    rw [h]
    simp
  rw [numberedLines, List.getElem?_mapIdx] at hline
  obtain ⟨cs, -, rfl⟩ := Option.map_eq_some_iff.1 hline
  rfl

end CliquePath.Text
