set_option autoImplicit false

/-!
# Blank characters

This module defines the characters with the Unicode property `White_Space`, and on lists of
characters the removal of blanks at the ends and the division into words.
-/

namespace CliquePath.Text

/-- The ranges of code points with the property `White_Space`, ends included. -/
def blankRanges : List (Nat × Nat) :=
  [(0x0009, 0x000D), (0x0020, 0x0020), (0x0085, 0x0085), (0x00A0, 0x00A0), (0x1680, 0x1680),
   (0x2000, 0x200A), (0x2028, 0x2029), (0x202F, 0x202F), (0x205F, 0x205F), (0x3000, 0x3000)]

/-- The character is white space. -/
def isBlank (c : Char) : Bool := blankRanges.any fun r => r.1 ≤ c.toNat && c.toNat ≤ r.2

/-- The characters without the blanks in front. -/
def trimStart (cs : List Char) : List Char := cs.dropWhile isBlank

/-- The characters without the blanks at the end. -/
def trimEnd (cs : List Char) : List Char := (cs.reverse.dropWhile isBlank).reverse

/-- The characters without the blanks at either end. -/
def trim (cs : List Char) : List Char := trimStart (trimEnd cs)

/-- The longest runs of characters that are not blank. A character opens a word if a blank or
nothing follows it, and else belongs to the word that the rest begins with. -/
def words : List Char → List (List Char)
  | [] => []
  | c :: rest =>
      if isBlank c then words rest
      else
        match rest.head?.all isBlank, words rest with
        | false, word :: more => (c :: word) :: more
        | _, more => [c] :: more

/-- The characters are a word: none of them is blank, and there is one. -/
structure IsWord (cs : List Char) : Prop where
  ne_nil : cs ≠ []
  not_blank : ∀ c ∈ cs, isBlank c = false

theorem IsWord.tail {c d : Char} {ds : List Char} (h : IsWord (c :: d :: ds)) : IsWord (d :: ds) :=
  ⟨List.cons_ne_nil d ds, fun x hx => h.not_blank x (List.mem_cons_of_mem c hx)⟩

/-! ## Words -/

theorem words_append_cons {word rest : List Char} {c : Char} (hword : IsWord word)
    (hc : isBlank c = true) : words (word ++ c :: rest) = word :: words rest := by
  induction word with
  | nil => exact absurd rfl hword.ne_nil
  | cons d ds ih =>
      have hd : isBlank d = false := hword.not_blank d List.mem_cons_self
      cases ds with
      | nil => simp [words, hd, hc]
      | cons e es =>
          have he : isBlank e = false := hword.tail.not_blank e List.mem_cons_self
          have ih' := ih hword.tail
          rw [List.cons_append, words, ih']
          simp [hd, he]

theorem words_of_word {word : List Char} (hword : IsWord word) : words word = [word] := by
  induction word with
  | nil => exact absurd rfl hword.ne_nil
  | cons d ds ih =>
      have hd : isBlank d = false := hword.not_blank d List.mem_cons_self
      cases ds with
      | nil => simp [words, hd]
      | cons e es =>
          have he : isBlank e = false := hword.tail.not_blank e List.mem_cons_self
          have ih' := ih hword.tail
          rw [words, ih']
          simp [hd, he]

theorem words_of_blanks {blanks : List Char} (h : ∀ c ∈ blanks, isBlank c = true) :
    words blanks = [] := by
  induction blanks with
  | nil => rfl
  | cons c rest ih =>
      have hrest := ih fun d hd => h d (List.mem_cons_of_mem c hd)
      rw [words, if_pos (h c List.mem_cons_self), hrest]

/-- Blanks at the end are part of no word. -/
theorem words_append_blanks (cs : List Char) {blanks : List Char}
    (h : ∀ c ∈ blanks, isBlank c = true) : words (cs ++ blanks) = words cs := by
  induction cs with
  | nil => exact words_of_blanks h
  | cons c rest ih =>
      -- Whether a blank or nothing follows, a word ends.
      have hhead : (rest ++ blanks).head?.all isBlank = rest.head?.all isBlank := by
        cases rest with
        | nil =>
            cases blanks with
            | nil => rfl
            | cons d ds => simpa using h d List.mem_cons_self
        | cons d ds => rfl
      rw [List.cons_append, words, words, ih, hhead]

/-! ## Nothing to trim -/

theorem trimStart_cons {c : Char} (hc : isBlank c = false) (cs : List Char) :
    trimStart (c :: cs) = c :: cs := by
  simp [trimStart, hc]

/-- A word at the end keeps all characters before it. -/
theorem trimEnd_append_word (cs : List Char) {word : List Char} (hword : IsWord word) :
    trimEnd (cs ++ word) = cs ++ word := by
  obtain ⟨front, d, rfl⟩ := List.eq_nil_or_concat word |>.resolve_left hword.ne_nil
  have hd : isBlank d = false := hword.not_blank d (by simp)
  simp [trimEnd, hd]

theorem trimEnd_of_word {word : List Char} (hword : IsWord word) : trimEnd word = word :=
  trimEnd_append_word [] hword

theorem trim_of_word {word : List Char} (hword : IsWord word) : trim word = word := by
  rw [trim, trimEnd_of_word hword]
  obtain ⟨c, cs, rfl⟩ := List.exists_cons_of_ne_nil hword.ne_nil
  exact trimStart_cons (hword.not_blank c List.mem_cons_self) cs

/-- What is trimmed off the end is blank. -/
theorem exists_eq_trimEnd_append (cs : List Char) :
    ∃ blanks, cs = trimEnd cs ++ blanks ∧ ∀ c ∈ blanks, isBlank c = true := by
  refine ⟨(cs.reverse.takeWhile isBlank).reverse, ?_, fun c hc => ?_⟩
  · rw [trimEnd, ← List.reverse_append, List.takeWhile_append_dropWhile, List.reverse_reverse]
  · exact List.all_eq_true.1 List.all_takeWhile c (List.mem_reverse.1 hc)

theorem words_trimEnd (cs : List Char) : words (trimEnd cs) = words cs := by
  obtain ⟨blanks, hcs, hblanks⟩ := exists_eq_trimEnd_append cs
  have hwords := words_append_blanks (trimEnd cs) hblanks
  rw [← hcs] at hwords
  exact hwords.symm

theorem trimEnd_trimEnd (cs : List Char) : trimEnd (trimEnd cs) = trimEnd cs := by
  rcases List.eq_nil_or_concat (trimEnd cs) with hnil | ⟨front, c, hconcat⟩
  · rw [hnil]
    rfl
  · -- The last character that is left is not blank.
    have hlast : cs.reverse.dropWhile isBlank = c :: front.reverse := by
      rw [← List.reverse_reverse (cs.reverse.dropWhile isBlank), ← trimEnd, hconcat]
      simp
    have hne : cs.reverse.dropWhile isBlank ≠ [] := by simp [hlast]
    have hc : isBlank c = false := by
      have hhead := List.head_dropWhile_not isBlank hne
      simpa [hlast] using hhead
    have hword : IsWord [c] := ⟨List.cons_ne_nil c [], by simpa using hc⟩
    rw [hconcat, List.concat_eq_append, trimEnd_append_word front hword]

theorem trim_trimEnd (cs : List Char) : trim (trimEnd cs) = trim cs := by
  rw [trim, trimEnd_trimEnd, trim]

theorem trimEnd_subset (cs : List Char) : trimEnd cs ⊆ cs := fun _ hc =>
  List.mem_reverse.1 ((List.dropWhile_sublist _).subset (List.mem_reverse.1 hc))

theorem trimStart_subset (cs : List Char) : trimStart cs ⊆ cs :=
  (List.dropWhile_sublist _).subset

end CliquePath.Text
