set_option autoImplicit false

/-!
# JSON texts

This module defines JSON values without fractions and their two printed forms: the compact one
without any blanks, and the spread one, in which every entry stands on a line of its own, indented
by two blanks for each level. The members of an object are printed in the order in which they are
given.
-/

namespace CliquePath

/-- A JSON value built of numbers, strings, arrays and objects. -/
inductive Json where
  | num (n : Nat)
  | str (s : String)
  | arr (entries : List Json)
  | obj (members : List (String × Json))
deriving Repr

namespace Json

/-- A character within a string. Quotes, backslashes and control characters are escaped, those with
a short form by that form. -/
def escape (c : Char) : List Char :=
  if c = '"' then ['\\', '"']
  else if c = '\\' then ['\\', '\\']
  else if c = '\x08' then ['\\', 'b']
  else if c = '\x0c' then ['\\', 'f']
  else if c = '\n' then ['\\', 'n']
  else if c = '\r' then ['\\', 'r']
  else if c = '\t' then ['\\', 't']
  else if c.toNat < 0x20 then
    let digits := Nat.toDigits 16 c.toNat
    ['\\', 'u'] ++ List.replicate (4 - digits.length) '0' ++ digits
  else [c]

/-- A string in quotes. -/
def quote (s : String) : String :=
  String.ofList ('"' :: s.toList.flatMap escape ++ ['"'])

/-- The texts with commas between them. -/
def commas (texts : List String) : String := ",".intercalate texts

/-- The form without blanks. -/
def compact : Json → String
  | .num n => toString n
  | .str s => quote s
  | .arr entries => "[" ++ commas (entries.attach.map fun ⟨j, _⟩ => j.compact) ++ "]"
  | .obj members =>
      "\x7b" ++ commas (members.attach.map fun ⟨m, _⟩ => quote m.1 ++ ":" ++ m.2.compact) ++ "\x7d"
termination_by j => sizeOf j
decreasing_by
  · have := List.sizeOf_lt_of_mem ‹j ∈ entries›
    simp_wf
    omega
  · have := List.sizeOf_lt_of_mem ‹m ∈ members›
    obtain ⟨key, value⟩ := m
    simp_wf
    simp at this
    omega

/-- A new line indented by two blanks for each level. -/
def newLine (level : Nat) : String := String.ofList ('\n' :: List.replicate (2 * level) ' ')

/-- Texts between brackets, each on a line of its own one level further in; the brackets alone if
there is none. -/
def block (level : Nat) (opening closing : String) (texts : List String) : String :=
  if texts.isEmpty then opening ++ closing
  else
    opening ++ commas (texts.map fun t => newLine (level + 1) ++ t) ++ newLine level ++ closing

/-- The form with one entry to a line, at the given level. -/
def spread (level : Nat) : Json → String
  | .num n => toString n
  | .str s => quote s
  | .arr entries =>
      block level "[" "]" (entries.attach.map fun ⟨j, _⟩ => j.spread (level + 1))
  | .obj members =>
      block level "\x7b" "\x7d"
        (members.attach.map fun ⟨m, _⟩ => quote m.1 ++ ": " ++ m.2.spread (level + 1))
termination_by j => sizeOf j
decreasing_by
  · have := List.sizeOf_lt_of_mem ‹j ∈ entries›
    simp_wf
    omega
  · have := List.sizeOf_lt_of_mem ‹m ∈ members›
    obtain ⟨key, value⟩ := m
    simp_wf
    simp at this
    omega

end Json

end CliquePath
