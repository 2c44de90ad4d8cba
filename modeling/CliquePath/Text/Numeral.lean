import CliquePath.Text.Blank

set_option autoImplicit false

/-!
# Numerals

This module defines how a number is written, in decimal digits, and read. A numeral is an optional
plus sign and one or more digits of ASCII; leading zeros are allowed, and the number has to be less
than `2 ^ 64`.
-/

namespace CliquePath.Text

/-- The decimal digits of a number. -/
def numeral (n : Nat) : List Char := Nat.toDigits 10 n

/-- The number that a numeral stands for. -/
def readNumeral? (cs : List Char) : Option Nat :=
  let digits :=
    match cs with
    | '+' :: rest => rest
    | _ => cs
  if digits.isEmpty || !digits.all Char.isDigit then none
  else
    let n := Nat.ofDigitChars 10 digits 0
    if n < UInt64.size then some n else none

theorem numeral_ne_nil (n : Nat) : numeral n ≠ [] := by
  simp [numeral]

theorem isDigit_of_mem_numeral {n : Nat} {c : Char} (h : c ∈ numeral n) : c.isDigit = true :=
  Nat.isDigit_of_mem_toDigits (by decide) (by decide) h

theorem isWord_numeral (n : Nat) : IsWord (numeral n) := by
  refine ⟨numeral_ne_nil n, fun c hc => ?_⟩
  have hdigit := isDigit_of_mem_numeral hc
  have hrange : 48 ≤ c.toNat ∧ c.toNat ≤ 57 := by
    simpa [Char.isDigit, UInt32.le_iff_toNat_le] using hdigit
  -- Every range of blanks ends below the digits or starts above them.
  have hapart : ∀ r ∈ blankRanges, r.2 < 48 ∨ 57 < r.1 := by decide
  refine List.any_eq_false.2 fun r hr => ?_
  have := hapart r hr
  simp only [Bool.and_eq_true, decide_eq_true_eq]
  omega

/-- A number that is small enough is read back from its digits. -/
theorem readNumeral?_numeral {n : Nat} (h : n < UInt64.size) :
    readNumeral? (numeral n) = some n := by
  have hsign : ∀ rest, numeral n ≠ '+' :: rest := by
    intro rest hrest
    have hplus : Char.isDigit '+' = true :=
      isDigit_of_mem_numeral (n := n) (hrest ▸ List.mem_cons_self)
    exact absurd hplus (by decide)
  have hdigits : (numeral n).all Char.isDigit = true :=
    List.all_eq_true.2 fun c hc => isDigit_of_mem_numeral hc
  have hvalue : Nat.ofDigitChars 10 (numeral n) 0 = n := Nat.ofDigitChars_ten_toDigits
  unfold readNumeral?
  split
  next rest hrest => exact absurd hrest (hsign rest)
  next =>
    have hform : ¬((numeral n).isEmpty || !(numeral n).all Char.isDigit) = true := by
      simp [numeral_ne_nil, hdigits]
    dsimp only
    rw [if_neg hform, hvalue, if_pos h]

theorem lt_of_readNumeral? {cs : List Char} {n : Nat} (h : readNumeral? cs = some n) :
    n < UInt64.size := by
  have hvalue : ∀ digits : List Char, (if digits.isEmpty || !digits.all Char.isDigit then none
      else if Nat.ofDigitChars 10 digits 0 < UInt64.size then some (Nat.ofDigitChars 10 digits 0)
      else none) = some n → n < UInt64.size := by
    intro digits hsome
    split at hsome
    next => cases hsome
    next =>
      split at hsome
      next hlt => exact Option.some.inj hsome ▸ hlt
      next => cases hsome
  -- The sign makes no difference to the bound.
  unfold readNumeral? at h
  dsimp only at h
  split at h
  next => exact hvalue _ h
  next => exact hvalue _ h

end CliquePath.Text
