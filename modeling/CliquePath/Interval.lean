import CliquePath.Failure

set_option autoImplicit false

/-!
# Intervals

This module defines half-open intervals of positions, the order on them, and assignments of
intervals to vertices. An assignment is a list of entries in which the entries stand in the order
of their first insertion; `Assignment.get?` is its view.
-/

namespace CliquePath

/-- The positions from `start` up to, and without, `stop`. -/
structure Interval where
  start : Nat
  stop : Nat
deriving DecidableEq, Repr

namespace Interval

/-- The interval between two numbers. Ends have 32 bits, so each is taken modulo `2 ^ 32`. -/
def ofNumbers (start stop : Nat) : Interval := ⟨start % UInt32.size, stop % UInt32.size⟩

/-- Each of the two intervals starts before the other stops. -/
def overlaps (a b : Interval) : Bool := a.start < b.stop && b.start < a.stop

/-- The number of positions. -/
def length (a : Interval) : Nat := a.stop - a.start

/-- An interval that stops where it starts, or earlier, has no positions. -/
def isEmpty (a : Interval) : Bool := a.stop ≤ a.start

/-- Intervals are ordered by their start, and those with one start by their stop. -/
instance : Ord Interval where
  compare a b := (compare a.start b.start).then (compare a.stop b.stop)

theorem overlaps_comm (a b : Interval) : a.overlaps b = b.overlaps a := by
  simp [overlaps, Bool.and_comm]

theorem length_eq_zero_iff (a : Interval) : a.length = 0 ↔ a.isEmpty = true := by
  simp [length, isEmpty, Nat.sub_eq_zero_iff_le]

end Interval

/-- Intervals assigned to vertices, in the order in which the vertices were first entered. -/
abbrev Assignment := List (Vertex × Interval)

namespace Assignment

/-- The interval assigned to a vertex. -/
def get? (a : Assignment) (v : Vertex) : Option Interval := a.lookup v

/-- Assigns an interval. A vertex that has one keeps its place and gets the new interval. -/
def insert : Assignment → Vertex → Interval → Assignment
  | [], v, i => [(v, i)]
  | (w, j) :: rest, v, i => if w = v then (w, i) :: rest else (w, j) :: insert rest v i

/-- The assignment of a list of entries, entered from left to right. -/
def ofList (entries : List (Vertex × Interval)) : Assignment :=
  entries.foldl (fun a e => a.insert e.1 e.2) []

/-- The assignment with ends of 32 bits. -/
def toWords (a : Assignment) : Assignment :=
  a.map fun e => (e.1, Interval.ofNumbers e.2.start e.2.stop)

theorem get?_cons (w x : Vertex) (j : Interval) (rest : Assignment) :
    get? ((x, j) :: rest) w = if w = x then some j else get? rest w := by
  by_cases h : w = x
  · simp [get?, h]
  · have hb : (w == x) = false := by simpa using h
    simp [get?, List.lookup_cons, hb, h]

theorem get?_insert (a : Assignment) (v w : Vertex) (i : Interval) :
    (a.insert v i).get? w = if w = v then some i else a.get? w := by
  induction a with
  | nil => simp [insert, get?_cons]
  | cons e rest ih =>
      obtain ⟨x, j⟩ := e
      by_cases hx : x = v
      · subst hx
        simp only [insert, get?_cons, if_true]
        split <;> rfl
      · simp only [insert, hx, if_false, get?_cons, ih]
        by_cases hw : w = x
        · subst hw
          simp [hx]
        · simp [hw]

end Assignment

end CliquePath
