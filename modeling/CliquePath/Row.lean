set_option autoImplicit false

/-!
# Keyed rows

This module defines a row, a sequence of entries with integer keys that increase from left to right.
Two entries are compared by their keys without walking the row, and a row is reversed by flipping
one flag: a flipped row stores its entries from right to left with negated keys.

`Row.toList` is the view: it lists the entries from left to right, and for each operation one lemma
says what the operation does to that list. A new entry gets a key between those of its neighbours.
When no integer is left between them, all keys are spread out again.
-/

namespace CliquePath

/-- Entries with keys. If the row is flipped, the entries are stored from right to left and the keys
negated. -/
structure Row (α : Type) where
  cells : List (Int × α)
  flipped : Bool := false
deriving DecidableEq, Repr

namespace Row

variable {α β : Type}

/-- The distance between the keys of neighbours in a row that was just spread out: `2 ^ 16`. -/
def keyGap : Int := 65536

/-- The same entries in reverse order under negated keys. -/
def reflect (cells : List (Int × α)) : List (Int × α) :=
  (cells.map fun c => (-c.1, c.2)).reverse

/-- Entries with evenly spaced keys that start at `first`. -/
def spaced (first step : Int) (entries : List α) : List (Int × α) :=
  entries.mapIdx fun i x => (first + i * step, x)

/-- The entries from left to right with their keys. -/
def keyed (r : Row α) : List (Int × α) := if r.flipped then reflect r.cells else r.cells

/-- The entries from left to right. -/
def toList (r : Row α) : List α := r.keyed.map Prod.snd

/-- The keys from left to right. -/
def keys (r : Row α) : List Int := r.keyed.map Prod.fst

/-- The number of entries. -/
def size (r : Row α) : Nat := r.cells.length

/-- Replaces the entries and keys, both given from left to right. -/
def withKeyed (r : Row α) (cells : List (Int × β)) : Row β :=
  ⟨if r.flipped then reflect cells else cells, r.flipped⟩

/-- A row of the given entries. -/
def ofList (entries : List α) : Row α := ⟨spaced 0 keyGap entries, false⟩

/-- The row read from right to left. -/
def reverse (r : Row α) : Row α := { r with flipped := !r.flipped }

/-- Changes every entry and keeps the keys. -/
def map (f : α → β) (r : Row α) : Row β := r.withKeyed (r.keyed.map fun c => (c.1, f c.2))

/-- Replaces the entry at a position and keeps its key. -/
def set (r : Row α) (i : Nat) (x : α) : Row α :=
  r.withKeyed (r.keyed.modify i fun c => (c.1, x))

/-- Puts a new entry between two parts of a row. -/
def insertBetween (left : List (Int × α)) (x : α) (right : List (Int × α)) : List (Int × α) :=
  match left.getLast?, right.head? with
  | none, none => [(0, x)]
  | some l, none => left ++ [(l.1 + keyGap, x)]
  | none, some r => (r.1 - keyGap, x) :: right
  | some l, some r =>
      if 2 ≤ r.1 - l.1 then left ++ (l.1 + (r.1 - l.1) / 2, x) :: right
      else spaced 0 keyGap (left.map Prod.snd ++ x :: right.map Prod.snd)

/-- Puts a new entry in front of position `i`, or at the right end. -/
def insertAt (r : Row α) (i : Nat) (x : α) : Row α :=
  r.withKeyed (insertBetween (r.keyed.take i) x (r.keyed.drop i))

/-- Puts a new entry at the right end. -/
def push (r : Row α) (x : α) : Row α := r.insertAt r.size x

/-- Puts new entries into the place of an entry of the given key, between two parts of a row. -/
def spliceBetween (left : List (Int × α)) (key : Int) (entries : List α)
    (right : List (Int × α)) : List (Int × α) :=
  let count : Int := entries.length
  match left.getLast?, right.head? with
  | _, none => left ++ spaced key keyGap entries
  | none, some _ => spaced (key - (count - 1) * keyGap) keyGap entries ++ right
  | some l, some r =>
      let step := (r.1 - l.1) / (count + 1)
      if 1 ≤ step then left ++ spaced (l.1 + step) step entries ++ right
      else spaced 0 keyGap (left.map Prod.snd ++ entries ++ right.map Prod.snd)

/-- Puts the entries of another row, from left to right, into the place of the entry at a
position. -/
def splice (r : Row α) (i : Nat) (inner : Row α) : Row α :=
  match r.keyed[i]? with
  | none => r
  | some c =>
      r.withKeyed (spliceBetween (r.keyed.take i) c.1 inner.toList (r.keyed.drop (i + 1)))

/-- The keys of the first and the last entry that satisfy a test. -/
def span? (r : Row α) (test : α → Bool) : Option (Int × Int) :=
  let hits := r.keyed.filter fun c => test c.2
  match hits.head?, hits.getLast? with
  | some first, some last => some (first.1, last.1)
  | _, _ => none

/-- The positions of the entries whose keys lie between two keys, ascending. -/
def positions (r : Row α) (low high : Int) : List Nat :=
  (List.range r.size).filter fun i =>
    (r.keys[i]?.map fun k => low ≤ k && k ≤ high).getD false

/-! ## The view -/

@[simp]
theorem reflect_reflect (cells : List (Int × α)) : reflect (reflect cells) = cells := by
  simp [reflect, Function.comp_def]

@[simp]
theorem length_reflect (cells : List (Int × α)) : (reflect cells).length = cells.length := by
  simp [reflect]

@[simp]
theorem map_snd_reflect (cells : List (Int × α)) :
    (reflect cells).map Prod.snd = (cells.map Prod.snd).reverse := by
  simp [reflect, Function.comp_def]

@[simp]
theorem map_snd_spaced (first step : Int) (entries : List α) :
    (spaced first step entries).map Prod.snd = entries := by
  apply List.ext_getElem
  · simp [spaced]
  · intro i h₁ h₂
    simp [spaced]

@[simp]
theorem keyed_withKeyed (r : Row α) (cells : List (Int × β)) :
    (r.withKeyed cells).keyed = cells := by
  cases h : r.flipped <;> simp [withKeyed, keyed, h]

@[simp]
theorem length_keyed (r : Row α) : r.keyed.length = r.size := by
  cases h : r.flipped <;> simp [keyed, size, h]

@[simp]
theorem length_toList (r : Row α) : r.toList.length = r.size := by
  simp [toList]

@[simp]
theorem toList_withKeyed (r : Row α) (cells : List (Int × β)) :
    (r.withKeyed cells).toList = cells.map Prod.snd := by
  simp [toList]

@[simp]
theorem toList_ofList (entries : List α) : (ofList entries).toList = entries := by
  simp [toList, keyed, ofList]

@[simp]
theorem toList_reverse (r : Row α) : r.reverse.toList = r.toList.reverse := by
  cases h : r.flipped <;> simp [toList, keyed, reverse, h]

@[simp]
theorem toList_map (f : α → β) (r : Row α) : (r.map f).toList = r.toList.map f := by
  simp [map, toList, Function.comp_def]

@[simp]
theorem toList_set (r : Row α) (i : Nat) (x : α) : (r.set i x).toList = r.toList.set i x := by
  apply List.ext_getElem
  · simp [set, toList]
  · intro j h₁ h₂
    simp only [set, toList_withKeyed, List.getElem_map, List.getElem_modify, List.getElem_set]
    split
    next => rfl
    next => simp [toList]

theorem map_snd_insertBetween (left : List (Int × α)) (x : α) (right : List (Int × α)) :
    (insertBetween left x right).map Prod.snd =
      left.map Prod.snd ++ x :: right.map Prod.snd := by
  unfold insertBetween
  split
  next hl hr => simp_all
  next hl hr => simp_all
  next hl hr => simp_all
  next hl hr => split <;> simp

@[simp]
theorem toList_insertAt (r : Row α) (i : Nat) (x : α) :
    (r.insertAt i x).toList = r.toList.take i ++ x :: r.toList.drop i := by
  simp [insertAt, map_snd_insertBetween, toList]

@[simp]
theorem toList_push (r : Row α) (x : α) : (r.push x).toList = r.toList ++ [x] := by
  rw [push, toList_insertAt, ← length_toList, List.take_length, List.drop_length]

theorem map_snd_spliceBetween (left : List (Int × α)) (key : Int) (entries : List α)
    (right : List (Int × α)) :
    (spliceBetween left key entries right).map Prod.snd =
      left.map Prod.snd ++ entries ++ right.map Prod.snd := by
  unfold spliceBetween
  split
  next hr => simp_all
  next hl hr => simp_all
  next hl hr =>
    dsimp only
    split <;> simp

/-- A splice at a position of the row replaces the entry there by the entries of the other row. -/
theorem toList_splice (r : Row α) (i : Nat) (inner : Row α) (h : i < r.size) :
    (r.splice i inner).toList = r.toList.take i ++ inner.toList ++ r.toList.drop (i + 1) := by
  unfold splice
  split
  next hc =>
    rw [List.getElem?_eq_none_iff, length_keyed] at hc
    omega
  next c hc => simp [map_snd_spliceBetween, toList]

theorem mem_toList {r : Row α} {x : α} : x ∈ r.toList ↔ ∃ k, (k, x) ∈ r.cells := by
  cases h : r.flipped <;> simp [toList, keyed, reflect, h]

end Row

end CliquePath
