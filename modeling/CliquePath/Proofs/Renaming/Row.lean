import CliquePath.Row
import CliquePath.Sole
import Mathlib.Tactic

set_option autoImplicit false

/-!
# Rows entry by entry

This module shows that the operations on rows do not look at the entries: changing every entry of a
row and then editing the row gives what editing first and changing the entries afterwards gives,
keys and direction included. The search for a sole entry looks at the entries through its test
only.
-/

namespace CliquePath

variable {α β : Type} (f : α → β)

/-- The entries changed, their positions kept. -/
def Sole.map : Sole α → Sole β
  | .absent => .absent
  | .one before entry after => .one (before.map f) (f entry) (after.map f)
  | .several => .several

theorem Sole.find_map (test : β → Bool) (entries : List α) :
    Sole.find test (entries.map f) = (Sole.find (test ∘ f) entries).map f := by
  have hdrop : (entries.map f).dropWhile (fun x => !test x) =
      (entries.dropWhile fun x => !(test ∘ f) x).map f := List.dropWhile_map
  have htake : (entries.map f).takeWhile (fun x => !test x) =
      (entries.takeWhile fun x => !(test ∘ f) x).map f := List.takeWhile_map
  rw [find, hdrop, htake, find]
  cases entries.dropWhile fun x => !(test ∘ f) x with
  | nil => rfl
  | cons x after =>
      simp only [List.map_cons, List.any_map]
      split <;> rfl

namespace Row

/-- An entry changed, its key kept. -/
abbrev entry (c : Int × α) : Int × β := (c.1, f c.2)

theorem reflect_map (cells : List (Int × α)) :
    reflect (cells.map (entry f)) = (reflect cells).map (entry f) := by
  simp [reflect]

theorem map_eq (r : Row α) : r.map f = ⟨r.cells.map (entry f), r.flipped⟩ := by
  unfold map withKeyed keyed
  by_cases hflip : r.flipped = true
  · simp [hflip, reflect]
  · simp [hflip]

@[simp]
theorem keyed_map (r : Row α) : (r.map f).keyed = r.keyed.map (entry f) := by
  simp [map]

theorem keyed_map_append {r : Row α} {xs ys : List (Int × α)} (h : r.keyed = xs ++ ys) :
    (r.map f).keyed = xs.map (entry f) ++ ys.map (entry f) := by
  rw [keyed_map, h, List.map_append]

/-- Where the entries of a changed row come apart, those of the row do. -/
theorem exists_of_keyed_map {r : Row α} {xs ys : List (Int × β)} (h : (r.map f).keyed = xs ++ ys) :
    ∃ xs' ys', r.keyed = xs' ++ ys' ∧ xs'.map (entry f) = xs ∧ ys'.map (entry f) = ys := by
  rw [keyed_map] at h
  exact List.map_eq_append_iff.1 h

@[simp]
theorem flipped_map (r : Row α) : (r.map f).flipped = r.flipped := by
  simp [map_eq]

theorem withKeyed_map {γ δ : Type} (r : Row γ) (r' : Row δ) (hr : r'.flipped = r.flipped)
    (cells : List (Int × α)) :
    r'.withKeyed (cells.map (entry f)) = (r.withKeyed cells).map f := by
  rw [map_eq, withKeyed, withKeyed, hr]
  split
  · rw [reflect_map]
  · rfl

theorem spaced_map (first step : Int) (entries : List α) :
    spaced first step (entries.map f) = (spaced first step entries).map (entry f) := by
  simp [spaced, List.mapIdx_eq_zipIdx_map, List.zipIdx_map]

theorem ofList_map (entries : List α) : ofList (entries.map f) = (ofList entries).map f := by
  simp [ofList, map_eq, spaced_map]

theorem reverse_map (r : Row α) : (r.map f).reverse = r.reverse.map f := by
  simp [map_eq, reverse]

theorem set_map (r : Row α) (i : Nat) (x : α) : (r.map f).set i (f x) = (r.set i x).map f := by
  have hcells : (r.keyed.map (entry f)).modify i (fun c => (c.1, f x)) =
      (r.keyed.modify i fun c => (c.1, x)).map (entry f) := by
    apply List.ext_getElem?
    intro j
    by_cases hij : i = j <;> simp [hij, Function.comp_def]
  rw [set, set, keyed_map, hcells, withKeyed_map f r _ (flipped_map f r)]

theorem insertBetween_map (left : List (Int × α)) (x : α) (right : List (Int × α)) :
    insertBetween (left.map (entry f)) (f x) (right.map (entry f)) =
      (insertBetween left x right).map (entry f) := by
  simp only [insertBetween, List.getLast?_map, List.head?_map]
  cases left.getLast? with
  | none =>
      cases right.head? with
      | none => rfl
      | some r => rfl
  | some l =>
      cases right.head? with
      | none => simp
      | some r =>
          simp only [Option.map_some]
          split
          · simp
          · rw [← spaced_map]
            simp [Function.comp_def]

theorem insertAt_map (r : Row α) (i : Nat) (x : α) :
    (r.map f).insertAt i (f x) = (r.insertAt i x).map f := by
  rw [insertAt, insertAt, keyed_map, ← List.map_take, ← List.map_drop, insertBetween_map,
    withKeyed_map f r _ (flipped_map f r)]

theorem push_map (r : Row α) (x : α) : (r.map f).push (f x) = (r.push x).map f := by
  have hsize : (r.map f).size = r.size := by simp [map_eq, size]
  rw [push, hsize, insertAt_map, push]

theorem spliceBetween_map (left : List (Int × α)) (key : Int) (entries : List α)
    (right : List (Int × α)) :
    spliceBetween (left.map (entry f)) key (entries.map f) (right.map (entry f)) =
      (spliceBetween left key entries right).map (entry f) := by
  simp only [spliceBetween, List.getLast?_map, List.head?_map, List.length_map]
  cases right.head? with
  | none =>
      cases left.getLast? <;> simp [spaced_map]
  | some r =>
      cases left.getLast? with
      | none => simp [spaced_map]
      | some l =>
          simp only [Option.map_some]
          split
          · simp [spaced_map]
          · rw [← spaced_map]
            simp [Function.comp_def]

theorem splice_map (r : Row α) (i : Nat) (inner : Row α) :
    (r.map f).splice i (inner.map f) = (r.splice i inner).map f := by
  have hget : (r.map f).keyed[i]? = r.keyed[i]?.map (entry f) := by simp
  rw [splice, hget, splice]
  cases r.keyed[i]? with
  | none => rfl
  | some c =>
      simp only [Option.map_some, keyed_map, toList_map, ← List.map_take, ← List.map_drop]
      rw [spliceBetween_map, withKeyed_map f r _ (flipped_map f r)]

theorem span?_map (r : Row α) (test : β → Bool) : (r.map f).span? test = r.span? (test ∘ f) := by
  have hhits : (r.map f).keyed.filter (fun c => test c.2) =
      (r.keyed.filter fun c => (test ∘ f) c.2).map (entry f) := by
    rw [keyed_map, List.filter_map]
    rfl
  simp only [span?, hhits, List.head?_map, List.getLast?_map]
  cases (r.keyed.filter fun c => (test ∘ f) c.2).head? <;>
    cases (r.keyed.filter fun c => (test ∘ f) c.2).getLast? <;> rfl

theorem positions_map (r : Row α) (low high : Int) :
    (r.map f).positions low high = r.positions low high := by
  have hkeys : (r.map f).keys = r.keys := by simp [keys]
  have hsize : (r.map f).size = r.size := by simp [map_eq, size]
  rw [positions, positions, hkeys, hsize]

end Row

end CliquePath
