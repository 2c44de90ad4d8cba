import CliquePath.Proofs.Row.Keys
import CliquePath.Proofs.Row.Reversal

set_option autoImplicit false

/-!
# Patterns of lists

This module reads a pattern off a list of places, each the list of vertices that it holds, and says
how the operations on lists show in the patterns: putting a place in, turning the list around,
carrying the vertices of a place above, and splicing a list into another one.
-/

namespace CliquePath

namespace Pattern

/-- The pattern of a list of places: position `i` holds what stands in list `i`. -/
def ofLists (lists : List (List Vertex)) : Pattern := fun i v => ∃ held, lists[i]? = some held ∧ v ∈ held

variable {lists left right : List (List Vertex)} {held : List Vertex} {i : Nat} {v : Vertex}

theorem lt_length_of_ofLists (h : ofLists lists i v) : i < lists.length := by
  obtain ⟨held, hh, -⟩ := h
  exact (List.getElem?_eq_some_iff.1 hh).1

theorem ofLists_append_left (h : i < left.length) :
    ofLists (left ++ right) i v ↔ ofLists left i v := by
  simp [ofLists, List.getElem?_append_left h]

theorem ofLists_append_right (h : left.length ≤ i) :
    ofLists (left ++ right) i v ↔ ofLists right (i - left.length) v := by
  simp [ofLists, List.getElem?_append_right h]

@[simp]
theorem ofLists_cons_zero : ofLists (held :: right) 0 v ↔ v ∈ held := by
  simp [ofLists]

@[simp]
theorem ofLists_cons_succ : ofLists (held :: right) (i + 1) v ↔ ofLists right i v := by
  simp [ofLists]

@[simp]
theorem not_ofLists_nil : ¬ ofLists [] i v := by
  simp [ofLists]

theorem ext {H K : Pattern} (h : ∀ i v, H i v ↔ K i v) : H = K := by
  funext i v
  exact propext (h i v)

theorem ofLists_insert (left right : List (List Vertex)) (held : List Vertex) :
    ofLists (left ++ held :: right) =
      (ofLists (left ++ right)).inserted left.length fun v => v ∈ held := by
  apply ext
  intro i v
  unfold inserted
  split
  next h => rw [ofLists_append_left h, ofLists_append_left h]
  next h =>
    rw [ofLists_append_right (by omega)]
    split
    next he =>
      subst he
      simp
    next he =>
      obtain ⟨j, hj⟩ : ∃ j, i - left.length = j + 1 := ⟨i - left.length - 1, by omega⟩
      rw [hj, ofLists_cons_succ, ofLists_append_right (by omega),
        show i - 1 - left.length = j by omega]

theorem ofLists_nil_cons (lists : List (List Vertex)) :
    ofLists ([] :: lists) = (ofLists lists).widened := by
  have h := ofLists_insert [] lists []
  simpa [widened] using h

theorem ofLists_reverse (lists : List (List Vertex)) :
    ofLists lists.reverse = (ofLists lists).reversed lists.length := by
  apply ext
  intro i v
  unfold reversed ofLists
  constructor
  · rintro ⟨held, hh, hv⟩
    have hi := (List.getElem?_eq_some_iff.1 hh).1
    rw [List.length_reverse] at hi
    rw [List.getElem?_reverse hi] at hh
    exact ⟨hi, held, hh, hv⟩
  · rintro ⟨hi, held, hh, hv⟩
    exact ⟨held, by rwa [List.getElem?_reverse hi], hv⟩

/-- The lists of a row that awaits its last position `link`, and the vertices `held` above it. -/
theorem ofLists_carry (lists : List (List Vertex)) (link held nbrs : List Vertex) :
    ofLists (lists.map (· ++ held) ++ [link ++ held.filter fun v => nbrs.contains v]) =
      (ofLists (lists ++ [link])).carried lists.length (fun v => v ∈ held) (fun v => v ∈ nbrs) := by
  apply ext
  intro i v
  unfold carried
  rcases Nat.lt_trichotomy i lists.length with h | rfl | h
  · rw [ofLists_append_left (by simpa using h), ofLists_append_left h]
    simp only [ofLists, List.getElem?_map, List.getElem?_eq_getElem h, Option.map_some]
    simp only [Option.some.injEq, exists_eq_left', List.mem_append, h, true_or, and_true]
  · rw [ofLists_append_right (by simp), ofLists_append_right (Nat.le_refl _)]
    simp
  · rw [ofLists_append_right (by simp; omega), ofLists_append_right (by omega)]
    have h1 : i - (lists.map (· ++ held)).length ≠ 0 := by simp; omega
    have h2 : i - lists.length ≠ 0 := by omega
    obtain ⟨j, hj⟩ := Nat.exists_eq_succ_of_ne_zero h1
    obtain ⟨j', hj'⟩ := Nat.exists_eq_succ_of_ne_zero h2
    rw [hj, hj']
    simp
    omega

theorem ofLists_splice (left right inner : List (List Vertex)) (held link nbrs : List Vertex) :
    ofLists (left ++ (inner.map (· ++ held) ++
        (link ++ held.filter fun v => nbrs.contains v) :: right)) =
      (ofLists (left ++ held :: right)).spliced left.length (ofLists (inner ++ [link]))
        inner.length (fun v => v ∈ nbrs) := by
  apply ext
  intro i v
  unfold spliced
  split
  next h => rw [ofLists_append_left h, ofLists_append_left h]
  next h =>
    -- the list that is replaced holds what goes into every inner one
    have hheld : (ofLists (left ++ held :: right)) left.length = fun v => v ∈ held := by
      funext w
      apply propext
      rw [ofLists_append_right (Nat.le_refl _)]
      simp
    rw [hheld, ← ofLists_carry, ofLists_append_right (by omega), List.append_cons]
    split
    next hle => rw [ofLists_append_left (by simp; omega)]
    next hgt =>
      rw [ofLists_append_right (by simp; omega), ofLists_append_right (by omega)]
      obtain ⟨j, hj⟩ : ∃ j, i - inner.length - left.length = j + 1 :=
        ⟨i - inner.length - left.length - 1, by omega⟩
      have hj' : i - left.length - (inner.map (· ++ held) ++
          [link ++ held.filter fun v => nbrs.contains v]).length = j := by
        simp
        omega
      rw [hj, hj', ofLists_cons_succ]

end Pattern
end CliquePath
