import CliquePath.Row
import CliquePath.CliqueTree.Neighbors
import Mathlib.Tactic

set_option autoImplicit false

/-!
# Keys of a row

This module shows that the keys of a row increase from left to right, whatever row operation was
done last: entries are put in or replaced, the row is turned around, another row is spliced in. When
the keys between two neighbours run out the row is spread anew, which is the case to look after.
-/

namespace CliquePath

namespace Row

variable {α β : Type}

@[simp]
theorem size_map (f : α → β) (r : Row α) : (r.map f).size = r.size := by
  rw [← length_toList, toList_map, List.length_map, length_toList]

@[simp]
theorem size_reverse (r : Row α) : r.reverse.size = r.size := by
  rw [← length_toList, toList_reverse, List.length_reverse, length_toList]

@[simp]
theorem size_set (r : Row α) (i : Nat) (x : α) : (r.set i x).size = r.size := by
  rw [← length_toList, toList_set, List.length_set, length_toList]

/-- The keys increase from left to right. -/
def Ascending (r : Row α) : Prop := r.keyed.Pairwise fun a b => a.1 < b.1

theorem ascending_withKeyed (r : Row α) (cells : List (Int × β)) :
    (r.withKeyed cells).Ascending ↔ cells.Pairwise fun a b => a.1 < b.1 := by
  rw [Ascending, keyed_withKeyed]

theorem pairwise_spaced (first step : Int) (entries : List α) (h : 0 < step) :
    (spaced first step entries).Pairwise fun a b => a.1 < b.1 := by
  rw [List.pairwise_iff_getElem]
  intro i j hi hj hij
  simp only [spaced, List.getElem_mapIdx]
  have : (i : Int) * step < j * step := by
    apply Int.mul_lt_mul_of_pos_right _ h
    omega
  omega

/-- The keys of evenly spaced entries lie between the first and the last one. -/
theorem spaced_bounds {first step : Int} {entries : List α} {c : Int × α} (h : 0 < step)
    (hc : c ∈ spaced first step entries) :
    first ≤ c.1 ∧ c.1 ≤ first + (entries.length - 1) * step := by
  obtain ⟨i, hi, rfl⟩ := List.getElem_of_mem hc
  simp only [spaced, List.length_mapIdx] at hi
  simp only [spaced, List.getElem_mapIdx]
  constructor
  · have : 0 ≤ (i : Int) * step := Int.mul_nonneg (by omega) (by omega)
    omega
  · have : (i : Int) * step ≤ (entries.length - 1) * step := by
      apply Int.mul_le_mul_of_nonneg_right _ (by omega)
      omega
    omega

theorem ascending_ofList (entries : List α) : (ofList entries).Ascending := by
  have h : (ofList entries).keyed = spaced 0 keyGap entries := by simp [keyed, ofList]
  rw [Ascending, h]
  exact pairwise_spaced 0 keyGap entries (by decide)

theorem pairwise_reflect {cells : List (Int × α)} (h : cells.Pairwise fun a b => a.1 < b.1) :
    (reflect cells).Pairwise fun a b => a.1 < b.1 := by
  rw [reflect, List.pairwise_reverse, List.pairwise_map]
  exact h.imp fun hab => by simpa using hab

theorem keyed_reverse (r : Row α) : r.reverse.keyed = reflect r.keyed := by
  cases h : r.flipped <;> simp [keyed, reverse, h]

theorem Ascending.reverse {r : Row α} (h : r.Ascending) : r.reverse.Ascending := by
  rw [Ascending, keyed_reverse]
  exact pairwise_reflect h

theorem Ascending.map {r : Row α} (f : α → β) (h : r.Ascending) : (r.map f).Ascending := by
  rw [Row.map, ascending_withKeyed, List.pairwise_map]
  exact h

theorem Ascending.set {r : Row α} (h : r.Ascending) (i : Nat) (x : α) : (r.set i x).Ascending := by
  rw [Row.set, ascending_withKeyed, List.pairwise_iff_getElem]
  have h' := List.pairwise_iff_getElem.1 h
  intro a b ha hb hab
  simp only [List.length_modify] at ha hb
  have := h' a b ha hb hab
  simp only [List.getElem_modify]
  split <;> split <;> exact this

theorem le_of_getLast? {cells : List (Int × α)} {l c : Int × α}
    (h : cells.Pairwise fun a b => a.1 < b.1) (hl : cells.getLast? = some l) (hc : c ∈ cells) :
    c.1 ≤ l.1 := by
  obtain ⟨ini, rfl⟩ := List.getLast?_eq_some_iff.1 hl
  rw [List.pairwise_append] at h
  rcases List.mem_append.1 hc with hc | hc
  · exact Int.le_of_lt (h.2.2 c hc l (List.mem_singleton_self l))
  · rw [List.mem_singleton.1 hc]

theorem le_of_head? {cells : List (Int × α)} {f c : Int × α}
    (h : cells.Pairwise fun a b => a.1 < b.1) (hf : cells.head? = some f) (hc : c ∈ cells) :
    f.1 ≤ c.1 := by
  obtain ⟨rest, rfl⟩ := List.head?_eq_some_iff.1 hf
  rcases List.mem_cons.1 hc with rfl | hc
  · exact Int.le_refl _
  · exact Int.le_of_lt ((List.pairwise_cons.1 h).1 c hc)

/-- A new entry between two parts of an ascending row leaves it ascending. -/
theorem pairwise_insertBetween {left right : List (Int × α)} (x : α)
    (h : (left ++ right).Pairwise fun a b => a.1 < b.1) :
    (insertBetween left x right).Pairwise fun a b => a.1 < b.1 := by
  have hgap : (0 : Int) < keyGap := by decide
  unfold insertBetween
  obtain ⟨hl, hr, hlr⟩ := List.pairwise_append.1 h
  split
  next => simp
  next l hlast hhead =>
    refine List.pairwise_append.2 ⟨hl, by simp, fun a ha b hb => ?_⟩
    have hla := le_of_getLast? hl hlast ha
    rw [List.mem_singleton.1 hb]
    show a.1 < l.1 + keyGap
    omega
  next r hlast hhead =>
    refine List.pairwise_cons.2 ⟨fun b hb => ?_, hr⟩
    have hrb := le_of_head? hr hhead hb
    show r.1 - keyGap < b.1
    omega
  next l r hlast hhead =>
    split
    next hroom =>
      refine List.pairwise_append.2 ⟨hl, List.pairwise_cons.2 ⟨fun b hb => ?_, hr⟩, ?_⟩
      · have hrb := le_of_head? hr hhead hb
        show l.1 + (r.1 - l.1) / 2 < b.1
        omega
      · intro a ha b hb
        have hla := le_of_getLast? hl hlast ha
        rcases List.mem_cons.1 hb with rfl | hb
        · show a.1 < l.1 + (r.1 - l.1) / 2
          omega
        · exact hlr a ha b hb
    -- without room between the keys the row is numbered anew
    next => exact pairwise_spaced 0 keyGap _ hgap

theorem Ascending.insertAt {r : Row α} (h : r.Ascending) (i : Nat) (x : α) :
    (r.insertAt i x).Ascending := by
  rw [Row.insertAt, ascending_withKeyed]
  apply pairwise_insertBetween
  rw [List.take_append_drop]
  exact h

theorem Ascending.push {r : Row α} (h : r.Ascending) (x : α) : (r.push x).Ascending :=
  h.insertAt r.size x

/-- The entries put into the place of an entry between two parts of an ascending row leave it
ascending. -/
theorem pairwise_spliceBetween {left right : List (Int × α)} {c : Int × α} (entries : List α)
    (h : (left ++ c :: right).Pairwise fun a b => a.1 < b.1) :
    (spliceBetween left c.1 entries right).Pairwise fun a b => a.1 < b.1 := by
  have hgap : (0 : Int) < keyGap := by decide
  obtain ⟨hl, hcr, hlc⟩ := List.pairwise_append.1 h
  obtain ⟨hc, hr⟩ := List.pairwise_cons.1 hcr
  unfold spliceBetween
  dsimp only
  split
  next hhead =>
    refine List.pairwise_append.2 ⟨hl, pairwise_spaced _ _ _ hgap, fun a ha b hb => ?_⟩
    have hb' := (spaced_bounds hgap hb).1
    have hac := hlc a ha c List.mem_cons_self
    omega
  next r hlast hhead =>
    refine List.pairwise_append.2 ⟨pairwise_spaced _ _ _ hgap, hr, fun a ha b hb => ?_⟩
    have ha' := (spaced_bounds hgap ha).2
    have hcb := hc b hb
    have : c.1 - ((entries.length : Int) - 1) * keyGap + ((entries.length : Int) - 1) * keyGap =
        c.1 := by
      omega
    omega
  next l r hlast hhead =>
    split
    next hstep =>
      have hstep' : (0 : Int) < (r.1 - l.1) / (entries.length + 1) := by omega
      have hroom : (r.1 - l.1) / ((entries.length : Int) + 1) * (entries.length + 1) ≤
          r.1 - l.1 := Int.ediv_mul_le _ (by omega)
      -- the steps between the two keys, and what is left of the room behind the last one
      generalize (r.1 - l.1) / ((entries.length : Int) + 1) = step at *
      have hmul : step * ((entries.length : Int) + 1) = entries.length * step + step := by
        rw [Int.mul_add, Int.mul_comm, Int.mul_one]
      have hmul' : ((entries.length : Int) - 1) * step = entries.length * step - step := by
        rw [Int.sub_mul, Int.one_mul]
      refine List.pairwise_append.2 ⟨List.pairwise_append.2 ⟨hl, pairwise_spaced _ _ _ hstep', ?_⟩,
        hr, ?_⟩
      · intro a ha b hb
        have hal := le_of_getLast? hl hlast ha
        have hb' := (spaced_bounds hstep' hb).1
        omega
      · intro a ha b hb
        have hrb := le_of_head? hr hhead hb
        rcases List.mem_append.1 ha with ha | ha
        · exact hlc a ha b (List.mem_cons_of_mem c hb)
        · have ha' := (spaced_bounds hstep' ha).2
          omega
    next => exact pairwise_spaced 0 keyGap _ hgap

theorem Ascending.splice {r : Row α} (h : r.Ascending) (i : Nat) (inner : Row α) :
    (r.splice i inner).Ascending := by
  unfold Row.splice
  split
  next => exact h
  next c hc =>
    rw [ascending_withKeyed]
    apply pairwise_spliceBetween
    have hsplit : r.keyed.take i ++ c :: r.keyed.drop (i + 1) = r.keyed := by
      obtain ⟨hi, rfl⟩ := List.getElem?_eq_some_iff.1 hc
      rw [← List.drop_eq_getElem_cons, List.take_append_drop]
    rw [hsplit]
    exact h

end Row
end CliquePath
