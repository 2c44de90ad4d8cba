import CliquePath.Proofs.Row.Keys

set_option autoImplicit false

/-!
# Bounds of the keys of a row

This module shows that the keys of a row stay small. A row may use a budget of entries, at least as
many as it has, and no key is further from 0 than the budget times the distance of neighbours. A new
entry needs one more in the budget, and a row that is spliced in brings its own.

A row that is spread anew starts at 0, so then its number of entries bounds its keys. Otherwise a new
key lies between two old ones, or it is one distance beyond an end.
-/

namespace CliquePath

namespace Row

variable {α : Type} {r s : Row α} {n m : Nat}

/-- The keys of some entries lie between a bound and its negative. -/
def KeysWithin (bound : Int) (cells : List (Int × α)) : Prop :=
  ∀ c ∈ cells, -bound ≤ c.1 ∧ c.1 ≤ bound

/-- The row has at most as many entries as the budget, and its keys are no larger than the budget
allows. -/
structure Within (n : Nat) (r : Row α) : Prop where
  size : r.size ≤ n
  keys : KeysWithin (keyGap * n) r.keyed

namespace KeysWithin

variable {b c : Int} {left right : List (Int × α)}

theorem mono (h : KeysWithin b left) (hbc : b ≤ c) : KeysWithin c left := by
  intro e he
  obtain ⟨hlow, hhigh⟩ := h e he
  omega

theorem append (hl : KeysWithin b left) (hr : KeysWithin b right) : KeysWithin b (left ++ right) :=
  fun e he => (List.mem_append.1 he).elim (hl e) (hr e)

/-- Evenly spaced keys lie within a bound if the first and the last one do. -/
theorem spaced {first step : Int} {entries : List α} (hstep : 0 < step) (hlow : -b ≤ first)
    (hhigh : first + (entries.length - 1) * step ≤ b) : KeysWithin b (spaced first step entries) := by
  intro e he
  obtain ⟨hfirst, hlast⟩ := spaced_bounds hstep he
  omega

/-- The keys of a row that was spread anew. -/
theorem spread {entries : List α} (h : entries.length ≤ n) :
    KeysWithin (keyGap * n) (Row.spaced 0 keyGap entries) := by
  have hlen : (entries.length : Int) ≤ n := by exact_mod_cast h
  refine spaced (by decide) ?_ ?_
  · rw [keyGap]
    omega
  · rw [keyGap]
    omega

end KeysWithin

theorem within_ofList {entries : List α} (h : entries.length ≤ n) : (ofList entries).Within n := by
  refine ⟨?_, ?_⟩
  · rwa [← length_toList, toList_ofList]
  · have hkeyed : (ofList entries).keyed = Row.spaced 0 keyGap entries := by simp [keyed, ofList]
    rw [hkeyed]
    exact KeysWithin.spread h

theorem Within.reverse (h : r.Within n) : r.reverse.Within n := by
  refine ⟨by rw [size_reverse]; exact h.size, ?_⟩
  rw [keyed_reverse]
  intro e he
  rw [reflect, List.mem_reverse] at he
  obtain ⟨c, hc, rfl⟩ := List.mem_map.1 he
  obtain ⟨hlow, hhigh⟩ := h.keys c hc
  constructor <;> dsimp only <;> omega

/-- A new entry takes one more of the budget. -/
theorem keysWithin_insertBetween {left right : List (Int × α)} (x : α)
    (hkeys : KeysWithin (keyGap * n) (left ++ right)) (hlen : (left ++ right).length ≤ n) :
    KeysWithin (keyGap * (n + 1 : Nat)) (insertBetween left x right) := by
  have hkeys' : KeysWithin (keyGap * (n + 1 : Nat)) (left ++ right) :=
    hkeys.mono (by rw [keyGap]; omega)
  have hl : KeysWithin (keyGap * (n + 1 : Nat)) left := fun e he => hkeys' e (by simp [he])
  have hr : KeysWithin (keyGap * (n + 1 : Nat)) right := fun e he => hkeys' e (by simp [he])
  have hone : ∀ k : Int, -(keyGap * (n + 1 : Nat)) ≤ k → k ≤ keyGap * (n + 1 : Nat) →
      KeysWithin (keyGap * (n + 1 : Nat)) [(k, x)] := by
    intro k hlow hhigh e he
    rw [List.mem_singleton.1 he]
    exact ⟨hlow, hhigh⟩
  unfold insertBetween
  split
  next => exact hone 0 (by rw [keyGap]; omega) (by rw [keyGap]; omega)
  next l hlast hhead =>
    -- Beyond the right end the key grows by one distance.
    obtain ⟨hlow, hhigh⟩ := hkeys l (List.mem_append_left _ (List.mem_of_getLast? hlast))
    rw [keyGap] at hlow hhigh
    exact hl.append (hone _ (by rw [keyGap]; omega) (by rw [keyGap]; omega))
  next f hlast hhead =>
    obtain ⟨hlow, hhigh⟩ := hkeys f (List.mem_append_right _ (List.mem_of_head? hhead))
    rw [keyGap] at hlow hhigh
    exact (hone _ (by rw [keyGap]; omega) (by rw [keyGap]; omega)).append hr
  next l f hlast hhead =>
    obtain ⟨hlowl, hhighl⟩ := hkeys' l (List.mem_append_left _ (List.mem_of_getLast? hlast))
    obtain ⟨hlowf, hhighf⟩ := hkeys' f (List.mem_append_right _ (List.mem_of_head? hhead))
    split
    next hroom => exact hl.append ((hone _ (by omega) (by omega)).append hr)
    next =>
      refine KeysWithin.spread ?_
      simp only [List.length_append, List.length_cons, List.length_map] at hlen ⊢
      omega

theorem Within.insertAt (h : r.Within n) (i : Nat) (x : α) : (r.insertAt i x).Within (n + 1) := by
  have hsize := h.size
  refine ⟨?_, ?_⟩
  · rw [← length_toList, toList_insertAt, List.length_append, List.length_cons,
      ← Nat.add_assoc, ← List.length_append, List.take_append_drop, length_toList]
    exact Nat.succ_le_succ hsize
  · rw [Row.insertAt, keyed_withKeyed]
    refine keysWithin_insertBetween x ?_ ?_
    · rw [List.take_append_drop]
      exact h.keys
    · rw [List.take_append_drop, length_keyed]
      exact hsize

/-- Entries that are spliced in bring a budget of their own. -/
theorem keysWithin_spliceBetween {left right : List (Int × α)} {c : Int × α} {entries : List α}
    (hkeys : KeysWithin (keyGap * n) (left ++ c :: right)) (hlen : (left ++ c :: right).length ≤ n)
    (hentries : entries.length ≤ m) :
    KeysWithin (keyGap * (n + m : Nat)) (spliceBetween left c.1 entries right) := by
  have hkeys' : KeysWithin (keyGap * (n + m : Nat)) (left ++ c :: right) :=
    hkeys.mono (by rw [keyGap]; omega)
  have hl : KeysWithin (keyGap * (n + m : Nat)) left := fun e he => hkeys' e (by simp [he])
  have hr : KeysWithin (keyGap * (n + m : Nat)) right := fun e he => hkeys' e (by simp [he])
  obtain ⟨hlow, hhigh⟩ := hkeys c (by simp)
  rw [keyGap] at hlow hhigh
  unfold spliceBetween
  dsimp only
  split
  next hhead =>
    -- The last new key is one distance beyond the old one for each further entry.
    refine hl.append (KeysWithin.spaced (by decide) ?_ ?_)
    · rw [keyGap]
      omega
    · rw [keyGap]
      omega
  next f hlast hhead =>
    refine (KeysWithin.spaced (by decide) ?_ ?_).append hr
    · rw [keyGap]
      omega
    · rw [keyGap]
      omega
  next l f hlast hhead =>
    split
    next hstep =>
      obtain ⟨hlowl, -⟩ := hkeys' l (List.mem_append_left _ (List.mem_of_getLast? hlast))
      obtain ⟨-, hhighf⟩ := hkeys' f
        (List.mem_append_right _ (List.mem_cons_of_mem _ (List.mem_of_head? hhead)))
      have hroom : (f.1 - l.1) / ((entries.length : Int) + 1) * (entries.length + 1) ≤ f.1 - l.1 :=
        Int.ediv_mul_le _ (by omega)
      generalize (f.1 - l.1) / ((entries.length : Int) + 1) = step at *
      have hmul : ((entries.length : Int) - 1) * step = step * (entries.length + 1) - 2 * step := by
        ring
      refine (hl.append (KeysWithin.spaced (by omega) (by omega) ?_)).append hr
      rw [hmul]
      omega
    next =>
      refine KeysWithin.spread ?_
      simp only [List.length_append, List.length_cons, List.length_map] at hlen ⊢
      omega

theorem Within.splice (hr : r.Within n) (hs : s.Within m) {i : Nat}
    (hi : i < r.size) : (r.splice i s).Within (n + m) := by
  have hrsize := hr.size
  have hssize := hs.size
  have hlt : i < r.keyed.length := by rwa [length_keyed]
  have hget : r.keyed[i]? = some r.keyed[i] := List.getElem?_eq_getElem hlt
  have hsplit : r.keyed.take i ++ r.keyed[i] :: r.keyed.drop (i + 1) = r.keyed := by
    rw [← List.drop_eq_getElem_cons, List.take_append_drop]
  refine ⟨?_, ?_⟩
  · rw [← length_toList, toList_splice _ _ _ hi]
    simp only [List.length_append, List.length_take, List.length_drop, length_toList]
    omega
  · simp only [Row.splice, hget, keyed_withKeyed]
    refine keysWithin_spliceBetween ?_ ?_ ?_
    · rw [hsplit]
      exact hr.keys
    · rwa [hsplit, length_keyed]
    · rwa [length_toList]

end Row

end CliquePath
