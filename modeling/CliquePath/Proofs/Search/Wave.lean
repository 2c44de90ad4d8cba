import CliquePath.Search.Reach
import Mathlib

set_option autoImplicit false

/-!
# What a wave reaches

This module shows that a search through a queue marks exactly the positions to which a path leads from
the queue, the open ones among them, and that it lists every position that it marks. The list of
neighbours may be looked up in any way, as long as the lookup succeeds and lists the positions beside
the one it is asked for.

One round takes a position from the queue and enters its neighbours. `leads_iff_spread` says what the
round changes: a position that was still to be reached has been entered in the round, or it is still to
be reached from the queue after it.
-/

namespace CliquePath

/-! ## Entries by position -/

theorem get_set {α : Type} {n : Nat} (xs : Vector α n) (p y : Fin n) (a : α) :
    (xs.set p.val a p.isLt).get y = if y = p then a else xs.get y := by
  have hset : (xs.set p.val a p.isLt)[y.val] = if p.val = y.val then a else xs[y.val] :=
    Vector.getElem_set p.isLt y.isLt
  simp only [Fin.ext_iff, eq_comm (a := y.val)]
  exact hset

theorem get_replicate {α : Type} {n : Nat} (a : α) (y : Fin n) :
    (Vector.replicate n a).get y = a :=
  Vector.getElem_replicate y.isLt

namespace Wave

open Relation

variable {α : Type} {n : Nat} [Inhabited α] [DecidableEq α]
variable {may : Fin n → Bool} {mark : α} {w : Wave α n} {y z : Fin n} {ys : List (Fin n)}

theorem isOpen_iff : w.isOpen may y = true ↔ may y = true ∧ w.marks.get y = default := by
  rw [isOpen, Bool.and_eq_true, beq_iff_eq]

/-! ## One round -/

theorem marks_enter (z : Fin n) : (w.enter may mark z).marks.get y =
    if w.isOpen may z = true ∧ y = z then mark else w.marks.get y := by
  unfold enter
  split
  next hopen =>
    simp only [hopen, true_and]
    exact get_set w.marks z y mark
  next hopen => simp [hopen]

/-- A position that was entered is open no longer, and the others stay as they were. -/
theorem isOpen_enter (hmark : mark ≠ default) (z : Fin n) :
    (w.enter may mark z).isOpen may y = true ↔ w.isOpen may y = true ∧ y ≠ z := by
  rw [isOpen_iff, marks_enter]
  by_cases hopen : w.isOpen may z = true ∧ y = z
  · rw [if_pos hopen]
    exact iff_of_false (fun h => hmark h.2) fun h => h.2 hopen.2
  · rw [if_neg hopen, isOpen_iff, and_assoc]
    refine and_congr_right fun hmay => ⟨fun hblank => ⟨hblank, ?_⟩, And.left⟩
    rintro rfl
    exact hopen ⟨isOpen_iff.2 ⟨hmay, hblank⟩, rfl⟩

/-- A list that takes up the position `z` if it is open. -/
theorem mem_takenUp {l l' : List (Fin n)} (hopen : w.isOpen may z = true → l' = l ++ [z])
    (hshut : ¬w.isOpen may z = true → l' = l) :
    y ∈ l' ↔ y ∈ l ∨ w.isOpen may y = true ∧ y = z := by
  by_cases h : w.isOpen may z = true
  · rw [hopen h, List.mem_append, List.mem_singleton]
    exact or_congr_right ⟨fun hyz => ⟨hyz ▸ h, hyz⟩, And.right⟩
  · rw [hshut h, or_iff_left]
    rintro ⟨hy, rfl⟩
    exact h hy

theorem mem_queue_enter (z : Fin n) : y ∈ (w.enter may mark z).queue ↔
    y ∈ w.queue ∨ w.isOpen may y = true ∧ y = z := by
  apply mem_takenUp
  · intro hopen
    rw [enter, if_pos hopen]
  · intro hshut
    rw [enter, if_neg hshut]

theorem mem_reached_enter (z : Fin n) : y ∈ (w.enter may mark z).reached ↔
    y ∈ w.reached ∨ w.isOpen may y = true ∧ y = z := by
  apply mem_takenUp
  · intro hopen
    rw [enter, if_pos hopen]
  · intro hshut
    rw [enter, if_neg hshut]

/-- What is taken up first, and what is open after that and taken up later. -/
theorem takenUp_cons {P Q : Prop} : (P ∨ Q ∧ y = z) ∨ (Q ∧ y ≠ z) ∧ y ∈ ys ↔ P ∨ Q ∧ y ∈ z :: ys := by
  rw [List.mem_cons]
  by_cases hyz : y = z
  · simp [hyz]
  · simp [hyz]

/-- What entering several positions leaves: those that were open are marked, queued and listed. -/
structure Entered (may : Fin n → Bool) (mark : α) (ys : List (Fin n)) (w w' : Wave α n) : Prop where
  marks : ∀ y, w'.marks.get y = if w.isOpen may y = true ∧ y ∈ ys then mark else w.marks.get y
  isOpen : ∀ y, w'.isOpen may y = true ↔ w.isOpen may y = true ∧ y ∉ ys
  queue : ∀ y, y ∈ w'.queue ↔ y ∈ w.queue ∨ w.isOpen may y = true ∧ y ∈ ys
  reached : ∀ y, y ∈ w'.reached ↔ y ∈ w.reached ∨ w.isOpen may y = true ∧ y ∈ ys

theorem entered_foldl (hmark : mark ≠ default) (ys : List (Fin n)) (w : Wave α n) :
    Entered may mark ys w (ys.foldl (enter may mark) w) := by
  induction ys generalizing w with
  | nil => exact ⟨by simp, by simp, by simp, by simp⟩
  | cons z ys ih =>
      obtain ⟨hmarks, hopen, hqueue, hreached⟩ := ih (w.enter may mark z)
      simp only [List.foldl_cons]
      refine ⟨fun y => ?_, fun y => ?_, fun y => ?_, fun y => ?_⟩
      · simp only [hmarks, marks_enter, isOpen_enter hmark, List.mem_cons]
        by_cases hyz : y = z
        · simp [hyz]
        · simp [hyz]
      · rw [hopen, isOpen_enter hmark, List.mem_cons, not_or, and_assoc]
      · rw [hqueue, mem_queue_enter, isOpen_enter hmark]
        exact takenUp_cons
      · rw [hreached, mem_reached_enter, isOpen_enter hmark]
        exact takenUp_cons

/-! ## The way to the end of the queue -/

/-- A path leads from a queued position to the given one, and all positions behind its first are
open. -/
def Leads (beside : Fin n → Fin n → Prop) (may : Fin n → Bool) (w : Wave α n) (y : Fin n) : Prop :=
  ∃ x ∈ w.queue, TransGen (fun a b => beside a b ∧ w.isOpen may b = true) x y

variable {beside : Fin n → Fin n → Prop} {near : Fin n → Except Breach (List (Fin n))}

/-- What is still to be reached before a round is entered in it or still to be reached after it. -/
theorem leads_iff_spread {x : Fin n} {rest : List (Fin n)} (hqueue : w.queue = x :: rest)
    (hys : ∀ y, y ∈ ys ↔ beside x y) {w' : Wave α n}
    (hround : Entered may mark ys { w with queue := rest } w') :
    Leads beside may w y ↔ w.isOpen may y = true ∧ y ∈ ys ∨ Leads beside may w' y := by
  constructor
  · rintro ⟨start, hstart, hpath⟩
    -- The induction is on the path. Whatever stands beside `x` was entered, and from there on the path
    -- begins in the new queue.
    induction hpath with
    | @single b hb =>
        by_cases hmem : b ∈ ys
        · exact .inl ⟨hb.2, hmem⟩
        · have hne : start ≠ x := fun heq => hmem ((hys b).2 (heq ▸ hb.1))
          have hrest : start ∈ rest :=
            (List.mem_cons.1 (hqueue ▸ hstart)).resolve_left hne
          exact .inr ⟨start, (hround.queue start).2 (.inl hrest),
            .single ⟨hb.1, (hround.isOpen b).2 ⟨hb.2, hmem⟩⟩⟩
    | @tail b c _ hbc ih =>
        by_cases hmem : c ∈ ys
        · exact .inl ⟨hbc.2, hmem⟩
        · have hstep : beside b c ∧ w'.isOpen may c = true :=
            ⟨hbc.1, (hround.isOpen c).2 ⟨hbc.2, hmem⟩⟩
          rcases ih with hb | ⟨first, hfirst, hpath⟩
          · exact .inr ⟨b, (hround.queue b).2 (.inr hb), .single hstep⟩
          · exact .inr ⟨first, hfirst, hpath.tail hstep⟩
  · rintro (⟨hopen, hmem⟩ | ⟨start, hstart, hpath⟩)
    · exact ⟨x, hqueue ▸ List.mem_cons_self, .single ⟨(hys y).1 hmem, hopen⟩⟩
    · have hmono : TransGen (fun a b => beside a b ∧ w.isOpen may b = true) start y :=
        hpath.lift id fun a b hab => ⟨hab.1, ((hround.isOpen b).1 hab.2).1⟩
      rcases (hround.queue start).1 hstart with hrest | ⟨hopen, hmem⟩
      · exact ⟨start, hqueue ▸ List.mem_cons_of_mem x hrest, hmono⟩
      · exact ⟨x, hqueue ▸ List.mem_cons_self, .head ⟨(hys start).1 hmem, hopen⟩ hmono⟩

/-- A search through the queue ends. It marks what the queue leads to and nothing else, and lists
what it marks. -/
theorem exists_spread (hnear : ∀ x, ∃ ys, near x = .ok ys ∧ ∀ y, y ∈ ys ↔ beside x y)
    (mark : { a : α // a ≠ default }) (w : Wave α n) :
    ∃ w', w.spread near may mark = .ok w' ∧
      (∀ y, Leads beside may w y → w'.marks.get y = mark.val) ∧
      (∀ y, ¬Leads beside may w y → w'.marks.get y = w.marks.get y) ∧
      ∀ y, y ∈ w'.reached ↔ y ∈ w.reached ∨ Leads beside may w y := by
  -- The induction is on the rounds.
  fun_induction spread near may mark w with
  | case1 w hqueue =>
      have hno : ∀ y, ¬Leads beside may w y := by
        rintro y ⟨x, hx, -⟩
        rw [hqueue] at hx
        exact List.not_mem_nil hx
      exact ⟨w, rfl, fun y h => absurd h (hno y), fun _ _ => rfl, fun y => by simp [hno y]⟩
  | case2 w x rest hqueue breach hbreach =>
      obtain ⟨ys, hok, -⟩ := hnear x
      rw [hbreach] at hok
      cases hok
  | case3 w x rest hqueue ys hok ih =>
      obtain ⟨w', hspread, hmarked, hkept, hreached⟩ := ih
      have hys : ∀ y, y ∈ ys ↔ beside x y := by
        obtain ⟨ys', hok', hys'⟩ := hnear x
        rw [hok] at hok'
        cases hok'
        exact hys'
      have hround : Entered may mark.val ys { w with queue := rest } _ :=
        entered_foldl mark.property ys _
      have hleads : ∀ y, Leads beside may w y ↔ _ := fun y =>
        leads_iff_spread hqueue hys hround
      refine ⟨w', hspread, fun y hy => ?_, fun y hy => ?_, fun y => ?_⟩
      · rcases (hleads y).1 hy with hentered | hlater
        · by_cases hlater : Leads beside may (ys.foldl (enter may mark.val) { w with queue := rest }) y
          · exact hmarked y hlater
          · rw [hkept y hlater, hround.marks]
            exact if_pos hentered
        · exact hmarked y hlater
      · rw [hleads, not_or] at hy
        rw [hkept y hy.2, hround.marks]
        exact if_neg hy.1
      · rw [hreached, hround.reached, hleads, or_assoc]
        rfl

/-! ## A search from one position -/

/-- A path leads from the first position to the second, and all positions behind its first may be
entered. -/
abbrev Free (beside : Fin n → Fin n → Prop) (may : Fin n → Bool) : Fin n → Fin n → Prop :=
  ReflTransGen fun a b => beside a b ∧ may b = true

omit [Inhabited α] [DecidableEq α] in
theorem marks_start (marks : Vector α n) (mark : α) (p y : Fin n) :
    (start marks mark p).marks.get y = if y = p then mark else marks.get y :=
  get_set marks p y mark

/-- From a position with unmarked surroundings, the open positions are those that a free path leads
to. -/
theorem leads_start_iff {marks : Vector α n} {p : Fin n} (mark : α)
    (hblank : ∀ y, Free beside may p y → marks.get y = default) :
    y = p ∨ Leads beside may (start marks mark p) y ↔ Free beside may p y := by
  constructor
  · rintro (rfl | ⟨x, hx, hpath⟩)
    · exact .refl
    · obtain rfl := List.mem_singleton.1 hx
      exact hpath.to_reflTransGen.lift id fun a b hab => ⟨hab.1, (isOpen_iff.1 hab.2).1⟩
  · intro hpath
    induction hpath with
    | refl => exact .inl rfl
    | @tail b c hb hbc ih =>
        by_cases hc : c = p
        · exact .inl hc
        · have hopen : (start marks mark p).isOpen may c = true := by
            refine isOpen_iff.2 ⟨hbc.2, ?_⟩
            rw [marks_start, if_neg hc]
            exact hblank c (hb.tail hbc)
          rcases ih with rfl | ⟨x, hx, hpath⟩
          · exact .inr ⟨b, List.mem_singleton_self b, .single ⟨hbc.1, hopen⟩⟩
          · exact .inr ⟨x, hx, hpath.tail ⟨hbc.1, hopen⟩⟩

/-- A search from a position marks and lists what free paths lead to. -/
theorem exists_spread_start (hnear : ∀ x, ∃ ys, near x = .ok ys ∧ ∀ y, y ∈ ys ↔ beside x y)
    (may : Fin n → Bool) (marks : Vector α n) (p : Fin n) (mark : { a : α // a ≠ default })
    (hblank : ∀ y, Free beside may p y → marks.get y = default) :
    ∃ w, (start marks mark.val p).spread near may mark = .ok w ∧
      (∀ y, Free beside may p y → w.marks.get y = mark.val) ∧
      (∀ y, ¬Free beside may p y → w.marks.get y = marks.get y) ∧
      ∀ y, y ∈ w.reached ↔ Free beside may p y := by
  obtain ⟨w, hspread, hmarked, hkept, hreached⟩ :=
    exists_spread hnear mark (start marks mark.val p)
  have hleads : ∀ y, _ ↔ Free beside may p y := fun y => leads_start_iff mark.val hblank
  refine ⟨w, hspread, fun y hy => ?_, fun y hy => ?_, fun y => ?_⟩
  · by_cases hlater : Leads beside may (start marks mark.val p) y
    · exact hmarked y hlater
    · obtain rfl := ((hleads y).2 hy).resolve_right hlater
      rw [hkept y hlater, marks_start, if_pos rfl]
  · rw [← hleads, not_or] at hy
    rw [hkept y hy.2, marks_start, if_neg hy.1]
  · rw [hreached, ← hleads]
    exact or_congr_left List.mem_singleton

end Wave

end CliquePath
