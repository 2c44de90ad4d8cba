import CliquePath.Proofs.LinkedTree.Nodes

set_option autoImplicit false

/-!
# Reading a linked tree

This module shows that what an insertion reads is there to be read. Ranks of sections can be compared,
the run of a vertex can be tested against a section, and the search through a row for a section or a
gap ends with a section of that row or with two neighbours in it.
-/

namespace CliquePath

open Cells (one)

/-! ## Sections of a tree -/

/-- The cells have a section of the Q-node at the place. -/
def Cells.HasSlice (M : Cells) (s q : NodeId) : Prop := ∃ d, (s, d) ∈ M ∧ d.row? = some q

theorem Cells.Holds.hasSlice {M : Cells} {v : Vertex} {s q : NodeId} (h : M.Holds v (s, some q)) :
    M.HasSlice s q := by
  obtain ⟨d, hd, -, hrow⟩ := h
  exact ⟨d, hd, hrow⟩

/-- A section stands in a row. -/
theorem Trees.row_of_slice {L : Multiset Link} {M : Cells} (h : Trees L M) {s q : NodeId}
    (hs : M.HasSlice s q) :
    ∃ (R : Row (Part NodeId)) (parent : Option NodeId) (n : Cells) (xs ys : Entries)
      (e : Int × Part NodeId), M = R.cellsAt q parent + n ∧ R.keyed = xs ++ e :: ys ∧
        e.2.id = s := by
  obtain ⟨d, hd, hrow⟩ := hs
  induction h with
  | nil => simp at hd
  | leaf parent id held _ ih =>
      rcases Multiset.mem_add.1 hd with hd | hd
      · -- a leaf is no section
        cases Cells.mem_one.1 hd
        cases hrow
      · obtain ⟨R, parent', n, xs, ys, e, rfl, hR, he⟩ := ih hd
        exact ⟨R, parent', _, xs, ys, e, add_left_comm _ _ _, hR, he⟩
  | pnode parent id held hne _ ih =>
      rcases Multiset.mem_add.1 hd with hd | hd
      · cases Cells.mem_one.1 hd
        cases hrow
      · obtain ⟨R, parent', n, xs, ys, e, rfl, hR, he⟩ := ih hd
        exact ⟨R, parent', _, xs, ys, e, add_left_comm _ _ _, hR, he⟩
  | @qnode parent q' R L m hne hasc _ ih =>
      rcases Multiset.mem_add.1 hd with hd | hd
      · rcases Multiset.mem_add.1 hd with hd | hd
        · cases Cells.mem_one.1 hd
          cases hf : R.flipped <;> simp [rowCell, Cell.row?, Kind.isSlice, hf] at hrow
        · -- the section is one of this row, which the row of the cell names
          rw [Loose.cells_eq_coe, Multiset.mem_coe, List.mem_map] at hd
          obtain ⟨v, hv, heq⟩ := hd
          cases heq
          rw [Loose.row?_cell] at hrow
          cases hrow
          have hentry : v.entry ∈ R.keyed := by
            rw [← @Entries.map_entry_linked R.keyed none none]
            exact List.mem_map_of_mem hv
          obtain ⟨xs, ys, hR⟩ := List.append_of_mem hentry
          exact ⟨R, parent, m, xs, ys, v.entry, rfl, hR, rfl⟩
      · obtain ⟨R', parent', n, xs, ys, e, rfl, hR, he⟩ := ih hd
        exact ⟨R', parent', _, xs, ys, e, add_left_comm _ _ _, hR, he⟩

namespace Work

/-- The vertices of `S` are in the tree that the cells form. -/
structure Whole (w : Work) (S : Set Vertex) (root : NodeId) (M : Cells) : Prop where
  owns : w.arena.Owns (some root) M
  trees : Trees {(none, root)} M
  agree : w.slots.Agree S M

variable {w : Work} {S : Set Vertex} {root : NodeId} {M : Cells}

theorem Stands.whole {c : Ctx} {x : NodeId} {m : Cells} (h : w.Stands S c x m) (hc : c.Ok)
    (hf : Trees {(c.parent, x)} m) : w.Whole S (c.top x) (m + c.cells x) :=
  ⟨h.owns, hc.close hf, h.agree⟩

namespace Whole

variable {v : Vertex} {s s' q : NodeId} {p : Pass}

theorem rank_ok (h : w.Whole S root M) (hs : M.HasSlice s q) : ∃ k, w.arena.rank s = .ok k := by
  obtain ⟨R, parent, n, xs, ys, e, hM, hR, rfl⟩ := h.trees.row_of_slice hs
  exact ⟨_, h.owns.rank_row hM hR⟩

theorem cell_ok (h : w.Whole S root M) {id : NodeId} {d : Cell} (hd : (id, d) ∈ M) :
    w.arena.cell id = .ok d :=
  h.owns.cell_of_mem hd

/-- The run of a vertex can be tested against a section. -/
theorem spanContains_ok (h : w.Whole S root M) (hs : M.HasSlice s q) (v : Vertex) :
    ∃ b, w.spanContains v s = .ok b := by
  have hfit := h.agree.fit v
  unfold spanContains
  -- only a span has ranks to read
  cases hslot : w.slots.get v with
  | absent => exact ⟨false, rfl⟩
  | node id => exact ⟨false, rfl⟩
  | span one other =>
      rw [hslot] at hfit
      obtain ⟨q', hone, hother, -⟩ := hfit
      obtain ⟨k₁, h₁⟩ := h.rank_ok hone.hasSlice
      obtain ⟨k₂, h₂⟩ := h.rank_ok hother.hasSlice
      obtain ⟨k, hk⟩ := h.rank_ok hs
      exact ⟨_, by simp only [h₁, h₂, hk, ok_bind, pure_eq_ok]; rfl⟩

theorem allSpan_ok (h : w.Whole S root M) (hs : M.HasSlice s q) (vs : List Vertex) :
    ∃ b, w.allSpan vs s = .ok b := by
  induction vs with
  | nil => exact ⟨true, rfl⟩
  | cons v rest ih =>
      obtain ⟨b, hb⟩ := h.spanContains_ok hs v
      obtain ⟨b', hb'⟩ := ih
      cases b with
      | false => exact ⟨false, by simp only [allSpan, hb, ok_bind]; rfl⟩
      | true => exact ⟨b', by simp only [allSpan, hb, ok_bind]; exact hb'⟩

theorem gapFits_ok (h : w.Whole S root M) (p : Pass) (hs : M.HasSlice s q)
    (hs' : M.HasSlice s' q) : ∃ b, w.gapFits p s s' = .ok b := by
  obtain ⟨d, hd, -⟩ := hs
  obtain ⟨d', hd', -⟩ := hs'
  exact ⟨_, by simp only [gapFits, h.cell_ok hd, h.cell_ok hd', ok_bind]; rfl⟩

end Whole

/-! ## Reading a row -/

namespace Whole

variable {R : Row (Part NodeId)} {q : NodeId} {parent : Option NodeId} {n : Cells}
variable {p : Pass} {v : Vertex} {vs : List Vertex} {e f : Int × Part NodeId} {xs ys : Entries}

/-- A place with a rank is that of a section of the row. -/
def IsEntry (R : Row (Part NodeId)) (b : Int × NodeId) : Prop :=
  ∃ e ∈ R.keyed, b = (e.1, e.2.id)

theorem hasSlice_row (hM : M = R.cellsAt q parent + n) (he : e ∈ R.keyed) :
    M.HasSlice e.2.id q := by
  obtain ⟨xs, ys, hR⟩ := List.append_of_mem he
  refine ⟨Loose.cell q R.flipped ⟨e.2, e.1, Entries.lastId xs none, Entries.firstId ys none⟩,
    Arena.Owns.mem_slice (v := ⟨e.2, e.1, Entries.lastId xs none, Entries.firstId ys none⟩) hM ?_,
    Loose.row?_cell _ _ _⟩
  simp [hR, Entries.linked_append, Entries.linked]

theorem rank_entry (h : w.Whole S root M) (hM : M = R.cellsAt q parent + n) {s : NodeId}
    (hs : R.HoldsAt v s) : ∃ k, w.arena.rank s = .ok k ∧ IsEntry R (k, s) := by
  obtain ⟨part, hpart, rfl, -⟩ := hs
  obtain ⟨e, he, rfl⟩ := List.mem_map.1 hpart
  obtain ⟨xs, ys, hR⟩ := List.append_of_mem he
  exact ⟨e.1, h.owns.rank_row hM hR, e, he, rfl⟩

/-- The ends of a run in the row. -/
theorem spanEnds_row (h : w.Whole S root M) (hM : M = R.cellsAt q parent + n)
    (hv : (w.slots.get v).Ends (R.HoldsAt v)) :
    ∃ l b, w.spanEnds v = .ok (l, b) ∧ IsEntry R l ∧ IsEntry R b := by
  cases hslot : w.slots.get v with
  | absent =>
      rw [hslot] at hv
      exact hv.elim
  | node id =>
      rw [hslot] at hv
      exact hv.elim
  | span one other =>
      rw [hslot] at hv
      obtain ⟨k₁, h₁, hone⟩ := h.rank_entry hM hv.1
      obtain ⟨k₂, h₂, hother⟩ := h.rank_entry hM hv.2
      simp only [spanEnds, hslot, ok_bind, pure_eq_ok, h₁, h₂]
      by_cases hle : k₁ ≤ k₂
      · exact ⟨_, _, by rw [if_pos hle], hone, hother⟩
      · exact ⟨_, _, by rw [if_neg hle], hother, hone⟩

theorem meetSpans_row (h : w.Whole S root M) (hM : M = R.cellsAt q parent + n)
    (hvs : ∀ v ∈ vs, (w.slots.get v).Ends (R.HoldsAt v)) {l b : Int × NodeId}
    (hl : IsEntry R l) (hb : IsEntry R b) :
    ∃ l' b', w.meetSpans l b vs = .ok (l', b') ∧ IsEntry R l' ∧ IsEntry R b' := by
  induction vs generalizing l b with
  | nil => exact ⟨l, b, rfl, hl, hb⟩
  | cons v rest ih =>
      obtain ⟨first, last, hspan, hfirst, hlast⟩ := h.spanEnds_row hM (hvs v List.mem_cons_self)
      simp only [meetSpans, hspan, ok_bind]
      refine ih (fun v hv => hvs v (List.mem_cons_of_mem _ hv)) ?_ ?_
      · split <;> assumption
      · split <;> assumption

/-- The common part of some runs starts at one section and ends there or further to the right. -/
theorem commonEnds_row (h : w.Whole S root M) (hM : M = R.cellsAt q parent + n)
    (hne : R.keyed ≠ []) (hasc : R.Ascending)
    (hvs : ∀ v ∈ vs, (w.slots.get v).Ends (R.HoldsAt v)) :
    w.commonEnds q vs = .ok none ∨
      ∃ xs e ys, ∃ f ∈ e :: ys, R.keyed = xs ++ e :: ys ∧
        w.commonEnds q vs = .ok (some (e.2.id, f.2.id)) := by
  have hends := h.owns.ends_row hM
  cases vs with
  | nil =>
      obtain ⟨e, rest, hR⟩ := List.exists_cons_of_ne_nil hne
      obtain ⟨ini, f, hf⟩ := (List.eq_nil_or_concat R.keyed).resolve_left hne
      rw [List.concat_eq_append] at hf
      refine Or.inr ⟨[], e, rest, f, ?_, hR, ?_⟩
      · rw [← hR, hf]
        simp
      · simp only [commonEnds, hends, ok_bind, pure_eq_ok, Row.firstPart_eq hR, Row.lastPart_eq hf]
  | cons v rest =>
      obtain ⟨l, b, hspan, hl, hb⟩ := h.spanEnds_row hM (hvs v List.mem_cons_self)
      obtain ⟨l', b', hmeet, hl', hb'⟩ := h.meetSpans_row hM
        (fun v hv => hvs v (List.mem_cons_of_mem _ hv)) hl hb
      simp only [commonEnds, hends, ok_bind, hspan, hmeet, pure_eq_ok]
      -- the runs meet if the last of their starts is not behind the first of their ends
      by_cases hle : l'.1 ≤ b'.1
      · obtain ⟨e, he, rfl⟩ := hl'
        obtain ⟨f, hf, rfl⟩ := hb'
        obtain ⟨xs, ys, hR⟩ := List.append_of_mem he
        refine Or.inr ⟨xs, e, ys, f, ?_, hR, by rw [if_pos hle]⟩
        rw [hR] at hf
        -- the ranks ascend, so that the second end is not before the first one
        refine (List.mem_append.1 hf).resolve_left fun hxs => ?_
        rw [Row.Ascending, hR, List.pairwise_append] at hasc
        exact absurd (hasc.2.2 f hxs e List.mem_cons_self) (Int.not_lt.2 hle)
      · exact Or.inl (by rw [if_neg hle])

/-- The sections from one to another one further to the right. -/
theorem sliceRange_row (h : w.Whole S root M) (hM : M = R.cellsAt q parent + n)
    (hR : R.keyed = xs ++ e :: ys) (hf : f ∈ e :: ys) {fuel : Nat}
    (hfuel : (e :: ys).length ≤ fuel) :
    ∃ l, w.sliceRange q f.2.id fuel e.2.id = .ok l ∧ ∀ s ∈ l, ∃ d ∈ R.keyed, d.2.id = s := by
  induction ys generalizing xs e fuel with
  | nil =>
      obtain ⟨fuel, rfl⟩ : ∃ k, fuel = k + 1 := ⟨fuel - 1, by simp at hfuel; omega⟩
      cases List.mem_singleton.1 hf
      refine ⟨[f.2.id], by simp [sliceRange, pure_eq_ok], fun s hs => ?_⟩
      rw [List.mem_singleton.1 hs]
      exact ⟨f, by simp [hR], rfl⟩
  | cons e' ys ih =>
      obtain ⟨fuel, rfl⟩ : ∃ k, fuel = k + 1 := ⟨fuel - 1, by simp at hfuel; omega⟩
      have hlinks := h.owns.links_row hM hR
      -- the walk ends at the last section, which is in the part of the row still ahead
      by_cases heq : e.2.id = f.2.id
      · refine ⟨[e.2.id], by simp [sliceRange, heq, pure_eq_ok], fun s hs => ?_⟩
        rw [List.mem_singleton.1 hs]
        exact ⟨e, by simp [hR], rfl⟩
      · have hf' : f ∈ e' :: ys := (List.mem_cons.1 hf).resolve_left fun hfe => heq (by rw [hfe])
        have hR' : R.keyed = (xs ++ [e]) ++ e' :: ys := by simp [hR]
        obtain ⟨l, hl, hmem⟩ := ih hR' hf' (by simpa using hfuel)
        refine ⟨e.2.id :: l, ?_, fun s hs => ?_⟩
        · simp only [sliceRange, heq, if_false, hlinks, ok_bind, Entries.firstId, hl, pure_eq_ok]
        · rcases List.mem_cons.1 hs with rfl | hs
          · exact ⟨e, by simp [hR], rfl⟩
          · exact hmem s hs

theorem findHolding_row (h : w.Whole S root M) (hM : M = R.cellsAt q parent + n) (count : Nat)
    {l : List NodeId} (hl : ∀ s ∈ l, ∃ d ∈ R.keyed, d.2.id = s) :
    w.findHolding count l = .ok none ∨
      ∃ e ∈ R.keyed, w.findHolding count l = .ok (some e.2.id) := by
  induction l with
  | nil => exact Or.inl rfl
  | cons s rest ih =>
      obtain ⟨e, he, rfl⟩ := hl s List.mem_cons_self
      obtain ⟨d, hd, -⟩ := hasSlice_row hM he
      simp only [findHolding, h.cell_ok hd, ok_bind, pure_eq_ok]
      split
      · exact Or.inr ⟨e, he, rfl⟩
      · exact ih fun s hs => hl s (List.mem_cons_of_mem _ hs)

/-- The search for a gap ends with two neighbours in the row. -/
theorem findGap_row (h : w.Whole S root M) (hM : M = R.cellsAt q parent + n) (p : Pass)
    {l : List NodeId} (hl : ∀ s ∈ l, ∃ d ∈ R.keyed, d.2.id = s) :
    w.findGap p l = .ok none ∨
      ∃ xs e f ys, R.keyed = xs ++ e :: f :: ys ∧
        w.findGap p l = .ok (some (e.2.id, f.2.id)) := by
  induction l with
  | nil => exact Or.inl rfl
  | cons s rest ih =>
      have ih := ih fun s hs => hl s (List.mem_cons_of_mem _ hs)
      obtain ⟨e, he, rfl⟩ := hl s List.mem_cons_self
      obtain ⟨xs, ys, hR⟩ := List.append_of_mem he
      have hlinks := h.owns.links_row hM hR
      -- the last section of the row has no gap behind it
      cases ys with
      | nil =>
          simp only [findGap, hlinks, ok_bind, Entries.firstId]
          exact ih
      | cons f ys =>
          obtain ⟨b, hb⟩ := h.gapFits_ok p (hasSlice_row hM he)
            (hasSlice_row hM (e := f) (by simp [hR]))
          simp only [findGap, hlinks, ok_bind, Entries.firstId, hb]
          cases b with
          | false => exact ih
          | true => exact Or.inr ⟨xs, e, f, ys, hR, rfl⟩

/-- The search for a place ends with a gap of the row or an end of it. -/
theorem gapAt_row (h : w.Whole S root M) (hM : M = R.cellsAt q parent + n) (p : Pass)
    (hR : R.keyed = xs ++ e :: ys) {l : List NodeId} (hl : ∀ s ∈ l, ∃ d ∈ R.keyed, d.2.id = s)
    (high : NodeId) :
    w.gapAt p q e.2.id high l = .ok none ∨
      ∃ as bs, R.keyed = as ++ bs ∧ w.gapAt p q e.2.id high l =
        .ok (some (Entries.lastId as none, Entries.firstId bs none)) := by
  have hends := h.owns.ends_row hM
  have hne : R.keyed ≠ [] := by simp [hR]
  simp only [gapAt, hends, ok_bind, pure_eq_ok]
  -- a place before the first section needs no gap
  by_cases hlow : e.2.id = R.firstPart
  · refine Or.inr ⟨[], R.keyed, rfl, ?_⟩
    rw [if_pos hlow, Row.firstId_eq_some hne]
    rfl
  · rw [if_neg hlow, h.owns.links_row hM hR]
    -- the search begins one section further to the left
    have hbefore : ∀ s ∈ (Entries.lastId xs none).toList ++ l, ∃ d ∈ R.keyed, d.2.id = s := by
      intro s hs
      rcases List.mem_append.1 hs with hs | hs
      · rcases List.eq_nil_or_concat xs with rfl | ⟨ini, d, rfl⟩
        · simp [Entries.lastId] at hs
        · rw [List.concat_eq_append, Entries.lastId_concat] at hs
          simp only [Option.toList_some, List.mem_singleton] at hs
          exact ⟨d, by simp [hR], hs.symm⟩
      · exact hl s hs
    simp only [ok_bind]
    rcases h.findGap_row hM p hbefore with hgap | ⟨xs', e', f, ys', hR', hgap⟩
    · rw [hgap]
      simp only [ok_bind]
      -- without a gap the vertex can still go behind the last section
      by_cases hhigh : high = R.lastPart
      · refine Or.inr ⟨R.keyed, [], (List.append_nil _).symm, ?_⟩
        rw [if_pos hhigh, Row.lastId_eq_some hne]
        rfl
      · exact Or.inl (by rw [if_neg hhigh])
    · rw [hgap]
      refine Or.inr ⟨xs' ++ [e'], f :: ys', by simp [hR'], ?_⟩
      rw [Entries.lastId_concat]
      rfl

theorem growsFrom_ok (h : w.Whole S root M) (hM : M = R.cellsAt q parent + n)
    (hR : R.keyed = xs ++ ys) (v : Vertex) :
    ∃ old?, w.growsFrom v (Entries.lastId xs none, Entries.firstId ys none) = .ok old? := by
  rcases List.eq_nil_or_concat xs with rfl | ⟨ini, e, rfl⟩
  · exact ⟨_, rfl⟩
  · rw [List.concat_eq_append, Entries.lastId_concat]
    cases ys with
    | nil => exact ⟨_, rfl⟩
    | cons f ys =>
        obtain ⟨b, hb⟩ := h.spanContains_ok (hasSlice_row hM (e := e) (by simp [hR])) v
        obtain ⟨b', hb'⟩ := h.spanContains_ok (hasSlice_row hM (e := f) (by simp [hR])) v
        exact ⟨_, by simp only [Entries.firstId, growsFrom, hb, hb', ok_bind, pure_eq_ok]; rfl⟩

end Whole

end Work

end CliquePath
