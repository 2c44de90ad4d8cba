import CliquePath.Proofs.LinkedTree.Absorbing
import CliquePath.Proofs.LinkedTree.Shown

set_option autoImplicit false

/-!
# Reading the runs of a row

This module says what the searches in a row find, if the slots name the ends of all runs and the
sections that hold a vertex stand next to one another. A vertex is held by the sections whose ranks
lie between those of the ends of its run; the common part of several runs is the block of the sections
that hold all the vertices.
-/

namespace CliquePath

open Cells (one)

section Between

variable {α : Type} {as m bs es : List (Int × α)} {a b e f l : Int × α}

/-- The keys of a block lie between those of its ends, and no others do. -/
theorem mem_block_iff (h : es.Pairwise fun a b => a.1 < b.1) (hes : es = as ++ (m ++ bs))
    (hf : m.head? = some f) (hl : m.getLast? = some l) (he : e ∈ es) :
    e ∈ m ↔ f.1 ≤ e.1 ∧ e.1 ≤ l.1 := by
  rw [hes, List.pairwise_append, List.pairwise_append] at h
  obtain ⟨-, ⟨hm, -, hmbs⟩, has⟩ := h
  constructor
  · exact fun hem => ⟨Row.le_of_head? hm hf hem, Row.le_of_getLast? hm hl hem⟩
  · rintro ⟨hfe, hel⟩
    rw [hes, List.mem_append, List.mem_append] at he
    -- the keys before the block are smaller than its first one, and those behind it greater than its last one
    rcases he with he | he | he
    · have := has e he f (List.mem_append.2 (Or.inl (List.mem_of_head? hf)))
      omega
    · exact he
    · have := hmbs l (List.mem_of_getLast? hl) e he
      omega

/-- Two entries are the ends of a block. -/
theorem exists_block_between (h : es.Pairwise fun a b => a.1 < b.1) (ha : a ∈ es) (hb : b ∈ es)
    (hle : a.1 ≤ b.1) : ∃ as m bs, es = as ++ (m ++ bs) ∧ m.head? = some a ∧ m.getLast? = some b := by
  obtain ⟨as, ys, rfl⟩ := List.append_of_mem ha
  -- the second entry is not before the first one
  have hb' : b ∈ a :: ys := by
    refine (List.mem_append.1 hb).resolve_left fun hbas => ?_
    have := (List.pairwise_append.1 h).2.2 b hbas a List.mem_cons_self
    omega
  obtain ⟨zs, bs, hzs⟩ := List.append_of_mem hb'
  refine ⟨as, zs ++ [b], bs, by rw [hzs]; simp, ?_, by simp⟩
  cases zs with
  | nil =>
      rw [List.nil_append, List.cons.injEq] at hzs
      simp [hzs.1]
  | cons z zs =>
      rw [List.cons_append, List.cons.injEq] at hzs
      simp [hzs.1]

theorem eq_of_key_eq (h : es.Pairwise fun a b => a.1 < b.1) (ha : a ∈ es) (hb : b ∈ es)
    (hab : a.1 = b.1) : a = b := by
  obtain ⟨i, hi, rfl⟩ := List.getElem_of_mem ha
  obtain ⟨j, hj, rfl⟩ := List.getElem_of_mem hb
  rw [List.pairwise_iff_getElem] at h
  rcases Nat.lt_trichotomy i j with hij | rfl | hij
  · have := h i j hi hj hij
    omega
  · rfl
  · have := h j i hj hi hij
    omega

end Between

namespace Row

variable {ν : Type} {R : Row (Part ν)} {v : Vertex}

/-- The sections that hold any one vertex stand next to one another. -/
def InBlocks (R : Row (Part ν)) : Prop :=
  ∀ v, (∃ s ∈ R.toList, v ∈ s.held) → ∃ as m bs, R.Block v as m bs

theorem inBlocks_top {row : Row (Part Plan)}
    (h : (row.map Part.shown).pattern.Lined row.size) : (row.map Part.top).InBlocks := by
  rintro v ⟨t, ht, hv⟩
  rw [toList_map] at ht
  obtain ⟨s, hs, rfl⟩ := List.mem_map.1 ht
  obtain ⟨as, m, bs, hb⟩ := exists_block h ⟨s, hs, hv⟩
  refine ⟨as.map (entry Part.top), m.map (entry Part.top), bs.map (entry Part.top), ?_, ?_, ?_, ?_⟩
  · rw [keyed_map, hb.keyed]
    simp
  · simpa using hb.several
  · intro e he
    obtain ⟨d, hd, rfl⟩ := List.mem_map.1 he
    exact hb.inside d hd
  · intro e he
    rw [← List.map_append] at he
    obtain ⟨d, hd, rfl⟩ := List.mem_map.1 he
    exact hb.outside d hd

/-- The slot of a vertex that a row holds names the ends of its block. -/
theorem Block.slot {slots : Slots} {as m bs : List (Int × Part ν)} (h : R.Block v as m bs)
    (hmarks : slots.Marks (R.toList.map Part.span)) :
    ∃ f l, m.head? = some f ∧ m.getLast? = some l ∧
      (slots.get v = .span f.2.id l.2.id ∨ slots.get v = .span l.2.id f.2.id) := by
  refine ⟨m.head h.ne_nil, m.getLast h.ne_nil, List.head?_eq_some_head _,
    List.getLast?_eq_some_getLast _, hmarks v _ _ ?_ ?_⟩
  · rw [h.hits, List.head?_map, List.head?_eq_some_head h.ne_nil]
    rfl
  · rw [h.hits, List.getLast?_map, List.getLast?_eq_some_getLast h.ne_nil]
    rfl

end Row

namespace Work

namespace Whole

variable {w : Work} {S : Set Vertex} {root : NodeId} {M n : Cells} {R : Row (Part NodeId)}
variable {q : NodeId} {parent : Option NodeId} {p : Pass} {v : Vertex} {vs : List Vertex}
variable {as m bs : Entries} {e f l : Int × Part NodeId}

theorem rank_of_mem (h : w.Whole S root M) (hM : M = R.cellsAt q parent + n) (he : e ∈ R.keyed) :
    w.arena.rank e.2.id = .ok e.1 := by
  obtain ⟨xs, ys, hR⟩ := List.append_of_mem he
  exact h.owns.rank_row hM hR

/-- The run of a vertex contains a section if the section holds the vertex. -/
theorem spanContains_row (h : w.Whole S root M) (hM : M = R.cellsAt q parent + n)
    (hasc : R.Ascending) (hmarks : w.slots.Marks (R.toList.map Part.span))
    (hb : R.Block v as m bs) (he : e ∈ R.keyed) :
    w.spanContains v e.2.id = .ok (decide (v ∈ e.2.held)) := by
  obtain ⟨f, l, hf, hl, hslot⟩ := hb.slot hmarks
  have hmem : ∀ d ∈ m, d ∈ R.keyed := fun d hd => by rw [hb.keyed]; simp [hd]
  have hrf := h.rank_of_mem hM (hmem f (List.mem_of_head? hf))
  have hrl := h.rank_of_mem hM (hmem l (List.mem_of_getLast? hl))
  have hre := h.rank_of_mem hM he
  have hiff := (hb.mem_iff he).trans (mem_block_iff hasc hb.keyed hf hl he)
  have hfl : f.1 ≤ l.1 := ((mem_block_iff hasc hb.keyed hf hl
    (hmem f (List.mem_of_head? hf))).1 (List.mem_of_head? hf)).2
  unfold spanContains
  rcases hslot with hslot | hslot
  · simp only [hslot, hrf, hrl, hre, ok_bind, pure_eq_ok, min_eq_left hfl, max_eq_right hfl,
      decide_eq_decide.2 hiff, Bool.decide_and]
  · simp only [hslot, hrf, hrl, hre, ok_bind, pure_eq_ok, min_eq_right hfl, max_eq_left hfl,
      decide_eq_decide.2 hiff, Bool.decide_and]

/-- The runs of several vertices contain a section if it holds them all. -/
theorem allSpan_row (h : w.Whole S root M) (hM : M = R.cellsAt q parent + n)
    (hasc : R.Ascending) (hmarks : w.slots.Marks (R.toList.map Part.span)) (hblocks : R.InBlocks)
    (hvs : ∀ v ∈ vs, ∃ s ∈ R.toList, v ∈ s.held) (he : e ∈ R.keyed) :
    w.allSpan vs e.2.id = .ok (holdsAll vs e.2.held) := by
  induction vs with
  | nil => rfl
  | cons v rest ih =>
      obtain ⟨as, m, bs, hb⟩ := hblocks v (hvs v List.mem_cons_self)
      have hrest := ih fun v hv => hvs v (List.mem_cons_of_mem _ hv)
      simp only [allSpan, h.spanContains_row hM hasc hmarks hb he, ok_bind]
      by_cases hv : v ∈ e.2.held
      · simp only [hv, decide_true, if_true, hrest]
        simp [holdsAll, hv]
      · simp only [hv, decide_false, Bool.false_eq_true, if_false, pure_eq_ok]
        simp [holdsAll, hv]

/-- The ends of the run of a vertex, with their ranks. -/
theorem spanEnds_block (h : w.Whole S root M) (hM : M = R.cellsAt q parent + n)
    (hasc : R.Ascending) (hmarks : w.slots.Marks (R.toList.map Part.span))
    (hb : R.Block v as m bs) :
    ∃ f l, m.head? = some f ∧ m.getLast? = some l ∧
      w.spanEnds v = .ok ((f.1, f.2.id), (l.1, l.2.id)) := by
  obtain ⟨f, l, hf, hl, hslot⟩ := hb.slot hmarks
  have hmem : ∀ d ∈ m, d ∈ R.keyed := fun d hd => by rw [hb.keyed]; simp [hd]
  have hfR := hmem f (List.mem_of_head? hf)
  have hlR := hmem l (List.mem_of_getLast? hl)
  have hrf := h.rank_of_mem hM hfR
  have hrl := h.rank_of_mem hM hlR
  have hfl : f.1 ≤ l.1 := ((mem_block_iff hasc hb.keyed hf hl hfR).1 (List.mem_of_head? hf)).2
  refine ⟨f, l, hf, hl, ?_⟩
  unfold spanEnds
  rcases hslot with hslot | hslot
  · simp only [hslot, hrf, hrl, ok_bind, pure_eq_ok, hfl, if_true]
  · simp only [hslot, hrf, hrl, ok_bind, pure_eq_ok]
    -- ends in the wrong order would be one section
    by_cases hlf : l.1 ≤ f.1
    · obtain rfl : f = l := eq_of_key_eq hasc hfR hlR (by omega)
      simp
    · rw [if_neg hlf]

/-- The common part of some runs, beginning with a given part. -/
theorem meetSpans_block (h : w.Whole S root M) (hM : M = R.cellsAt q parent + n)
    (hasc : R.Ascending) (hmarks : w.slots.Marks (R.toList.map Part.span)) (hblocks : R.InBlocks)
    (hvs : ∀ v ∈ vs, ∃ s ∈ R.toList, v ∈ s.held) (hf : f ∈ R.keyed) (hl : l ∈ R.keyed) :
    ∃ f' ∈ R.keyed, ∃ l' ∈ R.keyed, w.meetSpans (f.1, f.2.id) (l.1, l.2.id) vs =
        .ok ((f'.1, f'.2.id), (l'.1, l'.2.id)) ∧
      ∀ e ∈ R.keyed, (f'.1 ≤ e.1 ∧ e.1 ≤ l'.1) ↔
        (f.1 ≤ e.1 ∧ e.1 ≤ l.1) ∧ ∀ v ∈ vs, v ∈ e.2.held := by
  induction vs generalizing f l with
  | nil => exact ⟨f, hf, l, hl, rfl, fun e _ => by simp⟩
  | cons v rest ih =>
      obtain ⟨as, m, bs, hb⟩ := hblocks v (hvs v List.mem_cons_self)
      obtain ⟨a, b, ha, hb', hends⟩ := h.spanEnds_block hM hasc hmarks hb
      have hmem : ∀ d ∈ m, d ∈ R.keyed := fun d hd => by rw [hb.keyed]; simp [hd]
      have hheld : ∀ e ∈ R.keyed, v ∈ e.2.held ↔ a.1 ≤ e.1 ∧ e.1 ≤ b.1 := fun e he =>
        (hb.mem_iff he).trans (mem_block_iff hasc hb.keyed ha hb' he)
      -- the greater one of two starts and the smaller one of two ends
      obtain ⟨f₁, hf₁, hf₁eq⟩ : ∃ f₁ ∈ R.keyed, (if a.1 > f.1 then (a.1, a.2.id) else (f.1, f.2.id)) =
          (f₁.1, f₁.2.id) ∧ f₁.1 = max f.1 a.1 := by
        by_cases hlt : a.1 > f.1
        · exact ⟨a, hmem a (List.mem_of_head? ha), by rw [if_pos hlt], by omega⟩
        · exact ⟨f, hf, by rw [if_neg hlt], by omega⟩
      obtain ⟨l₁, hl₁, hl₁eq⟩ : ∃ l₁ ∈ R.keyed, (if b.1 < l.1 then (b.1, b.2.id) else (l.1, l.2.id)) =
          (l₁.1, l₁.2.id) ∧ l₁.1 = min l.1 b.1 := by
        by_cases hlt : b.1 < l.1
        · exact ⟨b, hmem b (List.mem_of_getLast? hb'), by rw [if_pos hlt], by omega⟩
        · exact ⟨l, hl, by rw [if_neg hlt], by omega⟩
      obtain ⟨f', hf', l', hl', hmeet, hall⟩ :=
        ih (fun v hv => hvs v (List.mem_cons_of_mem _ hv)) hf₁ hl₁
      refine ⟨f', hf', l', hl', ?_, fun e he => ?_⟩
      · simp only [meetSpans, hends, ok_bind, hf₁eq.1, hl₁eq.1, hmeet]
      · rw [hall e he, List.forall_mem_cons, hheld e he]
        constructor
        · rintro ⟨hbetween, hrest⟩
          exact ⟨by omega, by omega, hrest⟩
        · rintro ⟨hbetween, hbetween', hrest⟩
          exact ⟨by omega, hrest⟩

/-- The common part of the runs of some vertices is the block of the sections that hold them all. -/
theorem commonEnds_block (h : w.Whole S root M) (hM : M = R.cellsAt q parent + n)
    (hasc : R.Ascending) (hmarks : w.slots.Marks (R.toList.map Part.span)) (hblocks : R.InBlocks)
    (hvs : ∀ v ∈ vs, ∃ s ∈ R.toList, v ∈ s.held) (hne : vs ≠ []) :
    (w.commonEnds q vs = .ok none ∧ ∀ e ∈ R.keyed, ∃ v ∈ vs, v ∉ e.2.held) ∨
      ∃ as m bs f l, R.keyed = as ++ (m ++ bs) ∧ m.head? = some f ∧ m.getLast? = some l ∧
        w.commonEnds q vs = .ok (some (f.2.id, l.2.id)) ∧
        ∀ e ∈ R.keyed, e ∈ m ↔ ∀ v ∈ vs, v ∈ e.2.held := by
  obtain ⟨v, rest, rfl⟩ := List.exists_cons_of_ne_nil hne
  obtain ⟨as, m, bs, hb⟩ := hblocks v (hvs v List.mem_cons_self)
  obtain ⟨a, b, ha, hb', hspan⟩ := h.spanEnds_block hM hasc hmarks hb
  have hmem : ∀ d ∈ m, d ∈ R.keyed := fun d hd => by rw [hb.keyed]; simp [hd]
  obtain ⟨f, hf, l, hl, hmeet, hall⟩ := h.meetSpans_block hM hasc hmarks hblocks
    (fun v hv => hvs v (List.mem_cons_of_mem _ hv)) (hmem a (List.mem_of_head? ha))
    (hmem b (List.mem_of_getLast? hb'))
  have hheld : ∀ e ∈ R.keyed, (f.1 ≤ e.1 ∧ e.1 ≤ l.1) ↔ ∀ x ∈ v :: rest, x ∈ e.2.held := by
    intro e he
    rw [hall e he, List.forall_mem_cons, hb.mem_iff he, mem_block_iff hasc hb.keyed ha hb' he]
  have hends := h.owns.ends_row hM
  simp only [commonEnds, hends, ok_bind, hspan, hmeet, pure_eq_ok]
  -- the common part is empty if it would end before it starts
  by_cases hle : f.1 ≤ l.1
  · obtain ⟨as', m', bs', hR, hf', hl'⟩ := exists_block_between hasc hf hl hle
    exact Or.inr ⟨as', m', bs', f, l, hR, hf', hl', by rw [if_pos hle], fun e he =>
      (mem_block_iff hasc hR hf' hl' he).trans (hheld e he)⟩
  · refine Or.inl ⟨by rw [if_neg hle], fun e he => ?_⟩
    by_contra hnone
    push Not at hnone
    have := (hheld e he).2 hnone
    omega

/-! ## Searching a block -/

/-- The sections of a block. -/
theorem sliceRange_block (h : w.Whole S root M) (hM : M = R.cellsAt q parent + n)
    (hR : R.keyed = as ++ (m ++ bs)) (hf : m.head? = some f) (hl : m.getLast? = some l) {fuel : Nat}
    (hfuel : m.length ≤ fuel) : w.sliceRange q l.2.id fuel f.2.id = .ok (Entries.ids m) := by
  induction m generalizing as f fuel with
  | nil => simp at hf
  | cons e rest ih =>
      obtain ⟨fuel, rfl⟩ : ∃ k, fuel = k + 1 := ⟨fuel - 1, by simp at hfuel; omega⟩
      cases hf
      cases rest with
      | nil =>
          obtain rfl : e = l := by simpa using hl
          simp [sliceRange, pure_eq_ok, Entries.ids]
      | cons d rest =>
          have hl' : (d :: rest).getLast? = some l := by
            rw [← hl, List.getLast?_cons_cons]
          -- the walk does not end before the last section of the block
          have hne : e.2.id ≠ l.2.id := by
            have hn := h.owns.nodup_ids hM
            rw [hR, Entries.ids_append, List.nodup_append] at hn
            have hn' := hn.2.1
            rw [List.cons_append, Entries.ids_cons, List.nodup_cons] at hn'
            intro heq
            refine hn'.1 ?_
            rw [heq]
            exact List.mem_map_of_mem (f := fun e : Int × Part NodeId => e.2.id)
              (List.mem_append.2 (Or.inl (List.mem_of_getLast? hl')))
          have hlinks := h.owns.links_row hM (show R.keyed = as ++ e :: ((d :: rest) ++ bs) from hR)
          have hrest := ih (show R.keyed = (as ++ [e]) ++ ((d :: rest) ++ bs) by rw [hR]; simp) rfl hl'
            (by simpa using hfuel)
          simp only [sliceRange, hne, if_false, hlinks, ok_bind, List.cons_append, Entries.firstId,
            hrest, pure_eq_ok]
          rfl

/-- The first of some sections that holds as many vertices as given. -/
theorem findHolding_entries (h : w.Whole S root M) (hM : M = R.cellsAt q parent + n) (count : Nat)
    {es : Entries} (hes : ∀ e ∈ es, e ∈ R.keyed) :
    w.findHolding count (Entries.ids es) =
      .ok ((es.find? fun e => decide (e.2.held.length = count)).map fun e => e.2.id) := by
  induction es with
  | nil => rfl
  | cons e rest ih =>
      obtain ⟨xs, ys, hR⟩ := List.append_of_mem (hes e List.mem_cons_self)
      have hcell := h.owns.cell_row hM hR
      have hrest := ih fun e he => hes e (List.mem_cons_of_mem _ he)
      rw [Entries.ids_cons, findHolding, hcell, ok_bind, List.find?_cons]
      by_cases hcount : e.2.held.length = count
      · simp [Loose.cell, hcount, pure_eq_ok]
      · simp [Loose.cell, hcount, hrest]

/-- Whether a section can stand in a gap depends on what stands on both sides. -/
theorem gapFits_sections {sections : List (Section Node)}
    (hsections : sections.map Section.held = R.toList.map Part.held) (nbrs : List Vertex) (i : Nat) :
    Node.gapFits nbrs sections (i + 1) =
      match R.keyed[i]?, R.keyed[i + 1]? with
      | some l, some r => partsBeyond nbrs l.2.held r.2.held
      | _, _ => false := by
  -- only what the sections hold counts
  have hget : ∀ j : Nat, sections[j]?.map Section.held =
      R.keyed[j]?.map fun e : Int × Part NodeId => e.2.held := by
    intro j
    rw [← List.getElem?_map, hsections, Row.toList, List.map_map, List.getElem?_map]
    rfl
  have hi := hget i
  have hi' := hget (i + 1)
  simp only [Node.gapFits, Nat.add_sub_cancel]
  cases hl : R.keyed[i]? with
  | none =>
      rw [hl, Option.map_none, Option.map_eq_none_iff] at hi
      simp [hi]
  | some l =>
      rw [hl, Option.map_some, Option.map_eq_some_iff] at hi
      obtain ⟨s, hs, hsl⟩ := hi
      cases hr : R.keyed[i + 1]? with
      | none =>
          rw [hr, Option.map_none, Option.map_eq_none_iff] at hi'
          simp [hs, hi']
      | some r =>
          rw [hr, Option.map_some, Option.map_eq_some_iff] at hi'
          obtain ⟨t, ht, htr⟩ := hi'
          simp [hs, ht, hsl, htr]

/-- The search for a gap on the right of some neighbouring sections finds the first one that fits. -/
theorem findGap_block (h : w.Whole S root M) (hM : M = R.cellsAt q parent + n) (p : Pass)
    {sections : List (Section Node)}
    (hsections : sections.map Section.held = R.toList.map Part.held)
    (hR : R.keyed = as ++ (m ++ bs)) :
    (w.findGap p (Entries.ids m) = .ok none ∧
        (List.range' (as.length + 1) m.length).find? (Node.gapFits p.nbrs sections) = none) ∨
      ∃ xs e d ys, R.keyed = (xs ++ [e]) ++ d :: ys ∧
        w.findGap p (Entries.ids m) = .ok (some (e.2.id, d.2.id)) ∧
        (List.range' (as.length + 1) m.length).find? (Node.gapFits p.nbrs sections) =
          some (xs ++ [e]).length := by
  induction m generalizing as with
  | nil => exact Or.inl ⟨rfl, rfl⟩
  | cons e rest ih =>
      have hRe : R.keyed = as ++ e :: (rest ++ bs) := hR
      have hlinks := h.owns.links_row hM hRe
      have hrest := ih (show R.keyed = (as ++ [e]) ++ (rest ++ bs) by rw [hR]; simp)
      have hfits := gapFits_sections hsections p.nbrs as.length
      have hget : R.keyed[as.length]? = some e := by simp [hR]
      have hnext : R.keyed[as.length + 1]? = (rest ++ bs).head? := by
        rw [hRe, List.getElem?_append_right (by omega)]
        simp [List.head?_eq_getElem?]
      simp only [hget, hnext] at hfits
      rw [List.length_append, List.length_singleton] at hrest
      rw [Entries.ids_cons, findGap, hlinks, ok_bind, List.length_cons, List.range'_succ,
        List.find?_cons, hfits]
      -- behind the last section of the row there is no gap
      cases hrb : rest ++ bs with
      | nil => exact hrest
      | cons d ds =>
          have hR' : R.keyed = (as ++ [e]) ++ d :: ds := by
            rw [hRe, List.append_assoc, List.singleton_append, ← hrb]
          have hcell := h.owns.cell_row hM hRe
          have hcell' := h.owns.cell_row hM hR'
          simp only [Entries.firstId, List.head?_cons, Work.gapFits, hcell, hcell', ok_bind, Loose.cell,
            pure_eq_ok]
          by_cases hparts : partsBeyond p.nbrs e.2.held d.2.held = true
          · rw [hparts]
            exact Or.inr ⟨as, e, d, ds, hR', rfl, by simp⟩
          · rw [Bool.not_eq_true] at hparts
            rw [hparts]
            exact hrest

/-- The gap for a new section beside or within a block. -/
theorem gapAt_block (h : w.Whole S root M) (hM : M = R.cellsAt q parent + n) (p : Pass)
    {sections : List (Section Node)}
    (hsections : sections.map Section.held = R.toList.map Part.held)
    (hR : R.keyed = as ++ (m ++ bs)) (hf : m.head? = some f) (hl : m.getLast? = some l) :
    (w.gapAt p q f.2.id l.2.id (Entries.ids m) = .ok none ∧
        Node.gap? p.nbrs sections as.length (as.length + m.length - 1) = none) ∨
      ∃ xs ys, R.keyed = xs ++ ys ∧ w.gapAt p q f.2.id l.2.id (Entries.ids m) =
          .ok (some (Entries.lastId xs none, Entries.firstId ys none)) ∧
        Node.gap? p.nbrs sections as.length (as.length + m.length - 1) = some xs.length := by
  obtain ⟨ms, rfl⟩ := List.head?_eq_some_iff.1 hf
  have hends := h.owns.ends_row hM
  have hne : R.keyed ≠ [] := by simp [hR]
  have hnodup := h.owns.nodup_ids hM
  have hRf : R.keyed = as ++ f :: (ms ++ bs) := hR
  have hlinks := h.owns.links_row hM hRf
  have hlen : sections.length = R.keyed.length := by
    simpa [Row.toList] using congrArg List.length hsections
  -- a block is at an end of the row if its own end is the one of the row
  have hfirst := Row.eq_firstPart_iff hnodup hRf
  have hlast : l.2.id = R.lastPart ↔ bs = [] := by
    obtain ⟨ini, hini⟩ := List.getLast?_eq_some_iff.1 hl
    have hRl : R.keyed = (as ++ ini) ++ l :: bs := by
      rw [hR, hini]
      simp
    exact Row.eq_lastPart_iff hnodup hRl
  simp only [gapAt, hends, ok_bind, pure_eq_ok, Node.gap?, hfirst]
  -- a block at the left end needs no gap; otherwise the gap before it counts as well
  rcases List.eq_nil_or_concat as with rfl | ⟨ini, z, rfl⟩
  · refine Or.inr ⟨[], R.keyed, rfl, ?_, by simp⟩
    rw [if_pos rfl, Row.firstId_eq_some hne]
    rfl
  · rw [List.concat_eq_append] at *
    have hne' : ini ++ [z] ≠ [] := by simp
    have hpos : (ini ++ [z]).length ≠ 0 := by simp
    have hrange : (ini ++ [z]).length + (f :: ms).length - 1 + 2 - (ini ++ [z]).length =
        (z :: f :: ms).length := by
      simp only [List.length_append, List.length_cons, List.length_nil]
      omega
    have hgap := h.findGap_block hM p hsections
      (show R.keyed = ini ++ ((z :: f :: ms) ++ bs) by rw [hR]; simp)
    rw [if_neg hne', if_neg hpos, hlinks]
    simp only [ok_bind, Entries.lastId_concat, Option.toList_some, List.singleton_append, hrange]
    have hids : z.2.id :: Entries.ids (f :: ms) = Entries.ids (z :: f :: ms) := rfl
    have hstart : ini.length + 1 = (ini ++ [z]).length := by simp
    rw [hids, ← hstart]
    rcases hgap with ⟨hgap, hfind⟩ | ⟨xs, e, d, ys, hR', hgap, hfind⟩
    · rw [hgap, hfind]
      simp only [ok_bind, hlast]
      have hend : ini.length + 1 + (f :: ms).length - 1 + 1 = sections.length ↔ bs = [] := by
        rw [hlen, hR]
        simp only [List.length_append, List.length_cons, List.length_nil, ← List.length_eq_zero_iff]
        omega
      by_cases hbs : bs = []
      · refine Or.inr ⟨R.keyed, [], (List.append_nil _).symm, ?_, ?_⟩
        · rw [if_pos hbs, Row.lastId_eq_some hne]
          rfl
        · rw [if_pos (hend.2 hbs), hlen]
      · exact Or.inl ⟨by rw [if_neg hbs], by rw [if_neg (mt hend.1 hbs)]⟩
    · rw [hgap, hfind]
      refine Or.inr ⟨xs ++ [e], d :: ys, hR', ?_, rfl⟩
      rw [Entries.lastId_concat]
      rfl

end Whole

end Work

end CliquePath
