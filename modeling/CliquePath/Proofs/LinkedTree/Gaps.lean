import CliquePath.Proofs.LinkedTree.Spans

set_option autoImplicit false

/-!
# New sections in a plan

This module shows what becomes of a plan when a vertex is put in below a new section of a row. The
runs of the neighbours that the row holds grow into the new section, so the slots still name the ends
of all runs.
-/

namespace CliquePath

open Cells (one)
open Plan (ctx)

/-! ## Moved ends -/

/-- A slot with one end of its run replaced, if one is given. -/
def Slot.move (slot : Slot) (old? : Option NodeId) (new : NodeId) : Slot :=
  match old?, slot with
  | some old, .span one other =>
      if one = old then .span new other else if other = old then .span one new else slot
  | _, _ => slot

theorem Slot.move_end {slot : Slot} {a b s : NodeId} (h : slot = .span a b ∨ slot = .span b a) :
    slot.move (some b) s = .span a s ∨ slot.move (some b) s = .span s a := by
  rcases h with rfl | rfl
  · by_cases hab : a = b
    · subst hab
      simp [move]
    · simp [move, hab]
  · simp [move]

namespace Work

variable {w : Work} {S : Set Vertex} {T U : Plan} {bs : List Bough} {q : NodeId} {u v : Vertex}
variable {P : Row (Part Plan)} {xs ys : List (Int × Part Plan)} {p : Pass}

theorem get_moveEnd? (w : Work) (v : Vertex) (old? : Option NodeId) (new : NodeId) (x : Vertex) :
    (w.moveEnd? v old? new).slots.get x =
      if x = v then (w.slots.get v).move old? new else w.slots.get x := by
  cases old? with
  | none =>
      have hmove : (w.slots.get v).move none new = w.slots.get v := by
        unfold Slot.move
        rfl
      by_cases hx : x = v
      · rw [if_pos hx, hmove, hx]
        rfl
      · rw [if_neg hx]
        rfl
  | some old =>
      simp only [moveEnd?, moveEnd]
      cases hslot : w.slots.get v with
      | absent =>
          by_cases hx : x = v
          · simp [hx, hslot, Slot.move]
          · simp [hx]
      | node id =>
          by_cases hx : x = v
          · simp [hx, hslot, Slot.move]
          · simp [hx]
      | span one other =>
          by_cases hx : x = v
          · subst hx
            simp only [Slot.move]
            by_cases h₁ : one = old
            · simp [h₁]
            · by_cases h₂ : other = old
              · simp [h₁, h₂]
              · simp [h₁, h₂, hslot]
          · by_cases h₁ : one = old
            · simp [h₁, hx]
            · by_cases h₂ : other = old
              · simp [h₁, h₂, hx]
              · simp [h₁, h₂, hx]

/-- The slots after the ends of several runs were replaced. -/
theorem get_foldl_moveEnd? {moves : List (Vertex × Option NodeId)} (hn : (moves.map Prod.fst).Nodup)
    (new : NodeId) (w : Work) :
    (∀ m ∈ moves, (moves.foldl (fun w m => w.moveEnd? m.1 m.2 new) w).slots.get m.1 =
        (w.slots.get m.1).move m.2 new) ∧
      ∀ x ∉ moves.map Prod.fst,
        (moves.foldl (fun w m => w.moveEnd? m.1 m.2 new) w).slots.get x = w.slots.get x := by
  induction moves generalizing w with
  | nil => simp
  | cons m rest ih =>
      rw [List.map_cons, List.nodup_cons] at hn
      obtain ⟨hin, hout⟩ := ih hn.2 (w.moveEnd? m.1 m.2 new)
      refine ⟨List.forall_mem_cons.2 ⟨?_, fun k hk => ?_⟩, fun x hx => ?_⟩
      · rw [List.foldl_cons, hout _ hn.1, get_moveEnd?, if_pos rfl]
      · have hne : k.1 ≠ m.1 := fun heq => hn.1 (heq ▸ List.mem_map_of_mem hk)
        rw [List.foldl_cons, hin k hk, get_moveEnd?, if_neg hne]
      · rw [List.map_cons, List.mem_cons, not_or] at hx
        rw [List.foldl_cons, hout x hx.2, get_moveEnd?, if_neg hx.1]

theorem slots_newSection {w' : Work} {left right : Option NodeId} {s : NodeId}
    {moves : List (Vertex × Option NodeId)} (hn : (moves.map Prod.fst).Nodup)
    (hu : p.vertex ∉ moves.map Prod.fst) (h : w.newSection p q left right moves = .ok (w', s)) :
    (∀ m ∈ moves, w'.slots.get m.1 = (w.slots.get m.1).move m.2 s) ∧
      (∀ x ∉ moves.map Prod.fst, x ≠ p.vertex → w'.slots.get x = w.slots.get x) ∧
        w'.touched = w.touched := by
  unfold newSection at h
  simp only [newLeaf] at h
  cases hins : (w.arena.alloc .leaf [p.vertex]).1.insertSlice q left right
      (w.arena.alloc .leaf [p.vertex]).2 (p.ownedBy q) with
  | error e =>
      rw [hins] at h
      cases h
  | ok a =>
      rw [hins] at h
      cases h
      obtain ⟨hin, hout⟩ := get_foldl_moveEnd? hn a.2 { w with
        arena := a.1, slots := w.slots.put p.vertex (.node (w.arena.alloc .leaf [p.vertex]).2) }
      refine ⟨fun m hm => ?_, fun x hx hxu => ?_, (foldl_moveEnd?_spec moves a.2 _).2.1⟩
      · have hne : m.1 ≠ p.vertex := fun heq => hu (heq ▸ List.mem_map_of_mem hm)
        rw [hin m hm, Slots.get_put, if_neg hne]
      · rw [hout x hx, Slots.get_put, if_neg hxu]

/-! ## The row of a plan in focus -/

theorem Draws.rowStands (h : w.Draws S ((Plan.qnode q P).under bs))
    (ht : ∀ t ∈ w.touched, t ∈ (Plan.limbCells (Plan.sons P)).map Prod.fst) :
    w.RowStands S (ctx bs) q (P.map Part.top) (Plan.limbCells (Plan.sons P)) := by
  have hst := h.stands fun t htt => by
    rw [Plan.cells_qnode, Multiset.map_add, Multiset.mem_add]
    exact Or.inr (ht t htt)
  rw [Plan.cells_qnode] at hst
  have hformed := h.formed.focus
  obtain ⟨hne, hasc⟩ := (Plan.formed_iff.1 hformed).1
  have htrees := Plan.trees_limbs fun l (hl : l ∈ Plan.sons P) => (hformed.limb hl).trees (some l.1)
  refine ⟨hst.owns, hst.agree, ht, ?_, hasc.map _, by simpa using hne⟩
  rw [Row.keyed_map, ← Plan.limbLinks_entries]
  simpa [Plan.sons, Row.toList, Function.comp_def] using htrees

/-- A row in focus completes a plan. -/
theorem RowStands.draws (h : w.RowStands S (ctx bs) q (P.map Part.top) (Plan.limbCells (Plan.sons P)))
    (hlive : w.arena.live = ((Plan.qnode q P).under bs).count)
    (hruns : w.slots.Runs ((Plan.qnode q P).under bs)) (hformed : ((Plan.qnode q P).under bs).Formed) :
    w.Draws S ((Plan.qnode q P).under bs) := by
  have hst := h.stands
  rw [← Plan.cells_qnode] at hst
  exact hst.draws hlive hruns hformed

/-- What the row in focus holds is in the tree and held nowhere else. -/
theorem Draws.of_row (h : w.Draws S ((Plan.qnode q P).under bs)) {s : Part Plan} (hs : s ∈ P.toList)
    (hv : v ∈ s.held) :
    v ∈ S ∧ ∀ r, ¬ (Plan.limbCells (Plan.sons P) + (ctx bs).cells q).Holds v r := by
  have hagree := h.agree
  have howns := h.owns
  rw [Plan.cells_under_row] at hagree howns
  have htrees := Plan.trees_limbs fun l (hl : l ∈ Plan.sons P) =>
    (h.formed.focus.limb hl).trees (some l.1)
  have hinside : (Plan.limbCells (Plan.sons P) + (ctx bs).cells q).RowsInside :=
    (Cells.RowsInside.of_trees htrees).add h.formed.ok.rowsInside
  have hpart : s.top ∈ (P.map Part.top).toList := by
    rw [Row.toList_map]
    exact List.mem_map_of_mem hs
  obtain ⟨-, hout⟩ := hagree.fit.of_row (howns.row_not_mem rfl) hinside hpart hv
  exact ⟨hagree.mem_of_holds (Cells.holds_add.2 (Or.inl (Cells.holds_cellsAt.2 ⟨_, hpart, hv, rfl⟩))),
    hout⟩

/-! ## New sections -/

/-- The end at which the run of a vertex grows into a gap between two parts of a row, if any. -/
def GrowsAt (v : Vertex) (old? : Option NodeId) (left right : List (NodeId × List Vertex)) : Prop :=
  (old? = none ∧ hits v left ≠ [] ∧ hits v right ≠ []) ∨
    (∃ l, old? = some l ∧ (hits v left).getLast? = some l ∧ hits v right = []) ∨
      ∃ f, old? = some f ∧ hits v left = [] ∧ (hits v right).head? = some f

/-- The slot of a vertex whose run grew into a new section names its ends. -/
theorem GrowsAt.marks {left right : List (NodeId × List Vertex)} {old? : Option NodeId} {slot : Slot}
    {s f l : NodeId} (h : GrowsAt v old? left right)
    (hslot : ∀ f l, (hits v (left ++ right)).head? = some f →
      (hits v (left ++ right)).getLast? = some l → slot = .span f l ∨ slot = .span l f)
    (hf : (hits v left ++ s :: hits v right).head? = some f)
    (hl : (hits v left ++ s :: hits v right).getLast? = some l) :
    slot.move old? s = .span f l ∨ slot.move old? s = .span l f := by
  rw [hits_append] at hslot
  -- The new section stands within the run, behind its last section, or before its first one.
  rcases h with ⟨rfl, hleft, hright⟩ | ⟨b, rfl, hb, hright⟩ | ⟨a, rfl, hleft, ha⟩
  · have hmove : slot.move none s = slot := rfl
    rw [hmove]
    obtain ⟨x, xs, hxs⟩ := List.exists_cons_of_ne_nil hleft
    obtain ⟨ini, y, hy⟩ := (List.eq_nil_or_concat (hits v right)).resolve_left hright
    rw [List.concat_eq_append] at hy
    rw [hxs] at hf hslot
    rw [hy, ← List.cons_append, ← List.append_assoc, List.getLast?_concat] at hl
    refine hslot f l hf ?_
    rw [hy, ← List.append_assoc, List.getLast?_concat]
    exact hl
  · rw [hright, List.getLast?_concat] at hl
    cases hl
    rw [hright, List.append_nil] at hslot
    have hne : hits v left ≠ [] := by
      intro hnil
      simp [hnil] at hb
    rw [List.head?_append_of_ne_nil _ hne] at hf
    exact Slot.move_end (hslot f b hf hb)
  · rw [hleft, List.nil_append, List.head?_cons] at hf
    cases hf
    rw [hleft, List.nil_append] at hslot
    have hne : hits v right ≠ [] := by
      intro hnil
      simp [hnil] at ha
    rw [hleft, List.nil_append, List.getLast?_cons, List.getLast?_eq_some_getLast hne,
      Option.getD_some] at hl
    exact (Slot.move_end (hslot a l ha (by
      rw [List.getLast?_eq_some_getLast hne]
      exact hl)).symm).symm

/-- The slots differ by the moved ends of some runs, apart from the slot of `u`. -/
structure Moved (slots slots' : Slots) (u : Vertex) (moves : List (Vertex × Option NodeId)) (s : NodeId) :
    Prop where
  moved : ∀ m ∈ moves, slots'.get m.1 = (slots.get m.1).move m.2 s
  kept : ∀ x ∉ moves.map Prod.fst, x ≠ u → slots'.get x = slots.get x

/-- A vertex of a new section has a longer run; all other runs stay. -/
theorem Moved.marks {slots slots' : Slots} {moves : List (Vertex × Option NodeId)} {s : NodeId}
    {left right : List (NodeId × List Vertex)} (h : Moved slots slots' u moves s)
    (hmarks : slots.Marks (left ++ right)) (hu : ∀ e ∈ left ++ right, u ∉ e.2)
    (hgrows : ∀ m ∈ moves, GrowsAt m.1 m.2 left right) :
    slots'.Marks (left ++ (s, moves.map Prod.fst) :: right) := by
  intro v f l hf hl
  have hcons : hits v ((s, moves.map Prod.fst) :: right) =
      if v ∈ moves.map Prod.fst then s :: hits v right else hits v right := by
    by_cases hv : v ∈ moves.map Prod.fst <;> simp [hits, hv]
  rw [hits_append, hcons] at hf hl
  by_cases hv : v ∈ moves.map Prod.fst
  · rw [if_pos hv] at hf hl
    obtain ⟨m, hm, rfl⟩ := List.mem_map.1 hv
    rw [h.moved m hm]
    exact (hgrows m hm).marks (hmarks m.1) hf hl
  · rw [if_neg hv, ← hits_append] at hf hl
    rw [h.kept v hv]
    · exact hmarks v f l hf hl
    · rintro rfl
      obtain ⟨held, hmem, hheld⟩ := mem_hits.1 (List.mem_of_head? hf)
      exact hu _ hmem hheld

end Work

/-! ## A row with one part more -/

namespace Plan

variable {q : NodeId} {P : Row (Part Plan)} {xs ys : List (Int × Part Plan)} {s : Part Plan}
variable {l : NodeId × Plan}

theorem toList_insertAt_keyed (hP : P.keyed = xs ++ ys) (s : Part Plan) :
    (P.insertAt xs.length s).toList = xs.map Prod.snd ++ s :: ys.map Prod.snd := by
  have hlen : xs.length = (xs.map Prod.snd).length := by simp
  rw [Row.toList_insertAt, Row.toList, hP, List.map_append, hlen, List.take_left, List.drop_left]

theorem sons_of_keyed (hP : P.keyed = xs ++ ys) : sons P =
    xs.map (fun e => (e.2.id, e.2.son)) ++ ys.map fun e => (e.2.id, e.2.son) := by
  rw [sons, Row.toList, hP]
  simp [Function.comp_def]

theorem sons_insertAt (hP : P.keyed = xs ++ ys) : sons (P.insertAt xs.length s) =
    xs.map (fun e => (e.2.id, e.2.son)) ++ (s.id, s.son) :: ys.map fun e => (e.2.id, e.2.son) := by
  rw [sons, toList_insertAt_keyed hP]
  simp [Function.comp_def]

theorem mem_sons_insertAt (hP : P.keyed = xs ++ ys) :
    l ∈ sons (P.insertAt xs.length s) ↔ l = (s.id, s.son) ∨ l ∈ sons P := by
  rw [sons_insertAt hP, sons_of_keyed hP, List.mem_append, List.mem_cons, List.mem_append]
  exact or_left_comm

theorem limbCells_insertAt (hP : P.keyed = xs ++ ys) :
    limbCells (sons (P.insertAt xs.length s)) = s.son.cells (some s.id) + limbCells (sons P) := by
  rw [sons_insertAt hP, limbCells_middle, sons_of_keyed hP]

theorem count_insertAt (hP : P.keyed = xs ++ ys) :
    (qnode q (P.insertAt xs.length s)).count = (qnode q P).count + 1 + s.son.count := by
  rw [count_qnode, count_qnode, sons_insertAt hP, sons_of_keyed hP]
  simp only [List.length_append, List.length_cons, limbCount_append, limbCount_cons]
  omega

/-- The sections of the longer row, with what they hold. -/
theorem spans_insertAt (hP : P.keyed = xs ++ ys) : spans (qnode q (P.insertAt xs.length s)) =
    xs.map (fun e => e.2.span) ++ s.span :: ys.map fun e => e.2.span := by
  rw [spans, toList_insertAt_keyed hP]
  simp [Function.comp_def]

theorem Formed.insertAt (h : (qnode q P).Formed) (hP : P.keyed = xs ++ ys) (hs : s.son.Formed) :
    (qnode q (P.insertAt xs.length s)).Formed := by
  refine formed_iff.2 ⟨⟨fun hnil => ?_, (formed_iff.1 h).1.2.insertAt _ _⟩, fun l hl => ?_⟩
  · have hlist := toList_insertAt_keyed hP s
    rw [Row.toList, hnil] at hlist
    simp at hlist
  · rcases (mem_sons_insertAt hP).1 hl with rfl | hl
    · exact hs
    · exact h.limb hl

end Plan

namespace Work

variable {w : Work} {S : Set Vertex} {bs : List Bough} {q : NodeId} {P : Row (Part Plan)}
variable {xs ys : List (Int × Part Plan)} {p : Pass} {moves : List (Vertex × Option NodeId)}

/-- The slots outside of the row name the ends of the same runs. -/
theorem Draws.runs_newSection {w' : Work} {s : NodeId} (h : w.Draws S ((Plan.qnode q P).under bs))
    (hP : P.keyed = xs ++ ys) (hu : p.vertex ∉ S)
    (howned : ∀ v ∈ moves.map Prod.fst, ∃ s ∈ P.toList, v ∈ s.held)
    (hgrows : ∀ m ∈ moves, GrowsAt m.1 m.2 (xs.map fun e => e.2.span) (ys.map fun e => e.2.span))
    (hmoved : Moved w.slots w'.slots p.vertex moves s) (leaf : NodeId) :
    w'.slots.Runs ((Plan.qnode q (P.insertAt xs.length
      ⟨s, moves.map Prod.fst, .leaf leaf [p.vertex]⟩)).under bs) := by
  -- A vertex that is held outside of the sections of the row keeps its slot.
  have hkept : ∀ v r, (Plan.limbCells (Plan.sons P) + (ctx bs).cells q).Holds v r →
      w'.slots.get v = w.slots.get v := by
    intro v r hr
    refine hmoved.kept v (fun hmem => ?_) ?_
    · obtain ⟨part, hpart, hheld⟩ := howned v hmem
      exact (h.of_row hpart hheld).2 r hr
    · rintro rfl
      rcases Cells.holds_add.1 hr with hr | hr
      · refine h.agree.not_holds hu r (Plan.holds_under.2 (Or.inl ?_))
        exact Plan.holds_cells.2 (Or.inr (Plan.holds_limbCells.1 hr))
      · exact h.agree.not_holds hu r (Plan.holds_under.2 (Or.inr hr))
  refine h.runs.refill (T := .qnode q P) (Slots.Runs.iff_limbs.2 ⟨?_, fun l hl => ?_⟩)
    fun v r hr => hkept v r (Cells.holds_add.2 (Or.inr hr))
  · have hspans : P.toList.map Part.span = xs.map (fun e => e.2.span) ++ ys.map fun e => e.2.span := by
      rw [Row.toList, hP]
      simp [Function.comp_def]
    rw [Plan.spans_insertAt hP]
    refine hmoved.marks (hspans ▸ h.marks_row) (fun e he hheld => ?_) hgrows
    rw [← hspans] at he
    obtain ⟨part, hpart, rfl⟩ := List.mem_map.1 he
    exact hu (h.of_row hpart hheld).1
  · rcases (Plan.mem_sons_insertAt hP).1 hl with rfl | hl
    · exact .leaf _ _ _
    · intro V hV
      refine ((Slots.Runs.iff_limbs.1 h.runs.focus).2 l hl V hV).congr fun t ht' v hv => ?_
      obtain ⟨q', hq'⟩ := Plan.holds_of_limb_spans hl hV ht' hv
      exact hkept v _ (Cells.holds_add.2 (Or.inl hq'))

/-- A vertex can be put in below a new section, at a gap or an end of a row. -/
theorem Draws.newSection (h : w.Draws S ((Plan.qnode q P).under bs))
    (ht : ∀ t ∈ w.touched, t ∈ (Plan.limbCells (Plan.sons P)).map Prod.fst)
    (hP : P.keyed = xs ++ ys) (hu : p.vertex ∉ S)
    (howned : ∀ v ∈ p.ownedBy q, ∃ s ∈ P.toList, v ∈ s.held)
    (hmoves : moves.map Prod.fst = p.ownedBy q) (hnodup : (p.ownedBy q).Nodup)
    (hgrows : ∀ m ∈ moves, GrowsAt m.1 m.2 (xs.map fun e => e.2.span) (ys.map fun e => e.2.span)) :
    ∃ w' s leaf, w.newSection p q (Entries.lastId (xs.map (Row.entry Part.top)) none)
        (Entries.firstId (ys.map (Row.entry Part.top)) none) moves = .ok (w', s) ∧
      w'.touched = w.touched ∧
      w'.Draws (insert p.vertex S)
        ((Plan.qnode q (P.insertAt xs.length ⟨s, p.ownedBy q, .leaf leaf [p.vertex]⟩)).under bs) := by
  have hrow := h.rowStands ht
  have hkeyed : (P.map Part.top).keyed = xs.map (Row.entry Part.top) ++ ys.map (Row.entry Part.top) :=
    Row.keyed_map_append _ hP
  have hends : ∀ v ∈ p.ownedBy q, (w.slots.get v).Ends ((P.map Part.top).HoldsAt v) := by
    intro v hv
    obtain ⟨s, hs, hvs⟩ := howned v hv
    have htop : s.top ∈ (P.map Part.top).toList := by
      rw [Row.toList_map]
      exact List.mem_map_of_mem hs
    exact (hrow.stands.of_row h.formed.ok hrow.sons htop hvs).2.1
  obtain ⟨w', s, leaf, hnew, hrow'⟩ := hrow.newSection h.formed.ok hkeyed hu hends fun m hm =>
    hmoves ▸ List.mem_map_of_mem hm
  -- The new vertex is not in the tree, so it is no neighbour held in the row.
  have hune : p.vertex ∉ moves.map Prod.fst := by
    rw [hmoves]
    intro hmem
    obtain ⟨s, hs, hvs⟩ := howned _ hmem
    exact hu (h.of_row hs hvs).1
  obtain ⟨hin, hout, htouched⟩ := slots_newSection (hmoves ▸ hnodup) hune hnew
  refine ⟨w', s, leaf, hnew, htouched, ?_⟩
  have hruns := h.runs_newSection hP hu (hmoves.symm ▸ howned) hgrows ⟨hin, hout⟩ leaf
  rw [hmoves] at hruns
  have hcells : one leaf (leafCell (some s) [p.vertex]) + Plan.limbCells (Plan.sons P) =
      Plan.limbCells (Plan.sons (P.insertAt xs.length ⟨s, p.ownedBy q, .leaf leaf [p.vertex]⟩)) := by
    rw [Plan.limbCells_insertAt hP, Plan.cells_leaf]
  rw [List.length_map, show (⟨s, p.ownedBy q, leaf⟩ : Part NodeId) =
    Part.top ⟨s, p.ownedBy q, .leaf leaf [p.vertex]⟩ from rfl, Row.insertAt_map, hcells] at hrow'
  refine hrow'.draws ?_ hruns (h.formed.refill (h.formed.focus.insertAt hP Plan.formed_leaf))
  -- The section and its leaf are new.
  have hlive : w'.arena.live = w.arena.live + 2 := by
    rw [Arena.live, life_newSection hnew, Array.count_push_self, Array.count_push_self, Arena.live]
  have hcount := Plan.count_under (.qnode q P)
    (.qnode q (P.insertAt xs.length ⟨s, p.ownedBy q, .leaf leaf [p.vertex]⟩)) bs
  rw [Plan.count_insertAt hP, Plan.count_leaf] at hcount
  have := h.live
  omega

end Work

end CliquePath
