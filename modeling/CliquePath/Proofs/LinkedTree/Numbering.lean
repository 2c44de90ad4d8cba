import CliquePath.Proofs.LinkedTree.OneTree
import CliquePath.Proofs.LinkedTree.Readouts

set_option autoImplicit false

/-!
# The numbers of the leaves of a plan

This module shows which numbers the walk through a linked tree gives to the leaves of the plan for which
the tree stands. The leaves below any node get consecutive numbers in the order of the plan, and the
range noted for a node runs from the first of them to the last. A section gets the range of the node
below it. The walk notes nothing for cells outside of the plan, so later steps of it leave earlier ranges
as they are.
-/

namespace CliquePath

open Plan (ctx)

namespace Plan

variable {T : Plan} {ls ks : List (NodeId × Plan)} {l : NodeId × Plan} {id : NodeId}

/-- The node itself if it is a leaf. -/
def tip : Plan → List NodeId
  | .leaf x _ => [x]
  | .pnode _ _ _ => []
  | .qnode _ _ => []

/-- The leaves of a plan from left to right. -/
def leaves (T : Plan) : List NodeId := T.tip ++ T.limbs.attach.flatMap fun ⟨l, _⟩ => l.2.leaves
termination_by sizeOf T
decreasing_by exact sizeOf_lt_of_limb ‹l ∈ T.limbs›

/-- The leaves of several plans. -/
def limbLeaves (ls : List (NodeId × Plan)) : List NodeId := ls.flatMap fun l => l.2.leaves

/-- The number of leaves. -/
def width (T : Plan) : Nat := T.leaves.length

theorem leaves_eq (T : Plan) : T.leaves = T.tip ++ limbLeaves T.limbs := by
  rw [leaves, limbLeaves]
  conv_rhs => rw [← List.attach_map_subtype_val T.limbs, List.flatMap_map]

@[simp]
theorem leaves_leaf (x : NodeId) (held : List Vertex) : (leaf x held).leaves = [x] := by
  rw [leaves_eq]
  rfl

@[simp]
theorem limbLeaves_nil : limbLeaves [] = [] := rfl

theorem limbLeaves_cons : limbLeaves (l :: ls) = l.2.leaves ++ limbLeaves ls := by
  rw [limbLeaves, List.flatMap_cons]
  rfl

theorem limbLeaves_append : limbLeaves (ls ++ ks) = limbLeaves ls ++ limbLeaves ks := by
  rw [limbLeaves, List.flatMap_append]
  rfl

/-- The places of all cells that stand for the plan. -/
def places (T : Plan) : Multiset NodeId := (T.cells none).map Prod.fst

/-- The places of all cells that stand for several plans. -/
def limbPlaces (ls : List (NodeId × Plan)) : Multiset NodeId := (limbCells ls).map Prod.fst

theorem map_fst_own (T : Plan) (parent : Option NodeId) :
    (T.own parent).map Prod.fst = (T.own none).map Prod.fst := by
  cases T with
  | leaf x held => rfl
  | pnode x held children => rfl
  | qnode q row => rw [own, own, Arena.ids_cellsAt, Arena.ids_cellsAt]

theorem map_fst_cells (T : Plan) (parent : Option NodeId) : (T.cells parent).map Prod.fst = T.places := by
  rw [places, cells_eq, cells_eq, Multiset.map_add, Multiset.map_add, map_fst_own]

theorem places_eq (T : Plan) : T.places = (T.own none).map Prod.fst + limbPlaces T.limbs := by
  rw [places, cells_eq, Multiset.map_add, limbPlaces]

theorem id_mem_places (T : Plan) : T.id ∈ T.places := T.id_mem_cells none

@[simp]
theorem limbPlaces_nil : limbPlaces [] = 0 := rfl

theorem limbPlaces_cons : limbPlaces (l :: ls) = l.2.places + limbPlaces ls := by
  rw [limbPlaces, limbCells_cons, Multiset.map_add, map_fst_cells]
  rfl

theorem mem_limbPlaces : id ∈ limbPlaces ls ↔ ∃ l ∈ ls, id ∈ l.2.places := by
  induction ls with
  | nil => simp
  | cons l rest ih => rw [limbPlaces_cons, Multiset.mem_add, ih]; simp

theorem places_qnode (q : NodeId) (row : Row (Part Plan)) : (qnode q row).places =
    {q} + ((((sons row).map Prod.fst : List NodeId) : Multiset NodeId) + limbPlaces (sons row)) := by
  have hids : (sons row).map Prod.fst = row.toList.map Part.id := by
    simp [sons, Function.comp_def]
  rw [places_eq, own, Arena.ids_cellsAt, Row.ids_top, ← hids, add_assoc]
  rfl

/-- The sections of a row and the cells below them have different places. -/
theorem nodup_sections {q : NodeId} {row : Row (Part Plan)} (hn : (qnode q row).places.Nodup) :
    ((((sons row).map Prod.fst : List NodeId) : Multiset NodeId) + limbPlaces (sons row)).Nodup :=
  (Multiset.nodup_add.1 (places_qnode q row ▸ hn)).2.1

theorem section_ne {q : NodeId} {row : Row (Part Plan)} {s : Part Plan} (hn : (qnode q row).places.Nodup)
    (hs : s ∈ row.toList) : s.id ≠ q := by
  rintro rfl
  rw [places_qnode] at hn
  refine Multiset.disjoint_left.1 (Multiset.nodup_add.1 hn).2.2 (Multiset.mem_singleton_self _)
    (Multiset.mem_add.2 (Or.inl (Multiset.mem_coe.2 (List.mem_map.2 ⟨_, List.mem_map_of_mem hs, rfl⟩))))

theorem holder_mem_places (hl : l ∈ T.limbs) : l.1 ∈ T.places := by
  rw [places_eq, Multiset.mem_add]
  exact Or.inl (holder_mem_own hl)

theorem mem_places_of_limb (hl : l ∈ T.limbs) (hid : id ∈ l.2.places) : id ∈ T.places := by
  rw [places_eq, Multiset.mem_add]
  exact Or.inr (mem_limbPlaces.2 ⟨l, hl, hid⟩)

/-- The top of a plan stands below none of its limbs. -/
theorem ne_id_of_limb (hn : T.places.Nodup) (hl : l ∈ T.limbs) (hid : id ∈ l.2.places) : id ≠ T.id := by
  rintro rfl
  rw [places_eq, Multiset.nodup_add] at hn
  obtain ⟨d, hd, -⟩ := T.exists_own_cell none
  exact Multiset.disjoint_left.1 hn.2.2 (Multiset.mem_map_of_mem Prod.fst hd)
    (mem_limbPlaces.2 ⟨l, hl, hid⟩)

/-- The leaves below a node and the sections above them have the ranges that they should have if the
first leaf has the number `n + 1`. -/
inductive LaidOut (layout : Layout) : Nat → Plan → Prop
  | mk {n : Nat} {T : Plan} (node : layout.range? T.id = some (n + 1, n + T.width))
      (sections : ∀ q row, T = .qnode q row →
        ∀ s ∈ row.toList, layout.range? s.id = layout.range? s.son.id)
      (limbs : ∀ before l after, T.limbs = before ++ l :: after →
        LaidOut layout (n + (limbLeaves before).length) l.2) : LaidOut layout n T

variable {layout layout' : Layout} {n : Nat} {U : Plan}

/-- The range of the node at the top. -/
theorem LaidOut.range (h : T.LaidOut layout n) : layout.range? T.id = some (n + 1, n + T.width) := by
  obtain ⟨node, -, -⟩ := h
  exact node

/-- The layout of a plan depends on the ranges of its cells only. -/
theorem LaidOut.congr (h : T.LaidOut layout n)
    (hsame : ∀ id ∈ T.places, layout'.range? id = layout.range? id) : T.LaidOut layout' n := by
  induction h with
  | @mk n T node sections limbs ih =>
      refine .mk (hsame _ T.id_mem_places ▸ node) (fun q row hT s hs => ?_) fun before l after hsplit => ?_
      · have hl : (s.id, s.son) ∈ T.limbs := by
          rw [hT]
          exact List.mem_map_of_mem hs
        rw [hsame _ (holder_mem_places hl), hsame _ (mem_places_of_limb hl s.son.id_mem_places),
          sections q row hT s hs]
      · -- the cells of a limb are cells of the plan
        have hl : l ∈ T.limbs := by rw [hsplit]; simp
        exact ih before l after hsplit fun id hid => hsame id (mem_places_of_limb hl hid)

/-- All parts of a plan are laid out with it. -/
theorem LaidOut.part (h : T.LaidOut layout n) (hU : U ∈ T.parts) : ∃ m, U.LaidOut layout m := by
  induction h with
  | @mk n T node sections limbs ih =>
      rcases mem_parts_iff.1 hU with rfl | ⟨l, hl, hU⟩
      · exact ⟨n, .mk node sections limbs⟩
      · obtain ⟨before, after, hsplit⟩ := List.append_of_mem hl
        exact ih before l after hsplit hU

end Plan

/-! ## Ranges side by side -/

namespace Layout

open Plan (limbLeaves limbPlaces LaidOut)

variable {l l' l'' : Layout} {id : NodeId} {ls : List (NodeId × Plan)} {marks marks' : List NodeId}
variable {placeOf : NodeId × Plan → NodeId} {n : Nat} {T : Plan}

theorem range?_note_of_ne {r? : Option (Nat × Nat)} {x : NodeId} (hne : id ≠ x) :
    (l.note x r?).range? id = l.range? id := by
  rw [range?, range?, note, Array.getElem?_setIfInBounds, if_neg (Ne.symm hne)]

theorem range?_note_self {r? : Option (Nat × Nat)} {x : NodeId} (hx : x < l.ranges.size) :
    (l.note x r?).range? x = r? := by
  rw [range?, note, Array.getElem?_setIfInBounds, if_pos rfl, if_pos hx]
  rfl

theorem size_note (l : Layout) (x : NodeId) (r? : Option (Nat × Nat)) :
    (l.note x r?).ranges.size = l.ranges.size := by
  simp [note]

/-- The hull of ranges that follow one another. -/
theorem hull_limbs (hne : ls ≠ []) (h : ∀ before k after, ls = before ++ k :: after →
      l.range? (placeOf k) = some (n + (limbLeaves before).length + 1,
        n + (limbLeaves before).length + k.2.width)) :
    l.hull (ls.map placeOf) = .ok (some (n + 1, n + (limbLeaves ls).length)) := by
  induction ls generalizing n with
  | nil => exact absurd rfl hne
  | cons k rest ih =>
      have hk : l.range? (placeOf k) = some (n + 1, n + k.2.width) := h [] k rest rfl
      rw [List.map_cons, hull, hk]
      -- the hull of the rest begins right behind the range of the first plan
      cases rest with
      | nil =>
          simp only [List.map_nil, hull, pure_eq_ok, ok_bind, Plan.limbLeaves_cons, Plan.limbLeaves_nil,
            List.append_nil]
          rfl
      | cons k' rest =>
          have hrest := ih (n := n + k.2.width) (by simp) fun before x after hsplit => by
            have hx := h (k :: before) x after (by rw [hsplit]; rfl)
            rwa [Plan.limbLeaves_cons, List.length_append, ← Nat.add_assoc] at hx
          simp only [hrest, ok_bind, pure_eq_ok, Except.ok.injEq, Option.some.injEq, Prod.mk.injEq]
          rw [Plan.limbLeaves_cons (l := k), List.length_append, Plan.width]
          omega

/-- Ranges that follow one another ascend. -/
theorem ascending_limbs (h : ∀ before k after, ls = before ++ k :: after →
      l.range? (placeOf k) = some (n + (limbLeaves before).length + 1,
        n + (limbLeaves before).length + k.2.width)) :
    (ls.map placeOf).Pairwise fun x y => ∀ r r', l.range? x = some r → l.range? y = some r' →
      r.1 ≤ r'.1 ∧ r.2 ≤ r'.2 := by
  induction ls generalizing n with
  | nil => exact .nil
  | cons k rest ih =>
      have hk : l.range? (placeOf k) = some (n + 1, n + k.2.width) := h [] k rest rfl
      have hrest : ∀ before x after, rest = before ++ x :: after → l.range? (placeOf x) =
          some (n + k.2.width + (limbLeaves before).length + 1,
            n + k.2.width + (limbLeaves before).length + x.2.width) := by
        intro before x after hsplit
        have hx := h (k :: before) x after (by rw [hsplit]; rfl)
        rwa [Plan.limbLeaves_cons, List.length_append, ← Nat.add_assoc] at hx
      rw [List.map_cons, List.pairwise_cons, List.forall_mem_map]
      refine ⟨fun x hx r r' hr hr' => ?_, ih hrest⟩
      obtain ⟨before, after, hsplit⟩ := List.append_of_mem hx
      -- a later plan begins where all plans before it have ended
      cases hk.symm.trans hr
      cases (hrest before x after hsplit).symm.trans hr'
      exact ⟨by dsimp only; omega, by dsimp only; omega⟩

/-- What the walk through several plans adds to a layout. It notes ranges for their cells and for the
sections in `marks`, each of which is above one of them. -/
structure Adds (ls : List (NodeId × Plan)) (marks : List NodeId) (l l' : Layout) : Prop where
  size : l'.ranges.size = l.ranges.size
  leaves : l'.leaves = l.leaves ++ limbLeaves ls
  kept : ∀ id, id ∉ marks → id ∉ limbPlaces ls → l'.range? id = l.range? id
  marked : ∀ id ∈ marks, ∃ k ∈ ls, k.1 = id ∧ l'.range? id = l'.range? k.2.id
  laid : ∀ before k after, ls = before ++ k :: after →
    k.2.LaidOut l' (l.leaves.length + (limbLeaves before).length)

theorem adds_nil (l : Layout) : Adds [] [] l l :=
  ⟨rfl, by simp, fun _ _ _ => rfl, by simp, fun before k after hsplit => by simp at hsplit⟩

/-- One plan after another. -/
theorem Adds.cons {k : NodeId × Plan} (h : Adds [k] marks l l') (h' : Adds ls marks' l' l'')
    (hmarks : ∀ id ∈ marks, id ∉ marks' ∧ id ∉ limbPlaces ls)
    (hplaces : ∀ id ∈ k.2.places, id ∉ marks' ∧ id ∉ limbPlaces ls) :
    Adds (k :: ls) (marks ++ marks') l l'' := by
  have hlater : ∀ id ∈ k.2.places, l''.range? id = l'.range? id :=
    fun id hid => h'.kept id (hplaces id hid).1 (hplaces id hid).2
  refine ⟨h'.size.trans h.size, ?_, fun id hid hls => ?_, fun id hid => ?_, fun before x after hsplit => ?_⟩
  · rw [h'.leaves, h.leaves, Plan.limbLeaves_cons, Plan.limbLeaves_cons, Plan.limbLeaves_nil,
      List.append_nil, List.append_assoc]
  · rw [List.mem_append, not_or] at hid
    rw [Plan.limbPlaces_cons, Multiset.mem_add, not_or] at hls
    rw [h'.kept id hid.2 hls.2]
    refine h.kept id hid.1 ?_
    rw [Plan.limbPlaces_cons, Plan.limbPlaces_nil, add_zero]
    exact hls.1
  · rcases List.mem_append.1 hid with hid | hid
    · obtain ⟨x, hx, rfl, hrange⟩ := h.marked id hid
      rw [List.mem_singleton] at hx
      rw [hx] at hid hrange ⊢
      refine ⟨k, List.mem_cons_self, rfl, ?_⟩
      rw [h'.kept _ (hmarks _ hid).1 (hmarks _ hid).2, hrange, hlater _ k.2.id_mem_places]
    · obtain ⟨x, hx, hid, hrange⟩ := h'.marked id hid
      exact ⟨x, List.mem_cons_of_mem _ hx, hid, hrange⟩
  · rcases List.cons_eq_append_iff.1 hsplit with ⟨rfl, hx⟩ | ⟨before', rfl, hx⟩
    · cases hx
      exact (h.laid [] _ [] rfl).congr hlater
    · -- the plans behind the first one start with its leaves behind them
      have hlaid := h'.laid before' x after hx
      rw [h.leaves, Plan.limbLeaves_cons, Plan.limbLeaves_nil, List.append_nil, List.length_append] at hlaid
      rwa [Plan.limbLeaves_cons, List.length_append, ← Nat.add_assoc]

/-- Several plans are laid out one by one. -/
theorem adds_of_foldlM {f : Layout → NodeId → Except TreeFault Layout}
    {mark : NodeId × Plan → List NodeId}
    (hstep : ∀ k ∈ ls, ∀ l₁ l₂, l₁.ranges.size = l.ranges.size → f l₁ (placeOf k) = .ok l₂ →
      Adds [k] (mark k) l₁ l₂)
    (hnodup : (((ls.flatMap mark : List NodeId) : Multiset NodeId) + limbPlaces ls).Nodup)
    (h : (ls.map placeOf).foldlM f l = .ok l') : Adds ls (ls.flatMap mark) l l' := by
  induction ls generalizing l with
  | nil =>
      cases h
      exact adds_nil _
  | cons k rest ih =>
      rw [List.map_cons, List.foldlM_cons] at h
      obtain ⟨l₁, h₁, h⟩ := Arena.exists_of_bind h
      have hk := hstep k List.mem_cons_self l l₁ rfl h₁
      rw [List.flatMap_cons, ← Multiset.coe_add, Plan.limbPlaces_cons, add_add_add_comm,
        Multiset.nodup_add] at hnodup
      obtain ⟨-, hrest, hdisjoint⟩ := hnodup
      -- the cells of the first plan are not touched by the walk through the rest
      have hapart : ∀ id ∈ ((mark k : List NodeId) : Multiset NodeId) + k.2.places,
          id ∉ rest.flatMap mark ∧ id ∉ limbPlaces rest := by
        intro id hid
        have hnot := Multiset.disjoint_left.1 hdisjoint hid
        rwa [Multiset.mem_add, not_or, Multiset.mem_coe] at hnot
      refine hk.cons (ih (fun x hx l₁' l₂ hsize => ?_) hrest h)
        (fun id hid => hapart id (Multiset.mem_add.2 (Or.inl (Multiset.mem_coe.2 hid))))
        fun id hid => hapart id (Multiset.mem_add.2 (Or.inr hid))
      exact hstep x (List.mem_cons_of_mem _ hx) l₁' l₂ (hsize.trans hk.size)

/-- The hull of one range. -/
theorem eq_of_hull_singleton {r? : Option (Nat × Nat)} (h : l.hull [id] = .ok r?) : r? = l.range? id := by
  rw [hull] at h
  cases hrange : l.range? id with
  | none =>
      rw [hrange] at h
      cases h
  | some r =>
      rw [hrange] at h
      exact (Except.ok.inj h).symm

/-- A section is marked with the range of the node below it. -/
theorem Adds.mark {k : NodeId × Plan} {r? : Option (Nat × Nat)} (h : Adds [k] [] l l')
    (hhull : l'.hull [k.2.id] = .ok r?) (hfresh : k.1 ∉ k.2.places) (hsize : k.1 < l.ranges.size) :
    Adds [k] [k.1] l (l'.note k.1 r?) := by
  have hother : ∀ id ∈ k.2.places, (l'.note k.1 r?).range? id = l'.range? id := by
    intro id hid
    refine range?_note_of_ne ?_
    rintro rfl
    exact hfresh hid
  refine ⟨(size_note _ _ _).trans h.size, h.leaves, fun id hid hls => ?_, fun id hid => ?_,
    fun before x after hsplit => ?_⟩
  · rw [range?_note_of_ne (by simpa using hid)]
    exact h.kept id (by simp) hls
  · rw [List.mem_singleton] at hid
    -- the note for the section repeats the range of its son
    subst hid
    refine ⟨k, List.mem_cons_self, rfl, ?_⟩
    rw [range?_note_self (h.size ▸ hsize), hother _ k.2.id_mem_places]
    exact eq_of_hull_singleton hhull
  · have hx : x = k := by
      have hmem : x ∈ [k] := by rw [hsplit]; simp
      exact List.mem_singleton.1 hmem
    exact (h.laid before x after hsplit).congr (hx ▸ hother)

/-- A range is noted for the node above several plans. -/
theorem Adds.close {p : NodeId} {r? : Option (Nat × Nat)} (h : Adds T.limbs marks l l')
    (htip : T.tip = []) (hne : T.limbs ≠ [])
    (hhull : l'.hull (T.limbs.map placeOf) = .ok r?)
    (hat : ∀ k ∈ T.limbs, l'.range? (placeOf k) = l'.range? k.2.id)
    (hsections : ∀ q row, T = .qnode q row → ∀ s ∈ row.toList, s.id ≠ q ∧ l'.range? s.id = l'.range? s.son.id)
    (hmarks : ∀ id ∈ marks, id ∈ T.places) (hsize : T.id < l.ranges.size)
    (hnodup : T.places.Nodup) : Adds [(p, T)] [] l (l'.note T.id r?) := by
  have hleaves : T.leaves = limbLeaves T.limbs := by rw [Plan.leaves_eq, htip, List.nil_append]
  have hlimb : ∀ k ∈ T.limbs, ∀ id ∈ k.2.places, id ≠ T.id :=
    fun k hk id hid => Plan.ne_id_of_limb hnodup hk hid
  -- the hull of the limbs is the range that the leaves of the plan have
  have hrange : r? = some (l.leaves.length + 1, l.leaves.length + T.width) := by
    have hlaid : ∀ before k after, T.limbs = before ++ k :: after → l'.range? (placeOf k) =
        some (l.leaves.length + (limbLeaves before).length + 1,
          l.leaves.length + (limbLeaves before).length + k.2.width) := by
      intro before k after hsplit
      have hk : k ∈ T.limbs := by rw [hsplit]; simp
      rw [hat k hk]
      exact (h.laid before k after hsplit).range
    rw [Plan.width, hleaves]
    exact Except.ok.inj (hhull.symm.trans (hull_limbs hne hlaid))
  refine ⟨(size_note _ _ _).trans h.size, ?_, fun id _ hid => ?_, by simp, fun before k after hsplit => ?_⟩
  · rw [Plan.limbLeaves_cons, Plan.limbLeaves_nil, List.append_nil, hleaves]
    exact h.leaves
  · rw [Plan.limbPlaces_cons, Plan.limbPlaces_nil, add_zero] at hid
    -- a cell outside the plan is neither noted now nor before
    have hne : id ≠ T.id := by
      rintro rfl
      exact hid T.id_mem_places
    rw [range?_note_of_ne hne]
    refine h.kept id (fun hmem => hid (hmarks id hmem)) fun hmem => hid ?_
    rw [Plan.places_eq, Multiset.mem_add]
    exact Or.inr hmem
  · obtain ⟨rfl, hk⟩ | ⟨before', rfl, hk⟩ := List.cons_eq_append_iff.1 hsplit
    · cases hk
      refine .mk ?_ (fun q row hT s hs => ?_) fun before k after hsplit => ?_
      · rw [range?_note_self (h.size ▸ hsize), hrange]
        rfl
      · dsimp only at hT
        subst hT
        obtain ⟨hne, hsame⟩ := hsections q row rfl s hs
        have hk : (s.id, s.son) ∈ (Plan.qnode q row).limbs := List.mem_map_of_mem hs
        rw [range?_note_of_ne (hlimb _ hk _ s.son.id_mem_places), Plan.id_qnode, range?_note_of_ne hne, hsame]
      · have hk : k ∈ T.limbs := by rw [hsplit]; simp
        exact (h.laid before k after hsplit).congr fun id hid => range?_note_of_ne (hlimb k hk id hid)
    · simp at hk

/-- A leaf gets the next number. -/
theorem adds_leaf {p x : NodeId} {held : List Vertex} (hx : x < l.ranges.size) :
    Adds [(p, Plan.leaf x held)] [] l (l.addLeaf x) := by
  have hother : ∀ id, id ≠ x → (l.addLeaf x).range? id = l.range? id := fun id hne => range?_note_of_ne hne
  refine ⟨size_note _ _ _, ?_, fun id _ hid => hother id ?_, by simp, fun before k after hsplit => ?_⟩
  · simp [addLeaf, Plan.limbLeaves_cons]
  · rintro rfl
    exact hid (Plan.mem_limbPlaces.2 ⟨_, List.mem_cons_self, Plan.id_mem_places (.leaf id held)⟩)
  · obtain ⟨rfl, hk⟩ | ⟨before', rfl, hk⟩ := List.cons_eq_append_iff.1 hsplit
    · cases hk
      refine .mk ?_ (by simp) fun before k after hsplit => by simp [Plan.limbs] at hsplit
      have hself : (l.addLeaf x).range? x = some (l.leaves.length + 1, l.leaves.length + 1) :=
        range?_note_self hx
      simpa [Plan.width] using hself
    · simp at hk

end Layout

namespace Work

variable {w : Work} {S : Set Vertex} {T : Plan} {bs : List Bough} {l l' : Layout} {fuel : Nat}
variable {p q x : NodeId} {held : List Vertex} {children : List Plan} {row : Row (Part Plan)} {s : Part Plan}

/-! ## The walk -/

theorem Draws.below?_leaf (h : w.Draws S ((Plan.leaf x held).under bs)) :
    w.arena.below? x = .ok none := by
  rw [Arena.below?, (h.hasCell_own (Cells.mem_one.2 rfl)).1]
  rfl

theorem Draws.below?_pnode (h : w.Draws S ((Plan.pnode x held children).under bs)) :
    w.arena.below? x = .ok (some (children.map Plan.id)) := by
  rw [Arena.below?, (h.hasCell_own (Cells.mem_one.2 rfl)).1]
  rfl

theorem Draws.below?_qnode (h : w.Draws S ((Plan.qnode q row).under bs)) :
    w.arena.below? q = .ok (some (row.toList.map Part.id)) := by
  have hcell := (h.hasCell_own Row.row_mem_cellsAt).1
  rw [Arena.below?, hcell]
  cases (row.map Part.top).flipped <;>
    simp only [rowCell, if_true, Bool.false_eq_true, if_false, h.slices, ok_bind, pure_eq_ok]

theorem Draws.below?_part (h : w.Draws S ((Plan.qnode q row).under bs)) (hs : s ∈ row.toList) :
    w.arena.below? s.id = .ok (some [s.son.id]) := by
  obtain ⟨left, right, rank, hcell⟩ := h.hasCell_part hs
  rw [Arena.below?, hcell.1]
  rfl

/-- What a node is laid out after. -/
theorem layOut_below {a : Arena} {ids : List NodeId} (hbelow : a.below? x = .ok (some ids))
    (h : a.layOut (fuel + 1) l x = .ok l') : ∃ l₁ r?, ids.foldlM (a.layOut fuel) l = .ok l₁ ∧
      l₁.hull ids = .ok r? ∧ l' = l₁.note x r? := by
  simp only [Arena.layOut, hbelow, ok_bind] at h
  obtain ⟨l₁, hwalk, h⟩ := Arena.exists_of_bind h
  obtain ⟨r?, hhull, h⟩ := Arena.exists_of_bind h
  exact ⟨l₁, r?, hwalk, hhull, (Except.ok.inj h).symm⟩

/-- A section is laid out with what stands below it. -/
theorem Draws.layOut_part (h : w.Draws S ((Plan.qnode q row).under bs)) (hs : s ∈ row.toList)
    (hl : l.ranges.size = w.arena.cells.size)
    (hson : ∀ fuel l₁, w.arena.layOut fuel l s.son.id = .ok l₁ → Layout.Adds [(s.id, s.son)] [] l l₁)
    (h' : w.arena.layOut fuel l s.id = .ok l') : Layout.Adds [(s.id, s.son)] [s.id] l l' := by
  obtain ⟨fuel, rfl⟩ : ∃ n, fuel = n + 1 := by
    cases fuel with
    | zero => cases h'
    | succ n => exact ⟨n, rfl⟩
  obtain ⟨l₁, r?, hwalk, hhull, rfl⟩ := layOut_below (h.below?_part hs) h'
  obtain ⟨l₂, hwalk, hnil⟩ := Arena.exists_of_bind hwalk
  cases hnil
  have hmem : (s.id, s.son) ∈ Plan.sons row := List.mem_map_of_mem hs
  have hnodup := h.nodup_focus
  rw [Plan.map_fst_cells] at hnodup
  -- the section is no cell below itself
  refine (hson fuel l₁ hwalk).mark hhull (fun hid => ?_) ?_
  · refine Multiset.disjoint_left.1 (Multiset.nodup_add.1 (Plan.nodup_sections hnodup)).2.2 ?_
      (Plan.mem_limbPlaces.2 ⟨_, hmem, hid⟩)
    exact Multiset.mem_coe.2 (List.mem_map_of_mem hmem)
  · obtain ⟨left, right, rank, hcell⟩ := h.hasCell_part hs
    exact hl ▸ h.owns.mem_lt (h.mem_of_hasCell hcell)

theorem Draws.nodup_places (h : w.Draws S (T.under bs)) : T.places.Nodup :=
  Plan.map_fst_cells T (ctx bs).parent ▸ h.nodup_focus

theorem Draws.id_lt_size (h : w.Draws S (T.under bs)) : T.id < w.arena.cells.size := by
  obtain ⟨d, hd, -⟩ := h.hasCell_focus
  exact h.owns.mem_lt (h.mem_of_hasCell hd)

/-- A P-node is laid out after its children. -/
theorem Draws.layOut_pnode (h : w.Draws S ((Plan.pnode x held children).under bs))
    (hl : l.ranges.size = w.arena.cells.size)
    (hlimb : ∀ k ∈ (Plan.pnode x held children).limbs, ∀ l₁ l₂, l₁.ranges.size = l.ranges.size →
      w.arena.layOut fuel l₁ k.2.id = .ok l₂ → Layout.Adds [k] [] l₁ l₂)
    (h' : w.arena.layOut (fuel + 1) l x = .ok l') :
    Layout.Adds [(p, .pnode x held children)] [] l l' := by
  obtain ⟨l₁, r?, hwalk, hhull, rfl⟩ := layOut_below h.below?_pnode h'
  have hids : children.map Plan.id = (Plan.pnode x held children).limbs.map fun k => k.2.id := by
    simp [Plan.limbs, Function.comp_def]
  have hnone : ((Plan.pnode x held children).limbs.flatMap fun _ => ([] : List NodeId)) = [] :=
    List.flatMap_eq_nil_iff.2 fun _ _ => rfl
  have hlimbs := h.nodup_places
  rw [Plan.places_eq, Multiset.nodup_add] at hlimbs
  rw [hids] at hwalk hhull
  have hadds := Layout.adds_of_foldlM hlimb (by simpa [hnone] using hlimbs.2.1) hwalk
  refine hadds.close rfl ?_ hhull (fun _ _ => rfl) (by simp) (by simp [hnone]) (hl ▸ h.id_lt_size)
    h.nodup_places
  simpa [Plan.limbs, Plan.Stable] using (Plan.formed_iff.1 h.formed.focus).1

/-- A Q-node is laid out after its sections. -/
theorem Draws.layOut_qnode (h : w.Draws S ((Plan.qnode q row).under bs))
    (hl : l.ranges.size = w.arena.cells.size)
    (hlimb : ∀ k ∈ Plan.sons row, ∀ fuel l₁ l₂, l₁.ranges.size = l.ranges.size →
      w.arena.layOut fuel l₁ k.2.id = .ok l₂ → Layout.Adds [k] [] l₁ l₂)
    (h' : w.arena.layOut (fuel + 1) l q = .ok l') : Layout.Adds [(p, .qnode q row)] [] l l' := by
  obtain ⟨l₁, r?, hwalk, hhull, rfl⟩ := layOut_below h.below?_qnode h'
  have hids : row.toList.map Part.id = (Plan.sons row).map Prod.fst := by
    simp [Plan.sons, Function.comp_def]
  have hmarks : (Plan.sons row).flatMap (fun k => [k.1]) = (Plan.sons row).map Prod.fst :=
    List.map_eq_flatMap.symm
  have hnodup := h.nodup_places
  have hsections := Plan.nodup_sections hnodup
  rw [hids] at hwalk hhull
  have hson : ∀ k ∈ Plan.sons row, ∀ l₁ l₂, l₁.ranges.size = l.ranges.size →
      w.arena.layOut fuel l₁ k.1 = .ok l₂ → Layout.Adds [k] [k.1] l₁ l₂ := by
    intro k hk l₁ l₂ hsize h₁
    obtain ⟨s, hs, rfl⟩ := List.mem_map.1 hk
    exact h.layOut_part hs (hsize.trans hl) (fun fuel l₃ => hlimb _ hk fuel l₁ l₃ hsize) h₁
  have hadds := Layout.adds_of_foldlM hson (hmarks ▸ hsections) hwalk
  rw [hmarks] at hadds
  -- Each section has got the range of the node below it.
  have hrange : ∀ k ∈ Plan.sons row, l₁.range? k.1 = l₁.range? k.2.id := by
    intro k hk
    obtain ⟨k', hk', hid, hrange⟩ := hadds.marked k.1 (List.mem_map_of_mem hk)
    rwa [List.inj_on_of_nodup_map (Multiset.coe_nodup.1 (Multiset.nodup_add.1 hsections).1)
      hk' hk hid] at hrange
  refine Layout.Adds.close (T := .qnode q row) hadds rfl ?_ hhull hrange
    (fun q' row' hT s hs => ?_) (fun id hid => ?_) (hl ▸ h.id_lt_size) hnodup
  · simpa [Plan.limbs, Plan.sons, Row.toList] using (Plan.formed_iff.1 h.formed.focus).1.1
  · cases hT
    have hs' : (s.id, s.son) ∈ Plan.sons row := List.mem_map_of_mem hs
    exact ⟨Plan.section_ne hnodup hs, hrange _ hs'⟩
  · obtain ⟨k, hk, rfl⟩ := List.mem_map.1 hid
    exact Plan.holder_mem_places (T := .qnode q row) hk

/-- The walk through the nodes of a plan numbers its leaves. -/
theorem Draws.layOut (h : w.Draws S (T.under bs)) (hl : l.ranges.size = w.arena.cells.size)
    (h' : w.arena.layOut fuel l T.id = .ok l') : Layout.Adds [(p, T)] [] l l' := by
  induction T using Plan.induction generalizing bs l l' fuel p with
  | step T ih =>
      obtain ⟨fuel, rfl⟩ : ∃ k, fuel = k + 1 := by
        cases fuel with
        | zero => cases h'
        | succ k => exact ⟨k, rfl⟩
      have hlimb : ∀ k ∈ T.limbs, ∀ fuel l₁ l₂, l₁.ranges.size = l.ranges.size →
          w.arena.layOut fuel l₁ k.2.id = .ok l₂ → Layout.Adds [k] [] l₁ l₂ := by
        intro k hk fuel l₁ l₂ hsize h₁
        -- a limb is in focus below one bough more, so that the induction hypothesis applies to it
        obtain ⟨b, rfl, -⟩ := Plan.exists_fill hk
        have hfill : w.Draws S (k.2.under (b :: bs)) := h
        exact ih k hk hfill (hsize.trans hl) h₁
      cases T with
      | leaf x held =>
          rw [Plan.id_leaf, Arena.layOut, h.below?_leaf] at h'
          cases h'
          exact Layout.adds_leaf (hl ▸ h.id_lt_size)
      | pnode x held children => exact h.layOut_pnode hl (fun k hk => hlimb k hk fuel) h'
      | qnode q row => exact h.layOut_qnode hl hlimb h'

/-- The layout of a whole tree. -/
theorem Draws.layout {W : Plan} (h : w.Draws S W) (h' : w.arena.layout = .ok l) :
    l.leaves = W.leaves ∧ W.LaidOut l 0 := by
  rw [Arena.layout, h.owns.root_eq] at h'
  have hadds : Layout.Adds [(0, W)] [] _ l := @Draws.layOut _ _ _ [] _ _ _ _ h (by simp) h'
  exact ⟨by simpa [Plan.limbLeaves_cons] using hadds.leaves, hadds.laid [] _ [] rfl⟩

end Work

end CliquePath
