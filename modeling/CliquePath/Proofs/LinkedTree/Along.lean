import CliquePath.Proofs.LinkedTree.Sections

set_option autoImplicit false

/-!
# Changes along a path

This module shows that the last node of a path can become a row that ends with the section of a new
vertex, and that the nodes above it can be dissolved into that row one by one. What one step keeps up
is `Work.Opened`: the Q-node in focus has at least two sections, and the last one is that of the new
vertex.
-/

namespace CliquePath

open Cells (one)

namespace Row

variable {α : Type} {R : Row α} {x y : α}

theorem mem_reverse : y ∈ R.reverse.toList ↔ y ∈ R.toList := by
  rw [toList_reverse, List.mem_reverse]

/-- A new entry at the end stands behind all others. -/
theorem keyed_insertAt_end (hne : R.keyed ≠ []) (x : α) :
    ∃ k, (R.insertAt R.keyed.length x).keyed = R.keyed ++ [(k, x)] := by
  obtain ⟨ini, l, hl⟩ := (List.eq_nil_or_concat R.keyed).resolve_left hne
  rw [insertAt, keyed_withKeyed, List.take_length, List.drop_length, insertBetween, hl]
  exact ⟨l.1 + keyGap, by simp⟩

/-- A new entry at the front stands before all others. -/
theorem keyed_insertAt_zero (hne : R.keyed ≠ []) (x : α) :
    ∃ k, (R.insertAt 0 x).keyed = (k, x) :: R.keyed := by
  obtain ⟨f, rest, hf⟩ := List.exists_cons_of_ne_nil hne
  rw [insertAt, keyed_withKeyed, List.take_zero, List.drop_zero, insertBetween, hf]
  exact ⟨f.1 - keyGap, by simp⟩

theorem holdsAt_reverse {R : Row (Part NodeId)} {v : Vertex} : R.reverse.HoldsAt v = R.HoldsAt v := by
  funext s
  simp [HoldsAt]

end Row

namespace Work

variable {w : Work} {S : Set Vertex} {c : Ctx} {x q k : NodeId} {m n : Cells} {p : Pass}
variable {R : Row (Part NodeId)} {xs ys : Entries} {u v : Vertex} {d : Cell}

/-! ## Turning a row -/

/-- A row can be turned around. -/
theorem RowStands.reverse (h : w.RowStands S c q R n) :
    ∃ a, w.arena.reverse q = .ok a ∧ RowStands { w with arena := a } S c q R.reverse n := by
  obtain ⟨a, h', o'⟩ := h.stands.owns.reverse_row (add_assoc _ _ _)
  refine ⟨a, h', o'.congr (add_assoc _ _ _).symm, ?_, h.touched, ?_, h.ascending.reverse, ?_⟩
  · refine h.stands.agree.congr_holds fun v r => ?_
    simp only [Cells.holds_add, Cells.holds_cellsAt, Row.mem_reverse]
  · rw [Row.keyed_reverse, sonLinks_reflect]
    exact h.sons
  · rw [Row.keyed_reverse]
    intro hnil
    exact h.keyed_ne (by simpa [Row.reflect] using hnil)

/-! ## The last node -/

/-- The Q-node in focus has at least two sections, the last one at the given place. -/
def Opened (w : Work) (S : Set Vertex) (c : Ctx) (q k : NodeId) : Prop :=
  ∃ R n xs e, w.RowStands S c q R n ∧ R.keyed = xs ++ [e] ∧ xs ≠ [] ∧ e.2.id = k

theorem Opened.within (h : w.Opened S c q k) : w.Within S := by
  obtain ⟨R, n, xs, e, hrow, -⟩ := h
  exact hrow.stands.within

/-- A new section at the right end of a row. -/
theorem RowStands.extend (h : w.RowStands S c q R n) (hc : c.Ok) (hu : p.vertex ∉ S)
    (howned : ∀ v ∈ p.ownedBy q, (w.slots.get v).Ends (R.HoldsAt v)) :
    ∃ w' k, w.newSection p q (some R.lastPart) none
        ((p.ownedBy q).map fun v => (v, some R.lastPart)) = .ok (w', k) ∧
      w'.Opened (insert p.vertex S) c q k := by
  have hmoves : ∀ m ∈ (p.ownedBy q).map fun v => (v, some R.lastPart), m.1 ∈ p.ownedBy q := by
    simp
  obtain ⟨w', k, leaf, h', hrow⟩ :=
    h.newSection hc (List.append_nil R.keyed).symm hu howned hmoves
  obtain ⟨key, hkey⟩ := Row.keyed_insertAt_end h.keyed_ne ⟨k, p.ownedBy q, leaf⟩
  rw [Row.lastId_eq_some h.keyed_ne] at h'
  exact ⟨w', k, h', _, _, R.keyed, _, hrow, hkey, h.keyed_ne, rfl⟩

/-- The ends of a row are sections of it. -/
theorem RowStands.hasSlice_ends (h : w.RowStands S c q R n) :
    (R.cellsAt q c.parent + n + c.cells q).HasSlice R.firstPart q ∧
      (R.cellsAt q c.parent + n + c.cells q).HasSlice R.lastPart q := by
  have hM : R.cellsAt q c.parent + n + c.cells q = R.cellsAt q c.parent + (n + c.cells q) :=
    add_assoc _ _ _
  have hfirst := Row.firstId_eq_some h.keyed_ne
  have hlast := Row.lastId_eq_some h.keyed_ne
  obtain ⟨f, rest, hf⟩ := List.exists_cons_of_ne_nil h.keyed_ne
  obtain ⟨ini, l, hl⟩ := (List.eq_nil_or_concat R.keyed).resolve_left h.keyed_ne
  constructor
  · rw [hf] at hfirst
    rw [← Option.some.inj hfirst]
    exact Whole.hasSlice_row hM (by simp [hf])
  · rw [hl, List.concat_eq_append, Entries.lastId_concat] at hlast
    rw [← Option.some.inj hlast]
    exact Whole.hasSlice_row hM (by simp [hl])

/-- A vertex is put in at the end of a row, or there is no room for it there. -/
theorem RowStands.append (h : w.RowStands S c q R n) (hc : c.Ok)
    (hp : p.Sound (R.cellsAt q c.parent + n + c.cells q)) (hu : p.vertex ∉ S) :
    ∃ w' r, w.append p q = .ok (w', r) ∧ w'.Within (insert p.vertex S) ∧
      ∀ f ∈ r, f.1 = q ∧ w'.Opened (insert p.vertex S) c q f.2 := by
  have hwhole := h.whole hc
  have hends := h.stands.owns.ends_row (add_assoc _ _ _)
  have howned := fun v (hv : v ∈ p.ownedBy q) => h.ends_of_owned hc hp hv
  obtain ⟨hfirst, hlast⟩ := h.hasSlice_ends
  obtain ⟨b, hb⟩ := hwhole.allSpan_ok hlast (p.ownedBy q)
  cases b with
  | true =>
      obtain ⟨w', k, h', hopen⟩ := h.extend hc hu howned
      refine ⟨w', some (q, k), ?_, hopen.within, by simpa using hopen⟩
      simp only [Work.append, turnToEnd, hends, hb, ok_bind, if_true, pure_eq_ok, h']
  | false =>
      -- The right end does not hold all neighbours; the left one is tried next.
      obtain ⟨b', hb'⟩ := hwhole.allSpan_ok hfirst (p.ownedBy q)
      cases b' with
      | true =>
          obtain ⟨a, hrev, hrow⟩ := h.reverse
          have hends' := hrow.stands.owns.ends_row (add_assoc _ _ _)
          obtain ⟨w', k, h', hopen⟩ := hrow.extend (p := p) hc hu
            (by simpa only [Row.holdsAt_reverse] using howned)
          refine ⟨w', some (q, k), ?_, hopen.within, by simpa using hopen⟩
          simp only [Work.append, turnToEnd, hends, hb, hb', ok_bind, Bool.false_eq_true, if_false,
            if_true, hrev, pure_eq_ok, hends', h']
      | false =>
          refine ⟨w, none, ?_, h.stands.within.insert _, by simp⟩
          simp only [Work.append, turnToEnd, hends, hb, hb', ok_bind, Bool.false_eq_true, if_false,
            pure_eq_ok]

/-- A row of two sections in the place of a node, the cells of the node apart. -/
private theorem wrap_owns {kind : Kind} {held : List Vertex}
    (h : w.Stands S c x (one x ⟨kind, c.parent, held, true⟩ + n)) (hc : c.Ok) (p : Pass) :
    ∃ w' q s k leaf, w.wrap p x = .ok (w', q, k) ∧
      w'.slots = (w.slots.put p.vertex (.node leaf)).putAll (reached p.nbrs held) (.span s k) ∧
      w'.touched = (if kind.isP then [x] else []) ++ w.touched ∧
      w'.arena.Owns (some (c.top q))
        ((Row.ofList [⟨s, reached p.nbrs held, x⟩, ⟨k, reached p.nbrs held, leaf⟩]).cellsAt q
          c.parent + (one x ⟨kind, some s, missed p.nbrs held, true⟩ +
            (one leaf (leafCell (some k) [p.vertex]) + n)) + c.cells q) := by
  have hcell := h.owns.cell (add_assoc _ _ _)
  obtain ⟨a₁, h₁, o₁⟩ := h.owns.setHeld (add_assoc _ _ _) (missed p.nbrs held)
  have o₂ := o₁.alloc .leaf []
  generalize hhole : a₁.alloc .leaf [] = new at o₂
  obtain ⟨a₂, hole⟩ := new
  obtain ⟨a₃, h₃, o₃⟩ := o₂.replace hc (add_left_comm _ _ _) rfl rfl
  obtain ⟨a₄, leaf, h₄, o₄⟩ := newLeaf_owns (w := { w with arena := a₃ }) o₃ p.vertex
  obtain ⟨a₅, q, s, k, h₅, o₅⟩ := o₄.newQNode_row (add_left_comm _ _ _) (reached p.nbrs held)
    (reached p.nbrs held)
  generalize hR : Row.ofList [(⟨s, reached p.nbrs held, x⟩ : Part NodeId),
    ⟨k, reached p.nbrs held, leaf⟩] = R at o₅
  obtain ⟨hflip, hfirst, hlast⟩ : R.flipped = false ∧ R.firstPart = s ∧ R.lastPart = k := by
    rw [← hR]
    exact ⟨rfl, rfl, rfl⟩
  have hrow : R.cellsAt q none + (one x ⟨kind, some s, missed p.nbrs held, true⟩ +
      (one leaf (leafCell (some k) [p.vertex]) +
        (one hole (leafCell c.parent []) + (n + c.cells hole)))) =
      one hole (leafCell c.parent []) +
        (one q (rowCell none R.flipped R.firstPart R.lastPart) +
          (Loose.cells q R.flipped (Entries.linked none none R.keyed) +
            (one x ⟨kind, some s, missed p.nbrs held, true⟩ +
              (one leaf (leafCell (some k) [p.vertex]) + n)) + c.cells hole)) := by
    rw [Row.cellsAt]
    abel
  obtain ⟨a₆, h₆, o₆⟩ := o₅.replace hc hrow rfl (by rw [hflip]; rfl)
  obtain ⟨a₇, h₇, o₇⟩ := o₆.discard rfl
  have o₈ := o₇.congr (m := R.cellsAt q c.parent + (one x ⟨kind, some s, missed p.nbrs held, true⟩ +
    (one leaf (leafCell (some k) [p.vertex]) + n)) + c.cells q)
    (by simp only [Row.cellsAt, rowCell]; abel)
  have hends := o₈.ends_row (add_assoc _ _ _)
  rw [hfirst, hlast] at hends
  -- Only a P-node may have to be simplified.
  refine ⟨⟨a₇, (w.slots.put p.vertex (.node leaf)).putAll (reached p.nbrs held) (.span s k),
    (if kind.isP then [x] else []) ++ w.touched⟩, q, s, k, leaf, ?_, rfl, rfl, by rwa [hR]⟩
  simp only [Work.wrap, hcell, h₁, hhole, h₃, h₄, h₅, h₆, h₇, hends, ok_bind, pure_eq_ok]
  cases hp : kind.isP <;> rfl

/-- A leaf or P-node becomes a row of two sections. -/
theorem Stands.wrap {kind : Kind} {held : List Vertex}
    (h : w.Stands S c x (one x ⟨kind, c.parent, held, true⟩ + n)) (hc : c.Ok)
    (hk : kind.isSlice = false)
    (hall : ∀ parent held, Trees {(parent, x)} (one x ⟨kind, parent, held, true⟩ + n))
    (hu : p.vertex ∉ S) :
    ∃ w' q s k leaf, w.wrap p x = .ok (w', q, k) ∧
      w'.slots = (w.slots.put p.vertex (.node leaf)).putAll (reached p.nbrs held) (.span s k) ∧
      w'.touched = (if kind.isP then [x] else []) ++ w.touched ∧
      w'.RowStands (insert p.vertex S) c q
        (Row.ofList [⟨s, reached p.nbrs held, x⟩, ⟨k, reached p.nbrs held, leaf⟩])
        (one x ⟨kind, some s, missed p.nbrs held, true⟩ +
          (one leaf (leafCell (some k) [p.vertex]) + n)) := by
  obtain ⟨w', q, s, k, leaf, h', hslots, htouched, o'⟩ := wrap_owns h hc p
  have hrow : ∀ parent held, (⟨kind, parent, held, true⟩ : Cell).row? = none := by
    intro parent held
    simp [Cell.row?, hk]
  have hmid := h.agree.newcomer (x := leaf) hu
    (N := one leaf (leafCell (some k) [p.vertex]) +
      (one x ⟨kind, c.parent, held, true⟩ + (n + c.cells x))) fun v r => by
    simp only [Cells.holds_add, Cells.holds_one, held_leafCell, row?_leafCell, List.mem_singleton]
    tauto
  refine ⟨w', q, s, k, leaf, h', hslots, htouched, o', ?_, ?_, ?_, Row.ascending_ofList _, ?_⟩
  · rw [hslots]
    refine hmid.reseat (fun v hv => ?_) (by simp) (fun v hv => ?_) fun v hv r => ?_
    · exact hmid.mem_of_holds (p := (x, none)) (by simp [hrow, (mem_reached.1 hv).1])
    · have hagree := h.agree
      rw [add_assoc] at hagree
      have hvS : v ∈ S := hagree.mem_of_holds (p := (x, none)) (by simp [hrow, (mem_reached.1 hv).1])
      have hne : v ≠ p.vertex := fun heq => hu (heq ▸ hvS)
      have hout := (hagree.fit.of_node h.not_mem_ids (hrow _ _) (mem_reached.1 hv).1).2
      refine ⟨q, ?_, ?_, fun r hr => ?_⟩
      · simp [hv]
      · simp [hv]
      · simp only [Cells.holds_add, Cells.holds_cellsAt, Cells.holds_one, held_leafCell, mem_missed,
          (mem_reached.1 hv).2, List.mem_singleton, hne, not_true, and_false, false_and, false_or,
          Ctx.holds_cells c q x] at hr hout
        rcases hr with (⟨part, -, -, rfl⟩ | hr) | hr
        · rfl
        · exact absurd (Or.inl hr) (hout r)
        · exact absurd (Or.inr hr) (hout r)
    · have hmem : v ∈ missed p.nbrs held ↔ v ∈ held := by
        rw [mem_reached] at hv
        rw [mem_missed]
        tauto
      simp only [Cells.holds_add, Cells.holds_cellsAt, Cells.holds_one, hmem, hrow,
        Ctx.holds_cells c q x, Row.toList_ofList, List.mem_cons, List.not_mem_nil, or_false,
        exists_eq_or_imp, exists_eq_left, hv, false_and, false_or]
      tauto
  · intro t ht
    rw [htouched, List.mem_append] at ht
    rcases ht with ht | ht
    · have htx : t = x := by
        by_contra hne
        cases hp : kind.isP <;> simp [hp, hne] at ht
      simp [htx]
    · have ht := h.touched t ht
      simp only [Multiset.map_add, Cells.map_fst_one, Multiset.mem_add, Multiset.mem_singleton]
        at ht ⊢
      tauto
  · have hkeyed : sonLinks (Row.ofList [(⟨s, reached p.nbrs held, x⟩ : Part NodeId),
        ⟨k, reached p.nbrs held, leaf⟩]).keyed = {(some s, x)} + {(some k, leaf)} := by
      simp [Row.ofList, Row.keyed, Row.spaced, sonLinks]
      rfl
    rw [hkeyed, show one x ⟨kind, some s, missed p.nbrs held, true⟩ +
      (one leaf (leafCell (some k) [p.vertex]) + n) =
        one x ⟨kind, some s, missed p.nbrs held, true⟩ + n +
          one leaf (leafCell (some k) [p.vertex]) by abel]
    exact (hall _ _).add (.of_shape (.leaf _))
  · simp [Row.ofList, Row.keyed, Row.spaced]

/-- The row that a leaf or P-node becomes is open. -/
theorem Stands.wrap_opened {kind : Kind} {held : List Vertex}
    (h : w.Stands S c x (one x ⟨kind, c.parent, held, true⟩ + n)) (hc : c.Ok)
    (hk : kind.isSlice = false)
    (hall : ∀ parent held, Trees {(parent, x)} (one x ⟨kind, parent, held, true⟩ + n))
    (hu : p.vertex ∉ S) :
    ∃ w' q k, w.wrap p x = .ok (w', q, k) ∧ w'.Opened (insert p.vertex S) c q k := by
  obtain ⟨w', q, s, k, leaf, h', -, -, hrow⟩ := h.wrap hc hk hall hu
  exact ⟨w', q, k, h', _, _, [(0, ⟨s, reached p.nbrs held, x⟩)],
    (Row.keyGap, ⟨k, reached p.nbrs held, leaf⟩), hrow, by simp [Row.ofList, Row.keyed, Row.spaced],
    by simp, rfl⟩

end Work

end CliquePath
