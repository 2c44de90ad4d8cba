import CliquePath.Proofs.LinkedTree.Dissolving

set_option autoImplicit false

/-!
# Splicing a row

This module shows that an opened row can be spliced into the row of the Q-node above it. That row is
turned first so that the section above the opened row may face outwards; if it cannot be, there is no
room for the new vertex. What the section held is then held by the sections that take its place.
-/

namespace CliquePath

open Cells (one)

namespace Row

variable {α : Type} {R S : Row α} {xs ys : List (Int × α)} {e : Int × α}

/-- The entries of a spliced row. -/
theorem toList_splice_of_keyed (hR : R.keyed = xs ++ e :: ys) :
    (R.splice xs.length S).toList = xs.map Prod.snd ++ S.toList ++ ys.map Prod.snd := by
  have hlt : xs.length < R.size := by
    rw [← length_keyed, hR]
    simp
  have hlen : xs.length = (xs.map Prod.snd).length := by simp
  rw [toList_splice _ _ _ hlt, toList, hR, List.map_append, hlen, List.take_left, List.map_cons,
    List.drop_append, List.drop_eq_nil_of_le (by simp), List.nil_append]
  simp

/-- The last entry of a row is the last one of its view. -/
theorem keyed_of_toList {zs : List α} {x : α} (h : R.toList = zs ++ [x]) :
    ∃ es f, R.keyed = es ++ [f] ∧ es.map Prod.snd = zs ∧ f.2 = x := by
  obtain ⟨es, fs, hR, hes, hfs⟩ := List.map_eq_append_iff.1 h
  obtain ⟨f, rfl, hf⟩ := List.map_eq_singleton_iff.1 hfs
  exact ⟨es, f, hR, hes, hf⟩

/-- Only the first section stands at the first place of a row. -/
theorem eq_firstPart_iff {R : Row (Part NodeId)} {xs ys : Entries} {e : Int × Part NodeId}
    (hn : (Entries.ids R.keyed).Nodup) (hR : R.keyed = xs ++ e :: ys) :
    e.2.id = R.firstPart ↔ xs = [] := by
  cases xs with
  | nil => exact iff_of_true (firstPart_eq hR).symm rfl
  | cons d ds =>
      refine iff_of_false (fun heq => ?_) (by simp)
      rw [firstPart_eq hR] at heq
      rw [hR] at hn
      simp [Entries.ids, heq] at hn

/-- Only the last section stands at the last place of a row. -/
theorem eq_lastPart_iff {R : Row (Part NodeId)} {xs ys : Entries} {e : Int × Part NodeId}
    (hn : (Entries.ids R.keyed).Nodup) (hR : R.keyed = xs ++ e :: ys) :
    e.2.id = R.lastPart ↔ ys = [] := by
  rcases List.eq_nil_or_concat ys with rfl | ⟨ds, d, rfl⟩
  · exact iff_of_true (lastPart_eq hR).symm rfl
  · refine iff_of_false (fun heq => ?_) (by simp)
    rw [List.concat_eq_append, ← List.cons_append, ← List.append_assoc] at hR
    rw [lastPart_eq hR] at heq
    rw [hR] at hn
    simp [Entries.ids, heq, List.nodup_append] at hn

end Row

/-- The row, reversed if told so. -/
def Row.turn {α : Type} (R : Row α) (back : Bool) : Row α := if back then R.reverse else R

/-- The entries of a row that may have been reversed. -/
theorem Row.keyed_turn {α : Type} {R : Row α} {xs ys : List (Int × α)} {e : Int × α}
    (hR : R.keyed = xs ++ e :: ys) (back : Bool) :
    (R.turn back).keyed = (if back then reflect ys else xs) ++
      (if back then -e.1 else e.1, e.2) :: if back then reflect xs else ys := by
  cases back with
  | false => exact hR
  | true =>
      rw [turn, if_pos rfl, keyed_reverse, hR]
      simp [reflect]

/-- Whether a row is reversed so that a section between two others, if there are any, faces outwards.
Inside of a row it faces a neighbour from which it may part, and it does so only in the highest row
of a path. -/
def Faces (nbrs : List Vertex) (isTop : Bool) (left? right? : Option (List Vertex))
    (held : List Vertex) (back : Bool) : Prop :=
  match left?, right? with
  | none, _ => back = true
  | some _, none => back = false
  | some left, some right => isTop = true ∧
      if partsBeyond nbrs held right then back = false
      else partsBeyond nbrs held left = true ∧ back = true

/-- Below the highest row, nothing stands on the right of a section that faces outwards. -/
theorem Faces.right_eq_nil {nbrs held : List Vertex} {xs ys : Entries} {back : Bool}
    (h : Faces nbrs false (xs.getLast?.map fun d => d.2.held) (ys.head?.map fun d => d.2.held) held
      back) : (if back then Row.reflect xs else ys) = [] := by
  rcases List.eq_nil_or_concat xs with rfl | ⟨ds, d, rfl⟩
  · simp [show back = true from h, Row.reflect]
  · cases ys with
    | nil =>
        simp only [List.concat_eq_append, List.getLast?_concat, Option.map_some, List.head?_nil,
          Option.map_none] at h
        simp [show back = false from h]
    | cons f fs =>
        simp only [List.concat_eq_append, List.getLast?_concat, Option.map_some, List.head?_cons] at h
        exact absurd h.1 (by simp)

/-- What is below a spliced row. -/
theorem sonLinks_splice {R S : Row (Part NodeId)} {xs ys : Entries} {e : Int × Part NodeId}
    (hR : R.keyed = xs ++ e :: ys) :
    sonLinks (R.splice xs.length S).keyed = sonLinks S.keyed + sonLinks (xs ++ ys) := by
  have hlist : (R.splice xs.length S).keyed.map Prod.snd = (xs ++ S.keyed ++ ys).map Prod.snd := by
    simpa [Row.toList] using Row.toList_splice_of_keyed (S := S) hR
  rw [sonLinks_congr hlist, sonLinks_append, sonLinks_append, sonLinks_append]
  abel

namespace Work

variable {w : Work} {S : Set Vertex} {c : Ctx} {x q k s : NodeId} {m n rest : Cells} {p : Pass}
variable {O R : Row (Part NodeId)} {xs ys zs : Entries} {e : Int × Part NodeId} {v : Vertex}
variable {flipped : Bool} {key : Int} {held : List Vertex}

/-! ## Turning the outer row -/

/-- The held vertices of one section can be compared with those of another one. -/
theorem Whole.gapFits_row {root : NodeId} {M : Cells} (h : w.Whole S root M)
    {parent : Option NodeId} (hM : M = O.cellsAt x parent + n) (p : Pass) {d : Int × Part NodeId}
    (he : e ∈ O.keyed) (hd : d ∈ O.keyed) :
    w.gapFits p e.2.id d.2.id = .ok (partsBeyond p.nbrs e.2.held d.2.held) := by
  obtain ⟨es, fs, hO⟩ := List.append_of_mem he
  obtain ⟨es', fs', hO'⟩ := List.append_of_mem hd
  simp only [Work.gapFits, h.owns.cell_row hM hO, h.owns.cell_row hM hO', ok_bind, Loose.cell,
    pure_eq_ok]

/-- A row is turned so that nothing stands on the right of a section, or so that it may part from
its right neighbour; or the row has no room. -/
theorem RowStands.turnOutwards (h : w.RowStands S c x O n) (hc : c.Ok)
    (hO : O.keyed = xs ++ e :: ys) (p : Pass) (isTop : Bool) :
    (w.turnOutwards p x e.2.id isTop = .ok none ∧
        ∀ back, ¬ Faces p.nbrs isTop (xs.getLast?.map fun d => d.2.held)
          (ys.head?.map fun d => d.2.held) e.2.held back) ∨
      ∃ a back, w.turnOutwards p x e.2.id isTop = .ok (some a) ∧
        RowStands { w with arena := a } S c x (O.turn back) n ∧
        Faces p.nbrs isTop (xs.getLast?.map fun d => d.2.held) (ys.head?.map fun d => d.2.held)
          e.2.held back := by
  have hM : O.cellsAt x c.parent + n + c.cells x = O.cellsAt x c.parent + (n + c.cells x) :=
    add_assoc _ _ _
  have hwhole := h.whole hc
  have hends := h.stands.owns.ends_row hM
  have hnodup := h.stands.owns.nodup_ids hM
  obtain ⟨a, hrev, hrow⟩ := h.reverse
  rw [Work.turnOutwards, hends, ok_bind]
  dsimp only
  rcases List.eq_nil_or_concat xs with rfl | ⟨ds, d, rfl⟩
  · -- The first section: the row is turned around, whatever stands on its right.
    have hfirst : e.2.id = O.firstPart := (Row.eq_firstPart_iff hnodup hO).2 rfl
    refine Or.inr ⟨a, true, ?_, hrow, rfl⟩
    rw [if_pos hfirst, hrev, ok_bind, pure_eq_ok]
  have hfirst : e.2.id ≠ O.firstPart := fun hfirst => by
    simpa using (Row.eq_firstPart_iff hnodup hO).1 hfirst
  rw [if_neg hfirst]
  rw [List.concat_eq_append] at hO ⊢
  cases ys with
  | nil =>
      -- The last section faces outwards already.
      have hlast : e.2.id = O.lastPart := (Row.eq_lastPart_iff hnodup hO).2 rfl
      refine Or.inr ⟨w.arena, false, ?_, h, by simp [Faces]⟩
      rw [if_pos hlast, pure_eq_ok]
  | cons f fs =>
      have hlast : e.2.id ≠ O.lastPart := fun hlast => by
        simpa using (Row.eq_lastPart_iff hnodup hO).1 hlast
      rw [if_neg hlast]
      have hright := hwhole.gapFits_row hM p (e := e) (d := f) (by simp [hO]) (by simp [hO])
      have hleft := hwhole.gapFits_row hM p (e := e) (d := d) (by simp [hO]) (by simp [hO])
      -- An inner section: below the highest place of the path, the row has to be open at that end.
      cases isTop with
      | false => exact Or.inl ⟨rfl, by simp [Faces]⟩
      | true =>
          simp only [Bool.not_true, Bool.false_eq_true, if_false, h.stands.owns.links_row hM hO,
            ok_bind, Entries.firstId, Entries.lastId_concat, Work.mayPart, hright, hleft, hrev,
            pure_eq_ok]
          cases hr : partsBeyond p.nbrs e.2.held f.2.held with
          | true => exact Or.inr ⟨w.arena, false, rfl, h, by simp [Faces, hr]⟩
          | false =>
              cases hl : partsBeyond p.nbrs e.2.held d.2.held with
              | true => exact Or.inr ⟨a, true, rfl, hrow, by simp [Faces, hr, hl]⟩
              | false => exact Or.inl ⟨rfl, by simp [Faces, hr, hl]⟩

/-! ## Moving the runs -/

/-- A run that starts or ends at a section goes on at the sections that take its place. -/
theorem spliceSlot_spec {far near : NodeId} {P : NodeId → Prop}
    (hrank : ∀ id, id = s ∨ P id → ∃ r, w.arena.rank id = .ok r) (hfar : P far) (hnear : P near)
    (hk : v ∈ p.nbrs → P k) (hv : (w.slots.get v).Ends fun id => id = s ∨ P id) :
    ∃ slot, w.spliceSlot p v s far near k = .ok slot ∧ slot.Ends P := by
  cases hslot : w.slots.get v with
  | absent =>
      rw [hslot] at hv
      exact hv.elim
  | node id =>
      rw [hslot] at hv
      exact hv.elim
  | span one other =>
      rw [hslot] at hv
      obtain ⟨r₁, h₁⟩ := hrank one hv.1
      obtain ⟨r₂, h₂⟩ := hrank other hv.2
      -- The end with the lower rank moves to the far end of the sections, the other one to the near end.
      have hlow : ∀ id, id = s ∨ P id → P (if id = s then far else id) := by
        intro id hid
        split
        next => exact hfar
        next hne => exact hid.resolve_left hne
      have hhigh : ∀ id, id = s ∨ P id →
          P (if id = s then (if p.nbrs.contains v then k else near) else id) := by
        intro id hid
        split
        next =>
          split
          next hn => exact hk (by simpa using hn)
          next => exact hnear
        next hne => exact hid.resolve_left hne
      simp only [Work.spliceSlot, hslot, h₁, h₂, ok_bind, pure_eq_ok]
      by_cases hle : r₁ ≤ r₂
      · exact ⟨_, rfl, by simpa only [hle, if_true] using ⟨hlow one hv.1, hhigh other hv.2⟩⟩
      · exact ⟨_, rfl, by simpa only [hle, if_false] using ⟨hlow other hv.2, hhigh one hv.1⟩⟩

/-- The runs of all vertices of a section go on at the sections that take its place. A vertex may
stand among them more than once. -/
theorem spliceSlots_spec {far near : NodeId} {P : Vertex → NodeId → Prop} (vs : List Vertex)
    (hrank : ∀ v id, id = s ∨ P v id → ∃ r, w.arena.rank id = .ok r)
    (hP : ∀ v ∈ vs, P v far ∧ P v near ∧ (v ∈ p.nbrs → P v k))
    (hv : ∀ v ∈ vs, (w.slots.get v).Ends fun id => id = s ∨ P v id) :
    ∃ slots, w.spliceSlots p s far near k vs = .ok { w with slots } ∧
      (∀ v ∉ vs, slots.get v = w.slots.get v) ∧ (∀ v ∈ vs, (slots.get v).Ends (P v)) ∧
        (vs.Nodup → ∀ v ∈ vs, w.spliceSlot p v s far near k = .ok (slots.get v)) := by
  -- Later vertices of the list find the slots changed already; each still ends at `s` or at a new section.
  induction vs generalizing w with
  | nil => exact ⟨w.slots, rfl, fun _ _ => rfl, by simp, by simp⟩
  | cons v rest ih =>
      obtain ⟨hfar, hnear, hk⟩ := hP v List.mem_cons_self
      obtain ⟨slot, hslot, hends⟩ :=
        spliceSlot_spec (hrank v) hfar hnear hk (hv v List.mem_cons_self)
      obtain ⟨slots, hfold, hother, hall, hexact⟩ := ih (w := { w with slots := w.slots.put v slot }) hrank
        (fun u hu => hP u (List.mem_cons_of_mem _ hu)) fun u hu => by
          rw [Slots.get_put]
          split
          next heq =>
            subst heq
            exact hends.mono fun id hid => Or.inr hid
          next => exact hv u (List.mem_cons_of_mem _ hu)
      refine ⟨slots, ?_, fun u hu => ?_, fun u hu => ?_, fun hnodup u hu => ?_⟩
      · rw [Work.spliceSlots, List.foldlM_cons, hslot]
        exact hfold
      · rw [List.mem_cons, not_or] at hu
        rw [hother u hu.2, Slots.get_put, if_neg hu.1]
      · by_cases hrest : u ∈ rest
        · exact hall u hrest
        · obtain rfl : u = v := (List.mem_cons.1 hu).resolve_right hrest
          rw [hother u hrest, Slots.get_put, if_pos rfl]
          exact hends
      · obtain ⟨hvrest, hnodup⟩ := List.nodup_cons.1 hnodup
        rcases List.mem_cons.1 hu with rfl | hu
        · rw [hother u hvrest, Slots.get_put, if_pos rfl, hslot]
        · have hne : u ≠ v := ne_of_mem_of_not_mem hu hvrest
          rw [← hexact hnodup u hu]
          simp only [Work.spliceSlot, Slots.get_put, if_neg hne]

end Work

/-! ## The spliced row -/

theorem Cells.holds_row {R : Row (Part NodeId)} {q : NodeId} {parent : Option NodeId} {v : Vertex}
    {r : NodeId × Option NodeId} :
    (R.cellsAt q parent).Holds v r ↔ R.HoldsAt v r.1 ∧ r.2 = some q := by
  rw [Cells.holds_cellsAt]
  constructor
  · rintro ⟨part, hpart, hv, rfl⟩
    exact ⟨⟨part, hpart, rfl, hv⟩, rfl⟩
  · rintro ⟨⟨part, hpart, hid, hv⟩, hq⟩
    exact ⟨part, hpart, hv, Prod.ext hid.symm hq⟩

/-- An inner row moves into an outer one in the place of a section, whose vertices it takes over. -/
theorem Slots.Agree.intoOuter {slots slots' : Slots} {S : Set Vertex} {N : Cells} {x q s : NodeId}
    {O R F : Row (Part NodeId)} {parent inner : Option NodeId} {held : List Vertex}
    (h : slots.Agree S (R.cellsAt q inner + (O.cellsAt x parent + N))) (hN : N.RowsInside)
    (hq : q ∉ (O.cellsAt x parent + N).map Prod.fst)
    (hx : x ∉ (R.cellsAt q inner + N).map Prod.fst) (hheld : ∀ v ∈ held, O.HoldsAt v s)
    (hF : ∀ v ∉ held, ∀ id, F.HoldsAt v id ↔ O.HoldsAt v id ∨ R.HoldsAt v id)
    (hslots : ∀ v ∈ held, (slots'.get v).Ends (F.HoldsAt v))
    (hother : ∀ v ∉ held, slots'.get v = slots.get v) : slots'.Agree S (F.cellsAt x parent + N) := by
  have hin : ∀ v id, F.HoldsAt v id → (F.cellsAt x parent + N).Holds v (id, some x) :=
    fun v id hid => Cells.holds_add.2 (Or.inl (hid.holds x parent))
  have hall : ∀ v, (∀ r, ¬ N.Holds v r) → ∀ r, (F.cellsAt x parent + N).Holds v r → r.2 = some x := by
    intro v hnot r hr
    exact (Cells.holds_row.1 ((Cells.holds_add.1 hr).resolve_right (hnot r))).2
  refine h.update fun v => ?_
  by_cases hv : v ∈ held
  · obtain ⟨part, hpart, -, hvp⟩ := hheld v hv
    -- The vertex is held in the outer row, so nothing else holds it.
    have hagree := h
    rw [add_left_comm] at hagree
    have hout := (hagree.fit.of_row hx ((Cells.rowsInside_cellsAt _ _ _).add hN) hpart hvp).2
    refine Or.inr ⟨hagree.mem_of_holds (Cells.holds_add.2 (Or.inl ((hheld v hv).holds x parent))),
      (hslots v hv).ne_absent, (hslots v hv).fits (hin v) (hall v fun r hr => ?_)⟩
    exact hout r (Cells.holds_add.2 (Or.inr hr))
  · rw [hother v hv]
    -- Any other vertex is held in the inner row, or its places did not change.
    by_cases hRv : ∃ id, R.HoldsAt v id
    · obtain ⟨id, hid⟩ := hRv
      have ⟨part, hpart, _, hvp⟩ := hid
      obtain ⟨hends, hout⟩ := h.fit.of_row hq ((Cells.rowsInside_cellsAt _ _ _).add hN) hpart hvp
      refine Or.inr ⟨h.mem_of_holds (Cells.holds_add.2 (Or.inl (hid.holds q inner))),
        hends.ne_absent, hends.fits (fun id hid => hin v id ((hF v hv id).2 (Or.inr hid)))
          (hall v fun r hr => ?_)⟩
      exact hout r (Cells.holds_add.2 (Or.inr hr))
    · refine Or.inl ⟨rfl, fun r => ?_⟩
      have hRv' : ∀ id, ¬ R.HoldsAt v id := fun id hid => hRv ⟨id, hid⟩
      simp only [Cells.holds_add, Cells.holds_row, hF v hv, hRv', false_and, or_false, false_or]

namespace Row

variable {O R : Row (Part NodeId)} {xs ys zs : Entries} {d e : Int × Part NodeId}
variable {held link : List Vertex} {v : Vertex} {id : NodeId} {flipped : Bool}

theorem toList_carry : (carry flipped zs e held link).toList =
    (zs.mapHeld (· ++ held)).map Prod.snd ++ [{ e.2 with held := e.2.held ++ link }] := by
  rw [toList, keyed_carry, List.map_append]
  rfl

theorem holdsAt_of_keyed (hO : O.keyed = xs ++ d :: ys) :
    O.HoldsAt v id ↔ (∃ f ∈ xs ++ ys, f.2.id = id ∧ v ∈ f.2.held) ∨ d.2.id = id ∧ v ∈ d.2.held := by
  simp only [HoldsAt, toList, hO, List.mem_map, List.mem_append, List.mem_cons,
    exists_exists_and_eq_and]
  constructor
  · rintro ⟨f, hf | rfl | hf, h⟩
    · exact Or.inl ⟨f, Or.inl hf, h⟩
    · exact Or.inr h
    · exact Or.inl ⟨f, Or.inr hf, h⟩
  · rintro (⟨f, hf | hf, h⟩ | h)
    · exact ⟨f, Or.inl hf, h⟩
    · exact ⟨f, Or.inr (Or.inr hf), h⟩
    · exact ⟨d, Or.inr (Or.inl rfl), h⟩

/-- What a row holds after an inner row took the place of a section. -/
theorem holdsAt_splice {I : Row (Part NodeId)} (hO : O.keyed = xs ++ d :: ys) :
    (O.splice xs.length I).HoldsAt v id ↔
      (∃ f ∈ xs ++ ys, f.2.id = id ∧ v ∈ f.2.held) ∨ I.HoldsAt v id := by
  simp only [HoldsAt, toList_splice_of_keyed hO, List.mem_map, List.mem_append]
  constructor
  · rintro ⟨part, (⟨f, hf, rfl⟩ | hpart) | ⟨f, hf, rfl⟩, h⟩
    · exact Or.inl ⟨f, Or.inl hf, h⟩
    · exact Or.inr ⟨part, hpart, h⟩
    · exact Or.inl ⟨f, Or.inr hf, h⟩
  · rintro (⟨f, hf | hf, h⟩ | ⟨part, hpart, h⟩)
    · exact ⟨f.2, Or.inl (Or.inl ⟨f, hf, rfl⟩), h⟩
    · exact ⟨f.2, Or.inr ⟨f, hf, rfl⟩, h⟩
    · exact ⟨part, Or.inl (Or.inr hpart), h⟩

/-- What the sections hold after vertices were added to them. -/
theorem holdsAt_carry (hR : R.keyed = zs ++ [e]) :
    (carry flipped zs e held link).HoldsAt v id ↔
      R.HoldsAt v id ∨ (v ∈ held ∧ id ∈ Entries.ids zs) ∨ v ∈ link ∧ id = e.2.id := by
  have h : ((carry flipped zs e held link).cellsAt 0 none).Holds v (id, some 0) ↔ _ :=
    holds_carry hR
  simp only [Cells.holds_row, and_true, Prod.mk.injEq] at h
  simp only [h, Entries.ids, List.mem_map, eq_comm]

end Row

namespace Work

variable {w : Work} {S : Set Vertex} {c : Ctx} {x q k s : NodeId} {m n rest : Cells} {p : Pass}
variable {O R : Row (Part NodeId)} {xs ys zs : Entries} {e : Int × Part NodeId} {v : Vertex}
variable {flipped : Bool} {key : Int} {held : List Vertex}

/-- The outer row comes into focus. -/
theorem RowStands.above (h : w.RowStands S (.inRow x flipped xs key s held ys rest :: c) q R n)
    (hf : (Frame.inRow x flipped xs key s held ys rest).Ok) :
    w.RowStands S c x (Row.ofKeyed flipped (xs ++ (key, ⟨s, held, q⟩) :: ys))
      (R.cellsAt q (some s) + n + rest) := by
  have hcells : R.cellsAt q (some s) + n + Ctx.cells (.inRow x flipped xs key s held ys rest :: c) q =
      (Row.ofKeyed flipped (xs ++ (key, ⟨s, held, q⟩) :: ys)).cellsAt x c.parent +
        (R.cellsAt q (some s) + n + rest) + c.cells x := by
    rw [Ctx.cells, Frame.cells, Frame.node]
    abel
  refine ⟨h.owns.congr hcells, hcells ▸ h.agree, fun t ht => ?_, ?_,
    Row.ascending_ofKeyed.2 (by simpa using hf.2), by simp⟩
  · simp only [Multiset.map_add, Multiset.mem_add]
    exact Or.inl (Or.inr (h.touched t ht))
  · rw [Row.keyed_ofKeyed, sonLinks_split]
    exact (Trees.of_shape (.qnode h.keyed_ne h.ascending h.sons)).add hf.1

/-- The parts of an opened row. -/
theorem opened_parts {e : Int × Part NodeId} (hR : R.keyed = zs ++ [e]) (hzs : zs ≠ []) :
    ∃ far near, (Entries.ids R.keyed).dropLast = Entries.ids zs ∧
      (Entries.ids zs).head? = some far ∧ (Entries.ids zs).getLast? = some near ∧
      (Entries.ids R.keyed).getLast? = some e.2.id := by
  have hids : Entries.ids R.keyed = Entries.ids zs ++ [e.2.id] := by
    rw [hR, Entries.ids_append]
    rfl
  have hne : Entries.ids zs ≠ [] := by
    simpa [Entries.ids] using hzs
  exact ⟨_, _, by rw [hids, List.dropLast_concat], List.head?_eq_some_head hne,
    List.getLast?_eq_some_getLast hne, by rw [hids, List.getLast?_concat]⟩

/-- The sections of two rows can be compared. -/
theorem Whole.rank_entries {root : NodeId} {M : Cells} (h : w.Whole S root M)
    {parent inner : Option NodeId} (hM : M = O.cellsAt x parent + (R.cellsAt q inner + m)) {id : NodeId}
    (hid : id ∈ Entries.ids O.keyed ∨ id ∈ Entries.ids R.keyed) : ∃ r, w.arena.rank id = .ok r := by
  rcases hid with hid | hid
  · obtain ⟨d, hd, rfl⟩ := List.mem_map.1 hid
    exact h.rank_ok (hasSlice_row hM hd)
  · obtain ⟨d, hd, rfl⟩ := List.mem_map.1 hid
    exact h.rank_ok (hasSlice_row (hM.trans (add_left_comm _ _ _)) hd)

/-- The row in focus takes in the row of a son. -/
theorem RowStands.takeIn (h : w.RowStands S c x O (R.cellsAt q (some s) + n + rest)) (hc : c.Ok)
    (hO : O.keyed = xs ++ (key, ⟨s, held, q⟩) :: ys) (hR : R.keyed = zs ++ [e])
    (hn : Trees (sonLinks R.keyed) n) (hrest : Trees (sonLinks (xs ++ ys)) rest)
    (ht : ∀ t ∈ w.touched, t ∈ n.map Prod.fst) {far near : NodeId}
    (hfar : (Entries.ids zs).head? = some far) (hnear : (Entries.ids zs).getLast? = some near)
    (p : Pass) :
    ∃ slots a₁ a₂ a₃, w.spliceSlots p s far near e.2.id held = .ok { w with slots } ∧
      w.arena.mapHeld (· ++ held) (Entries.ids zs) = .ok a₁ ∧
      a₁.mapHeld (· ++ reached p.nbrs held) [e.2.id] = .ok a₂ ∧ a₂.spliceSlices x s q = .ok a₃ ∧
      (∀ v ∉ held, slots.get v = w.slots.get v) ∧
      (held.Nodup → ∀ v ∈ held, w.spliceSlot p v s far near e.2.id = .ok (slots.get v)) ∧
      RowStands ⟨a₃, slots, w.touched⟩ S c x
        (O.splice xs.length (Row.carry R.flipped zs e held (reached p.nbrs held))) (n + rest) := by
  have hwhole := h.whole hc
  have hM : O.cellsAt x c.parent + (R.cellsAt q (some s) + n + rest) + c.cells x =
      O.cellsAt x c.parent + (R.cellsAt q (some s) + (n + rest + c.cells x)) := by
    abel
  have hM' := hM.trans (add_left_comm _ _ _)
  obtain ⟨a₁, a₂, h₁, h₂, o₂⟩ := h.owns.carry_row hM' hR held (reached p.nbrs held)
  obtain ⟨a₃, h₃, o₃⟩ := o₂.spliceSlices_row (add_left_comm _ _ _) hO
    (by simp [Row.keyed_carry])
  -- What the two rows hold, and what the spliced row holds.
  generalize hF : O.splice xs.length (Row.carry R.flipped zs e held (reached p.nbrs held)) = F at o₃
  have hOv : ∀ v id, O.HoldsAt v id ↔
      (∃ f ∈ xs ++ ys, f.2.id = id ∧ v ∈ f.2.held) ∨ s = id ∧ v ∈ held :=
    fun v id => Row.holdsAt_of_keyed hO
  have hFv : ∀ v id, F.HoldsAt v id ↔ (∃ f ∈ xs ++ ys, f.2.id = id ∧ v ∈ f.2.held) ∨
      (R.HoldsAt v id ∨ (v ∈ held ∧ id ∈ Entries.ids zs) ∨ v ∈ reached p.nbrs held ∧ id = e.2.id) :=
    fun v id => hF ▸ (Row.holdsAt_splice hO).trans (or_congr Iff.rfl (Row.holdsAt_carry hR))
  have hmem : (⟨s, held, q⟩ : Part NodeId) ∈ O.toList := by simp [Row.toList, hO]
  have hids : ∀ v id, id = s ∨ F.HoldsAt v id →
      id ∈ Entries.ids O.keyed ∨ id ∈ Entries.ids R.keyed := by
    intro v id hid
    rw [hFv] at hid
    rcases hid with rfl | ⟨f, hf, rfl, -⟩ | ⟨part, hpart, rfl, -⟩ | ⟨-, hid⟩ | ⟨-, rfl⟩
    · exact Or.inl (by simp [Entries.ids, hO])
    · refine Or.inl (List.mem_map.2 ⟨f, ?_, rfl⟩)
      rw [hO]
      rcases List.mem_append.1 hf with hf | hf <;> simp [hf]
    · exact Or.inr (Cells.mem_entries_ids.2 ⟨part, hpart, rfl⟩)
    · exact Or.inr (by rw [hR, Entries.ids_append]; exact List.mem_append.2 (Or.inl hid))
    · exact Or.inr (by simp [hR, Entries.ids])
  have hnew : ∀ v ∈ held, F.HoldsAt v far ∧ F.HoldsAt v near ∧ (v ∈ p.nbrs → F.HoldsAt v e.2.id) :=
    fun v hv => ⟨(hFv v _).2 (Or.inr (Or.inr (Or.inl ⟨hv, List.mem_of_head? hfar⟩))),
      (hFv v _).2 (Or.inr (Or.inr (Or.inl ⟨hv, List.mem_of_getLast? hnear⟩))),
      fun hn => (hFv v _).2 (Or.inr (Or.inr (Or.inr ⟨mem_reached.2 ⟨hv, hn⟩, rfl⟩)))⟩
  have hold : ∀ v ∈ held, (w.slots.get v).Ends fun id => id = s ∨ F.HoldsAt v id :=
    fun v hv => (h.stands.of_row hc h.sons hmem hv).2.1.mono fun id hid => by
      rw [hFv]
      rcases (hOv v id).1 hid with hid | hid
      · exact Or.inr (Or.inl hid)
      · exact Or.inl hid.1.symm
  obtain ⟨slots, hslots, hother, hends, hexact⟩ :=
    spliceSlots_spec held (fun v id hid => hwhole.rank_entries hM (hids v id hid)) hnew hold
  subst hF
  refine ⟨slots, a₁, a₂, a₃, hslots, h₁, h₂, h₃, hother, hexact, ⟨o₃.congr (by abel), ?_, fun t h => ?_, ?_,
    h.ascending.splice _ _, ?_⟩⟩
  · have hagree := h.agree
    rw [hM'] at hagree
    have hN : (n + rest + c.cells x).RowsInside :=
      ((Cells.RowsInside.of_trees hn).add (.of_trees hrest)).add hc.rowsInside
    have hafter := hagree.intoOuter hN (h.owns.row_not_mem hM')
      (h.owns.row_not_mem hM) (fun v hv => (hOv v s).2 (Or.inr ⟨rfl, hv⟩))
      (fun v hv id => by simp [hFv, hOv, hv]) hends hother
    rwa [← add_assoc] at hafter
  · rw [Multiset.map_add, Multiset.mem_add]
    exact Or.inl (ht t h)
  · rw [sonLinks_splice hO, Row.sonLinks_carry, ← hR]
    exact hn.add hrest
  · intro hnil
    have hlist := Row.toList_splice_of_keyed
      (S := Row.carry R.flipped zs e held (reached p.nbrs held)) hO
    rw [Row.toList, hnil] at hlist
    simp [Row.toList, Row.keyed_carry] at hlist

/-- An open row is spliced into the row of the Q-node above it, or there is no room for it. -/
theorem RowStands.absorbRow
    (hrow : w.RowStands S (.inRow x flipped xs key s held ys rest :: c) q R n)
    (hc : Ctx.Ok (.inRow x flipped xs key s held ys rest :: c)) (hR : R.keyed = zs ++ [e])
    (hzs : zs ≠ []) (p : Pass) (isTop : Bool) :
    (w.absorbRow p x s q e.2.id isTop = .ok (w, false) ∧
        ∀ back, ¬ Faces p.nbrs isTop (xs.getLast?.map fun d => d.2.held)
          (ys.head?.map fun d => d.2.held) held back) ∨
      ∃ w' a far near back, w.absorbRow p x s q e.2.id isTop = .ok (w', true) ∧
        w.turnOutwards p x s isTop = .ok (some a) ∧
        Faces p.nbrs isTop (xs.getLast?.map fun d => d.2.held) (ys.head?.map fun d => d.2.held) held
          back ∧
        RowStands { w with arena := a } S c x
          ((Row.ofKeyed flipped (xs ++ (key, ⟨s, held, q⟩) :: ys)).turn back)
          (R.cellsAt q (some s) + n + rest) ∧
        (Entries.ids zs).head? = some far ∧ (Entries.ids zs).getLast? = some near ∧
        (∀ v ∉ held, w'.slots.get v = w.slots.get v) ∧
        (held.Nodup → ∀ v ∈ held,
          { w with arena := a }.spliceSlot p v s far near e.2.id = .ok (w'.slots.get v)) ∧
        w'.touched = w.touched ∧
        w'.RowStands S c x
          (((Row.ofKeyed flipped (xs ++ (key, ⟨s, held, q⟩) :: ys)).turn back).splice
            (if back then Row.reflect ys else xs).length
            (Row.carry R.flipped zs e held (reached p.nbrs held))) (n + rest) := by
  have hf := hc _ List.mem_cons_self
  have hc' : c.Ok := fun f hf => hc f (List.mem_cons_of_mem _ hf)
  have hout := hrow.above hf
  have hO : (Row.ofKeyed flipped (xs ++ (key, ⟨s, held, q⟩) :: ys)).keyed =
      xs ++ (key, ⟨s, held, q⟩) :: ys := Row.keyed_ofKeyed _ _
  generalize Row.ofKeyed flipped (xs ++ (key, ⟨s, held, q⟩) :: ys) = O at hout hO ⊢
  have hlinks := hout.stands.owns.links_row (add_assoc _ _ _) hO
  simp only at hlinks
  simp only [Work.absorbRow, hlinks, ok_bind, ne_eq, not_true, if_false]
  rcases hout.turnOutwards hc' hO p isTop with ⟨hturn, hfaces⟩ | ⟨a, back, hturn, hrow', hfaces⟩
  · exact Or.inl ⟨by rw [hturn]; rfl, hfaces⟩
  have hO' := Row.keyed_turn hO back
  -- Turning the outer row does not change which trees stand below its other sections.
  have hrest : Trees (sonLinks ((if back then Row.reflect ys else xs) ++
      if back then Row.reflect xs else ys)) rest := by
    cases back with
    | false => exact hf.1
    | true =>
        have hlinks := hf.1
        rw [sonLinks_append, add_comm] at hlinks
        simpa only [if_true, sonLinks_append, sonLinks_reflect] using hlinks
  obtain ⟨far, near, hinit, hfar, hnear, hlast⟩ := opened_parts hR hzs
  have hM : (O.turn back).cellsAt x c.parent + (R.cellsAt q (some s) + n + rest) + c.cells x =
      R.cellsAt q (some s) + ((O.turn back).cellsAt x c.parent + (n + rest + c.cells x)) := by
    abel
  have hslices := hrow'.owns.slices_row hM hrow.keyed_ne
  have hcell := hrow'.owns.cell_row (add_assoc _ _ _) hO'
  -- The steps read the row as it stands after it was turned.
  obtain ⟨slots, a₁, a₂, a₃, h₁, h₂, h₃, h₄, hother, hexact, hresult⟩ := hrow'.takeIn hc' hO' hR
    hrow.sons hrest hrow.touched hfar hnear p
  refine Or.inr ⟨⟨a₃, slots, w.touched⟩, a, far, near, back, ?_, hturn, hfaces, hrow', hfar, hnear,
    hother, hexact, rfl, hresult⟩
  simp only at hslices hcell h₂
  simp only [hturn, ok_bind, hslices, hinit, hfar, hnear, hlast, not_true, if_false, hcell,
    Loose.cell, h₁, h₂, h₃, h₄, pure_eq_ok]

/-- A row into which an open one was spliced below the highest node is still open. -/
theorem Opened.absorbRow
    (h : w.Opened S (.inRow x flipped xs key s held ys rest :: c) q k)
    (hc : Ctx.Ok (.inRow x flipped xs key s held ys rest :: c)) (p : Pass) (isTop : Bool) :
    ∃ w' done, w.absorbRow p x s q k isTop = .ok (w', done) ∧ w'.Within S ∧ (done = true →
      (∃ R n, w'.RowStands S c x R n) ∧ (isTop = false → w'.Opened S c x k)) := by
  obtain ⟨R, n, zs, e, hrow, hR, hzs, rfl⟩ := h
  rcases hrow.absorbRow hc hR hzs p isTop with ⟨h', -⟩ |
    ⟨w', a, far, near, back, h', -, hfaces, -, -, -, -, -, -, hresult⟩
  · exact ⟨w, false, h', hrow.stands.within, by simp⟩
  refine ⟨w', true, h', hresult.stands.within, fun _ => ⟨⟨_, _, hresult⟩, fun hbelow => ?_⟩⟩
  subst hbelow
  -- Nothing stands on the right of the sections that were put in.
  have hO := Row.keyed_turn (Row.keyed_ofKeyed flipped (xs ++ (key, ⟨s, held, q⟩) :: ys)) back
  have hlist := Row.toList_splice_of_keyed
    (S := Row.carry R.flipped zs e held (reached p.nbrs held)) hO
  rw [hfaces.right_eq_nil, Row.toList_carry, ← List.append_assoc, List.map_nil, List.append_nil]
    at hlist
  obtain ⟨es, f, hkeyed, hes, hlastPart⟩ := Row.keyed_of_toList hlist
  refine ⟨_, _, es, f, hresult, hkeyed, ?_, by rw [hlastPart]⟩
  rintro rfl
  simp [Entries.mapHeld, hzs] at hes

end Work

end CliquePath
