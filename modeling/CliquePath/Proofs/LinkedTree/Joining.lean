import CliquePath.Proofs.LinkedTree.Folding

set_option autoImplicit false

/-!
# Joining an opened row with an outer one

This module follows an opened row of a plan into the row of the Q-node above it. The outer row is turned
so that the section above the opened row faces outwards, and the opened row takes the place of that
section. The outer row then shows what the clique tree makes of both rows.
-/

namespace CliquePath

open Cells (one)
open Plan (ctx)

/-! ## Ends of runs in a row with ranks -/

/-- The first section that holds a vertex has a lower rank than the last one, or they are the same. -/
theorem Row.Ascending.ends_hits {ν : Type} {R : Row (Part ν)} {v : Vertex} {f l : NodeId}
    (h : R.Ascending) (hf : (hits v (R.toList.map Part.span)).head? = some f)
    (hl : (hits v (R.toList.map Part.span)).getLast? = some l) :
    ∃ a ∈ R.keyed, ∃ b ∈ R.keyed, a.2.id = f ∧ b.2.id = l ∧ (a.1 < b.1 ∨ a = b) := by
  have hhits : hits v (R.toList.map Part.span) =
      (R.keyed.filter fun e => e.2.held.contains v).map fun e => e.2.id := by
    rw [hits, Row.toList, List.map_map, List.filter_map, List.map_map]
    rfl
  have hsub : (R.keyed.filter fun e => e.2.held.contains v).Sublist R.keyed := List.filter_sublist
  have hpair := h.sublist hsub
  rw [hhits] at hf hl
  -- only the order of the filtered row matters from here on
  generalize R.keyed.filter (fun e => e.2.held.contains v) = es at hf hl hsub hpair
  cases es with
  | nil => simp at hf
  | cons a rest =>
      obtain rfl : a.2.id = f := by simpa using hf
      -- one section alone is the first and the last one
      rcases List.eq_nil_or_concat rest with rfl | ⟨ini, b, rfl⟩
      · exact ⟨a, hsub.mem (by simp), a, hsub.mem (by simp), rfl, by simpa using hl, Or.inr rfl⟩
      · rw [List.concat_eq_append] at hl hsub hpair
        refine ⟨a, hsub.mem (by simp), b, hsub.mem (by simp), rfl, ?_,
          Or.inl ((List.pairwise_cons.1 hpair).1 b (by simp))⟩
        rw [← List.cons_append, List.map_append, List.map_singleton, List.getLast?_concat] at hl
        exact Option.some.inj hl

namespace Work

variable {w w' : Work} {S : Set Vertex} {bs : List Bough} {p : Pass} {x q k s far near : NodeId}
variable {O P : Row (Part Plan)} {xs ys ws : List (Int × Part Plan)} {e : Int × Part Plan} {key : Int}
variable {held : List Vertex} {u v : Vertex} {o : Opening}

/-- The slot of a vertex of a section that a row of sections replaces. -/
theorem spliceSlot_hits {R : Row (Part NodeId)} {r parent : Option NodeId} {M m : Cells} {f l : NodeId}
    (ho : w.arena.Owns r M) (hM : M = R.cellsAt x parent + m) (hasc : R.Ascending)
    (hmarks : w.slots.Marks (R.toList.map Part.span))
    (hf : (hits v (R.toList.map Part.span)).head? = some f)
    (hl : (hits v (R.toList.map Part.span)).getLast? = some l) :
    w.spliceSlot p v s far near k = .ok (.span (if f = s then far else f)
      (if l = s then (if p.nbrs.contains v then k else near) else l)) := by
  obtain ⟨a, ha, b, hb, rfl, rfl, hab⟩ := hasc.ends_hits hf hl
  have hrank : ∀ e ∈ R.keyed, w.arena.rank e.2.id = .ok e.1 := by
    intro e he
    obtain ⟨xs, ys, hR⟩ := List.append_of_mem he
    exact ho.rank_row hM hR
  have hra := hrank a ha
  have hrb := hrank b hb
  -- the slot names the ends in either order, and their ranks tell which one comes first
  rcases hmarks v _ _ hf hl with hslot | hslot
  · have hle : a.1 ≤ b.1 := hab.elim le_of_lt fun heq => heq ▸ le_refl _
    simp only [Work.spliceSlot, hslot, hra, hrb, ok_bind, if_pos hle, pure_eq_ok]
  · rcases hab with hlt | rfl
    · have hnot : ¬ b.1 ≤ a.1 := not_le.2 hlt
      simp only [Work.spliceSlot, hslot, hra, hrb, ok_bind, if_neg hnot, pure_eq_ok]
    · simp only [Work.spliceSlot, hslot, hra, ok_bind, le_refl, if_true, pure_eq_ok]

/-- The sections of a row into which another one was spliced. -/
theorem toList_join {ν : Type} {O I : Row (Part ν)} {xs ys : List (Int × Part ν)} {d : Int × Part ν}
    {α : Type} (f : Part ν → α) (hO : O.keyed = xs ++ d :: ys) : (O.splice xs.length I).toList.map f =
      xs.map (fun e => f e.2) ++ (I.toList.map f ++ ys.map fun e => f e.2) := by
  rw [Row.toList_splice_of_keyed hO]
  simp [Function.comp_def]

/-- What stands below a joined row. -/
theorem sons_join {d : Int × Part Plan} {link : List Vertex} (hO : O.keyed = xs ++ d :: ys)
    (hP : P.keyed = ws ++ [e]) :
    Plan.sons (O.splice xs.length (Row.carried P.flipped ws e held link)) =
      xs.map (fun e => (e.2.id, e.2.son)) ++ (Plan.sons P ++ ys.map fun e => (e.2.id, e.2.son)) := by
  rw [Plan.sons, toList_join _ hO, ← Plan.sons, Plan.sons_carried, Plan.sons_keyed, hP]

/-- The sections of a row have different places. -/
theorem Draws.nodup_row (h : w.Draws S ((Plan.qnode x O).under bs)) :
    (O.toList.map fun t => t.id).Nodup := by
  have hM := Plan.cells_under_row x O bs
  have hids := h.owns.nodup_ids hM
  rw [Entries.ids, Row.keyed_map, List.map_map] at hids
  rwa [Row.toList, List.map_map]

/-- A row and the row below one of its sections hold different vertices. -/
theorem Draws.rows_apart (h : w.Draws S ((Plan.qnode x O).under bs))
    (hs : ⟨s, held, .qnode q P⟩ ∈ O.toList) {r t : Part Plan} (hr : r ∈ O.toList) (hvr : v ∈ r.held)
    (ht : t ∈ P.toList) : v ∉ t.held := by
  intro hvt
  have hl : (s, Plan.qnode q P) ∈ Plan.sons O := List.mem_map_of_mem hs
  exact (h.of_row hr hvr).2 (t.id, some q) (Cells.holds_add.2 (Or.inl (Plan.holds_limbCells.2
    ⟨_, hl, Plan.holds_cells.2 (Or.inl (Plan.holds_own_qnode.2 ⟨t, ht, hvt, rfl⟩))⟩)))

/-- The slots name the ends of the runs of the joined row. -/
theorem Draws.marks_join (h : w.Draws S ((Plan.qnode x O).under bs))
    (hO : O.keyed = xs ++ (key, ⟨s, held, .qnode q P⟩) :: ys) (hP : P.keyed = ws ++ [e])
    (hfar : (ws.map fun e => e.2.id).head? = some far)
    (hnear : (ws.map fun e => e.2.id).getLast? = some near)
    (hin : ∀ v ∈ held, w.spliceSlot p v s far near e.2.id = .ok (w'.slots.get v))
    (hother : ∀ v ∉ held, w'.slots.get v = w.slots.get v) :
    w'.slots.Marks (xs.map (fun e => e.2.span) ++
      (((ws.map fun e => e.2.span).map (addHeld held) ++ [addHeld (reached p.nbrs held) e.2.span]) ++
        ys.map fun e => e.2.span)) := by
  have hlistO : O.toList.map Part.span = xs.map (fun e => e.2.span) ++ (s, held) ::
      ys.map fun e => e.2.span := by
    rw [Row.toList, hO]
    simp [Part.span, Function.comp_def]
  have hlistP : P.toList.map Part.span = ws.map (fun e => e.2.span) ++ [e.2.span] := by
    rw [Row.toList, hP]
    simp [Function.comp_def]
  have hson : (⟨s, held, .qnode q P⟩ : Part Plan) ∈ O.toList := by simp [Row.toList, hO]
  have hlast : e.2 ∈ P.toList := by simp [Row.toList, hP]
  -- the sections of the outer row, without the one that is replaced
  have houter : ∀ r ∈ xs.map (fun e => e.2.span) ++ ys.map fun e => e.2.span, ∃ t ∈ O.toList, r = t.span := by
    intro r hr
    rw [← List.map_append] at hr
    obtain ⟨d, hd, rfl⟩ := List.mem_map.1 hr
    refine ⟨d.2, List.mem_map_of_mem ?_, rfl⟩
    rw [hO, List.mem_append, List.mem_cons]
    rcases List.mem_append.1 hd with hd | hd
    · exact Or.inl hd
    · exact Or.inr (Or.inr hd)
  have hmarksO := h.marks_row
  have hlimb : Plan.qnode q P ∈ (Plan.qnode x O).parts :=
    Plan.mem_parts_iff.2 (Or.inr ⟨(s, .qnode q P), List.mem_map_of_mem hson, Plan.self_mem_parts _⟩)
  have hmarksP : w.slots.Marks (P.toList.map Part.span) := h.runs.focus _ hlimb
  rw [hlistO] at hmarksO
  rw [hlistP] at hmarksP
  have hM := Plan.cells_under_row x O bs
  refine hmarksO.spliced hmarksP (by simpa [Part.span, Function.comp_def] using hfar)
    (by simpa [Part.span, Function.comp_def] using hnear) ?_
    (fun v hv => h.rows_apart hson hson hv hlast) (fun v hv r hr hvr => ?_) (fun v hv f l hf hl => ?_)
    hother
  · -- the replaced section is no other section of its row
    have hn := h.nodup_row
    rw [Row.toList, hO, List.map_map, List.map_append, List.map_cons, List.nodup_middle,
      List.nodup_cons, ← List.map_append] at hn
    intro r hr heq
    rw [← List.map_append] at hr
    obtain ⟨d, hd, rfl⟩ := List.mem_map.1 hr
    exact hn.1 (List.mem_map.2 ⟨d, hd, heq⟩)
  · obtain ⟨t, ht, hvt⟩ := hv
    obtain ⟨r, hr', rfl⟩ := houter r hr
    rw [← hlistP] at ht
    obtain ⟨t, ht', rfl⟩ := List.mem_map.1 ht
    exact h.rows_apart hson hr' hvr ht' hvt
  · -- a vertex of the replaced section has its slot recomputed
    have hslot := hin v hv
    rw [← hlistO] at hf hl
    rw [← Row.spans_top] at hf hl
    rw [spliceSlot_hits h.owns hM (Row.ascending_map.2 (Plan.formed_iff.1 h.formed.focus).1.2)
      (Row.spans_top O ▸ h.marks_row) hf hl] at hslot
    exact (Except.ok.inj hslot).symm

/-- A plan below a row into which another one was spliced stood below one of the two rows. -/
theorem Draws.runs_join (h : w.Draws S ((Plan.qnode x O).under bs))
    (hO : O.keyed = xs ++ (key, ⟨s, held, .qnode q P⟩) :: ys) (hP : P.keyed = ws ++ [e]) :
    ∀ l ∈ Plan.sons (O.splice xs.length (Row.carried P.flipped ws e held (reached p.nbrs held))),
      w.slots.Runs l.2 ∧ l.2.Formed ∧
        ∀ v r, (l.2.cells (some l.1)).Holds v r → ∃ r, (Plan.limbCells (Plan.sons O)).Holds v r := by
  -- The opened row in focus.
  have hfill : (Bough.inRow x O.flipped xs key s held ys).fill (.qnode q P) = .qnode x O :=
    fill_of_keyed hO
  have hinner : w.Draws S ((Plan.qnode q P).under (.inRow x O.flipped xs key s held ys :: bs)) := by
    rw [Plan.under, hfill]
    exact h
  have hsonsO : ∀ l, l ∈ Plan.sons O ↔ l = (s, Plan.qnode q P) ∨
      l ∈ (Bough.inRow x O.flipped xs key s held ys).others := by
    intro l
    have hlimbs := Bough.mem_limbs_fill (b := .inRow x O.flipped xs key s held ys) (T := .qnode q P) (l := l)
    rwa [hfill] at hlimbs
  have hsonsF : ∀ l, l ∈ Plan.sons (O.splice xs.length
      (Row.carried P.flipped ws e held (reached p.nbrs held))) ↔ l ∈ Plan.sons P ∨
        l ∈ (Bough.inRow x O.flipped xs key s held ys).others := by
    intro l
    rw [sons_join hO hP, Bough.others, List.map_append]
    simp only [List.mem_append]
    tauto
  intro l hl
  rcases (hsonsF l).1 hl with hl | hl
  · have hfocus := hinner.runs.focus
    refine ⟨(Slots.Runs.iff_limbs.1 hfocus).2 l hl, hinner.formed.focus.limb hl, fun v r hr => ⟨r, ?_⟩⟩
    exact Plan.holds_limbCells.2 ⟨_, (hsonsO _).2 (Or.inl rfl), Plan.holds_cells.2 (Or.inr ⟨l, hl, hr⟩)⟩
  · have hlO := (hsonsO l).2 (Or.inr hl)
    exact ⟨(Slots.Runs.iff_limbs.1 h.runs.focus).2 l hlO, h.formed.focus.limb hlO,
      fun v r hr => ⟨r, Plan.holds_limbCells.2 ⟨l, hlO, hr⟩⟩⟩

/-- An opened row takes the place of the section above it. -/
theorem Draws.join (h : w.Draws S ((Plan.qnode x O).under bs))
    (hO : O.keyed = xs ++ (key, ⟨s, held, .qnode q P⟩) :: ys) (hP : P.keyed = ws ++ [e])
    (hfar : (ws.map fun e => e.2.id).head? = some far)
    (hnear : (ws.map fun e => e.2.id).getLast? = some near)
    (hin : ∀ v ∈ held, w.spliceSlot p v s far near e.2.id = .ok (w'.slots.get v))
    (hother : ∀ v ∉ held, w'.slots.get v = w.slots.get v) (hlive : w'.arena.live + 2 = w.arena.live)
    (hrow : w'.RowStands S (ctx bs) x
      ((O.splice xs.length (Row.carried P.flipped ws e held (reached p.nbrs held))).map Part.top)
      (Plan.limbCells (Plan.sons
        (O.splice xs.length (Row.carried P.flipped ws e held (reached p.nbrs held)))))) :
    w'.Draws S ((Plan.qnode x
      (O.splice xs.length (Row.carried P.flipped ws e held (reached p.nbrs held)))).under bs) := by
  obtain ⟨F, hF⟩ : ∃ F, F = O.splice xs.length (Row.carried P.flipped ws e held (reached p.nbrs held)) :=
    ⟨_, rfl⟩
  have hspans : F.toList.map Part.span = xs.map (fun e => e.2.span) ++
      (((ws.map fun e => e.2.span).map (addHeld held) ++ [addHeld (reached p.nbrs held) e.2.span]) ++
        ys.map fun e => e.2.span) := by
    rw [hF, toList_join _ hO, Row.spans_carried]
  have hsons : Plan.sons F = xs.map (fun e => (e.2.id, e.2.son)) ++
      (Plan.sons P ++ ys.map fun e => (e.2.id, e.2.son)) := by
    rw [hF, sons_join hO hP]
  rw [← hF] at hrow ⊢
  have hruns := h.runs_join (p := p) hO hP
  rw [← hF] at hruns
  have hheld : (⟨s, held, .qnode q P⟩ : Part Plan) ∈ O.toList := by simp [Row.toList, hO]
  have hsame : ∀ v r, (Plan.limbCells (Plan.sons O) + (ctx bs).cells x).Holds v r →
      w'.slots.get v = w.slots.get v :=
    fun v r hr => hother v fun hv => (h.of_row hheld hv).2 r hr
  have hcount := Plan.count_under (.qnode x O) (.qnode x F) bs
  have hsonsO : Plan.sons O = xs.map (fun e => (e.2.id, e.2.son)) ++
      (s, .qnode q P) :: ys.map fun e => (e.2.id, e.2.son) := by
    rw [Plan.sons_keyed, hO, List.map_append, List.map_cons]
  rw [Plan.count_qnode x O, Plan.count_qnode x F, hsons, hsonsO] at hcount
  simp only [Plan.limbCount_append, Plan.limbCount_cons, Plan.count_qnode, List.length_append,
    List.length_cons] at hcount
  refine hrow.draws (by have := h.live; omega)
    (h.runs.refill (T := .qnode x O) (Slots.Runs.iff_limbs.2 ⟨?_, fun l hl => ?_⟩)
    fun v r hr => hsame v r (Cells.holds_add.2 (Or.inr hr)))
    (h.formed.refill (Plan.formed_iff.2 ⟨⟨?_, Row.ascending_map.1 hrow.ascending⟩, fun l hl =>
      (hruns l hl).2.1⟩))
  · rw [Plan.spans, hspans]
    exact h.marks_join hO hP hfar hnear hin hother
  · intro V hV
    obtain ⟨hold, -, hholds⟩ := hruns l hl
    refine (hold V hV).congr fun t ht v hv => ?_
    obtain ⟨r, hr⟩ := Plan.holds_of_spans (some l.1) hV ht hv
    obtain ⟨r, hr⟩ := hholds v _ hr
    exact hsame v r (Cells.holds_add.2 (Or.inl hr))
  · simpa using hrow.keyed_ne

end Work

/-! ## The row above an opened one -/

namespace Row

variable {α : Type} {R R' I : Row α} {xs ys : List (Int × α)} {key : Int} {a a' : α}

theorem splice_of_keyed (hR : R.keyed = xs ++ (key, a) :: ys) :
    R.splice xs.length I = ofKeyed R.flipped (spliceBetween xs key I.toList ys) := by
  have hget : R.keyed[xs.length]? = some (key, a) := by simp [hR]
  rw [splice, hget]
  simp only [withKeyed_eq, hR, List.take_left']
  simp

/-- What stands at a place does not matter once another row takes it. -/
theorem splice_eq_splice (hflipped : R.flipped = R'.flipped) (hR : R.keyed = xs ++ (key, a) :: ys)
    (hR' : R'.keyed = xs ++ (key, a') :: ys) : R.splice xs.length I = R'.splice xs.length I := by
  rw [splice_of_keyed hR, splice_of_keyed hR', hflipped]

theorem map_ofKeyed {β : Type} (f : α → β) (flipped : Bool) (es : List (Int × α)) :
    (ofKeyed flipped es).map f = ofKeyed flipped (es.map (entry f)) := by
  rw [map, withKeyed_eq, keyed_ofKeyed, flipped_ofKeyed]

/-- Where nothing stands on the right of an opened row that is spliced, its last section stays the last
one. -/
theorem splice_carried_last {ν : Type} {O : Row (Part ν)} {xs ws : List (Int × Part ν)}
    {d e : Int × Part ν} {flipped : Bool} {held link : List Vertex} (hO : O.keyed = xs ++ [d])
    (hws : ws ≠ []) : ∃ zs f, (O.splice xs.length (carried flipped ws e held link)).keyed = zs ++ [f] ∧
      zs ≠ [] ∧ f.2.id = e.2.id := by
  have hlist := toList_splice_of_keyed (S := carried flipped ws e held link) hO
  have hcarried : (carried flipped ws e held link).toList =
      ws.map (fun d => d.2.add held) ++ [e.2.add link] := by
    rw [carried, toList, keyed_ofKeyed, List.map_append, List.map_map]
    rfl
  rw [hcarried, List.map_nil, List.append_nil, ← List.append_assoc] at hlist
  obtain ⟨zs, f, hF, hzs, hf⟩ := keyed_of_toList hlist
  refine ⟨zs, f, hF, ?_, by rw [hf]; rfl⟩
  -- an opened row has two sections or more
  rintro rfl
  rw [List.map_nil, eq_comm, List.append_eq_nil_iff, List.map_eq_nil_iff, List.map_eq_nil_iff] at hzs
  exact hws hzs.2

theorem turn_map {β : Type} (f : α → β) (R : Row α) (back : Bool) :
    (R.map f).turn back = (R.turn back).map f := by
  cases back with
  | false => rfl
  | true => exact reverse_map f R

end Row

/-- The other nodes below a bough stay the same ones when its row is turned. -/
theorem Bough.perm_turned (q : NodeId) (flipped back : Bool) (xs : List (Int × Part Plan)) (key : Int)
    (s : NodeId) (held : List Vertex) (ys : List (Int × Part Plan)) :
    ((if back then Row.reflect ys else xs).map (fun e => (e.2.id, e.2.son)) ++
        (if back then Row.reflect xs else ys).map fun e => (e.2.id, e.2.son)).Perm
      (inRow q flipped xs key s held ys).others := by
  rw [others, List.map_append]
  cases back with
  | false => exact List.Perm.refl _
  | true =>
      have hreflect : ∀ es : List (Int × Part Plan),
          ((Row.reflect es).map fun e => (e.2.id, e.2.son)).Perm
            (es.map fun e => (e.2.id, e.2.son)) := by
        intro es
        rw [Row.reflect, List.map_reverse, List.map_map]
        exact List.reverse_perm _
      exact ((hreflect ys).append (hreflect xs)).trans List.perm_append_comm

/-- A row with a section that an opened row replaces, as a clique tree turns it. -/
theorem Bough.closeInto_turn {flipped back : Bool} {xs ys : List (Int × Part Plan)} {key : Int}
    {s : NodeId} {held nbrs : List Vertex} {u : Vertex} {o : Opening} (T : Plan) (N : Node) :
    (((Row.ofKeyed flipped (xs ++ (key, ⟨s, held, T⟩) :: ys)).turn back).map Part.shown).splice
        (if back then Row.reflect ys else xs).length ((o.carry nbrs held).close u) =
      o.closeInto u nbrs ((shownRow flipped xs key ⟨held, N⟩ ys).turn back)
        (if back then ys else xs).length ⟨held, N⟩ := by
  have hT : ((Row.ofKeyed flipped (xs ++ (key, ⟨s, held, T⟩) :: ys)).turn back).map Part.shown =
      (shownRow flipped xs key ⟨held, T.node⟩ ys).turn back := by
    rw [← Row.turn_map, Row.map_ofKeyed, List.map_append, List.map_cons]
    rfl
  have hkeyed := fun M => Row.keyed_turn
    (Row.keyed_ofKeyed flipped (xs.map (Row.entry Part.shown) ++ (key, (⟨held, M⟩ : Section Node)) ::
      ys.map (Row.entry Part.shown))) back
  have hflipped : ((shownRow flipped xs key ⟨held, T.node⟩ ys).turn back).flipped =
      ((shownRow flipped xs key ⟨held, N⟩ ys).turn back).flipped := by
    cases back <;> rfl
  have hsplice := Row.splice_eq_splice (I := (o.carry nbrs held).close u) hflipped (hkeyed T.node) (hkeyed N)
  rw [hT, Opening.closeInto]
  cases back with
  | false => simpa using hsplice
  | true => simpa using hsplice

namespace Work

variable {w w' : Work} {S : Set Vertex} {bs : List Bough} {p : Pass} {x q k s : NodeId}
variable {P : Row (Part Plan)} {xs ys : List (Int × Part Plan)} {key : Int} {flipped isTop : Bool}
variable {held : List Vertex} {u : Vertex} {o : Opening}

/-- The row above an opened one may be turned. -/
theorem Opens.turned {a : Arena} {back : Bool}
    (h : w.Opens S (.inRow x flipped xs key s held ys :: bs) q k P u o) (hlife : a.life = w.arena.life)
    (hrow : RowStands { w with arena := a } S (ctx bs) x
      (((Row.ofKeyed flipped (xs ++ (key, ⟨s, held, .qnode q P⟩) :: ys)).turn back).map Part.top)
      ((P.map Part.top).cellsAt q (some s) + Plan.limbCells (Plan.sons P) +
        Plan.limbCells (Bough.inRow x flipped xs key s held ys).others)) :
    Draws { w with arena := a } S
      ((Plan.qnode x ((Row.ofKeyed flipped (xs ++ (key, ⟨s, held, .qnode q P⟩) :: ys)).turn back)).under
        bs) := by
  have hfocus : w.Draws S ((Plan.qnode x
      (Row.ofKeyed flipped (xs ++ (key, ⟨s, held, .qnode q P⟩) :: ys))).under bs) := h.draws
  obtain ⟨before, after, hlimbs, hothers⟩ :=
    Bough.limbs_fill (.inRow x flipped xs key s held ys) (.qnode q P)
  have hcells : (P.map Part.top).cellsAt q (some s) + Plan.limbCells (Plan.sons P) +
      Plan.limbCells (Bough.inRow x flipped xs key s held ys).others =
        Plan.limbCells (Plan.sons
          (Row.ofKeyed flipped (xs ++ (key, (⟨s, held, .qnode q P⟩ : Part Plan)) :: ys))) := by
    have hsons : Plan.sons (Row.ofKeyed flipped (xs ++ (key, (⟨s, held, .qnode q P⟩ : Part Plan)) :: ys)) =
        before ++ (s, .qnode q P) :: after := hlimbs
    rw [hsons, hothers, Plan.limbCells_middle, Plan.cells_qnode]
  rw [hcells] at hrow
  -- turning reverses the order of the limbs but not their cells
  cases back with
  | false => exact hrow.draws ((Arena.live_of_life hlife).trans hfocus.live) hfocus.runs hfocus.formed
  | true =>
      rw [← limbCells_reverse] at hrow
      exact hfocus.turned hlife hrow

/-- The opened Q-node and the section above it are discarded. -/
theorem Opens.live_absorbRow (h : w.Opens S (.inRow x flipped xs key s held ys :: bs) q k P u o)
    (h' : w.absorbRow p x s q k isTop = .ok (w', true)) : w'.arena.live + 2 = w.arena.live := by
  have hq : q ∈ ((Plan.qnode q P).cells (some s)).map Prod.fst := Plan.id_mem_cells _ _
  have hs : s ∈ ((ctx (.inRow x flipped xs key s held ys :: bs)).cells q).map Prod.fst := by
    obtain ⟨d, hd⟩ := Frame.holder_mem (Bough.inRow x flipped xs key s held ys).frame (ctx bs).parent q
    exact Multiset.mem_map_of_mem Prod.fst (Multiset.mem_add.2 (Or.inl hd))
  have hnodup := h.draws.owns.nodup
  have hlife := fun id => @Draws.life_of_mem _ _ _ id h.draws
  simp only [Plan.cells_under, Multiset.map_add, Multiset.mem_add] at hnodup hlife
  -- the two discarded cells are different ones
  have hne : s ≠ q := fun heq =>
    Multiset.disjoint_left.1 (Multiset.nodup_add.1 hnodup).2.2 hq (heq ▸ hs)
  have hdiscard := Arena.count_discard (hlife s (Or.inr hs))
  have hdiscard' := @Arena.count_discard q (w.arena.life.setIfInBounds s false)
    (by rw [Array.getElem?_setIfInBounds_ne hne]; exact hlife q (Or.inl hq))
  rw [Arena.live, Arena.live, life_absorbRow h']
  omega

/-- A Q-node that cannot take in the opened row has no side on which the new section faces outwards. -/
theorem Opens.not_faces (h : w.Opens S (.inRow x flipped xs key s held ys :: bs) q k P u o)
    (h' : w.absorbRow p x s q k isTop = .ok (w', false)) (back : Bool) :
    ¬ Faces p.nbrs isTop (xs.getLast?.map fun d => d.2.held) (ys.head?.map fun d => d.2.held) held
      back := by
  obtain ⟨ws, e, hP, hws, rfl⟩ := h.last
  have hR : (P.map Part.top).keyed = ws.map (Row.entry Part.top) ++ [Row.entry Part.top e] :=
    Row.keyed_map_append _ hP
  have hrow := h.draws.rowStands h.touched
  rcases hrow.absorbRow h.draws.formed.ok hR (by simpa using hws) p isTop with ⟨-, hfaces⟩ |
    ⟨w₁, a, far, near, back, habsorb, -⟩
  · -- had a side faced outwards, the row would have taken the section in
    simpa [Row.entry, Function.comp_def, Part.top] using hfaces back
  · cases h'.symm.trans habsorb

/-- An opened row is spliced into the row of the Q-node above it. -/
theorem Opens.absorbRow (h : w.Opens S (.inRow x flipped xs key s held ys :: bs) q k P u o)
    (htrim : ∀ l ∈ (Bough.inRow x flipped xs key s held ys).others, l.2.Trim) (hnodup : held.Nodup)
    (h' : w.absorbRow p x s q k isTop = .ok (w', true)) (N : Node) :
    ∃ back F, Faces p.nbrs isTop (xs.getLast?.map fun d => d.2.held)
        (ys.head?.map fun d => d.2.held) held back ∧
      w'.Draws S ((Plan.qnode x F).under bs) ∧
      (∀ t ∈ w'.touched, t ∈ (Plan.limbCells (Plan.sons F)).map Prod.fst) ∧
      (∀ l ∈ Plan.sons F, l.2.Slack w'.touched) ∧
      F.map Part.shown = o.closeInto u p.nbrs ((Bough.shownRow flipped xs key ⟨held, N⟩ ys).turn back)
        (if back then ys else xs).length ⟨held, N⟩ ∧
      (isTop = false → ∃ zs f, F.keyed = zs ++ [f] ∧ zs ≠ [] ∧ f.2.id = k) := by
  obtain ⟨ws, e, hP, hws, rfl⟩ := h.last
  have hR : (P.map Part.top).keyed = ws.map (Row.entry Part.top) ++ [Row.entry Part.top e] :=
    Row.keyed_map_append _ hP
  have hrow := h.draws.rowStands h.touched
  rcases hrow.absorbRow h.draws.formed.ok hR (by simpa using hws) p isTop with ⟨hnone, -⟩ |
    ⟨w₁, a, far, near, back, habsorb, hturn, hfaces, hturned, hfar, hnear, hother, hin, htouched, hresult⟩
  · cases h'.symm.trans hnone
  cases h'.symm.trans habsorb
  have htop : (Row.ofKeyed flipped (xs.map (Row.entry Part.top) ++ (key, ⟨s, held, q⟩) ::
      ys.map (Row.entry Part.top))).turn back =
        ((Row.ofKeyed flipped (xs ++ (key, ⟨s, held, .qnode q P⟩) :: ys)).turn back).map Part.top := by
    rw [← Row.turn_map, Row.map_ofKeyed, List.map_append, List.map_cons]
    rfl
  rw [htop] at hturned hresult
  have hlife := life_turnOutwards hturn
  have hdraws := h.turned hlife hturned
  -- The outer row, turned, with the opened row below one of its sections.
  have hO := Row.keyed_turn
    (Row.keyed_ofKeyed flipped (xs ++ (key, (⟨s, held, .qnode q P⟩ : Part Plan)) :: ys)) back
  have hshown := @Bough.closeInto_turn flipped back xs ys key s held p.nbrs u o (.qnode q P) N
  generalize (Row.ofKeyed flipped (xs ++ (key, (⟨s, held, .qnode q P⟩ : Part Plan)) :: ys)).turn back = O
    at hO hdraws hresult hshown
  have hlen : (if back then Row.reflect (ys.map (Row.entry Part.top))
      else xs.map (Row.entry Part.top)).length = (if back then Row.reflect ys else xs).length := by
    cases back <;> simp
  have hI : Row.carry (P.map Part.top).flipped (ws.map (Row.entry Part.top)) (Row.entry Part.top e) held
      (reached p.nbrs held) =
        (Row.carried P.flipped ws e held (reached p.nbrs held)).map Part.top := by
    rw [Row.carried_top, Row.flipped_map]
  rw [hlen, hI, Row.splice_map] at hresult
  have hperm : (Plan.sons (O.splice (if back then Row.reflect ys else xs).length
      (Row.carried P.flipped ws e held (reached p.nbrs held)))).Perm
        (Plan.sons P ++ (Bough.inRow x flipped xs key s held ys).others) := by
    rw [sons_join hO hP]
    refine List.perm_append_comm_assoc _ _ _ |>.trans (List.Perm.append_left _ ?_)
    exact Bough.perm_turned x flipped back xs key s held ys
  have hsonsF := Plan.limbCells_perm hperm
  rw [Plan.limbCells_append] at hsonsF
  rw [← hsonsF] at hresult
  rw [Plan.ids_entries] at hfar hnear
  have hlive := h.live_absorbRow h'
  have hjoin := hdraws.join hO hP hfar hnear (hin hnodup) hother
    (hlive.trans (Arena.live_of_life hlife).symm) hresult
  refine ⟨back, _, by simpa [Row.entry, Function.comp_def, Part.top] using hfaces, hjoin, ?_, ?_, ?_, ?_⟩
  · intro t ht
    rw [htouched] at ht
    rw [hsonsF, Multiset.map_add, Multiset.mem_add]
    exact Or.inl (h.touched t ht)
  · intro l hl
    rw [htouched]
    rcases List.mem_append.1 (hperm.mem_iff.1 hl) with hl | hl
    · exact h.slack l hl
    · exact (htrim l hl).slack _
  · rw [← Row.splice_map, Row.carried_shown h.shown hP]
    exact hshown
  · rintro rfl
    -- Nothing stands on the right of the opened row.
    have hright : (if back then Row.reflect xs else ys) = [] := by
      have hnil := hfaces.right_eq_nil
      cases back with
      | false => exact List.map_eq_nil_iff.1 hnil
      | true => simpa [Row.reflect] using hnil
    rw [hright] at hO
    exact Row.splice_carried_last hO hws

end Work

end CliquePath
