import CliquePath.Proofs.LinkedTree.Opening

set_option autoImplicit false

/-!
# Folding plans into an opened row

This module follows an opened row of a plan upwards. A P-node above it is dissolved: its other children
go below a new leftmost section. A Q-node above it takes the row into its own one, in place of the
section above it. In both cases the row shows what the clique tree makes of the opened row.
-/

namespace CliquePath

open Cells (one)
open Plan (ctx)

theorem Cells.one_add_inj {id : NodeId} {c d : Cell} {m n : Cells} (h : one id c + m = one id d + n)
    (hn : ((one id c + m).map Prod.fst).Nodup) : c = d ∧ m = n := by
  have hmem : (id, c) ∈ one id d + n := h ▸ Multiset.mem_add.2 (Or.inl (Cells.mem_one.2 rfl))
  rcases Multiset.mem_add.1 hmem with hc | hc
  · obtain rfl : c = d := congrArg Prod.snd (Cells.mem_one.1 hc)
    exact ⟨rfl, add_left_cancel h⟩
  · rw [h, Multiset.map_add, Cells.map_fst_one, Multiset.nodup_add] at hn
    exact absurd (Multiset.mem_map_of_mem Prod.fst hc)
      (Multiset.disjoint_left.1 hn.2.2 (Multiset.mem_singleton_self _))

theorem Row.ascending_map {α β : Type} {f : α → β} {R : Row α} : (R.map f).Ascending ↔ R.Ascending := by
  rw [Row.Ascending, Row.keyed_map, List.pairwise_map]
  rfl

/-- The subtrees below the sections of a row to which vertices were carried are the same. -/
theorem Plan.sons_carried {flipped : Bool} {ws : List (Int × Part Plan)} {e : Int × Part Plan}
    {held link : List Vertex} : Plan.sons (Row.carried flipped ws e held link) =
      (ws ++ [e]).map fun e => (e.2.id, e.2.son) := by
  rw [Plan.sons, Row.toList, Row.carried, Row.keyed_ofKeyed]
  simp [Part.add, Function.comp_def]

/-- The sections of a row to which vertices were carried. -/
theorem Row.spans_carried {flipped : Bool} {ws : List (Int × Part Plan)} {e : Int × Part Plan}
    {held link : List Vertex} : (Row.carried flipped ws e held link).toList.map Part.span =
      (ws.map fun e => e.2.span).map (addHeld held) ++ [addHeld link e.2.span] := by
  simp [Row.toList, Row.carried, Part.add, Part.span, Function.comp_def]

theorem Plan.sons_keyed (P : Row (Part Plan)) :
    Plan.sons P = P.keyed.map fun e => (e.2.id, e.2.son) := by
  rw [Plan.sons, Row.toList, List.map_map]
  rfl

namespace Plan

/-- A row of a plan into which the other children of a P-node were set aside. Unless there are none,
they stand below a new leftmost section, which holds nothing. -/
inductive Aside (others : List Plan) (P : Row (Part Plan)) : Row (Part Plan) → Prop
  | none (hnil : others = []) : Aside others P P
  | some {s : NodeId} {c : Plan} (hne : others ≠ []) (hnode : c.node = .bundle [] (others.map node))
      (hcount : c.count + 1 = (others.map count).sum + min others.length 2) (htrim : c.Trim)
      (hformed : c.Formed)
      (hrows : ∀ V ∈ c.parts, V.spans = [] ∨ ∃ d ∈ others, V ∈ d.parts) :
      Aside others P (P.insertAt 0 ⟨s, [], c⟩)

variable {others : List Plan} {P P' : Row (Part Plan)} {x : NodeId}

/-- The cells of a row into which children were set aside stand for a row of a plan. -/
theorem exists_aside {R : Row (Part NodeId)} {n : Cells} {touched : List NodeId}
    (h : Row.Aside x (others.map id) (limbCells (others.map fun c => (x, c))) (P.map Part.top)
      (limbCells (sons P)) R n touched)
    (hne : P.keyed ≠ []) (hn : ((limbCells (others.map fun c => (x, c))).map Prod.fst).Nodup)
    (htrim : ∀ c ∈ others, c.Trim) (hformed : ∀ c ∈ others, c.Formed) :
    ∃ P', P'.map Part.top = R ∧ limbCells (sons P') = n ∧ Aside others P P' := by
  have hsons : ∀ s c, limbCells (sons (P.insertAt 0 ⟨s, [], c⟩)) =
      c.cells (some s) + limbCells (sons P) := by
    intro s c
    obtain ⟨k, hk⟩ := Row.keyed_insertAt_zero hne ⟨s, [], c⟩
    rw [sons_keyed, hk, List.map_cons, limbCells_cons, ← sons_keyed]
  -- one child that is set aside is the son of the new section, several are below a P-node
  cases h with
  | none hcs hrest => exact ⟨P, rfl, rfl, .none (List.map_eq_nil_iff.1 hcs)⟩
  | @only y s d m hcs hrest =>
      obtain ⟨c, rfl, rfl⟩ := List.map_eq_singleton_iff.1 hcs
      refine ⟨P.insertAt 0 ⟨s, [], c⟩, ?_, ?_, .some (by simp) (by simp [Node.bundle])
        (by simp) (htrim c (by simp)) (hformed c (by simp)) fun V hV => Or.inr ⟨c, by simp, hV⟩⟩
      · rw [← Row.insertAt_map]
        rfl
      · obtain ⟨d', n', -, hcells⟩ := c.cells_top
        have hone : limbCells ([c].map fun c => (x, c)) = c.cells (Option.some x) := by
          simp [limbCells_cons]
        rw [hone] at hrest hn
        obtain ⟨hd, rfl⟩ := Cells.one_add_inj ((hcells _).symm.trans hrest) (hcells _ ▸ hn)
        rw [hsons, hcells, ← hd]
  | @several s hcs =>
      rw [List.length_map] at hcs
      have hnonempty : others ≠ [] := fun hnil => by simp [hnil] at hcs
      refine ⟨P.insertAt 0 ⟨s, [], pnode x [] others⟩, ?_, ?_, .some hnonempty (node_pnode _ _ _)
        (by rw [count_pnode]; omega) (trim_pnode (Or.inr (by omega)) htrim)
        (formed_pnode hnonempty hformed) fun V hV => ?_⟩
      · rw [← Row.insertAt_map]
        rfl
      · rw [hsons, cells_pnode]
      · rcases mem_parts_iff.1 hV with rfl | ⟨l, hl, hV⟩
        · exact Or.inl rfl
        · obtain ⟨d, hd, rfl⟩ := List.mem_map.1 hl
          exact Or.inr ⟨d, hd, hV⟩

namespace Aside

/-- The new section holds nothing. -/
theorem keyed (h : Aside others P P') (hne : P.keyed ≠ []) :
    P'.flipped = P.flipped ∧ ∃ zs, P'.keyed = zs ++ P.keyed ∧ ∀ e ∈ zs, e.2.held = [] := by
  cases h with
  | none hnil => exact ⟨rfl, [], rfl, by simp⟩
  | @some s c hothers hnode hcount htrim hformed hrows =>
      obtain ⟨k, hk⟩ := Row.keyed_insertAt_zero hne ⟨s, [], c⟩
      exact ⟨rfl, [(k, ⟨s, [], c⟩)], hk, by simp⟩

/-- What stands below the row is what stood there, and a plan of the other children. -/
theorem limbs (h : Aside others P P') {l : NodeId × Plan} (hl : l ∈ sons P') :
    l ∈ sons P ∨ l.2.Trim ∧ l.2.Formed ∧
      ∀ V ∈ l.2.parts, V.spans = [] ∨ ∃ d ∈ others, V ∈ d.parts := by
  cases h with
  | none hnil => exact Or.inl hl
  | some hothers hnode hcount htrim hformed hrows =>
      obtain ⟨s, hs, rfl⟩ := List.mem_map.1 hl
      rcases Row.mem_insertAt.1 hs with hs | rfl
      · exact Or.inl (List.mem_map_of_mem hs)
      · exact Or.inr ⟨htrim, hformed, hrows⟩

/-- The number of cells of the row with those of the other children. -/
theorem count (h : Aside others P P') (hne : P.keyed ≠ []) (q : NodeId) :
    (qnode q P').count = (qnode q P).count + (others.map Plan.count).sum + min others.length 2 := by
  cases h with
  | none hnil => simp [hnil]
  | @some s c hothers hnode hcount htrim hformed hrows =>
      obtain ⟨k, hk⟩ := Row.keyed_insertAt_zero hne ⟨s, [], c⟩
      rw [count_qnode, count_qnode, sons_keyed (P.insertAt 0 _), hk, List.map_cons, ← sons_keyed,
        limbCount_cons, List.length_cons]
      dsimp only
      omega

/-- The row shows the opened row with the other children folded in. -/
theorem shown {u : Vertex} {o : Opening} (h : Aside others P P') (ho : P.map Part.shown = o.close u)
    (hne : o.row.keyed ≠ []) (nbrs held : List Vertex) :
    ∃ o' : Opening, P'.map Part.shown = o'.close u ∧
      o'.carry nbrs held = o.foldChildren nbrs held (others.map node) := by
  cases h with
  | none hnil => exact ⟨o, ho, by rw [hnil]; rfl⟩
  | @some s c hothers hnode hcount htrim hformed hrows =>
      refine ⟨{ o with row := o.row.insertAt 0 ⟨[], c.node⟩ }, ?_, ?_⟩
      · rw [← Row.insertAt_map, ho, Opening.close, Row.insertAt_push hne]
        rfl
      · obtain ⟨d, ds, rfl⟩ := List.exists_cons_of_ne_nil hothers
        rw [hnode]
        rfl

end Aside

end Plan

/-- Sections that hold nothing change no run. -/
theorem Slots.Marks.append_left {slots : Slots} {ss ts : List (NodeId × List Vertex)}
    (h : slots.Marks ts) (hnil : ∀ s ∈ ss, s.2 = []) : slots.Marks (ss ++ ts) := by
  intro v f l hf hl
  have hnone : hits v ss = [] := hits_eq_nil.2 fun s hs => by simp [hnil s hs]
  rw [hits_append, hnone, List.nil_append] at hf hl
  exact h v f l hf hl

namespace Slots

variable {slots : Slots} {nbrs held : List Vertex}

/-- Vertices that are in no run may go to two places. -/
theorem keeps_parted (h : ∀ v ∈ held, ∀ a b, slots.get v ≠ .span a b) (s t : Slot) :
    slots.Keeps ((slots.putAll (missed nbrs held) s).putAll (reached nbrs held) t) := by
  intro v a b hv
  rw [get_parted, if_neg fun hm => h v hm a b hv, hv]

/-- The runs of a row whose sections got the vertices of a P-node. -/
theorem Marks.parted {zs : List (NodeId × List Vertex)} {e : NodeId × List Vertex} {far near : NodeId}
    (h : slots.Marks (zs ++ [e])) (hfar : (zs.map Prod.fst).head? = some far)
    (hnear : (zs.map Prod.fst).getLast? = some near) (hout : ∀ v ∈ held, v ∉ e.2) :
    ((slots.putAll (missed nbrs held) (.span far near)).putAll (reached nbrs held)
      (.span far e.1)).Marks (zs.map (addHeld held) ++ [addHeld (reached nbrs held) e]) := by
  refine h.carried hfar hnear hout (fun v hv => ?_) fun v hv => ?_
  · rw [get_parted, if_pos hv]
    by_cases hn : v ∈ nbrs <;> simp [hn]
  · rw [get_parted, if_neg hv]

end Slots

namespace Work

variable {w w' : Work} {S : Set Vertex} {T U V W : Plan} {bs : List Bough} {b : Bough} {p : Pass}
variable {x q k s : NodeId} {P : Row (Part Plan)} {held : List Vertex} {u v : Vertex} {o : Opening}
variable {before after : List Plan}

/-- The vertices of a P-node are in its slot. -/
theorem Draws.node_of_held {children : List Plan} (h : w.Draws S ((Plan.pnode x held children).under bs))
    (hv : v ∈ held) : w.slots.get v = .node x := by
  have hagree := h.agree
  have hnodup := h.owns.nodup
  rw [Plan.cells_under, Plan.cells_pnode, add_assoc] at hagree hnodup
  refine (hagree.fit.of_node ?_ rfl hv).1
  rw [Multiset.map_add, Multiset.nodup_add] at hnodup
  exact Multiset.disjoint_left.1 hnodup.2.2 (Multiset.mem_singleton_self _)

/-- The cells of the other children of a P-node are different ones. -/
theorem Draws.nodup_siblings (h : w.Draws S (T.under (.branch x held before after :: bs))) :
    ((Plan.limbCells ((before ++ after).map fun c => (x, c))).map Prod.fst).Nodup := by
  have hnodup := h.owns.nodup
  rw [Plan.cells_under] at hnodup
  simp only [List.map_cons, Bough.frame, Ctx.cells, Frame.cells, Multiset.map_add,
    Multiset.nodup_add] at hnodup
  exact hnodup.2.1.1.2.1

/-- The number of cells in use after a P-node was dissolved: one more if there is one other child, and
two more if there are several. -/
theorem Draws.live_absorbChildren
    (h : w.Draws S ((Plan.pnode x held (before ++ T :: after)).under bs))
    (hfilter : ((before ++ T :: after).map Plan.id).filter (· != T.id) = (before ++ after).map Plan.id)
    (h' : w.absorbChildren p x T.id k = .ok w') :
    w'.arena.live + 1 = w.arena.live + min (before ++ after).length 2 := by
  have hmem : (x, pCell (ctx bs).parent held ((before ++ T :: after).map Plan.id)) ∈
      ((Plan.pnode x held (before ++ T :: after)).under bs).cells none := by
    rw [Plan.cells_under, Plan.cells_pnode]
    simp [one]
  obtain ⟨ids, hids, hlife⟩ := life_absorbChildren h'
  simp only [Arena.children, h.owns.cell_of_mem hmem, ok_bind, pCell, pure_eq_ok,
    Except.ok.injEq] at hids
  rw [← hids, hfilter] at hlife
  have haside := Arena.count_lifeAside (h.owns.life_of_mem hmem) ((before ++ after).map Plan.id)
  rwa [← hlife, List.length_map] at haside

/-- The runs of an opened row into which the P-node above it was dissolved, with the other children
below new sections `zs`, if any. -/
theorem Opens.marks_carried {ws zs : List (Int × Part Plan)} {e : Int × Part Plan} {far near : NodeId}
    (h : w.Opens S (.branch x held before after :: bs) q k P u o) (hP : P.keyed = ws ++ [e])
    (hempty : ∀ d ∈ zs, d.2.held = []) (hfar : ((zs ++ ws).map fun d => d.2.id).head? = some far)
    (hnear : ((zs ++ ws).map fun d => d.2.id).getLast? = some near) (flipped : Bool) :
    ((w.slots.putAll (missed p.nbrs held) (.span far near)).putAll (reached p.nbrs held)
      (.span far e.2.id)).Marks
        (Plan.qnode q (Row.carried flipped (zs ++ ws) e held (reached p.nbrs held))).spans := by
  rw [Plan.spans, Row.spans_carried]
  refine Slots.Marks.parted (e := e.2.span) ?_ ?_ ?_ fun v hv hve => ?_
  · rw [List.map_append, List.append_assoc]
    refine Slots.Marks.append_left ?_ (List.forall_mem_map.2 hempty)
    have hmarks := h.draws.marks_row
    rwa [Row.toList, hP, List.map_map, List.map_append] at hmarks
  · rwa [List.map_map]
  · rwa [List.map_map]
  · -- No section of the row holds a vertex of the P-node.
    refine (h.draws.of_row (s := e.2) (by simp [Row.toList, hP]) hve).2 (x, none) ?_
    refine Cells.holds_add.2 (Or.inr (Cells.holds_add.2 (Or.inl (Cells.holds_add.2 (Or.inl ?_)))))
    simpa using hv

/-- A P-node above an opened row is dissolved into it. -/
theorem Opens.absorbChildren (h : w.Opens S (.branch x held before after :: bs) q k P u o)
    (htrim : ∀ c ∈ before ++ after, c.Trim) (p : Pass) :
    ∃ w' P', w.absorbChildren p x q k = .ok w' ∧ w'.Opens S bs q k P' u
      (o.foldChildren p.nbrs held ((before ++ after).map Plan.node)) := by
  obtain ⟨ws, e, hP, hws, rfl⟩ := h.last
  have hne : P.keyed ≠ [] := by simp [hP]
  have hrow := h.draws.rowStands h.touched
  have hR : (P.map Part.top).keyed = ws.map (Row.entry Part.top) ++ [Row.entry Part.top e] :=
    Row.keyed_map_append _ hP
  obtain ⟨w', R, n, ws', far, near, touched, h', haside, hR', hws', hfar, hnear, hslots, htouched, hrow'⟩ :=
    RowStands.absorbChildren (c := ctx bs) hrow h.draws.formed.ok hR (by simpa using hws) p
  -- The P-node in focus, with the opened row below it.
  have hfocus : w.Draws S ((Plan.pnode x held (before ++ .qnode q P :: after)).under bs) := h.draws
  have hformed := hfocus.formed.focus
  have hothers : ∀ c ∈ before ++ after,
      (x, c) ∈ (Plan.pnode x held (before ++ .qnode q P :: after)).limbs := by
    intro c hc
    refine List.mem_map_of_mem ?_
    rw [List.mem_append, List.mem_cons]
    exact (List.mem_append.1 hc).imp_right Or.inr
  have hinner : (x, Plan.qnode q P) ∈ (Plan.pnode x held (before ++ .qnode q P :: after)).limbs :=
    List.mem_map_of_mem (by simp)
  rw [← List.map_append] at haside
  -- The row with the other children set aside.
  obtain ⟨P₁, rfl, rfl, hP₁⟩ := Plan.exists_aside haside hne h.draws.nodup_siblings htrim
    fun c hc => hformed.limb (hothers c hc)
  obtain ⟨hflipped, zs, hzs, hempty⟩ := hP₁.keyed hne
  rw [hP, ← List.append_assoc] at hzs
  obtain ⟨o', hshown, hfold⟩ := hP₁.shown h.shown h.row_ne_nil p.nbrs held
  have hws₁ : (zs ++ ws).map (Row.entry Part.top) = ws' := by
    rw [Row.keyed_map, hzs, @List.map_append _ _ _ _ [e]] at hR'
    exact List.append_inj_left' hR' rfl
  have hsons : Plan.sons (Row.carried P₁.flipped (zs ++ ws) e held (reached p.nbrs held)) =
      Plan.sons P₁ := by
    rw [Plan.sons_carried, Plan.sons_keyed, hzs]
  rw [Row.flipped_map, ← hws₁, ← Row.carried_top, ← hsons] at hrow'
  have hlimbs := fun l (hl : l ∈ Plan.sons P₁) => hP₁.limbs hl
  have hfilter : ((before ++ .qnode q P :: after).map Plan.id).filter (· != (Plan.qnode q P).id) =
      (before ++ after).map Plan.id := by
    simpa only [List.map_append, List.map_cons, Plan.id_qnode] using
      RowStands.filter_children (c := ctx bs) hrow h.draws.formed.ok
  have hlive : w'.arena.live + (Plan.pnode x held (before ++ .qnode q P :: after)).count =
      w.arena.live +
        (Plan.qnode q (Row.carried P₁.flipped (zs ++ ws) e held (reached p.nbrs held))).count := by
    have haside := hfocus.live_absorbChildren hfilter h'
    have hcount := hP₁.count hne q
    rw [Plan.count_qnode, hsons, ← Plan.count_qnode q, hcount, Plan.count_pnode]
    simp only [List.map_append, List.map_cons, List.sum_append, List.sum_cons]
    omega
  have hkeep : w.slots.Keeps w'.slots := by
    rw [hslots]
    exact Slots.keeps_parted (fun v hv a b => by simp [hfocus.node_of_held hv]) _ _
  have hfirst : ((zs ++ ws).map fun d => d.2.id).head? = some far := by
    rw [← hfar, ← hws₁, ← Entries.head?_ids, Plan.ids_entries]
  have hlast : ((zs ++ ws).map fun d => d.2.id).getLast? = some near := by
    rw [← hnear, ← hws₁, ← Entries.getLast?_ids, Plan.ids_entries]
  have hmarks := h.marks_carried (p := p) hP hempty hfirst hlast P₁.flipped
  refine ⟨w', _, h', hfocus.refocus (hrow'.stands.congr (Plan.cells_qnode _ _).symm) hlive hkeep
    (fun V hV => ?_) (Plan.formed_iff.2 ⟨⟨?_, Row.ascending_map.1 hrow'.ascending⟩, fun l hl => ?_⟩),
    hrow'.touched, fun l hl => ?_, ?_, ?_⟩
  · rcases Plan.mem_parts_iff.1 hV with rfl | ⟨l, hl, hV⟩
    · rw [hslots]
      exact Or.inl hmarks
    · rw [Plan.limbs, hsons] at hl
      rcases hlimbs l hl with hl | hl
      · exact Or.inr (Plan.mem_parts_iff.2 (Or.inr ⟨_, hinner, Plan.mem_parts_iff.2 (Or.inr ⟨l, hl, hV⟩)⟩))
      · rcases hl.2.2 V hV with hnil | ⟨d, hd, hV⟩
        · exact Or.inl (Slots.marks_of_nil hnil)
        · exact Or.inr (Plan.mem_parts_iff.2 (Or.inr ⟨_, hothers d hd, hV⟩))
  · simp [Row.carried]
  · rw [Plan.limbs, hsons] at hl
    rcases hlimbs l hl with hl | hl
    · exact (hformed.limb hinner).limb hl
    · exact hl.2.1
  · rw [hsons] at hl
    rw [htouched]
    rcases hlimbs l hl with hl | hl
    · exact (h.slack l hl).mono fun t ht => List.mem_append_right _ ht
    · exact hl.1.slack _
  · rw [Row.carried_shown hshown hzs, hfold]
  · refine ⟨_, _, Row.keyed_ofKeyed _ _, ?_, rfl⟩
    simp [hws]

end Work

end CliquePath
