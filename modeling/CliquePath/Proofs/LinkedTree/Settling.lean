import CliquePath.Proofs.LinkedTree.Hoisting
import CliquePath.Proofs.LinkedTree.Ways

set_option autoImplicit false

/-!
# Settling a changed row

This module follows the vertices that all sections of a changed row hold into the P-node directly
above it. In a row whose vertices stand in runs, these are the vertices whose run reaches from end to
end. The plan that results shows the changed node settled below the boughs above it.
-/

namespace CliquePath

open Cells (one)
open Plan (ctx)

/-! ## Rows with fewer vertices -/

/-- The section without some vertices. -/
def Part.drop {ν : Type} (vs : List Vertex) (s : Part ν) : Part ν :=
  { s with held := s.held.filter fun v => !vs.contains v }

namespace Row

variable {P : Row (Part Plan)} {vs : List Vertex} {v : Vertex}

theorem without_top (P : Row (Part Plan)) (vs : List Vertex) :
    (P.map (Part.drop vs)).map Part.top = (P.map Part.top).without vs := by
  refine ext_keyed (by simp [without]) ?_
  simp [without, Entries.mapHeld, Part.drop, Part.top]

theorem map_drop_nil (P : Row (Part Plan)) : P.map (Part.drop []) = P := by
  have hid : ∀ s : Part Plan, Part.drop [] s = s := fun s => by simp [Part.drop]
  have hentry : (entry (Part.drop []) : Int × Part Plan → _) = id :=
    funext fun e => Prod.ext rfl (hid e.2)
  refine ext_keyed (flipped_map _ _) ?_
  rw [keyed_map, hentry, List.map_id]

theorem sons_drop (P : Row (Part Plan)) (vs : List Vertex) :
    Plan.sons (P.map (Part.drop vs)) = Plan.sons P := by
  rw [Plan.sons_keyed, Plan.sons_keyed, keyed_map, List.map_map]
  rfl

/-- The cells of a row below a P-node that holds what was taken out of the row. -/
theorem cells_drop (P : Row (Part Plan)) (vs held : List Vertex) (p q : NodeId) (parent : Option NodeId) :
    (Plan.pnode p held [.qnode q (P.map (Part.drop vs))]).cells parent =
      one p (pCell parent held [q]) +
        (((P.map Part.top).without vs).cellsAt q (some p) + Plan.limbCells (Plan.sons P)) := by
  rw [Plan.cells_pnode, List.map_singleton, List.map_singleton, Plan.limbCells_cons,
    Plan.limbCells_nil, add_zero, Plan.cells_qnode, without_top, sons_drop]
  rfl

/-- What a changed row shows without the vertices that are hoisted. -/
theorem shown_drop (P : Row (Part Plan)) : Node.qnode
    ((P.map (Part.drop (Grown.common (P.map Part.shown)))).map Part.shown) =
      (Grown.ofRow (P.map Part.shown)).node := by
  rw [Grown.ofRow]
  congr 1
  refine ext_keyed (by simp) ?_
  simp [Part.drop, Part.shown, entry]

end Row

/-! ## Runs from end to end -/

section Ends

variable {v : Vertex} {zs ss : List (NodeId × List Vertex)} {z : NodeId × List Vertex}

/-- The last section holds a vertex if and only if its run ends there. -/
theorem getLast?_hits (hn : ((zs ++ [z]).map Prod.fst).Nodup) :
    (hits v (zs ++ [z])).getLast? = some z.1 ↔ v ∈ z.2 := by
  have hz : hits v [z] = if v ∈ z.2 then [z.1] else [] := by
    by_cases hv : v ∈ z.2 <;> simp [hits, hv]
  rw [hits_append, hz]
  by_cases hv : v ∈ z.2
  · simp [hv]
  · rw [if_neg hv, List.append_nil]
    -- the identity of the last section does not occur before it
    refine iff_of_false (fun hlast => ?_) hv
    obtain ⟨held, hmem, -⟩ := mem_hits.1 (List.mem_of_getLast? hlast)
    rw [List.map_append, List.nodup_append] at hn
    exact hn.2.2 z.1 (List.mem_map.2 ⟨_, hmem, rfl⟩) z.1 (by simp) rfl

/-- The run of a vertex that begins with the first section reaches to the end. -/
theorem Work.spans_iff {w : Work} (h : w.slots.Marks ss) {first last : NodeId}
    (hfirst : (hits v ss).head? = some first) :
    w.spans first last v = true ↔ (hits v ss).getLast? = some last := by
  obtain ⟨l, hl⟩ : ∃ l, (hits v ss).getLast? = some l :=
    ⟨_, List.getLast?_eq_some_getLast (by rintro hnil; simp [hnil] at hfirst)⟩
  have hslot := h v first l hfirst hl
  rw [hl, spans, Bool.or_eq_true, decide_eq_true_iff, decide_eq_true_iff, Option.some.injEq]
  -- the slot names the ends in either order
  rcases hslot with hslot | hslot <;> rw [hslot] <;> simp only [Slot.span.injEq]
  · constructor
    · rintro (⟨-, h⟩ | ⟨h, h'⟩)
      · exact h
      · exact h'.trans h
    · exact fun h => Or.inl ⟨trivial, h⟩
  · constructor
    · rintro (⟨h, h'⟩ | ⟨h, -⟩)
      · exact h.trans h'
      · exact h
    · exact fun h => Or.inr ⟨h, trivial⟩

end Ends

namespace Work

variable {w : Work} {S : Set Vertex} {T G W : Plan} {bs : List Bough} {q : NodeId} {v : Vertex}
variable {P : Row (Part Plan)} {e : Int × Part Plan} {ys : List (Int × Part Plan)} {g : Grown}
variable {out : Option NodeId}


/-- The vertices that are hoisted are those that all sections hold. -/
theorem Draws.common_eq (h : w.Draws S ((Plan.qnode q P).under bs)) (hP : P.keyed = e :: ys)
    (hproper : (Grown.ofRow (P.map Part.shown)).node.Proper) :
    e.2.held.filter (w.spans (P.map Part.top).firstPart (P.map Part.top).lastPart) =
      Grown.common (P.map Part.shown) := by
  have hcommon : Grown.common (P.map Part.shown) =
      e.2.held.filter fun v => ys.all fun d => d.2.held.contains v := by
    simp [Grown.common, Row.toList, hP, Part.shown, Function.comp_def]
  obtain ⟨zs, z, hz⟩ := (List.eq_nil_or_concat P.keyed).resolve_left (by simp [hP])
  rw [List.concat_eq_append] at hz
  have hfirst : (P.map Part.top).firstPart = e.2.id := by
    simp [Row.firstPart, hP, Entries.firstId, Part.top]
  have hlast : (P.map Part.top).lastPart = z.2.id := by
    rw [Row.lastPart, Row.keyed_map, hz, List.map_append, List.map_singleton, Entries.lastId_concat]
    rfl
  have hspans : P.toList.map Part.span = (zs.map fun d => d.2.span) ++ [z.2.span] := by
    simp [Row.toList, hz, Function.comp_def]
  have hnodup : (((zs.map fun d => d.2.span) ++ [z.2.span]).map Prod.fst).Nodup := by
    rw [← hspans, List.map_map]
    exact h.nodup_row
  rw [hcommon]
  refine List.filter_congr fun v hv => ?_
  have hhead : (hits v (P.toList.map Part.span)).head? = some e.2.id := by
    simp [Row.toList, hP, hits, Part.span, hv]
  rw [Bool.eq_iff_iff, hfirst, hlast, spans_iff h.marks_row hhead, hspans, List.all_eq_true]
  simp only [List.contains_iff_mem]
  refine (getLast?_hits hnodup).trans ?_
  constructor
  · -- In the row without the common vertices a vertex at both ends is in all sections.
    intro hvz d hd
    by_contra hvd
    have hnot : v ∉ Grown.common (P.map Part.shown) := by
      rw [hcommon, List.mem_filter, List.all_eq_true]
      exact fun hc => hvd (List.contains_iff_mem.1 (hc.2 d hd))
    have hdrop : ∀ {f : Int × Part Plan}, v ∈ (Part.drop (Grown.common (P.map Part.shown)) f.2).held ↔
        v ∈ f.2.held := by
      simp [Part.drop, hnot]
    have hmem : ∀ f ∈ P.keyed, Row.entry (Part.drop (Grown.common (P.map Part.shown))) f ∈
        (P.map (Part.drop (Grown.common (P.map Part.shown)))).keyed := by
      rw [Row.keyed_map]
      exact fun f hf => List.mem_map_of_mem hf
    have hst := @Plan.standing q (P.map (Part.drop (Grown.common (P.map Part.shown))))
      (by rwa [Plan.node_qnode, Row.shown_drop])
    have hlined := hst.rigid.lined
    rw [Row.size_map] at hlined
    have hasc : P.keyed.Pairwise fun a b => a.1 < b.1 := (Plan.formed_iff.1 h.formed.focus).1.2
    have hed : e.1 ≤ d.1 := by
      rw [hP] at hasc
      exact le_of_lt ((List.pairwise_cons.1 hasc).1 d hd)
    have hdz : d.1 ≤ z.1 := by
      have hdmem : d ∈ zs ++ [z] := by
        rw [← hz, hP]
        exact List.mem_cons_of_mem _ hd
      rw [hz, List.pairwise_append] at hasc
      rcases List.mem_append.1 hdmem with hdmem | hdmem
      · exact le_of_lt (hasc.2.2 d hdmem z (by simp))
      · rw [List.mem_singleton.1 hdmem]
    refine hvd (hdrop.1 (Row.InBlocks.between (fun v hv => Row.exists_block hlined hv) ?_
      (hmem e (by simp [hP])) (hmem d (by simp [hP, hd])) (hmem z (by simp [hz])) hed hdz
      (hdrop.2 hv) (hdrop.2 hvz)))
    exact Row.ascending_map.2 (Plan.formed_iff.1 h.formed.focus).1.2
  · intro hall
    have hmem : z ∈ e :: ys := by
      rw [← hP, hz]
      simp
    rcases List.mem_cons.1 hmem with rfl | hmem
    · exact hv
    · exact hall z hmem

/-- The row without the vertices that were taken out of it, below the P-node that holds them. -/
theorem Draws.hoisted {w' : Work} {p : NodeId} {held vs : List Vertex} (h : w.Draws S (T.under bs))
    (hruns : w.slots.Runs (.qnode q P)) (hformed : (Plan.qnode q P).Formed)
    (hout : ∀ v ∈ vs, ∀ r, ¬ (Plan.limbCells (Plan.sons P) + (ctx bs).cells T.id).Holds v r)
    (hslots : w'.slots = w.slots.putAll vs (.node p))
    (hst : w'.Stands S (ctx bs) p (one p (pCell (ctx bs).parent (held ++ vs) [q]) +
      (((P.map Part.top).without vs).cellsAt q (some p) + Plan.limbCells (Plan.sons P))))
    (hlive : w'.arena.live + T.count = w.arena.live + 1 + (Plan.qnode q P).count) :
    w'.Draws S ((Plan.pnode p (held ++ vs) [.qnode q (P.map (Part.drop vs))]).under bs) := by
  obtain ⟨hmarks, hlimbs⟩ := Slots.Runs.iff_limbs.1 hruns
  obtain ⟨hstable, hsons⟩ := Plan.formed_iff.1 hformed
  have hsame : ∀ v ∉ vs, w'.slots.get v = w.slots.get v := by
    intro v hv
    rw [hslots, Slots.get_putAll, if_neg hv]
  have hcount : (Plan.pnode p (held ++ vs) [.qnode q (P.map (Part.drop vs))]).count =
      1 + (Plan.qnode q P).count := by
    rw [Plan.count_pnode, List.map_singleton, List.sum_singleton, Plan.count_qnode, Row.sons_drop,
      ← Plan.count_qnode q]
  have hunder := Plan.count_under T (.pnode p (held ++ vs) [.qnode q (P.map (Part.drop vs))]) bs
  refine Stands.draws (Row.cells_drop P .. ▸ hst) (by have := h.live; omega)
    (h.runs.refill ?_ fun v r hr => hsame v fun hv => hout v hv r (Cells.holds_add.2 (Or.inr hr)))
    (h.formed.refill (Plan.formed_pnode (by simp) ?_))
  · refine Slots.Runs.iff_limbs.2 ⟨Slots.marks_of_nil rfl, ?_⟩
    rw [Plan.limbs, List.map_singleton, List.forall_mem_singleton]
    refine Slots.Runs.iff_limbs.2 ⟨fun v f l hf hl => ?_, fun l hl => ?_⟩
    · -- A vertex that was taken out has no run here; any other one has the same run as before.
      have hspans : ∀ u ∉ vs, hits u (Plan.qnode q (P.map (Part.drop vs))).spans =
          hits u (Plan.qnode q P).spans := by
        intro u hu
        have hheld : ∀ s : Part Plan, (Part.drop vs s).held.contains u = s.held.contains u := by
          intro s
          rw [Bool.eq_iff_iff, List.contains_iff_mem, List.contains_iff_mem]
          simp [Part.drop, hu]
        simp only [Plan.spans, hits, Row.toList_map, List.filter_map, List.map_map, Function.comp_def,
          Part.span, hheld]
        rfl
      by_cases hv : v ∈ vs
      · have hnil : hits v (Plan.qnode q (P.map (Part.drop vs))).spans = [] := by
          simp [hits_eq_nil, Plan.spans, Row.toList_map, Part.span, Part.drop, hv]
        rw [hnil] at hf
        cases hf
      · rw [hspans v hv] at hf hl
        rw [hsame v hv]
        exact hmarks v f l hf hl
    · rw [Plan.limbs, Row.sons_drop] at hl
      intro V hV
      refine (hlimbs l hl V hV).congr fun t ht v hv => hsame v fun hvs => ?_
      obtain ⟨q', hq'⟩ := Plan.holds_of_limb_spans hl hV ht hv
      exact hout v hvs _ (Cells.holds_add.2 (Or.inl hq'))
  · rw [List.forall_mem_singleton]
    refine Plan.formed_iff.2 ⟨⟨by simpa using hstable.1, Row.ascending_map.2 hstable.2⟩, ?_⟩
    rw [Plan.limbs, Row.sons_drop]
    exact hsons

theorem exists_branch {p : NodeId} {held : List Vertex} {rest : Cells} {c : Ctx}
    (h : ctx bs = .branch p held [] [] rest :: c) :
    ∃ bs', bs = .branch p held [] [] :: bs' ∧ c = ctx bs' := by
  cases bs with
  | nil => cases h
  | cons b bs =>
      rw [ctx, List.map_cons, List.cons.injEq] at h
      cases b with
      | branch id held before after =>
          simp only [Bough.frame, Frame.branch.injEq, List.map_eq_nil_iff] at h
          obtain ⟨⟨rfl, rfl, rfl, rfl, -⟩, rfl⟩ := h
          exact ⟨bs, rfl, rfl⟩
      | inRow => cases h.1

/-- A changed node is settled below the boughs above it. -/
structure Rests (w : Work) (S : Set Vertex) (g : Grown) (bs : List Bough) (W : Plan) : Prop where
  draws : w.Draws S W
  settles : ∃ G : Plan, G.node = g.node ∧ Plan.Settles g.lifted G bs W
  slack : W.Slack w.touched
  touched : ∀ t ∈ w.touched, t ∈ (W.cells none).map Prod.fst

/-- The vertices that all sections of a row hold are hoisted. -/
theorem Draws.hoist (h : w.Draws S ((Plan.qnode q P).under bs))
    (ht : ∀ t ∈ w.touched, t ∈ (Plan.limbCells (Plan.sons P)).map Prod.fst)
    (hslack : ∀ l ∈ Plan.sons P, l.2.Slack w.touched) (htrim : (T.under bs).Trim)
    (hproper : (Grown.ofRow (P.map Part.shown)).node.Proper) :
    ∃ w' W, w.hoist q = .ok w' ∧ w'.Rests S (.ofRow (P.map Part.shown)) bs W := by
  have hrow := h.rowStands ht
  have hne : P.keyed ≠ [] := (Plan.formed_iff.1 h.formed.focus).1.1
  obtain ⟨e, ys, hP⟩ := List.exists_cons_of_ne_nil hne
  -- what all sections hold is held nowhere else
  have hout : ∀ v ∈ Grown.common (P.map Part.shown), ∀ r,
      ¬ (Plan.limbCells (Plan.sons P) + (ctx bs).cells q).Holds v r := by
    intro v hv
    rw [← h.common_eq hP hproper] at hv
    exact (h.of_row (s := e.2) (by simp [Row.toList, hP]) (List.mem_filter.1 hv).1).2
  have hkeyed : (P.map Part.top).keyed = Row.entry Part.top e :: ys.map (Row.entry Part.top) := by
    rw [Row.keyed_map, hP, List.map_cons]
  obtain ⟨vs, hvs⟩ : ∃ vs, Grown.common (P.map Part.shown) = vs := ⟨_, rfl⟩
  have hlifted : (Grown.ofRow (P.map Part.shown)).lifted = vs := hvs
  have hnode : (Plan.qnode q (P.map (Part.drop vs))).node = (Grown.ofRow (P.map Part.shown)).node := by
    rw [Plan.node_qnode, ← hvs, Row.shown_drop]
  rcases hrow.hoist_row h.formed.ok hkeyed ((h.common_eq hP hproper).trans hvs) with ⟨rfl, hsame⟩ |
    ⟨hvne, w', p, c', held, h', hhost, hslots, htouched, hst⟩
  · refine ⟨w, _, hsame, h, ⟨.qnode q P, ?_, hlifted ▸ .plain bs rfl⟩, (slack_qnode hslack).under htrim,
      fun t htt => ?_⟩
    · rw [← hnode, Row.map_drop_nil]
    · rw [Plan.cells_under, Plan.cells_qnode, Multiset.map_add, Multiset.map_add]
      simp [ht t htt]
  · have hslack' : ∀ ids, (∀ t ∈ w.touched, t ∈ ids) →
        (Plan.pnode p (held ++ vs) [.qnode q (P.map (Part.drop vs))]).Slack ids := by
      intro ids hids
      refine Plan.slack_iff.2 ⟨Or.inl (Or.inl (by simp [hvne])), ?_⟩
      rw [Plan.limbs, List.map_singleton, List.forall_mem_singleton]
      refine slack_qnode ?_
      rw [Row.sons_drop]
      exact fun l hl => (hslack l hl).mono hids
    have hlive : w'.arena.live = w'.arena.life.count true := rfl
    have htouch : ∀ t ∈ w'.touched, ∀ bs, ctx bs = c' → t ∈ (((Plan.pnode p (held ++ vs)
        [.qnode q (P.map (Part.drop vs))]).under bs).cells none).map Prod.fst := by
      rintro t htt bs rfl
      have hmem := hst.touched t htt
      rw [← Row.cells_drop P vs _ p q] at hmem
      rw [Plan.cells_under, Multiset.map_add]
      exact Multiset.mem_add.2 (Or.inl hmem)
    generalize w'.arena.life = f at hhost hlive
    -- the P-node was there, with the Q-node as its only child, or is new
    cases hhost with
    | old hc =>
        obtain ⟨bs', rfl, rfl⟩ := exists_branch hc
        have hdraws : w'.Draws S
            ((Plan.pnode p (held ++ vs) [.qnode q (P.map (Part.drop vs))]).under bs') := by
          refine Draws.hoisted (T := .pnode p held [.qnode q P]) h h.runs.focus h.formed.focus
            (fun v hv r hr => hout v (hvs ▸ hv) r ?_) hslots hst ?_
          · rw [Cells.holds_add] at hr ⊢
            exact hr.imp_right fun hr => Cells.holds_add.2 (Or.inr hr)
          · rw [hlive, Plan.count_pnode, List.map_singleton, List.sum_singleton, Arena.live]
            omega
        exact ⟨w', _, h', hdraws, ⟨_, hnode, hlifted ▸ .only p held bs' (hlifted ▸ hvne)⟩,
          (hslack' _ (by simp [htouched])).under htrim, fun t htt => htouch t htt bs' rfl⟩
    | fresh hne =>
        have hdraws := @Draws.hoisted _ _ _ _ _ _ _ _ [] _ h h.runs.focus h.formed.focus
          (hvs ▸ hout) hslots hst (by rw [hlive, Array.count_push_self, Arena.live])
        refine ⟨w', _, h', hdraws, ⟨_, hnode, hlifted ▸ .fresh p bs (hlifted ▸ hvne) fun id held heq => ?_⟩,
          (hslack' _ (by simp [htouched])).under htrim, fun t htt => htouch t htt bs rfl⟩
        obtain ⟨bs', rfl⟩ := List.head?_eq_some_iff.1 heq
        exact hne id held _ _ rfl

/-- A changed node settles below the boughs above it. -/
theorem Grew.settle (h : w.Grew S bs g out) (htrim : (T.under bs).Trim) (hproper : g.node.Proper) :
    ∃ w' W, w.hoist? out = .ok w' ∧ w'.Rests S g bs W := by
  cases h with
  | @plain G hshows =>
      refine ⟨w, _, rfl, hshows.draws, ⟨G, rfl, .plain bs rfl⟩, hshows.slack.under htrim, fun t ht => ?_⟩
      rw [Plan.cells_under, Multiset.map_add]
      exact Multiset.mem_add.2 (Or.inl (hshows.touched t ht))
  | row hshows htouched =>
      exact hshows.draws.hoist htouched (fun l hl => (Plan.slack_iff.1 hshows.slack).2 l hl) htrim hproper

end Work

end CliquePath
