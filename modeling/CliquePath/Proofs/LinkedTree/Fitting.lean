import CliquePath.Proofs.CliqueTree.Gaps
import CliquePath.Proofs.LinkedTree.Gaps
import CliquePath.Proofs.LinkedTree.Leaves

set_option autoImplicit false

/-!
# Putting a vertex in at a row of a plan

This module shows what becomes of a plan when a vertex is put in at a Q-node. The search for a section
or a gap of the linked row finds what the search in the row of the clique tree finds, and the slots of
the neighbours grow at the ends that the gap asks for.
-/

namespace CliquePath

open Cells (one)
open Plan (ctx)

/-! ## Runs beside a gap -/

section Runs

variable {ν : Type} {R : Row (Part ν)} {v : Vertex} {xs ys : List (Int × Part ν)}
variable {x y z e : Int × Part ν}

/-- A section between two sections that hold a vertex holds it, too. -/
theorem Row.InBlocks.between (h : R.InBlocks) (hasc : R.Ascending) (hx : x ∈ R.keyed)
    (hy : y ∈ R.keyed) (hz : z ∈ R.keyed) (hxy : x.1 ≤ y.1) (hyz : y.1 ≤ z.1)
    (hvx : v ∈ x.2.held) (hvz : v ∈ z.2.held) : v ∈ y.2.held := by
  obtain ⟨as, m, bs, hb⟩ := h v ⟨x.2, List.mem_map_of_mem hx, hvx⟩
  obtain ⟨f, l, hf, hl⟩ : ∃ f l, m.head? = some f ∧ m.getLast? = some l :=
    ⟨_, _, List.head?_eq_some_head hb.ne_nil, List.getLast?_eq_some_getLast hb.ne_nil⟩
  have hiff := fun e he => mem_block_iff (e := e) hasc hb.keyed hf hl he
  have hfx := ((hiff x hx).1 ((hb.mem_iff hx).1 hvx)).1
  have hzl := ((hiff z hz).1 ((hb.mem_iff hz).1 hvz)).2
  exact (hb.mem_iff hy).2 ((hiff y hy).2 ⟨hfx.trans hxy, hyz.trans hzl⟩)

theorem hits_concat (hv : v ∈ e.2.held) :
    (hits v ((xs ++ [e]).map fun e => e.2.span)).getLast? = some e.2.id := by
  rw [List.map_append, hits_append]
  simp [hits, Part.span, hv]

theorem hits_cons (hv : v ∈ e.2.held) :
    (hits v ((e :: ys).map fun e => e.2.span)).head? = some e.2.id := by
  simp [hits, Part.span, hv]

theorem hits_span_eq_nil (h : ∀ e ∈ xs, v ∉ e.2.held) : hits v (xs.map fun e => e.2.span) = [] := by
  rw [hits_eq_nil]
  intro s hs
  obtain ⟨e, he, rfl⟩ := List.mem_map.1 hs
  exact h e he

end Runs

namespace Work.Whole

variable {w : Work} {S : Set Vertex} {root : NodeId} {M n : Cells} {R : Row (Part NodeId)}
variable {q : NodeId} {parent : Option NodeId} {v : Vertex} {xs ys : Entries}

/-- The end at which the run of a vertex grows into a gap beside a section that holds the vertex. -/
theorem growsFrom_block (h : w.Whole S root M) (hM : M = R.cellsAt q parent + n)
    (hasc : R.Ascending) (hmarks : w.slots.Marks (R.toList.map Part.span)) (hblocks : R.InBlocks)
    (hR : R.keyed = xs ++ ys)
    (hnear : (∃ e, xs.getLast? = some e ∧ v ∈ e.2.held) ∨ ∃ e, ys.head? = some e ∧ v ∈ e.2.held) :
    ∃ old?, w.growsFrom v (Entries.lastId xs none, Entries.firstId ys none) = .ok old? ∧
      GrowsAt v old? (xs.map fun e => e.2.span) (ys.map fun e => e.2.span) := by
  rcases List.eq_nil_or_concat xs with rfl | ⟨xs, e, rfl⟩
  · obtain ⟨d, hd, hv⟩ := hnear.resolve_left (by simp)
    obtain ⟨ys, rfl⟩ := List.head?_eq_some_iff.1 hd
    exact ⟨some d.2.id, rfl, Or.inr (Or.inr ⟨_, rfl, rfl, hits_cons hv⟩)⟩
  rw [List.concat_eq_append, Entries.lastId_concat] at *
  cases ys with
  | nil =>
      have hv : v ∈ e.2.held := by simpa using hnear
      exact ⟨some e.2.id, rfl, Or.inr (Or.inl ⟨_, rfl, hits_concat hv, rfl⟩)⟩
  | cons d ys =>
      have hmem : ∀ x ∈ (xs ++ [e]) ++ d :: ys, x ∈ R.keyed := fun x hx => hR ▸ hx
      simp only [List.forall_mem_append, List.forall_mem_cons] at hmem
      obtain ⟨⟨hxs, he, -⟩, hd, hys⟩ := hmem
      have hpair : ∀ x ∈ xs ++ [e], ∀ y ∈ d :: ys, x.1 < y.1 := by
        have hall := hasc
        rw [Row.Ascending, hR, List.pairwise_append] at hall
        exact hall.2.2
      have hv : v ∈ e.2.held ∨ v ∈ d.2.held := by simpa using hnear
      obtain ⟨s, hs, hvs⟩ : ∃ s ∈ R.toList, v ∈ s.held :=
        hv.elim (fun hv => ⟨_, List.mem_map_of_mem he, hv⟩) fun hv => ⟨_, List.mem_map_of_mem hd, hv⟩
      obtain ⟨as, m, bs, hb⟩ := hblocks v ⟨s, hs, hvs⟩
      have hleft := h.spanContains_row hM hasc hmarks hb he
      have hright := h.spanContains_row hM hasc hmarks hb hd
      simp only [Work.growsFrom, Entries.firstId, hleft, hright, ok_bind, pure_eq_ok]
      by_cases hve : v ∈ e.2.held
      · by_cases hvd : v ∈ d.2.held
        · refine ⟨none, by simp [hve, hvd], Or.inl ⟨rfl, ?_, ?_⟩⟩
          · intro hnil
            have hlast := hnil ▸ @hits_concat _ _ xs _ hve
            cases hlast
          · intro hnil
            have hhead := hnil ▸ @hits_cons _ _ ys _ hvd
            cases hhead
        · refine ⟨some e.2.id, by simp [hve, hvd], Or.inr (Or.inl ⟨_, rfl, hits_concat hve, ?_⟩)⟩
          -- The run ends at the gap.
          refine hits_span_eq_nil (List.forall_mem_cons.2 ⟨hvd, fun y hy hvy => hvd ?_⟩)
          have hdy : d.1 < y.1 := by
            have hall := hasc
            rw [Row.Ascending, hR, List.pairwise_append] at hall
            exact (List.pairwise_cons.1 hall.2.1).1 y hy
          exact hblocks.between hasc he hd (hys y hy) (hpair e (by simp) d (by simp)).le hdy.le hve hvy
      · have hvd := hv.resolve_left hve
        refine ⟨some d.2.id, by simp [hve, hvd], Or.inr (Or.inr ⟨_, rfl, ?_, hits_cons hvd⟩)⟩
        -- The run starts at the gap.
        refine hits_span_eq_nil ?_
        simp only [List.forall_mem_append, List.forall_mem_singleton]
        refine ⟨fun y hy hvy => hve ?_, hve⟩
        have hye : y.1 < e.1 := by
          have hall := hasc
          rw [Row.Ascending, hR, List.pairwise_append, List.pairwise_append] at hall
          exact hall.1.2.2 y hy e (by simp)
        exact hblocks.between hasc (hxs y hy) he hd hye.le (hpair e (by simp) d (by simp)).le hvy hvd

end Work.Whole

/-! ## Sections that hold all neighbours of a row -/

section Shared

variable {row : Row (Section Node)} {R : Row (Part NodeId)} {vs nbrs : List Vertex} {v : Vertex}
variable {as m bs xs ys : Entries} {low high i : Nat}

/-- The sections of a row hold the same without the plans below them. -/
theorem Row.held_shown (P : Row (Part Plan)) :
    (P.map Part.shown).toList.map Section.held = (P.map Part.top).toList.map Part.held := by
  simp [Part.shown, Part.top, Function.comp_def]

theorem Row.pattern_iff_part (hheld : row.toList.map Section.held = R.toList.map Part.held) :
    row.pattern i v ↔ ∃ e, R.keyed[i]? = some e ∧ v ∈ e.2.held := by
  have hget := congrArg (fun l => l[i]?) hheld
  rw [Row.pattern_iff]
  simp only [List.getElem?_map, Row.toList] at hget ⊢
  cases hrow : row.keyed[i]? <;> cases hpart : R.keyed[i]? <;> simp_all

/-- The shared positions are those of the block of sections that hold all the given vertices. -/
theorem Row.sharedPositions_block (hst : row.Standing) (hasc : R.Ascending)
    (hheld : row.toList.map Section.held = R.toList.map Part.held)
    (hR : R.keyed = as ++ (m ++ bs)) (hvs : ∀ v ∈ vs, ∃ s ∈ R.toList, v ∈ s.held) (hne : vs ≠ [])
    (hm : ∀ e ∈ R.keyed, e ∈ m ↔ ∀ v ∈ vs, v ∈ e.2.held) :
    row.sharedPositions vs = List.range' as.length m.length := by
  have hsize : row.size = R.keyed.length := by
    have hlen := congrArg List.length hheld
    simpa using hlen
  have hpattern : ∀ v ∈ vs, ∃ i, row.pattern i v := by
    intro v hv
    obtain ⟨s, hs, hvs⟩ := hvs v hv
    obtain ⟨e, he, rfl⟩ := List.mem_map.1 hs
    obtain ⟨i, hi⟩ := List.mem_iff_getElem?.1 he
    exact ⟨i, (Row.pattern_iff_part hheld).2 ⟨e, hi, hvs⟩⟩
  have hnodup : R.keyed.Nodup := hasc.imp fun hlt heq => by simp [heq] at hlt
  -- Both lists ascend strictly, so it suffices that they have the same positions.
  refine List.Pairwise.eq_of_mem_iff (row.pairwise_sharedPositions vs) List.pairwise_lt_range'
    fun i => ?_
  rw [Row.mem_sharedPositions hst.ascending hst.rigid.lined hpattern hne, List.mem_range'_1, hsize]
  have hall : ∀ hi : i < R.keyed.length, (∀ v ∈ vs, row.pattern i v) ↔ R.keyed[i] ∈ m := by
    intro hi
    rw [hm _ (List.getElem_mem hi)]
    refine forall₂_congr fun v hv => ?_
    rw [Row.pattern_iff_part hheld, List.getElem?_eq_getElem hi]
    simp
  constructor
  · rintro ⟨hi, hvs⟩
    -- The section stands at one position only, as the keys of a row differ.
    obtain ⟨j, hj, hget⟩ := List.mem_iff_getElem.1 ((hall hi).1 hvs)
    have hbound : as.length + j < R.keyed.length := by
      simp [hR]
      omega
    have hsame : R.keyed[i] = R.keyed[as.length + j] := by
      rw [← hget]
      simp only [hR]
      rw [List.getElem_append_right (by omega), List.getElem_append_left (by omega)]
      simp
    rw [hnodup.getElem_inj_iff] at hsame
    omega
  · rintro ⟨hlow, hhigh⟩
    have hi : i < R.keyed.length := by
      simp [hR]
      omega
    refine ⟨hi, (hall hi).2 ?_⟩
    simp only [hR]
    rw [List.getElem_append_right (by omega), List.getElem_append_left (by omega)]
    exact List.getElem_mem _

/-- The search for a section that holds as many vertices as given. -/
theorem findSome?_block (hheld : row.toList.map Section.held = R.toList.map Part.held)
    (hR : R.keyed = as ++ (m ++ bs)) (count : Nat) :
    let found? := (List.range' as.length m.length).findSome? fun i => row.toList[i]?.bind fun s =>
      if s.held.length = count then some (i, s) else none
    (m.find? (fun e => decide (e.2.held.length = count)) = none ∧ found? = none) ∨
      ∃ xs e ys s, R.keyed = xs ++ e :: ys ∧
        m.find? (fun e => decide (e.2.held.length = count)) = some e ∧
        row.toList[xs.length]? = some s ∧ found? = some (xs.length, s) := by
  -- Both searches go through the block from the left and pass over the same sections.
  induction m generalizing as with
  | nil => exact Or.inl ⟨rfl, rfl⟩
  | cons e m ih =>
      rw [List.cons_append] at hR
      obtain ⟨s, hs, hse⟩ : ∃ s, row.toList[as.length]? = some s ∧ s.held = e.2.held := by
        refine Option.map_eq_some_iff.1 ?_
        rw [← List.getElem?_map, hheld, Row.toList, hR]
        simp
      simp only [List.length_cons, List.range'_succ, List.findSome?_cons, hs, Option.bind_some, hse,
        List.find?_cons]
      by_cases hlen : e.2.held.length = count
      · exact Or.inr ⟨as, e, m ++ bs, s, hR, by simp [hlen], hs, by simp [hlen]⟩
      · have hrec := ih (show R.keyed = (as ++ [e]) ++ (m ++ bs) by rw [hR, List.append_assoc]; rfl)
        simpa only [hlen, decide_false, if_false, List.length_append, List.length_singleton]
          using hrec

theorem Node.gap?_bounds {sections : List (Section Node)} (hlow : low ≤ high)
    (hg : Node.gap? nbrs sections low high = some i) : low ≤ i ∧ i ≤ high + 1 := by
  unfold Node.gap? at hg
  split at hg
  next hzero =>
    cases hg
    omega
  next =>
    split at hg
    next j hj =>
      cases hg
      have hmem := List.mem_range'_1.1 (List.mem_of_find?_eq_some hj)
      omega
    next =>
      split at hg
      next => cases hg; omega
      next => cases hg

/-- A gap at a block of sections has a section of the block beside it. -/
theorem near_block {ν : Type} {as m bs xs ys : List (Int × Part ν)} (hm : m ≠ [])
    (h : as ++ (m ++ bs) = xs ++ ys) (hlow : as.length ≤ xs.length)
    (hhigh : xs.length ≤ as.length + m.length) :
    (∃ e, xs.getLast? = some e ∧ e ∈ m) ∨ ∃ e, ys.head? = some e ∧ e ∈ m := by
  have hhead : ∀ cs, ∃ e, (m ++ cs).head? = some e ∧ e ∈ m := by
    intro cs
    obtain ⟨e, m, rfl⟩ := List.exists_cons_of_ne_nil hm
    exact ⟨e, rfl, List.mem_cons_self⟩
  -- The cut lies behind the start of the block or exactly there.
  rcases List.append_eq_append_iff.1 h with ⟨as', rfl, h'⟩ | ⟨bs', rfl, h'⟩
  · rcases List.eq_nil_or_concat as' with rfl | ⟨ini, e, rfl⟩
    · rw [List.nil_append] at h'
      exact Or.inr (h' ▸ hhead bs)
    · rw [List.concat_eq_append, ← List.append_assoc] at *
      refine Or.inl ⟨e, List.getLast?_concat, ?_⟩
      have hlen : (ini ++ [e]).length ≤ m.length := by
        rw [List.append_assoc, List.length_append] at hhigh
        omega
      have hprefix : ini ++ [e] <+: m :=
        List.prefix_of_prefix_length_le ⟨ys, h'.symm⟩ (List.prefix_append m bs) hlen
      exact hprefix.subset (by simp)
  · rw [List.length_append] at hlow
    have hnil : bs' = [] := List.length_eq_zero_iff.1 (by omega)
    rw [h', hnil, List.nil_append]
    exact Or.inr (hhead bs)

end Shared

/-! ## Growth of a row -/

namespace Work

variable {w w' : Work} {S : Set Vertex} {T G : Plan} {bs : List Bough} {b : Bough} {q : NodeId}
variable {P : Row (Part Plan)} {p : Pass} {out : Option NodeId} {g : Grown}

/-- What shows in the focus shows in a larger focus. -/
theorem Shows.up (h : w.Shows S (b :: bs) G) (htrim : (b.fill T).Trim) : w.Shows S bs (b.fill G) where
  draws := h.draws
  touched t ht := by
    have hmem := h.touched t ht
    rw [Bough.cells_fill, Multiset.map_add, Multiset.mem_add]
    left
    rwa [← Bough.holder_frame]
  slack := @Plan.Slack.under _ _ _ [b] h.slack htrim

/-- The node in focus became what a growth tells; if a Q-node is named, its row is in focus. -/
inductive Grew (w : Work) (S : Set Vertex) (bs : List Bough) : Grown → Option NodeId → Prop
  | plain {G : Plan} (shows : w.Shows S bs G) : Grew w S bs (.plain G.node) none
  | row {q : NodeId} {P : Row (Part Plan)} (shows : w.Shows S bs (.qnode q P))
      (touched : ∀ t ∈ w.touched, t ∈ (Plan.limbCells (Plan.sons P)).map Prod.fst) :
      Grew w S bs (.ofRow (P.map Part.shown)) (some q)

/-- What comes of putting a vertex in at the node in focus: the node becomes what its growth tells, or
there is no room and no growth, either. -/
inductive Answers (w : Work) (S : Set Vertex) (bs : List Bough) :
    Option Grown → Option (Option NodeId) → Prop
  | refused : Answers w S bs none none
  | grew {g : Grown} {out : Option NodeId} (grew : w.Grew S bs g out) : Answers w S bs (some g) (some out)

/-- The moves of the runs of several vertices into a gap. -/
theorem mapM_growsFrom {vs : List Vertex} {gap : Option NodeId × Option NodeId}
    {left right : List (NodeId × List Vertex)}
    (h : ∀ v ∈ vs, ∃ old?, w.growsFrom v gap = .ok old? ∧ GrowsAt v old? left right) :
    ∃ moves : List (Vertex × Option NodeId),
      (vs.mapM fun v => do return (v, ← w.growsFrom v gap)) = .ok moves ∧
        moves.map Prod.fst = vs ∧ ∀ m ∈ moves, GrowsAt m.1 m.2 left right := by
  induction vs with
  | nil => exact ⟨[], rfl, rfl, by simp⟩
  | cons v vs ih =>
      obtain ⟨⟨old?, hold, hgrows⟩, hvs⟩ := List.forall_mem_cons.1 h
      obtain ⟨moves, hmoves, hfst, hall⟩ := ih hvs
      refine ⟨(v, old?) :: moves, ?_, by rw [List.map_cons, hfst], List.forall_mem_cons.2 ⟨hgrows, hall⟩⟩
      rw [List.mapM_cons]
      simp only [pure_eq_ok] at hmoves
      simp only [hold, hmoves, ok_bind, pure_eq_ok]

/-- A row that holds a neighbour owns one. -/
theorem Passes.owned_ne_nil (h : Passes p (.qnode q P) bs) : (P.map Part.shown).owned p.nbrs ≠ [] := by
  obtain ⟨v, hv, hn⟩ := List.any_eq_true.1 h.focus
  rw [Plan.node_qnode, Node.vertices_qnode, Row.toList_map] at hv
  obtain ⟨s, hs, hvs⟩ := List.mem_flatMap.1 hv
  refine List.ne_nil_of_mem (a := v) (Row.mem_owned.2 ⟨List.contains_iff_mem.1 hn, s, ?_, ?_⟩)
  · rwa [Row.toList_map]
  · refine (List.mem_append.1 hvs).resolve_right fun hson => ?_
    obtain ⟨part, hpart, rfl⟩ := List.mem_map.1 hs
    have hnone := h.limbs (part.id, part.son) (List.mem_map_of_mem hpart)
    exact Bool.eq_false_iff.1 hnone (List.any_eq_true.2 ⟨v, hson, hn⟩)

/-- With no neighbours below the sections of a row the vertex is put in at the row. -/
theorem Passes.grow?_row (h : Passes p (.qnode q P) bs) :
    (Plan.qnode q P).node.grow? p.vertex p.nbrs =
      Node.growRow? p.vertex p.nbrs (P.map Part.shown) := by
  rw [Plan.node_qnode, Node.grow?_qnode, Sole.find_absent]
  rw [Row.toList_map]
  exact List.forall_mem_map.2 fun s hs => h.limbs (s.id, s.son) (List.mem_map_of_mem hs)

/-- The section above a node in focus, with the row around it. -/
theorem fill_of_keyed {xs ys : List (Int × Part Plan)} {e : Int × Part Plan}
    (hP : P.keyed = xs ++ e :: ys) :
    (Bough.inRow q P.flipped xs e.1 e.2.id e.2.held ys).fill e.2.son = .qnode q P := by
  rw [Bough.fill, ← Row.ofKeyed_keyed P, hP, Row.flipped_ofKeyed]

/-- A vertex that is put in below a section of a row. -/
theorem Draws.growBelow {xs ys : List (Int × Part Plan)} {e : Int × Part Plan}
    (h : w.Draws S ((Plan.qnode q P).under bs)) (ht : w.touched = [])
    (htrim : (Plan.qnode q P).Trim) (hu : p.vertex ∉ S) (hP : P.keyed = xs ++ e :: ys) :
    ∃ w' G, w.attachBelow p e.2.id = .ok w' ∧ w'.Shows (insert p.vertex S) bs G ∧
      Grown.underSection (P.map Part.shown) xs.length e.2.shown
        (.plain (e.2.shown.son.beside p.vertex)) = .plain G.node := by
  have hM := Plan.cells_under_row q P bs
  have hR : (P.map Part.top).keyed =
      xs.map (Row.entry Part.top) ++ (e.1, e.2.top) :: ys.map (Row.entry Part.top) :=
    Row.keyed_map_append _ hP
  have hlinks := h.owns.links_row hM hR
  have hfill := fill_of_keyed hP (q := q)
  have hson : e.2.son.Trim :=
    (Plan.trim_iff.1 htrim).2 (e.2.id, e.2.son) (List.mem_map_of_mem (List.mem_map_of_mem (by simp [hP])))
  -- The subtree below the section comes into focus.
  have hfocus : w.Draws S (e.2.son.under (.inRow q P.flipped xs e.1 e.2.id e.2.held ys :: bs)) := by
    rw [Plan.under, hfill]
    exact h
  obtain ⟨w', G, h', hshows, hG⟩ := hfocus.attachBelow ht hson hu hlinks rfl
  refine ⟨w', _, h', hshows.up (hfill ▸ htrim), ?_⟩
  have hshown : P.map Part.shown = Bough.shownRow P.flipped xs e.1 e.2.shown ys := by
    rw [Bough.shownRow, ← Row.ofKeyed_keyed (P.map Part.shown), Row.keyed_map, hP, Row.flipped_map,
      List.map_append, List.map_cons]
  rw [Bough.node_inRow, Grown.underSection, hshown, Bough.shownRow, Bough.set_ofKeyed _ _ _ (by simp), hG]
  rfl

/-- A vertex that is put in below a new section of a row. -/
theorem Draws.growInto {xs ys : List (Int × Part Plan)} (h : w.Draws S ((Plan.qnode q P).under bs))
    (ht : w.touched = []) (htrim : (Plan.qnode q P).Trim) (hproper : (Plan.qnode q P).node.Proper)
    (hr : p.Reads ((Plan.qnode q P).under bs)) (hnodup : p.nbrs.Nodup) (hu : p.vertex ∉ S)
    (hP : P.keyed = xs ++ ys)
    (hnear : ∀ v ∈ p.ownedBy q, (∃ e, xs.getLast? = some e ∧ v ∈ e.2.held) ∨
      ∃ e, ys.head? = some e ∧ v ∈ e.2.held) :
    let gap := (Entries.lastId (xs.map (Row.entry Part.top)) none,
      Entries.firstId (ys.map (Row.entry Part.top)) none)
    ∃ moves w' s, ((p.ownedBy q).mapM fun v => do return (v, ← w.growsFrom v gap)) = .ok moves ∧
      w.newSection p q gap.1 gap.2 moves = .ok (w', s) ∧
        w'.Grew (insert p.vertex S) bs
          (.ofRow ((P.map Part.shown).insertAt xs.length ⟨p.ownedBy q, .leaf [p.vertex]⟩)) (some q) := by
  obtain ⟨hM, hasc, hmarks, hblocks⟩ := h.row_facts hproper
  have hR : (P.map Part.top).keyed =
      xs.map (Row.entry Part.top) ++ ys.map (Row.entry Part.top) :=
    Row.keyed_map_append _ hP
  have hspans : ∀ es : List (Int × Part Plan), (es.map (Row.entry Part.top)).map (fun e => e.2.span) =
      es.map fun e => e.2.span := by
    intro es
    rw [List.map_map]
    rfl
  -- Each neighbour of the row is held at the gap, on one side or on both.
  have hgrows := fun v (hv : v ∈ p.ownedBy q) => h.whole.growsFrom_block (v := v) hM hasc hmarks hblocks hR
    ((hnear v hv).imp
      (fun ⟨e, he, hve⟩ => ⟨Row.entry Part.top e, by rw [List.getLast?_map, he]; rfl, hve⟩)
      fun ⟨e, he, hve⟩ => ⟨Row.entry Part.top e, by rw [List.head?_map, he]; rfl, hve⟩)
  simp only [hspans] at hgrows
  obtain ⟨moves, hmoves, hfst, hall⟩ := mapM_growsFrom hgrows
  have hown : (p.ownedBy q).Nodup := by
    rw [hr.ownedBy_row (Plan.mem_parts_under _ _)]
    exact Row.nodup_owned _ hnodup
  obtain ⟨w', s, leaf, hnew, htouched, hdraws⟩ := h.newSection (by simp [ht]) hP hu
    (fun v hv => exists_part_of_owned hr hv) hfst hown hall
  have hshown : (P.insertAt xs.length ⟨s, p.ownedBy q, .leaf leaf [p.vertex]⟩).map Part.shown =
      (P.map Part.shown).insertAt xs.length ⟨p.ownedBy q, .leaf [p.vertex]⟩ := by
    rw [← Row.insertAt_map]
    simp [Part.shown]
  refine ⟨moves, w', s, hmoves, hnew, hshown ▸ .row ⟨hdraws, ?_, Plan.Trim.slack ?_ _⟩ ?_⟩
  · simp [htouched, ht]
  · refine Plan.trim_iff.2 ⟨trivial, List.forall_mem_map.2 fun t ht => ?_⟩
    rcases Row.mem_insertAt.1 ht with ht | rfl
    · exact (Plan.trim_iff.1 htrim).2 (t.id, t.son) (List.mem_map_of_mem ht)
    · exact Plan.trim_leaf
  · simp [htouched, ht]

/-- The arena has a cell for every section of a row. -/
theorem Draws.length_keyed_le (h : w.Draws S ((Plan.qnode q P).under bs)) :
    (P.map Part.top).keyed.length ≤ w.arena.cells.size := by
  have hcard := h.owns.card_le
  rw [Plan.cells_under_row] at hcard
  simp only [Multiset.card_add, Row.cellsAt, Loose.card_cells, Entries.length_linked] at hcard
  omega

/-- A gap in a block of sections or beside it is next to one of them. What all sections of the block
hold is held there. -/
theorem held_near_gap {vs : List Vertex} {as m cs : Entries} {xs ys : List (Int × Part Plan)}
    (hR : (P.map Part.top).keyed = as ++ (m ++ cs))
    (hm : ∀ e ∈ (P.map Part.top).keyed, e ∈ m ↔ ∀ v ∈ vs, v ∈ e.2.held) (hne : m ≠ [])
    (hP : P.keyed = xs ++ ys) (hlow : as.length ≤ xs.length) (hhigh : xs.length ≤ as.length + m.length) :
    ∀ v ∈ vs, (∃ e, xs.getLast? = some e ∧ v ∈ e.2.held) ∨ ∃ e, ys.head? = some e ∧ v ∈ e.2.held := by
  intro v hv
  have hmem : ∀ e ∈ P.keyed, Row.entry Part.top e ∈ m → v ∈ e.2.held := by
    intro e he hem
    refine (hm (Row.entry Part.top e) ?_).1 hem v hv
    rw [Row.keyed_map]
    exact List.mem_map_of_mem (f := Row.entry Part.top) he
  have hsplit : as ++ (m ++ cs) = xs.map (Row.entry Part.top) ++ ys.map (Row.entry Part.top) := by
    rw [← hR, Row.keyed_map_append _ hP]
  rcases near_block hne hsplit (by simpa using hlow) (by simpa using hhigh) with
    ⟨d, hd, hdm⟩ | ⟨d, hd, hdm⟩
  · rw [List.getLast?_map, Option.map_eq_some_iff] at hd
    obtain ⟨e, he, rfl⟩ := hd
    exact Or.inl ⟨e, he, hmem e (hP ▸ List.mem_append_left _ (List.mem_of_getLast? he)) hdm⟩
  · rw [List.head?_map, Option.map_eq_some_iff] at hd
    obtain ⟨e, he, rfl⟩ := hd
    exact Or.inr ⟨e, he, hmem e (hP ▸ List.mem_append_right _ (List.mem_of_head? he)) hdm⟩

/-- Where no section takes a vertex in, it grows into a gap beside the sections that hold all
neighbours of the row, or there is no such gap. -/
theorem Draws.growAtGap {as m cs : Entries} {f l : Int × Part NodeId}
    (h : w.Draws S ((Plan.qnode q P).under bs)) (ht : w.touched = []) (htrim : (Plan.qnode q P).Trim)
    (hproper : (Plan.qnode q P).node.Proper) (hr : p.Reads ((Plan.qnode q P).under bs))
    (hnodup : p.nbrs.Nodup) (hu : p.vertex ∉ S) (hR : (P.map Part.top).keyed = as ++ (m ++ cs))
    (hf : m.head? = some f) (hl : m.getLast? = some l)
    (hm : ∀ e ∈ (P.map Part.top).keyed, e ∈ m ↔ ∀ v ∈ p.ownedBy q, v ∈ e.2.held) :
    (w.gapAt p q f.2.id l.2.id (Entries.ids m) = .ok none ∧
        Node.gap? p.nbrs (P.map Part.shown).toList as.length (as.length + m.length - 1) = none) ∨
      ∃ gap i moves w' s,
        w.gapAt p q f.2.id l.2.id (Entries.ids m) = .ok (some gap) ∧
        Node.gap? p.nbrs (P.map Part.shown).toList as.length (as.length + m.length - 1) = some i ∧
        ((p.ownedBy q).mapM fun v => do return (v, ← w.growsFrom v gap)) = .ok moves ∧
        w.newSection p q gap.1 gap.2 moves = .ok (w', s) ∧
        w'.Grew (insert p.vertex S) bs
          (.ofRow ((P.map Part.shown).insertAt i ⟨p.ownedBy q, .leaf [p.vertex]⟩)) (some q) := by
  have hM := Plan.cells_under_row q P bs
  have hne : m ≠ [] := fun hnil => by simp [hnil] at hf
  have hpos := List.length_pos_iff.2 hne
  rcases h.whole.gapAt_block hM p (Row.held_shown P) hR hf hl with hnone | ⟨xs, ys, hxs, hgap, hgap?⟩
  · exact Or.inl hnone
  · right
    obtain ⟨xs, ys, hP, rfl, rfl⟩ := Row.exists_of_keyed_map _ hxs
    rw [List.length_map] at hgap?
    obtain ⟨hlow, hhigh⟩ := Node.gap?_bounds (by omega) hgap?
    have hnear := held_near_gap hR hm hne hP hlow (by omega)
    obtain ⟨moves, w', s, hmoves, hnew, hgrew⟩ := h.growInto ht htrim hproper hr hnodup hu hP hnear
    exact ⟨_, _, moves, w', s, hgap, hgap?, hmoves, hnew, hgrew⟩

/-- A vertex that is put in at a Q-node, or has no room there. -/
theorem Draws.placeInRow {r : Option (Option NodeId)} (h : w.Draws S ((Plan.qnode q P).under bs))
    (ht : w.touched = []) (htrim : (Plan.qnode q P).Trim) (hproper : (Plan.qnode q P).node.Proper)
    (hr : p.Reads ((Plan.qnode q P).under bs)) (hpass : Passes p (.qnode q P) bs)
    (hnodup : p.nbrs.Nodup) (hu : p.vertex ∉ S) (h' : w.placeInRow p q = .ok (w', r)) :
    w'.Answers (insert p.vertex S) bs ((Plan.qnode q P).node.grow? p.vertex p.nbrs) r := by
  obtain ⟨hM, hasc, hmarks, hblocks⟩ := h.row_facts hproper
  have howned := hr.ownedBy_row (Plan.mem_parts_under _ _)
  have hne := hpass.owned_ne_nil
  have hheld := Row.held_shown P
  have hparts : ∀ v ∈ p.ownedBy q, ∃ s ∈ (P.map Part.top).toList, v ∈ s.held := by
    intro v hv
    obtain ⟨s, hs, hvs⟩ := exists_part_of_owned hr hv
    rw [Row.toList_map]
    exact ⟨s.top, List.mem_map_of_mem hs, hvs⟩
  rw [← howned] at hne
  have hshared : ∀ as m cs, (P.map Part.top).keyed = as ++ (m ++ cs) →
      (∀ e ∈ (P.map Part.top).keyed, e ∈ m ↔ ∀ v ∈ p.ownedBy q, v ∈ e.2.held) →
      (P.map Part.shown).sharedPositions (p.ownedBy q) = List.range' as.length m.length :=
    fun as m cs hR hm => Row.sharedPositions_block (Plan.standing hproper) hasc hheld hR hparts hne hm
  rw [hpass.grow?_row, Node.growRow?, ← howned]
  rcases h.whole.commonEnds_block hM hasc hmarks hblocks hparts hne with
    ⟨hends, hnone⟩ | ⟨as, m, cs, f, l, hR, hf, hl, hends, hm⟩
  · -- No section holds all neighbours of the row.
    rw [Work.placeInRow, hends] at h'
    cases h'
    have hempty := hshared (P.map Part.top).keyed [] [] (by simp) fun e he => by
      obtain ⟨v, hv, hve⟩ := hnone e he
      exact iff_of_false List.not_mem_nil fun hall => hve (hall v hv)
    simp only [hempty]
    exact .refused
  have hfuel : m.length ≤ w.arena.cells.size + 1 := by
    have hlen := h.length_keyed_le
    rw [hR, List.length_append, List.length_append] at hlen
    omega
  have hrange := h.whole.sliceRange_block hM hR hf hl hfuel
  have hinside : ∀ e ∈ m, e ∈ (P.map Part.top).keyed :=
    fun e he => hR ▸ List.mem_append.2 (Or.inr (List.mem_append.2 (Or.inl he)))
  have hfind := h.whole.findHolding_entries hM (p.ownedBy q).length hinside
  simp only [Work.placeInRow, hends, hrange, hfind, ok_bind] at h'
  simp only [hshared as m cs hR hm]
  rcases findSome?_block hheld hR (p.ownedBy q).length with
    ⟨hnone, hfound⟩ | ⟨xs, e, ys, s, hxs, hsome, hs, hfound⟩
  · have hmne : m ≠ [] := fun hnil => by simp [hnil] at hf
    have hpos := List.length_pos_iff.2 hmne
    have hlast : (List.range' as.length m.length).getLast? = some (as.length + m.length - 1) := by
      rw [List.getLast?_range', if_neg (by omega)]
    have hfirst : (List.range' as.length m.length).head? = some as.length := by
      rw [List.head?_range', if_neg (by omega)]
    simp only [hnone, Option.map_none] at h'
    rw [hfound, hfirst, hlast]
    rcases h.growAtGap ht htrim hproper hr hnodup hu hR hf hl hm with
      ⟨hgap, hgap?⟩ | ⟨gap, i, moves, w₁, s, hgap, hgap?, hmoves, hnew, hgrew⟩
    · simp only [hgap, ok_bind] at h'
      cases h'
      simp only [hgap?]
      exact .refused
    · simp only [pure_eq_ok] at hmoves
      simp only [hgap, hmoves, hnew, ok_bind, pure_eq_ok, Except.ok.injEq, Prod.mk.injEq] at h'
      obtain ⟨rfl, rfl⟩ := h'
      simp only [hgap?, Option.map_some]
      exact .grew hgrew
  · obtain ⟨xs', es, hP, rfl, hes⟩ := Row.exists_of_keyed_map _ hxs
    obtain ⟨d, ys', rfl, rfl, rfl⟩ := List.map_eq_cons_iff.1 hes
    have hsd : s = d.2.shown := by
      rw [Row.toList_map, Row.toList, hP] at hs
      simpa using hs.symm
    obtain ⟨w₁, G, hattach, hshows, hG⟩ := h.growBelow ht htrim hu hP
    rw [show d.2.id = d.2.top.id from rfl] at hattach
    simp only [hsome, Option.map_some, hattach, ok_bind, pure_eq_ok, Except.ok.injEq, Prod.mk.injEq] at h'
    obtain ⟨rfl, rfl⟩ := h'
    rw [hfound, hsd, List.length_map]
    exact .grew (hG ▸ .plain hshows)

/-- A vertex that is put in at a single node, or has no room there. -/
theorem Draws.placeAt {r : Option (Option NodeId)} (h : w.Draws S (T.under bs)) (ht : w.touched = [])
    (htrim : T.Trim) (hproper : T.node.Proper) (hr : p.Reads (T.under bs)) (hpass : Passes p T bs)
    (hnodup : p.nbrs.Nodup) (hu : p.vertex ∉ S) (h' : w.placeAt p T.id = .ok (w', r)) :
    w'.Answers (insert p.vertex S) bs (T.node.grow? p.vertex p.nbrs) r := by
  -- The cell of the node tells its kind; each kind has its own lemma.
  have hst : w.Stands S (ctx bs) T.id _ := h.stands (by simp [ht])
  cases T with
  | leaf x held =>
      rw [Plan.cells_leaf] at hst
      have hcell := hst.owns.cell rfl
      obtain ⟨w₁, G, hplace, hshows, hgrow⟩ := h.placeInLeaf ht hu
      rw [Plan.id_leaf] at h'
      simp only [Work.placeAt, hcell, ok_bind, leafCell, hplace, pure_eq_ok, Except.ok.injEq,
        Prod.mk.injEq] at h'
      obtain ⟨rfl, rfl⟩ := h'
      rw [hgrow]
      exact .grew (.plain hshows)
  | pnode x held children =>
      rw [Plan.cells_pnode] at hst
      have hcell := hst.owns.cell (add_assoc _ _ _)
      obtain ⟨w₁, G, hplace, hshows, hgrow⟩ := h.placeBelow ht htrim hu hpass.limbs
      rw [Plan.id_pnode] at h'
      simp only [Work.placeAt, hcell, ok_bind, pCell, hplace, pure_eq_ok, Except.ok.injEq,
        Prod.mk.injEq] at h'
      obtain ⟨rfl, rfl⟩ := h'
      rw [hgrow]
      exact .grew (.plain hshows)
  | qnode q P =>
      rw [Plan.cells_qnode] at hst
      have hcell := hst.owns.cell_of_mem (Multiset.mem_add.2 (Or.inl (Arena.Owns.mem_row rfl)))
      refine h.placeInRow ht htrim hproper hr hpass hnodup hu ?_
      rw [Plan.id_qnode] at h'
      obtain ⟨first, last, flipped, hkind⟩ := kind_rowCell (ctx bs).parent (P.map Part.top).flipped
        (P.map Part.top).firstPart (P.map Part.top).lastPart
      simpa only [Work.placeAt, hcell, ok_bind, hkind] using h'

end Work

end CliquePath
