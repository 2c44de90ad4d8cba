import CliquePath.Proofs.LinkedTree.Carrying
import CliquePath.Proofs.LinkedTree.Fitting

set_option autoImplicit false

/-!
# Opened plans

This module follows the nodes of a plan that are dissolved into a row above a new vertex. What one step
keeps up is `Work.Opens`: the row in focus shows an opened row of the clique tree, closed with the
section of the new vertex.
-/

namespace CliquePath

open Cells (one)
open Plan (ctx)

/-- The runs of a row of two sections that hold the same vertices. -/
theorem Slots.marks_pair {slots : Slots} {s t : NodeId} {vs : List Vertex}
    (h : ∀ v ∈ vs, slots.get v = .span s t) : slots.Marks [(s, vs), (t, vs)] := by
  intro v f l hf hl
  by_cases hv : v ∈ vs
  · simp only [@hits_of_all _ [(s, vs), (t, vs)] (by simpa using hv), List.map_cons, List.map_nil,
      List.head?_cons, List.getLast?_cons_cons, List.getLast?_singleton, Option.some.injEq] at hf hl
    rw [h v hv, hf, hl]
    exact Or.inl rfl
  · rw [hits_eq_nil.2 (by simpa using hv)] at hf
    cases hf

namespace Work

variable {w w' : Work} {S : Set Vertex} {T U : Plan} {bs : List Bough} {b : Bough} {p : Pass}
variable {x q k : NodeId} {P : Row (Part Plan)} {held : List Vertex} {u : Vertex} {o : Opening}
variable {children : List Plan}

/-- The row in focus is an opened one that was closed with the section `k` of the new vertex. -/
structure Opens (w : Work) (S : Set Vertex) (bs : List Bough) (q k : NodeId) (P : Row (Part Plan))
    (u : Vertex) (o : Opening) : Prop where
  draws : w.Draws S ((Plan.qnode q P).under bs)
  touched : ∀ t ∈ w.touched, t ∈ (Plan.limbCells (Plan.sons P)).map Prod.fst
  slack : ∀ l ∈ Plan.sons P, l.2.Slack w.touched
  shown : P.map Part.shown = o.close u
  last : ∃ ws e, P.keyed = ws ++ [e] ∧ ws ≠ [] ∧ e.2.id = k

/-- The opened row has sections besides the one of the new vertex. -/
theorem Opens.row_ne_nil (h : w.Opens S bs q k P u o) : o.row.keyed ≠ [] := by
  obtain ⟨ws, e, hP, hws, -⟩ := h.last
  rw [← (Row.push_of_keyed h.shown hP).2.1]
  simpa using hws

theorem slack_qnode {ids : List NodeId} (h : ∀ l ∈ Plan.sons P, l.2.Slack ids) :
    (Plan.qnode q P).Slack ids :=
  Plan.slack_iff.2 ⟨Or.inl trivial, h⟩

/-- What comes of opening the node in focus: a row that shows what the clique tree opens, or there is no
room and nothing that the clique tree opens, either. -/
inductive Unfolds (w : Work) (S : Set Vertex) (bs : List Bough) (u : Vertex) :
    Option Opening → Option (NodeId × NodeId) → Prop
  | refused : Unfolds w S bs u none none
  | opened {q k : NodeId} {P : Row (Part Plan)} {o : Opening} (opens : w.Opens S bs q k P u o) :
      Unfolds w S bs u (some o) (some (q, k))

theorem Opens.grew (h : w.Opens S bs q k P u o) : w.Grew S bs (.ofRow (o.close u)) (some q) := by
  rw [← h.shown]
  refine .row ⟨h.draws, fun t ht => ?_, slack_qnode h.slack⟩ h.touched
  rw [Plan.cells_qnode, Multiset.map_add, Multiset.mem_add]
  exact Or.inr (h.touched t ht)

/-! ## The last node of the path -/

/-- A leaf or P-node becomes a row of two sections. -/
theorem Draws.wrap {n : Cells} {kind : Kind} (h : w.Draws S (T.under bs)) (ht : w.touched = [])
    (hst : w.Stands S (ctx bs) x (one x ⟨kind, (ctx bs).parent, held, true⟩ + n))
    (hk : kind.isSlice = false)
    (hall : ∀ parent held, Trees {(parent, x)} (one x ⟨kind, parent, held, true⟩ + n))
    (hu : p.vertex ∉ S) (hid' : U.id = x)
    (hcells : ∀ parent, U.cells parent = one x ⟨kind, parent, missed p.nbrs held, true⟩ + n)
    (hcount : U.count = T.count) (hrows : T.RowsFrom U) (hformed : U.Formed)
    (hslack : U.Slack (if kind.isP then [x] else [])) :
    ∃ w' q k P, w.wrap p x = .ok (w', q, k) ∧ w'.Opens (insert p.vertex S) bs q k P p.vertex
      ⟨.ofList [⟨reached p.nbrs held, U.node⟩], reached p.nbrs held⟩ := by
  obtain ⟨w', q, s, k, leaf, h', hslots, htouched, hrow⟩ := hst.wrap h.formed.ok hk hall hu
  rw [ht, List.append_nil] at htouched
  obtain ⟨P, hP⟩ : ∃ P : Row (Part Plan), P = Row.ofList [⟨s, reached p.nbrs held, U⟩,
    ⟨k, reached p.nbrs held, .leaf leaf [p.vertex]⟩] := ⟨_, rfl⟩
  have hkeyed : P.keyed = [(0, ⟨s, reached p.nbrs held, U⟩)] ++
      [(Row.keyGap, ⟨k, reached p.nbrs held, .leaf leaf [p.vertex]⟩)] := by
    simp [hP, Row.ofList, Row.keyed, Row.spaced]
  have hsons : Plan.sons P = [(s, U), (k, .leaf leaf [p.vertex])] := by
    rw [Plan.sons, Row.toList, hkeyed]
    rfl
  have hlimbs : Plan.limbCells (Plan.sons P) = one x ⟨kind, some s, missed p.nbrs held, true⟩ +
      (one leaf (leafCell (some k) [p.vertex]) + n) := by
    rw [hsons, Plan.limbCells_cons, Plan.limbCells_cons, Plan.limbCells_nil, hcells, Plan.cells_leaf]
    abel
  have htop : P.map Part.top = Row.ofList [⟨s, reached p.nbrs held, x⟩, ⟨k, reached p.nbrs held, leaf⟩] := by
    rw [hP, ← Row.ofList_map]
    simp [Part.top, hid']
  rw [← htop, ← hlimbs] at hrow
  -- the slots change for the vertices of the node only, and these had no span
  have hkeep : w.slots.Keeps w'.slots := by
    rw [hslots]
    refine (Slots.keeps_put (by simp [h.absent hu])).trans (Slots.keeps_putAll fun v hv a b => ?_)
    rw [Slots.get_put]
    split
    next => simp
    next => exact hst.node_of_held hk (mem_reached.1 hv).1 a b
  -- the row, its two sections and the leaf are new
  have hlive : w'.arena.live + T.count = w.arena.live + (Plan.qnode q P).count := by
    rw [live_wrap h', Plan.count_qnode, hsons]
    simp only [Plan.limbCount_cons, Plan.limbCount_nil, Plan.count_leaf, List.length_cons,
      List.length_nil, hcount]
    omega
  refine ⟨w', q, k, P, h', h.refocus (hrow.stands.congr (Plan.cells_qnode _ _).symm) hlive hkeep ?_ ?_,
    ?_, ?_, ?_, _, _, hkeyed, by simp, rfl⟩
  · intro V hV
    rcases Plan.mem_parts_iff.1 hV with rfl | ⟨l, hl, hV⟩
    · left
      have hspans : Plan.spans (.qnode q P) = [(s, reached p.nbrs held), (k, reached p.nbrs held)] := by
        rw [Plan.spans, Row.toList, hkeyed]
        rfl
      rw [hspans]
      -- the vertices that are reached are in both sections of the row
      refine Slots.marks_pair fun v hv => ?_
      rw [hslots, Slots.get_putAll, if_pos hv]
    · rw [Plan.limbs, hsons] at hl
      simp only [List.mem_cons, List.not_mem_nil, or_false] at hl
      rcases hl with rfl | rfl
      · exact (hrows V hV).imp_left Slots.marks_of_nil
      · exact (Plan.rowsFrom_leaf V hV).imp_left Slots.marks_of_nil
  · refine Plan.formed_iff.2 ⟨⟨by simp [hkeyed], hP ▸ Row.ascending_ofList _⟩, ?_⟩
    rw [Plan.limbs, hsons]
    simp [hformed, Plan.formed_leaf]
  · intro t ht
    rw [htouched] at ht
    rw [hlimbs, Multiset.map_add, Multiset.mem_add]
    left
    cases hp : kind.isP <;> simp_all
  · rw [hsons, htouched]
    simp [hslack, Plan.trim_leaf.slack]
  · refine Row.ext_keyed (by rw [hP, Row.flipped_map, Opening.close, Row.flipped_push]; rfl) ?_
    rw [Row.keyed_map, hkeyed, Opening.close, Row.keyed_push]
    simp [Row.ofList, Row.keyed, Row.spaced, Row.pushKey, Part.shown]

theorem sons_reverse (P : Row (Part Plan)) : Plan.sons P.reverse = (Plan.sons P).reverse := by
  rw [Plan.sons, Row.toList_reverse, List.map_reverse, Plan.sons]

theorem limbCells_reverse (P : Row (Part Plan)) :
    Plan.limbCells (Plan.sons P.reverse) = Plan.limbCells (Plan.sons P) := by
  rw [sons_reverse]
  exact Plan.limbCells_perm (List.reverse_perm _)

/-- The cells of a plan whose row was turned around. -/
theorem Draws.turned {a : Arena} (h : w.Draws S ((Plan.qnode x P).under bs))
    (hlife : a.life = w.arena.life)
    (hrow : RowStands { w with arena := a } S (ctx bs) x (P.reverse.map Part.top)
      (Plan.limbCells (Plan.sons P.reverse))) :
    Draws { w with arena := a } S ((Plan.qnode x P.reverse).under bs) := by
  obtain ⟨hmarks, hruns⟩ := Slots.Runs.iff_limbs.1 h.runs.focus
  obtain ⟨hstable, hformed⟩ := Plan.formed_iff.1 h.formed.focus
  -- the limbs of a turned row are the same ones
  have hmem : ∀ l, l ∈ (Plan.qnode x P.reverse).limbs ↔ l ∈ (Plan.qnode x P).limbs := by
    intro l
    rw [Plan.limbs, sons_reverse, List.mem_reverse]
    rfl
  have hcount := Plan.count_under (.qnode x P) (.qnode x P.reverse) bs
  rw [Plan.count_qnode, Plan.count_qnode, sons_reverse, List.length_reverse,
    Plan.limbCount_perm (List.reverse_perm _)] at hcount
  have hlive := Arena.live_of_life hlife
  refine hrow.draws (by have := h.live; dsimp only; omega)
    (h.runs.refill (Slots.Runs.iff_limbs.2 ⟨?_, fun l hl => ?_⟩) fun _ _ _ => rfl)
    (h.formed.refill (Plan.formed_iff.2 ⟨⟨?_, hstable.2.reverse⟩, fun l hl => ?_⟩))
  · rw [Plan.spans, Row.toList_reverse, List.map_reverse]
    exact hmarks.reverse
  · exact hruns l ((hmem l).1 hl)
  · simpa [Row.keyed_reverse, Row.reflect] using hstable.1
  · exact hformed l ((hmem l).1 hl)

/-- A row can be turned around. -/
theorem Draws.reverse (h : w.Draws S ((Plan.qnode x P).under bs)) (ht : w.touched = []) :
    ∃ a, w.arena.reverse x = .ok a ∧
      Draws { w with arena := a } S ((Plan.qnode x P.reverse).under bs) := by
  obtain ⟨a, hrev, hrow⟩ := (h.rowStands (by simp [ht])).reverse
  rw [Row.reverse_map, ← limbCells_reverse] at hrow
  exact ⟨a, hrev, h.turned (Arena.Lives.reverse rfl _ hrev) hrow⟩

/-- A new section at the right end of a row that holds all neighbours there. -/
theorem Draws.extend {ws : List (Int × Part Plan)} {e : Int × Part Plan}
    (h : w.Draws S ((Plan.qnode x P).under bs)) (ht : w.touched = []) (htrim : (Plan.qnode x P).Trim)
    (hu : p.vertex ∉ S) (hnodup : (p.ownedBy x).Nodup)
    (hown : ∀ v ∈ p.ownedBy x, ∃ s ∈ P.toList, v ∈ s.held) (hP : P.keyed = ws ++ [e])
    (hholds : holdsAll (p.ownedBy x) e.2.held = true) :
    ∃ w' k P', w.newSection p x (some e.2.id) none ((p.ownedBy x).map fun v => (v, some e.2.id)) =
        .ok (w', k) ∧
      w'.Opens (insert p.vertex S) bs x k P' p.vertex ⟨P.map Part.shown, p.ownedBy x⟩ := by
  -- every neighbour in the row is in the last section, where its run grows by the new one
  have hgrows : ∀ m ∈ (p.ownedBy x).map fun v => (v, some e.2.id),
      GrowsAt m.1 m.2 (P.keyed.map fun e => e.2.span)
        (([] : List (Int × Part Plan)).map fun e => e.2.span) := by
    refine List.forall_mem_map.2 fun v hv => Or.inr (Or.inl ⟨_, rfl, ?_, rfl⟩)
    rw [hP]
    exact hits_concat (List.contains_iff_mem.1 (List.all_eq_true.1 hholds v hv))
  have hmoved : ((p.ownedBy x).map fun v => (v, some e.2.id)).map Prod.fst = p.ownedBy x := by
    simp [Function.comp_def]
  obtain ⟨w', k, leaf, hnew, htouched, hdraws⟩ := h.newSection (by simp [ht])
    (List.append_nil P.keyed).symm hu hown hmoved hnodup hgrows
  have hlast : Entries.lastId (P.keyed.map (Row.entry Part.top)) none = some e.2.id := by
    rw [hP, List.map_append]
    exact Entries.lastId_concat
  have hpush : P.insertAt P.keyed.length ⟨k, p.ownedBy x, .leaf leaf [p.vertex]⟩ =
      P.push ⟨k, p.ownedBy x, .leaf leaf [p.vertex]⟩ := by
    rw [Row.push, Row.length_keyed]
  rw [hlast] at hnew
  rw [hpush] at hdraws
  refine ⟨w', k, _, hnew, hdraws, by simp [htouched, ht], fun l hl => ?_, ?_, _, _,
    Row.keyed_push _ _, by simp [hP], rfl⟩
  · obtain ⟨s, hs, rfl⟩ := List.mem_map.1 hl
    rw [Row.toList_push, List.mem_append, List.mem_singleton] at hs
    rcases hs with hs | rfl
    · exact ((Plan.trim_iff.1 htrim).2 (s.id, s.son) (List.mem_map_of_mem hs)).slack _
    · exact Plan.trim_leaf.slack _
  · rw [← Row.push_map]
    simp [Opening.close, Part.shown]

theorem lastPart_of_keyed {ws : List (Int × Part Plan)} {e : Int × Part Plan} (hP : P.keyed = ws ++ [e]) :
    (P.map Part.top).lastPart = e.2.id :=
  Row.lastPart_eq (Row.keyed_map_append _ hP)

theorem firstPart_of_keyed {f : Int × Part Plan} {ys : List (Int × Part Plan)} (hP : P.keyed = f :: ys) :
    (P.map Part.top).firstPart = f.2.id :=
  Row.firstPart_eq (Row.keyed_map_append _ (show P.keyed = [f] ++ ys from hP))

/-- A row that holds all neighbours at its left end is turned around and gets a new section there. -/
theorem Draws.extend_left {f : Int × Part Plan} {ys : List (Int × Part Plan)}
    (h : w.Draws S ((Plan.qnode x P).under bs)) (ht : w.touched = []) (htrim : (Plan.qnode x P).Trim)
    (hu : p.vertex ∉ S) (hnodup : (p.ownedBy x).Nodup)
    (hown : ∀ v ∈ p.ownedBy x, ∃ s ∈ P.toList, v ∈ s.held) (hP : P.keyed = f :: ys)
    (hholds : holdsAll (p.ownedBy x) f.2.held = true) :
    ∃ a w' k P', w.arena.reverse x = .ok a ∧ a.ends x = .ok ((P.reverse.map Part.top).firstPart, f.2.id) ∧
      Work.newSection { w with arena := a } p x (some f.2.id) none
        ((p.ownedBy x).map fun v => (v, some f.2.id)) = .ok (w', k) ∧
      w'.Opens (insert p.vertex S) bs x k P' p.vertex ⟨(P.map Part.shown).reverse, p.ownedBy x⟩ := by
  obtain ⟨a, hrev, hdraws⟩ := h.reverse ht
  -- the left end has become the right one
  have hkeyed : P.reverse.keyed = Row.reflect ys ++ [(-f.1, f.2)] := by
    rw [Row.keyed_reverse, hP]
    simp [Row.reflect]
  have htrim' : (Plan.qnode x P.reverse).Trim := by
    refine Plan.trim_iff.2 ⟨trivial, fun l hl => (Plan.trim_iff.1 htrim).2 l ?_⟩
    rwa [Plan.limbs, Plan.sons, Row.toList_reverse, List.map_reverse, List.mem_reverse] at hl
  obtain ⟨w', k, P', hnew, hopens⟩ := hdraws.extend (p := p) ht htrim' hu hnodup
    (by simpa using hown) hkeyed hholds
  have hends := hdraws.owns.ends_row (Plan.cells_under _ _ |>.trans (by
    rw [Plan.cells_qnode, add_assoc]))
  rw [lastPart_of_keyed hkeyed] at hends
  rw [← Row.reverse_map] at hopens
  exact ⟨a, w', k, P', hrev, hends, hnew, hopens⟩

/-- A vertex that is put in at the end of a row, or has no room there. -/
theorem Draws.append {r : Option (NodeId × NodeId)} (h : w.Draws S ((Plan.qnode x P).under bs))
    (ht : w.touched = []) (htrim : (Plan.qnode x P).Trim) (hproper : (Plan.qnode x P).node.Proper)
    (hr : p.Reads ((Plan.qnode x P).under bs)) (hnodup : p.nbrs.Nodup) (hu : p.vertex ∉ S)
    (h' : w.append p x = .ok (w', r)) :
    w'.Unfolds (insert p.vertex S) bs p.vertex (Opening.ofRow? p.nbrs (P.map Part.shown)) r := by
  obtain ⟨hM, -⟩ := h.row_facts hproper
  have howned := hr.ownedBy_row (Plan.mem_parts_under _ _)
  have hown : (p.ownedBy x).Nodup := howned ▸ Row.nodup_owned _ hnodup
  have hparts := fun v (hv : v ∈ p.ownedBy x) => exists_part_of_owned hr hv
  have hends := h.owns.ends_row hM
  have hne := (Plan.formed_iff.1 h.formed.focus).1.1
  obtain ⟨ws, e, hws⟩ := (List.eq_nil_or_concat P.keyed).resolve_left hne
  rw [List.concat_eq_append] at hws
  obtain ⟨f, ys, hys⟩ := List.exists_cons_of_ne_nil hne
  have hspan := fun d (hd : d ∈ P.keyed) => h.allSpan_owned hproper hr hd
  have hendHolds : ∀ (d : Int × Part Plan), ((some d.2.shown).map fun s =>
      holdsAll (p.ownedBy x) s.held).getD false = holdsAll (p.ownedBy x) d.2.held := fun _ => rfl
  have hgetLast : (P.map Part.shown).toList.getLast? = some e.2.shown := by
    rw [Row.toList_map, Row.toList, hws]
    simp
  have hhead : (P.map Part.shown).toList.head? = some f.2.shown := by
    rw [Row.toList_map, Row.toList, hys]
    rfl
  simp only [Opening.ofRow?, ← howned, hgetLast, hhead, hendHolds]
  simp only [Work.append, turnToEnd, hends, lastPart_of_keyed hws, firstPart_of_keyed hys,
    hspan e (by simp [hws]), hspan f (by simp [hys]), ok_bind, pure_eq_ok] at h'
  -- the right end is tried first, then the left one
  by_cases hright : holdsAll (p.ownedBy x) e.2.held = true
  · obtain ⟨w₁, k₁, P', hnew, hopens⟩ := h.extend ht htrim hu hown hparts hws hright
    simp only [hright, if_true, ok_bind, hends, lastPart_of_keyed hws, hnew, Except.ok.injEq,
      Prod.mk.injEq] at h'
    obtain ⟨rfl, rfl⟩ := h'
    rw [if_pos hright]
    exact .opened hopens
  rw [Bool.not_eq_true] at hright
  simp only [hright, Bool.false_eq_true, if_false] at h' ⊢
  by_cases hleft : holdsAll (p.ownedBy x) f.2.held = true
  · obtain ⟨a, w₁, k₁, P', hrev, hends', hnew, hopens⟩ := h.extend_left ht htrim hu hown hparts hys hleft
    simp only [hleft, if_true, hrev, ok_bind, hends', hnew, Except.ok.injEq, Prod.mk.injEq] at h'
    obtain ⟨rfl, rfl⟩ := h'
    rw [if_pos hleft]
    exact .opened hopens
  · rw [Bool.not_eq_true] at hleft
    simp only [hleft, Bool.false_eq_true, if_false, ok_bind] at h' ⊢
    cases h'
    exact .refused

/-- Only a Q-node of a trim plan shows a Q-node. -/
theorem exists_qnode {row : Row (Section Node)} (htrim : T.Trim) (h : T.node = .qnode row) :
    ∃ q P, T = .qnode q P := by
  cases T with
  | leaf x held => rw [Plan.node_leaf] at h; cases h
  | pnode x held children =>
      rw [Plan.node_of_visible (Plan.trim_iff.1 htrim).1] at h
      cases h
  | qnode q P => exact ⟨q, P, rfl⟩

/-- A P-node that lost its neighbours is slack at most if it was reached as a whole and its only child
is a Q-node. -/
theorem slack_missed (htrim : (Plan.pnode x held children).Trim)
    (hproper : (Plan.pnode x held children).node.Proper) (nbrs : List Vertex) :
    (Plan.pnode x (missed nbrs held) children).Slack [x] := by
  obtain ⟨hvis, hlimbs⟩ := Plan.trim_iff.1 htrim
  refine Plan.slack_iff.2 ⟨?_, fun l hl => (hlimbs l hl).slack _⟩
  -- the node can be hidden only without vertices and with one child, which is firm below it
  by_cases hshow : (Plan.pnode x (missed nbrs held) children).Visible
  · exact Or.inl hshow
  simp only [Plan.Visible, not_or, ne_eq, Decidable.not_not] at hshow
  obtain ⟨c, rfl⟩ := List.length_eq_one_iff.1 hshow.2
  rw [Plan.node_of_visible hvis] at hproper
  cases hproper with
  | pnode nodup apart sons firm arity proper =>
      obtain ⟨-, row, hrow⟩ := arity.resolve_left (by simp)
      simp only [List.map_cons, List.map_nil, List.cons.injEq, and_true] at hrow
      obtain ⟨q, P, rfl⟩ := exists_qnode (hlimbs (x, c) (by simp [Plan.limbs])) hrow
      exact Or.inr ⟨by simp, x, q, P, by rw [hshow.1]⟩

/-- The last node of a path is opened, or has no room for the new vertex at its ends. -/
theorem Draws.openBottom {isTop : Bool} {r : Option (NodeId × NodeId)} (h : w.Draws S (T.under bs))
    (ht : w.touched = []) (htrim : T.Trim) (hproper : T.node.Proper) (hr : p.Reads (T.under bs))
    (hpass : Passes p T bs) (hnodup : p.nbrs.Nodup) (hu : p.vertex ∉ S)
    (h' : placeAlong p isTop w [⟨T.id, none⟩] = .ok (w', r)) :
    w'.Unfolds (insert p.vertex S) bs p.vertex (T.node.opening? p.nbrs) r := by
  have hst : w.Stands S (ctx bs) T.id _ := h.stands (by simp [ht])
  cases T with
  | leaf x held =>
      rw [Plan.cells_leaf] at hst
      have hcell := hst.owns.cell rfl
      obtain ⟨w₁, q₁, k₁, P, hwrap, hopens⟩ := h.wrap (x := x) ht (hst.congr (add_zero _).symm) rfl
        (fun parent held => by rw [add_zero]; exact .of_shape (.leaf held)) hu
        (U := .leaf x (missed p.nbrs held)) rfl
        (fun parent => by rw [Plan.cells_leaf, add_zero]; rfl) (by simp) Plan.rowsFrom_leaf
        Plan.formed_leaf
        (Plan.trim_leaf.slack _)
      rw [Plan.id_leaf] at h'
      simp only [Work.placeAlong, hcell, ok_bind, leafCell, hwrap, pure_eq_ok, Except.ok.injEq,
        Prod.mk.injEq] at h'
      obtain ⟨rfl, rfl⟩ := h'
      rw [Plan.node_leaf] at hopens ⊢
      rw [Node.opening?_leaf]
      exact .opened hopens
  | pnode x held children =>
      rw [Plan.cells_pnode] at hst
      have hcell := hst.owns.cell (add_assoc _ _ _)
      obtain ⟨hvis, hchildren⟩ := Plan.trim_iff.1 htrim
      obtain ⟨hstable, hformed⟩ := Plan.formed_iff.1 h.formed.focus
      have hlimb : ∀ c ∈ children, (x, c) ∈ (Plan.pnode x held children).limbs :=
        fun c hc => List.mem_map_of_mem hc
      -- no child of the last node of a path has a neighbour below it
      have hfind : Sole.find (Node.meets p.nbrs) (children.map Plan.node) = .absent :=
        Sole.find_absent (List.forall_mem_map.2 fun c hc => hpass.limbs (x, c) (hlimb c hc))
      obtain ⟨w₁, q₁, k₁, P, hwrap, hopens⟩ := h.wrap (x := x) ht hst rfl
        (fun parent held' => by
          have hformed' : (Plan.pnode x held' children).Formed :=
            Plan.formed_pnode hstable fun c hc => hformed _ (hlimb c hc)
          have htrees := hformed'.trees parent
          rwa [Plan.cells_pnode] at htrees) hu
        (U := .pnode x (missed p.nbrs held) children) rfl (fun parent => Plan.cells_pnode _ _ _)
        (by simp [Plan.count_pnode])
        (Plan.rowsFrom_pnode fun c hc => Plan.rowsFrom_limb (hlimb c hc))
        (Plan.formed_pnode hstable fun c hc => hformed _ (hlimb c hc)) (slack_missed htrim hproper _)
      rw [Plan.id_pnode] at h'
      simp only [Work.placeAlong, hcell, ok_bind, pCell, hwrap, pure_eq_ok, Except.ok.injEq,
        Prod.mk.injEq] at h'
      obtain ⟨rfl, rfl⟩ := h'
      rw [Plan.node_of_visible hvis, Node.opening?_pnode, hfind]
      rw [Plan.node_pnode] at hopens
      exact .opened hopens
  | qnode x P =>
      rw [Plan.cells_qnode] at hst
      have hcell := hst.owns.cell_of_mem (Multiset.mem_add.2 (Or.inl (Arena.Owns.mem_row rfl)))
      obtain ⟨first, last, flipped, hkind⟩ := kind_rowCell (ctx bs).parent (P.map Part.top).flipped
        (P.map Part.top).firstPart (P.map Part.top).lastPart
      rw [Plan.id_qnode] at h'
      simp only [Work.placeAlong, hcell, ok_bind, hkind] at h'
      rw [Plan.node_qnode, Node.opening?_qnode, Sole.find_absent]
      · exact h.append ht htrim hproper hr hnodup hu h'
      · rw [Row.toList_map]
        exact List.forall_mem_map.2 fun s hs => hpass.limbs (s.id, s.son) (List.mem_map_of_mem hs)

end Work

end CliquePath
