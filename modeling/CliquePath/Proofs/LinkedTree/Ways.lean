import CliquePath.Proofs.LinkedTree.Joining

set_option autoImplicit false

/-!
# The way up from the end of a path

This module puts the changes along a path together. The last node of the path is opened, and the
opened row takes in one bough after the other, the lowest first. The highest of them closes the row.
The plan then shows what the clique tree grows into.
-/

namespace CliquePath

open Cells (one)
open Plan (ctx)

/-! ## Boughs along an accepted path -/

namespace Plan

variable {T : Plan} {b : Bough} {bs : List Bough} {nbrs : List Vertex}

/-- A node below a bough is met from above. -/
theorem meets_fill (b : Bough) (h : T.node.meets nbrs = true) : (b.fill T).node.meets nbrs = true := by
  obtain ⟨v, hv, hT⟩ := Node.meets_iff.1 h
  obtain ⟨U, hU, hvU⟩ := mem_vertices_iff.1 hT
  refine Node.meets_iff.2 ⟨v, hv, mem_vertices_iff.2 ⟨U, ?_, hvU⟩⟩
  exact Bough.mem_parts_fill.2 (Or.inr (Or.inl hU))

/-- The boughs along an accepted path lead to its last node. -/
theorem led_of_holds (htrim : (T.under bs).Trim) (hT : T.node.meets nbrs = true)
    (hothers : ∀ b ∈ bs, ∀ l ∈ b.others, l.2.node.meets nbrs = false)
    (hholds : ∀ b ∈ bs, holdsAll (b.owned nbrs) b.held = true) : T.Led nbrs bs := by
  induction bs generalizing T with
  | nil => trivial
  | cons b bs ih =>
      rw [List.forall_mem_cons] at hothers hholds
      have hvisible : (b.fill T).Visible := htrim _ (mem_parts_under _ bs)
      exact ⟨⟨⟨hvisible, hT, hothers.1⟩, hholds.1⟩, ih htrim (meets_fill b hT) hothers.2 hholds.2⟩

end Plan

/-- What stands on both sides of a section that faces outwards. -/
theorem Faces.sides {ν : Type} {nbrs held : List Vertex} {isTop back : Bool} {xs ys : List (Int × Part ν)}
    (h : Faces nbrs isTop (xs.getLast?.map fun d => d.2.held) (ys.head?.map fun d => d.2.held) held
      back) :
    (xs = [] ∧ back = true) ∨ (xs ≠ [] ∧ ys = [] ∧ back = false) ∨
      ∃ zs l r rs, xs = zs ++ [l] ∧ ys = r :: rs ∧ isTop = true ∧
        if partsBeyond nbrs held r.2.held then back = false
        else partsBeyond nbrs held l.2.held = true ∧ back = true := by
  rcases List.eq_nil_or_concat xs with rfl | ⟨zs, l, rfl⟩
  · exact Or.inl ⟨rfl, h⟩
  · rw [List.concat_eq_append] at h ⊢
    rw [List.getLast?_concat] at h
    -- at an end of the row the section faces outwards anyway
    cases ys with
    | nil => exact Or.inr (Or.inl ⟨by simp, rfl, h⟩)
    | cons r rs => exact Or.inr (Or.inr ⟨zs, l, r, rs, rfl, rfl, h.1, h.2⟩)

/-- A section with no side that faces outwards stands between two others. -/
theorem exists_sides {ν : Type} {nbrs held : List Vertex} {isTop : Bool} {xs ys : List (Int × Part ν)}
    (h : ∀ back, ¬ Faces nbrs isTop (xs.getLast?.map fun d => d.2.held) (ys.head?.map fun d => d.2.held)
      held back) :
    ∃ zs l r rs, xs = zs ++ [l] ∧ ys = r :: rs ∧ (isTop = true →
      partsBeyond nbrs held r.2.held = false ∧ partsBeyond nbrs held l.2.held = false) := by
  rcases List.eq_nil_or_concat xs with rfl | ⟨zs, l, rfl⟩
  · -- at an end of the row one side would face outwards
    exact absurd rfl (h true)
  · rw [List.concat_eq_append] at h ⊢
    cases ys with
    | nil => exact absurd (by simp [Faces]) (h false)
    | cons r rs =>
        refine ⟨zs, l, r, rs, rfl, rfl, fun htop => ?_⟩
        simp only [List.getLast?_concat, List.head?_cons, Option.map_some, Faces, htop, true_and] at h
        constructor
        · by_contra hr
          exact h false (by simp [hr])
        · by_contra hl
          cases hr : partsBeyond nbrs held r.2.held with
          | true => exact h false (by simp [hr])
          | false => exact h true (by simp [hr, hl])

namespace Bough

variable {T : Plan} {nbrs held : List Vertex} {u : Vertex} {x q key s : _} {flipped back : Bool}
variable {before after : List Plan} {xs ys : List (Int × Part Plan)}

/-- A P-node above the path is folded into the opened row. -/
theorem Leads.opening?_branch (h : (branch x held before after).Leads nbrs T) :
    ((branch x held before after).fill T).node.opening? nbrs = (T.node.opening? nbrs).map
      (Opening.foldChildren nbrs held ((before ++ after).map Plan.node)) := by
  rw [node_branch h.visible, Node.opening?_pnode, h.find_branch, List.map_append]

/-- A P-node that is not reached as a whole closes the opened row. -/
theorem Leads.grow?_branch (h : (branch x held before after).Leads nbrs T)
    (hfull : isFull nbrs held = false) :
    ((branch x held before after).fill T).node.grow? u nbrs = (T.node.opening? nbrs).map fun o =>
      .ofRow ((o.foldChildren nbrs held ((before ++ after).map Plan.node)).close u) := by
  rw [node_branch h.visible, Node.grow?_pnode, h.find_branch, List.map_append]
  simp only [hfull, Bool.false_eq_true, if_false]

/-- A row takes in the opened one at the end that faces outwards. -/
theorem Leads.opening?_inRow (h : (inRow q flipped xs key s held ys).Leads nbrs T)
    (hfaces : Faces nbrs false (xs.getLast?.map fun d => d.2.held) (ys.head?.map fun d => d.2.held) held
      back) :
    ((inRow q flipped xs key s held ys).fill T).node.opening? nbrs = (T.node.opening? nbrs).map
      (Opening.foldLast nbrs ((shownRow flipped xs key ⟨held, T.node⟩ ys).turn back)
        ⟨held, T.node⟩) := by
  rw [node_inRow, Node.opening?_qnode, h.find_inRow]
  simp only [h.holds_inRow, Bool.not_true, Bool.false_eq_true, if_false]
  rcases hfaces.sides with ⟨rfl, rfl⟩ | ⟨hxs, rfl, rfl⟩ | ⟨_, _, _, _, _, _, htop, _⟩
  · rfl
  · simp [hxs, Row.turn]
  · cases htop

/-- A row does not take in the opened one at a section with no side that faces outwards. -/
theorem Points.opening?_refused (h : (inRow q flipped xs key s held ys).Points nbrs T)
    (hfaces : ∀ back, ¬ Faces nbrs false (xs.getLast?.map fun d => d.2.held)
      (ys.head?.map fun d => d.2.held) held back) :
    ((inRow q flipped xs key s held ys).fill T).node.opening? nbrs = none := by
  obtain ⟨zs, l, r, rs, rfl, rfl, -⟩ := exists_sides hfaces
  rw [node_inRow, Node.opening?_qnode, h.find_inRow]
  simp

/-- A row does not close the opened one at such a section, either. -/
theorem Points.grow?_refused (h : (inRow q flipped xs key s held ys).Points nbrs T)
    (hfull : isFull nbrs held = false)
    (hfaces : ∀ back, ¬ Faces nbrs true (xs.getLast?.map fun d => d.2.held)
      (ys.head?.map fun d => d.2.held) held back) :
    ((inRow q flipped xs key s held ys).fill T).node.grow? u nbrs = none := by
  obtain ⟨zs, l, r, rs, rfl, rfl, hparts⟩ := exists_sides hfaces
  obtain ⟨hright, hleft⟩ := hparts rfl
  rw [node_inRow, Node.grow?_qnode, h.find_inRow]
  -- between two sections a row closes only at a side that parts the neighbours from what is beyond
  have hclose : ∀ o, Node.closeRow? u nbrs (shownRow flipped (zs ++ [l]) key ⟨held, T.node⟩ (r :: rs))
      ((zs ++ [l]).map fun e => e.2.shown) ⟨held, T.node⟩ ((r :: rs).map fun e => e.2.shown) o = none := by
    intro o
    simp [Node.closeRow?, Part.shown, hright, hleft]
  simp only [hfull, hclose, Bool.false_eq_true, if_false, Option.map_none,
    Option.bind_fun_none, ite_self]

/-- A row closes the opened one at the section that is not reached as a whole. -/
theorem Leads.grow?_inRow (h : (inRow q flipped xs key s held ys).Leads nbrs T)
    (hfull : isFull nbrs held = false)
    (hfaces : Faces nbrs true (xs.getLast?.map fun d => d.2.held) (ys.head?.map fun d => d.2.held) held
      back) :
    ((inRow q flipped xs key s held ys).fill T).node.grow? u nbrs = (T.node.opening? nbrs).map fun o =>
      .ofRow (o.closeInto u nbrs ((shownRow flipped xs key ⟨held, T.node⟩ ys).turn back)
        (if back then ys else xs).length ⟨held, T.node⟩) := by
  rw [node_inRow, Node.grow?_qnode, h.find_inRow]
  simp only [h.holds_inRow, Bool.not_true, hfull, Bool.false_eq_true, if_false]
  -- the right side is tried before the left one, as the search for a side that faces outwards does
  have hclose : ∀ o, Node.closeRow? u nbrs (shownRow flipped xs key ⟨held, T.node⟩ ys)
      (xs.map fun e => e.2.shown) ⟨held, T.node⟩ (ys.map fun e => e.2.shown) o =
        some (o.closeInto u nbrs ((shownRow flipped xs key ⟨held, T.node⟩ ys).turn back)
          (if back then ys else xs).length ⟨held, T.node⟩) := by
    intro o
    rcases hfaces.sides with ⟨rfl, rfl⟩ | ⟨hxs, rfl, rfl⟩ | ⟨zs, l, r, rs, rfl, rfl, -, hpart⟩
    · simp [Node.closeRow?, Row.turn]
    · obtain ⟨zs, l, rfl⟩ := (List.eq_nil_or_concat xs).resolve_left hxs
      simp [Node.closeRow?, Row.turn]
    · cases hright : partsBeyond nbrs held r.2.held with
      | true =>
          rw [hright, if_pos rfl] at hpart
          subst hpart
          simp [Node.closeRow?, Row.turn, Part.shown, hright]
      | false =>
          rw [hright, if_neg (by simp)] at hpart
          obtain ⟨hleft, rfl⟩ := hpart
          simp [Node.closeRow?, Row.turn, Part.shown, hright, hleft]
  cases T.node.opening? nbrs with
  | none => rfl
  | some o => rw [Option.bind_some, hclose, Option.map_some, Option.map_some]

end Bough

namespace Bough

variable {T : Plan} {b : Bough}

theorem trim_others (h : (b.fill T).Trim) : ∀ l ∈ b.others, l.2.Trim :=
  fun _ hl => (Plan.trim_iff.1 h).2 _ (others_mem_limbs hl)

/-- A place of a node in normal form holds no vertex twice. -/
theorem nodup_held (htrim : (b.fill T).Trim) (h : (b.fill T).node.Proper) : b.held.Nodup := by
  cases b with
  | branch id held before after =>
      rw [node_branch (Plan.trim_iff.1 htrim).1] at h
      cases h with
      | pnode nodup => exact nodup
  | inRow q flipped xs key id held ys =>
      rw [node_inRow] at h
      cases h with
      | qnode standing =>
          refine standing.apart.nodup ⟨held, T.node⟩ ?_
          rw [toList_shownRow]
          simp

end Bough

namespace Opening

variable {o : Opening} {outer : Row (Section Node)} {es : List (Int × Section Node)}
variable {e : Int × Section Node} {u : Vertex}

/-- A row that takes the place of the last section of an outer one may be closed before or after. -/
theorem closeInto_last (ho : o.row.keyed ≠ []) (houter : outer.keyed = es ++ [e]) (nbrs : List Vertex)
    (s : Section Node) :
    o.closeInto u nbrs outer es.length s = (o.foldLast nbrs outer s).close u := by
  have hcarried : (o.carry nbrs s.held).row.keyed ≠ [] := by
    simpa [carry] using ho
  have hsize : outer.size - 1 = es.length := by
    rw [← Row.length_toList, Row.toList, List.length_map, houter, List.length_append,
      List.length_singleton, Nat.add_sub_cancel]
  rw [closeInto, foldLast, close, Row.splice_push houter hcarried, close, hsize]

end Opening

namespace Work

variable {w w' : Work} {S : Set Vertex} {T : Plan} {bs low upper : List Bough} {b : Bough} {p : Pass}
variable {q k : NodeId} {top? : Option NodeId} {P : Row (Part Plan)} {u : Vertex} {o : Opening} {isTop : Bool}

/-- The node of a bough takes in the opened row as a P-node or as a Q-node. -/
theorem Opens.absorb_cases (h : w.Opens S (b :: bs) q k P u o)
    (h' : w.absorb p b.frame.step q k isTop = .ok (w', top?)) :
    (∃ x held before after, b = .branch x held before after ∧
        w.absorbChildren p x q k = .ok w' ∧ top? = some q) ∨
      ∃ x flipped xs key s held ys done, b = .inRow x flipped xs key s held ys ∧
        w.absorbRow p x s q k isTop = .ok (w', done) ∧ top? = if done then some x else none := by
  have hcells := Plan.cells_under (.qnode q P) (b :: bs)
  cases b with
  | branch x held before after =>
      have hmem : (x, pCell (ctx bs).parent held (before.map Plan.id ++ q :: after.map Plan.id)) ∈
          ((Plan.qnode q P).under (.branch x held before after :: bs)).cells none := by
        rw [hcells]
        simp [Bough.frame, Ctx.cells, Frame.cells, one]
      have hcell := h.draws.owns.cell_of_mem hmem
      simp only [Work.absorb, Bough.frame, Frame.step, hcell, ok_bind, pCell] at h'
      obtain ⟨w₁, h₁, h'⟩ := Arena.exists_of_bind h'
      cases h'
      exact Or.inl ⟨x, held, before, after, rfl, h₁, rfl⟩
  | inRow x flipped xs key s held ys =>
      have hcell := h.draws.owns.cell_of_mem (hcells ▸ Multiset.mem_add.2 (Or.inr (Multiset.mem_add.2
        (Or.inl (Multiset.mem_add.2 (Or.inl Row.row_mem_cellsAt))))))
      obtain ⟨w₁, done, h₁, hout⟩ : ∃ w₁ done, w.absorbRow p x s q k isTop = .ok (w₁, done) ∧
          (w', top?) = (w₁, if done then some x else none) := by
        cases flipped <;>
        · simp only [Work.absorb, Bough.frame, Frame.step, hcell, ok_bind, rowCell, Row.flipped_ofKeyed,
            if_true, Bool.false_eq_true, if_false] at h'
          obtain ⟨⟨w₁, done⟩, h₁, hout⟩ := Arena.exists_of_bind h'
          exact ⟨w₁, done, h₁, (Except.ok.inj hout).symm⟩
      cases hout
      exact Or.inr ⟨_, flipped, xs, key, s, held, ys, done, rfl, h₁, rfl⟩

/-- Below the highest bough the row stays open, or there is no room. -/
theorem Opens.absorb (h : w.Opens S (b :: bs) q k P u o) (hlead : b.Leads p.nbrs T)
    (htrim : ∀ l ∈ b.others, l.2.Trim) (hnodup : b.held.Nodup) (ho : T.node.opening? p.nbrs = some o)
    (h' : w.absorb p b.frame.step q k false = .ok (w', top?)) :
    w'.Unfolds S bs u ((b.fill T).node.opening? p.nbrs) (top?.map fun top => (top, k)) := by
  rcases h.absorb_cases h' with ⟨x, held, before, after, rfl, h₁, rfl⟩ |
    ⟨x, flipped, xs, key, s, held, ys, done, rfl, h₁, rfl⟩
  · obtain ⟨w₁, P', h₂, hopens⟩ := h.absorbChildren
      (fun c hc => htrim (x, c) (List.mem_map_of_mem hc)) p
    cases h₁.symm.trans h₂
    rw [hlead.opening?_branch, ho]
    exact .opened hopens
  · cases done with
    | false =>
        rw [hlead.opening?_refused (h.not_faces h₁)]
        exact .refused
    | true =>
        obtain ⟨back, F, hfaces, hdraws, htouched, hslack, hshown, hlast⟩ :=
          h.absorbRow htrim hnodup h₁ T.node
        rw [hlead.opening?_inRow hfaces, ho]
        refine .opened (P := F) ⟨hdraws, htouched, hslack, ?_, hlast rfl⟩
        rw [hshown]
        have hkeyed := Row.keyed_turn (Row.keyed_ofKeyed flipped (xs.map (Row.entry Part.shown) ++
          (key, ⟨held, T.node⟩) :: ys.map (Row.entry Part.shown))) back
        -- below the highest bough only the ends of a row face outwards
        rcases hfaces.sides with ⟨rfl, rfl⟩ | ⟨hxs, rfl, rfl⟩ | ⟨_, _, _, _, _, _, htop, _⟩
        · have hclose := Opening.closeInto_last (u := u) h.row_ne_nil hkeyed p.nbrs ⟨held, T.node⟩
          simpa [Bough.shownRow] using hclose
        · have hclose := Opening.closeInto_last (u := u) h.row_ne_nil hkeyed p.nbrs ⟨held, T.node⟩
          simpa [Bough.shownRow] using hclose
        · cases htop

/-- The highest bough closes the row, or there is no room. -/
theorem Opens.absorbTop (h : w.Opens S (b :: bs) q k P u o) (hlead : b.Leads p.nbrs T)
    (htrim : ∀ l ∈ b.others, l.2.Trim) (hnodup : b.held.Nodup) (ho : T.node.opening? p.nbrs = some o)
    (hfull : isFull p.nbrs b.held = false)
    (h' : w.absorb p b.frame.step q k true = .ok (w', top?)) :
    w'.Answers S bs ((b.fill T).node.grow? u p.nbrs) (top?.map some) := by
  rcases h.absorb_cases h' with ⟨x, held, before, after, rfl, h₁, rfl⟩ |
    ⟨x, flipped, xs, key, s, held, ys, done, rfl, h₁, rfl⟩
  · obtain ⟨w₁, P', h₂, hopens⟩ := h.absorbChildren
      (fun c hc => htrim (x, c) (List.mem_map_of_mem hc)) p
    cases h₁.symm.trans h₂
    rw [hlead.grow?_branch hfull, ho]
    exact .grew hopens.grew
  · -- a row that takes nothing in has no side that faces outwards, and the clique tree refuses, too
    cases done with
    | false =>
        rw [hlead.grow?_refused hfull (h.not_faces h₁)]
        exact .refused
    | true =>
        obtain ⟨back, F, hfaces, hdraws, htouched, hslack, hshown, -⟩ :=
          h.absorbRow htrim hnodup h₁ T.node
        rw [hlead.grow?_inRow hfull hfaces, ho, Option.map_some, ← hshown]
        exact .grew <| .row ⟨hdraws, fun t ht => by
          rw [Plan.cells_qnode, Multiset.map_add, Multiset.mem_add]
          exact Or.inr (htouched t ht), slack_qnode hslack⟩ htouched

/-- A bough takes in what was opened along the path below it, if anything was. -/
theorem placeAlong_concat {y : NodeId} {r : Option (NodeId × NodeId)}
    (h : placeAlong p isTop w (Ctx.steps (ctx (low ++ [b])) y) = .ok (w', r)) :
    (placeAlong p false w (Ctx.steps (ctx low) y) = .ok (w', none) ∧ r = none) ∨
      ∃ w₁ q k top?, placeAlong p false w (Ctx.steps (ctx low) y) = .ok (w₁, some (q, k)) ∧
        w₁.absorb p b.frame.step q k isTop = .ok (w', top?) ∧ r = top?.map fun top => (top, k) := by
  obtain ⟨step, rest, hsteps⟩ : ∃ step rest, Ctx.steps (ctx low) y = step :: rest :=
    List.exists_cons_of_ne_nil (by simp [Ctx.steps])
  rw [ctx, List.map_append, List.map_singleton, Ctx.steps_concat, hsteps, Work.placeAlong, ← hsteps] at h
  · obtain ⟨⟨w₁, found?⟩, h₁, h⟩ := Arena.exists_of_bind h
    cases found? with
    | none =>
        cases h
        exact Or.inl ⟨h₁, rfl⟩
    | some found =>
        obtain ⟨⟨w₂, top?⟩, h₂, h⟩ := Arena.exists_of_bind h
        cases h
        exact Or.inr ⟨w₁, found.1, found.2, top?, h₁, h₂, rfl⟩
  · simp

theorem place_concat {y : NodeId} {r : Option (Option NodeId)}
    (h : w.place p (Ctx.steps (ctx (low ++ [b])) y) = .ok (w', r)) :
    ∃ found?, placeAlong p true w (Ctx.steps (ctx (low ++ [b])) y) = .ok (w', found?) ∧
      r = found?.map fun found => some found.1 := by
  obtain ⟨step, rest, hsteps⟩ : ∃ step rest, Ctx.steps (ctx low) y = step :: rest :=
    List.exists_cons_of_ne_nil (by simp [Ctx.steps])
  rw [ctx, List.map_append, List.map_singleton, Ctx.steps_concat, hsteps] at h ⊢
  obtain ⟨⟨w₁, found?⟩, h₁, h⟩ := Arena.exists_of_bind h
  cases h
  exact ⟨found?, h₁, rfl⟩

/-- The nodes along the lower part of a path become an opened row, or there is no room. -/
theorem Draws.placeAlong {r : Option (NodeId × NodeId)} (h : w.Draws S (T.under (low ++ upper)))
    (ht : w.touched = []) (htrim : (T.under low).Trim) (hproper : (T.under low).node.Proper)
    (hr : p.Reads (T.under (low ++ upper))) (hpass : Passes p T (low ++ upper))
    (hled : T.Led p.nbrs low) (hnodup : p.nbrs.Nodup) (hu : p.vertex ∉ S)
    (h' : placeAlong p false w (Ctx.steps (ctx low) T.id) = .ok (w', r)) :
    w'.Unfolds (insert p.vertex S) upper p.vertex ((T.under low).node.opening? p.nbrs) r := by
  -- The highest bough comes first on the path.
  induction low using List.reverseRecOn generalizing upper w' r with
  | nil => exact h.openBottom ht htrim hproper hr hpass hnodup hu h'
  | append_singleton low b ih =>
      rw [List.append_assoc, List.singleton_append] at h hr hpass
      rw [Plan.under_append] at htrim hproper ⊢
      rw [Plan.led_append] at hled
      have hbelow : ∀ w₁ r₁, placeAlong p false w (Ctx.steps (ctx low) T.id) = .ok (w₁, r₁) →
          w₁.Unfolds (insert p.vertex S) (b :: upper) p.vertex ((T.under low).node.opening? p.nbrs) r₁ :=
        fun _ _ => ih h htrim.focus (Plan.proper_focus hproper) hr hpass hled.1
      generalize hopening : (T.under low).node.opening? p.nbrs = o? at hbelow
      rcases placeAlong_concat h' with ⟨h₁, rfl⟩ | ⟨w₁, q, k, top?, h₁, h₂, rfl⟩
      · cases hbelow _ _ h₁
        rw [Plan.under, Plan.under, hled.2.1.opening?_eq_none hopening]
        exact .refused
      · cases hbelow _ _ h₁ with
        | opened hopens =>
            exact hopens.absorb hled.2.1 (Bough.trim_others htrim) (Bough.nodup_held htrim hproper)
              hopening h₂

/-- A vertex that is put in along the lower part of a path, or has no room there. -/
theorem Draws.place {r : Option (Option NodeId)} (h : w.Draws S (T.under (low ++ upper)))
    (ht : w.touched = []) (htrim : (T.under low).Trim) (hproper : (T.under low).node.Proper)
    (hr : p.Reads (T.under (low ++ upper))) (hpass : Passes p T (low ++ upper))
    (hled : T.Led p.nbrs low) (hlow : ∀ ini b, low = ini ++ [b] → isFull p.nbrs b.held = false)
    (hnodup : p.nbrs.Nodup) (hu : p.vertex ∉ S)
    (h' : w.place p (Ctx.steps (ctx low) T.id) = .ok (w', r)) :
    w'.Answers (insert p.vertex S) upper ((T.under low).node.grow? p.vertex p.nbrs) r := by
  rcases List.eq_nil_or_concat low with rfl | ⟨ini, b, rfl⟩
  · exact h.placeAt ht htrim hproper hr hpass hnodup hu h'
  · rw [List.concat_eq_append] at *
    have hfull := hlow ini b rfl
    rw [List.append_assoc, List.singleton_append] at h hr hpass
    rw [Plan.under_append] at htrim hproper ⊢
    rw [Plan.led_append] at hled
    obtain ⟨found?, hplace, rfl⟩ := place_concat h'
    have hbelow : ∀ w₁ r₁, Work.placeAlong p false w (Ctx.steps (ctx ini) T.id) = .ok (w₁, r₁) →
        w₁.Unfolds (insert p.vertex S) (b :: upper) p.vertex ((T.under ini).node.opening? p.nbrs) r₁ :=
      fun _ _ => h.placeAlong ht htrim.focus (Plan.proper_focus hproper) hr hpass hled.1 hnodup hu
    generalize hopening : (T.under ini).node.opening? p.nbrs = o? at hbelow
    rcases placeAlong_concat hplace with ⟨h₁, rfl⟩ | ⟨w₁, q, k, top?, h₁, h₂, rfl⟩
    · cases hbelow _ _ h₁
      rw [Plan.under, Plan.under, hled.2.1.grow?_eq_none hopening (by simp [hfull])]
      exact .refused
    · cases hbelow _ _ h₁ with
      | opened hopens =>
          have hanswers := hopens.absorbTop hled.2.1 (Bough.trim_others htrim)
            (Bough.nodup_held htrim hproper) hopening hfull h₂
          rw [Option.map_map]
          exact hanswers

end Work

end CliquePath
