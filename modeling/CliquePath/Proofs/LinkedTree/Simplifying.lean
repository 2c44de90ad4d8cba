import CliquePath.Proofs.LinkedTree.Climbing
import CliquePath.Proofs.LinkedTree.Dissolving

set_option autoImplicit false

/-!
# Simplifying P-nodes

This module shows that simplifying P-nodes that hold nothing leaves a tree and keeps the slots in
agreement with it. Every step takes one cell out of use; what is noted for simplification is in the
tree or out of use. The number of cells in use and of notes bounds the number of steps.
-/

namespace CliquePath

open Cells (one)

/-- What cells hold does not depend on the parents of those that are not sections. -/
theorem Cells.holds_reparent {es : List (NodeId × Cell)} (h : ∀ e ∈ es, e.2.kind.isSlice = false)
    (parent : Option NodeId) (v : Vertex) (r : NodeId × Option NodeId) :
    Cells.Holds (es.map fun e => (e.1, { e.2 with parent }) : List _) v r ↔ Cells.Holds es v r := by
  induction es with
  | nil => rfl
  | cons e rest ih =>
      have he := h e List.mem_cons_self
      rw [List.map_cons, ← Multiset.cons_coe, ← Multiset.cons_coe, ← Multiset.singleton_add,
        ← Multiset.singleton_add, Cells.holds_add, Cells.holds_add,
        ih fun e he => h e (List.mem_cons_of_mem _ he)]
      refine or_congr ?_ Iff.rfl
      rw [← one.eq_def e.1, ← one.eq_def e.1 e.2, Cells.holds_one, Cells.holds_one]
      simp [Cell.row?, he]

namespace Arena

/-- A tree and cells out of use, among which are all places that are noted. The slots agree with the
tree. -/
structure Tidy (a : Arena) (slots : Slots) (S : Set Vertex) (M D : Cells) (work : List NodeId) :
    Prop where
  owns : ∃ root, a.Owns (some root) (M + D) ∧ Trees {(none, root)} M
  agree : slots.Agree S M
  dead : ∀ e ∈ D, e.2.alive = false
  noted : ∀ t ∈ work, t ∈ (M + D).map Prod.fst

variable {a : Arena} {slots : Slots} {S : Set Vertex} {M D : Cells} {p : NodeId}
variable {work : List NodeId}

theorem Tidy.of_subset {work' : List NodeId} (h : a.Tidy slots S M D work)
    (hsub : ∀ t ∈ work', t ∈ work) : a.Tidy slots S M D work' :=
  ⟨h.owns, h.agree, h.dead, fun t ht => h.noted t (hsub t ht)⟩

/-- A P-node that holds nothing and is in use comes into focus. -/
theorem Tidy.locate (h : a.Tidy slots S M D work) {parent : Option NodeId} {children : List NodeId}
    (hp : (p, pCell parent [] children) ∈ M + D) :
    ∃ c n, Ctx.Ok c ∧ children ≠ [] ∧ Trees (childLinks p children) n ∧ parent = Ctx.parent c ∧
      M = one p (pCell parent [] children) + (n + Ctx.cells c p) ∧
        a.Owns (some (Ctx.top c p)) (M + D) := by
  obtain ⟨root, o, hf⟩ := h.owns
  -- a retired cell is dead
  have hpM : (p, pCell parent [] children) ∈ M := by
    rcases Multiset.mem_add.1 hp with hp | hp
    · exact hp
    · exact absurd (h.dead _ hp) (by simp [pCell])
  obtain ⟨c, m, hc, hm, hcells, htop⟩ := Ctx.locate (c := []) (fun f hf => by cases hf) hf hpM rfl
  have hM : M = m + Ctx.cells c p := by simpa [Ctx.cells] using hcells.symm
  have hshape := hm.shape
  have hmem : ∀ d, (p, d) ∈ m → d = pCell parent [] children := fun d hd =>
    o.eq_of_mem (Multiset.mem_add.2 (Or.inl (by rw [hM]; exact Multiset.mem_add.2 (Or.inl hd)))) hp
  -- the tree below the focus starts with the cell of the P-node
  cases hshape with
  | leaf held =>
      have heq := hmem _ (Cells.mem_one.2 rfl)
      simp [leafCell, pCell] at heq
  | @pnode held children' n hne rest =>
      have heq := hmem (pCell (Ctx.parent c) held children') (by simp)
      simp only [pCell, Cell.mk.injEq, Kind.pnode.injEq, and_true] at heq
      obtain ⟨rfl, rfl, rfl⟩ := heq
      exact ⟨c, n, hc, hne, rest, rfl, by rw [hM, add_assoc], by rwa [htop]⟩
  | @qnode R n hne hasc rest =>
      have heq := hmem _ (Multiset.mem_add.2 (Or.inl Row.row_mem_cellsAt))
      cases hf : R.flipped <;> simp [rowCell, pCell, hf] at heq

/-- One cell was taken out of use. The places are those from before, and what is left in the tree
holds the same. -/
theorem Tidy.retire {a' : Arena} {N : Cells} {d : Cell} {root : NodeId} (h : a.Tidy slots S M D (p :: work))
    (o : a'.Owns (some root) (N + (one p d + D))) (hN : Trees {(none, root)} N) (hd : d.alive = false)
    (hholds : ∀ v r, N.Holds v r ↔ M.Holds v r)
    (hplaces : (N + (one p d + D)).map Prod.fst = (M + D).map Prod.fst) :
    a'.Tidy slots S N (one p d + D) work ∧ N.card + 1 = M.card := by
  refine ⟨⟨⟨root, o, hN⟩, h.agree.congr_holds hholds, fun e he => ?_, fun t ht => ?_⟩, ?_⟩
  · rcases Multiset.mem_add.1 he with he | he
    · rw [Cells.mem_one.1 he]
      exact hd
    · exact h.dead e he
  · rw [hplaces]
    exact h.noted t (List.mem_cons_of_mem _ ht)
  · have hcard := congrArg Multiset.card hplaces
    simp only [Multiset.card_map, Multiset.card_add, one, Multiset.card_singleton] at hcard
    omega

/-- A P-node that holds nothing is replaced by its only child. -/
theorem Tidy.skip (h : a.Tidy slots S M D (p :: work)) {parent : Option NodeId} {only : NodeId}
    (hp : (p, pCell parent [] [only]) ∈ M + D) :
    ∃ a₁ a₂ M' D', a.replace p only = .ok a₁ ∧ a₁.discard p = .ok a₂ ∧
      a₂.Tidy slots S M' D' (only :: work) ∧ M'.card + 1 = M.card ∧
        ∃ d, (only, d) ∈ M' := by
  obtain ⟨c, n, hc, -, hn, rfl, hM, o⟩ := h.locate hp
  rw [childLinks_cons, show childLinks p [] = 0 from rfl, add_zero] at hn
  obtain ⟨d, n', rfl, hd, hdp, hall⟩ := hn.shape.reparent
  have hold : M + D = one p (pCell (Ctx.parent c) [] [only]) +
      (one only d + (n' + D + Ctx.cells c p)) := by
    rw [hM]
    abel
  -- the child takes the place of the P-node, which is retired
  obtain ⟨a₁, h₁, o₁⟩ := o.replace hc hold rfl hd
  obtain ⟨a₂, h₂, o₂⟩ := o₁.discard_dead rfl
  have hM₂ : one p ⟨.pnode [only], none, [], false⟩ +
      (one only { d with parent := Ctx.parent c } + (n' + D + Ctx.cells c only)) =
        one only { d with parent := Ctx.parent c } + n' + Ctx.cells c only +
          (one p ⟨.pnode [only], none, [], false⟩ + D) := by
    abel
  obtain ⟨htidy, hcard⟩ := h.retire (o₂.congr hM₂) (hc.close (hall (Ctx.parent c))) rfl (fun v r => by
    rw [hM]
    simp only [Cells.holds_add, Cells.holds_one, held_pCell, List.not_mem_nil, false_and, false_or,
      Ctx.holds_cells c only p, Cell.row?, hd, Bool.false_eq_true, if_false]) (by
    rw [hM]
    simp only [Multiset.map_add, Cells.map_fst_one, Ctx.ids_cells c only p]
    abel)
  exact ⟨a₁, a₂, _, _, h₁, h₂, ⟨htidy.owns, htidy.agree, htidy.dead,
    List.forall_mem_cons.2 ⟨by simp, htidy.noted⟩⟩, hcard, { d with parent := Ctx.parent c }, by simp⟩

/-- The children of a P-node move into the P-node above it, in its place. -/
theorem Owns.spliceIntoParent {r parent : Option NodeId} {n rest : Cells} {id : NodeId}
    {held above : List Vertex} {children before after : List NodeId} (o : a.Owns r M)
    (hcells : M = one p (pCell (some id) held children) +
      (n + (one id (pCell parent above (before ++ p :: after)) + rest)))
    (hn : Trees (childLinks p children) n) (hbefore : p ∉ before) :
    ∃ a' n', a.spliceIntoParent p = .ok a' ∧
      a'.Owns r (one p ⟨.pnode children, none, [], false⟩ +
        (one id (pCell parent above (before ++ children ++ after)) + (n' + rest))) ∧
      Trees (childLinks id children) n' ∧ n'.map Prod.fst = n.map Prod.fst ∧
      ∀ v r, n'.Holds v r ↔ n.Holds v r := by
  obtain ⟨es, m, rfl, hids, -, hslices, hall⟩ := hn.roots
  have hcell := o.cell hcells
  have hM : M = (es : Cells) + (one p (pCell (some id) held children) +
      (one id (pCell parent above (before ++ p :: after)) + (m + rest))) := by
    rw [hcells]
    abel
  obtain ⟨a₁, h₁, o₁⟩ := o.setParents es hM id
  rw [hids] at h₁
  have hall' := hall id
  have hholds := Cells.holds_reparent hslices (some id)
  have hmap : Multiset.map Prod.fst ((es.map fun e => (e.1, { e.2 with parent := some id }) :
      List (NodeId × Cell)) : Cells) = Multiset.map Prod.fst (es : Cells) := by
    simp [Function.comp_def]
  generalize ((es.map fun e => (e.1, { e.2 with parent := some id }) : List (NodeId × Cell)) :
    Cells) = E at o₁ hall' hholds hmap
  have hM₁ : E + (one p (pCell (some id) held children) +
      (one id (pCell parent above (before ++ p :: after)) + (m + rest))) =
        one id (pCell parent above (before ++ p :: after)) +
          (one p (pCell (some id) held children) + (E + m + rest)) := by
    abel
  have hparentCell := o₁.cell hM₁
  obtain ⟨a₂, h₂, o₂⟩ := o₁.setKind hM₁ (.pnode (before ++ children ++ after))
  obtain ⟨a₃, h₃, o₃⟩ := o₂.discard_dead (add_left_comm _ _ _)
  -- the children stand where the P-node stood
  have hsiblings : (before ++ p :: after).takeWhile (· != p) ++ children ++
      ((before ++ p :: after).dropWhile (· != p)).tail = before ++ children ++ after := by
    have hne : ∀ x ∈ before, (x != p) = true :=
      fun x hx => bne_iff_ne.2 (ne_of_mem_of_not_mem hx hbefore)
    rw [List.takeWhile_append_of_pos hne, List.dropWhile_append_of_pos hne]
    simp
  refine ⟨a₃, E + m, ?_, o₃, hall', ?_, fun v r => ?_⟩
  · have hcontains : (before ++ p :: after).contains p = true := by simp
    simp only [pCell] at hcell hparentCell h₂
    simp only [Arena.spliceIntoParent, Arena.children, hcell, ok_bind, h₁, hparentCell, pure_eq_ok,
      hcontains, if_true, hsiblings, h₂, h₃]
  · rw [Multiset.map_add, hmap, ← Multiset.map_add]
  · rw [Cells.holds_add, hholds, ← Cells.holds_add]

/-- The cell above a node in focus can be read. -/
theorem Owns.cell_holder {r : Option NodeId} {f : Frame} {c : Ctx} {m : Cells} {d : Cell} {x : NodeId}
    (o : a.Owns r M) (hM : M = m + Ctx.cells (f :: c) x)
    (hd : (f.holder, d) ∈ f.cells (Ctx.parent c) x) : a.cell f.holder = .ok d := by
  refine o.cell_of_mem ?_
  rw [hM, Ctx.cells]
  exact Multiset.mem_add.2 (Or.inr (Multiset.mem_add.2 (Or.inl hd)))

/-- A P-node that holds nothing is merged into the P-node above it. -/
theorem Tidy.merge (h : a.Tidy slots S M D (p :: work)) {id : NodeId} {children : List NodeId}
    (hp : (p, pCell (some id) [] children) ∈ M + D) (hid : a.isP id = .ok true) :
    ∃ a' M' D', a.spliceIntoParent p = .ok a' ∧ a'.Tidy slots S M' D' work ∧
      M'.card + 1 = M.card := by
  obtain ⟨c, n, hc, hne, hn, hparent, hM, o⟩ := h.locate hp
  rcases c with _ | ⟨⟨id', held, before, after, rest⟩ | ⟨q, flipped, xs, key, s, held, ys, rest⟩, c⟩
  · cases hparent
  · cases hparent
    have hok : Trees (childLinks id' (before ++ after)) rest := hc _ List.mem_cons_self
    have hc' : Ctx.Ok c := fun f hf => hc f (List.mem_cons_of_mem _ hf)
    have hbefore : p ∉ before := fun hmem =>
      o.not_sibling hc (m := one p (pCell (some id') [] children) + (n + D))
        (by rw [hM]; simp only [Frame.holder]; abel) (by simp) (List.mem_append.2 (Or.inl hmem))
    have hcells : M + D = one p (pCell (some id') [] children) + (n +
        (one id' (pCell (Ctx.parent c) held (before ++ p :: after)) +
          (rest + Ctx.cells c id' + D))) := by
      rw [hM, Ctx.cells, Frame.cells, Frame.node, Frame.holder]
      abel
    obtain ⟨a', n', h', o', hn', hplaces, hholds⟩ := o.spliceIntoParent hcells hn hbefore
    have hchildren : Trees (childLinks id' (before ++ children ++ after)) (n' + rest) := by
      have hlinks : childLinks id' (before ++ children ++ after) =
          childLinks id' children + childLinks id' (before ++ after) := by
        rw [childLinks_append, childLinks_append, childLinks_append]
        abel
      rw [hlinks]
      exact hn'.add hok
    have hM' : one p ⟨.pnode children, none, [], false⟩ +
        (one id' (pCell (Ctx.parent c) held (before ++ children ++ after)) +
          (n' + (rest + Ctx.cells c id' + D))) =
        one id' (pCell (Ctx.parent c) held (before ++ children ++ after)) + (n' + rest) +
          Ctx.cells c id' + (one p ⟨.pnode children, none, [], false⟩ + D) := by
      abel
    obtain ⟨htidy, hcard⟩ := h.retire (o'.congr hM')
      (hc'.close (.of_shape (.pnode held (by simp [hne]) hchildren))) rfl (fun v r => by
        rw [hM, Ctx.cells, Frame.cells, Frame.node]
        simp only [Cells.holds_add, Cells.holds_one, held_pCell, row?_pCell, List.not_mem_nil,
          false_and, false_or, hholds]
        tauto) (by
        rw [hM, Ctx.cells, Frame.cells, Frame.node]
        simp only [Multiset.map_add, Cells.map_fst_one, hplaces]
        abel)
    exact ⟨a', _, _, h', htidy, hcard⟩
  · -- The cell above would be a section.
    cases hparent
    obtain ⟨d, hd, -, hslice, -⟩ := @Frame.slice_mem q flipped xs ys key s held rest (Ctx.parent c) p
    have hcell : a.cell (Frame.inRow q flipped xs key s held ys rest).holder = .ok d :=
      o.cell_holder (m := one p (pCell _ [] children) + n + D) (by rw [hM]; abel) hd
    simp only [Arena.isP, hcell, ok_bind, pure_eq_ok, Except.ok.injEq] at hid
    cases hk : d.kind <;> simp [hk, Kind.isP, Kind.isSlice] at hid hslice

/-- The cell above a P-node that holds nothing can be read. -/
theorem Tidy.isP_parent (h : a.Tidy slots S M D work) {id : NodeId} {children : List NodeId}
    (hp : (p, pCell (some id) [] children) ∈ M + D) : ∃ b, a.isP id = .ok b := by
  obtain ⟨c, n, -, -, -, hparent, hM, o⟩ := h.locate hp
  cases c with
  | nil => cases hparent
  | cons f c =>
      cases hparent
      obtain ⟨d, hd⟩ := f.holder_mem (Ctx.parent c) p
      have hcell := o.cell_holder (m := one p (pCell _ [] children) + n + D) (by rw [hM]; abel) hd
      exact ⟨_, by simp only [Arena.isP, hcell, ok_bind, pure_eq_ok]; rfl⟩

/-- Simplifying ends with a tree. -/
theorem Tidy.simplify (h : a.Tidy slots S M D work) {fuel : Nat}
    (hfuel : M.card + work.length ≤ fuel) :
    ∃ a' M' D', a.simplify fuel work = .ok a' ∧ a'.Tidy slots S M' D' [] := by
  induction fuel generalizing a M D work with
  | zero =>
      obtain rfl : work = [] := List.eq_nil_of_length_eq_zero (by omega)
      exact ⟨a, M, D, rfl, h⟩
  | succ fuel ih =>
      cases work with
      | nil => exact ⟨a, M, D, rfl, h⟩
      | cons p work =>
          rw [List.length_cons] at hfuel
          have hrest : a.Tidy slots S M D work := h.of_subset fun t ht => List.mem_cons_of_mem _ ht
          obtain ⟨⟨p', d⟩, hd, rfl⟩ := Multiset.mem_map.1 (h.noted p List.mem_cons_self)
          have ⟨root, o, _⟩ := h.owns
          have hcell := o.cell_of_mem hd
          simp only [Arena.simplify, hcell, ok_bind]
          -- dead nodes, nodes with vertices and other kinds of nodes stay
          by_cases hskip : (!d.alive || !d.held.isEmpty || !d.kind.isP) = true
          · rw [if_pos hskip]
            exact ih hrest (by omega)
          rw [if_neg hskip]
          obtain ⟨parent, children, rfl⟩ : ∃ parent children, d = pCell parent [] children := by
            obtain ⟨kind, parent, held, alive⟩ := d
            cases kind <;> simp [Kind.isP] at hskip
            obtain ⟨rfl, rfl⟩ := hskip
            exact ⟨parent, _, rfl⟩
          simp only [Arena.children, hcell, ok_bind, pCell, pure_eq_ok]
          obtain ⟨c, n, -, hne, -⟩ := h.locate hd
          rcases children with - | ⟨only, - | ⟨second, rest⟩⟩
          · exact absurd rfl hne
          · obtain ⟨a₁, a₂, M', D', h₁, h₂, hnext, hcard, e, he⟩ := h.skip hd
            have ⟨root', o', _⟩ := hnext.owns
            have honly := o'.cell_of_mem (Multiset.mem_add.2 (Or.inl he))
            simp only [h₁, h₂, ok_bind, Arena.isP, honly, pure_eq_ok]
            -- each step either takes a cell out of use or shortens the list
            cases e.kind.isP with
            | true => exact ih hnext (by simp only [List.length_cons]; omega)
            | false =>
                exact ih (hnext.of_subset fun t ht => List.mem_cons_of_mem _ ht) (by omega)
          · cases parent with
            | none =>
                simp only [Bool.false_eq_true, if_false]
                exact ih hrest (by omega)
            | some id =>
                obtain ⟨b, hb⟩ := h.isP_parent hd
                simp only [hb, ok_bind]
                cases b with
                | false => exact ih hrest (by omega)
                | true =>
                    obtain ⟨a', M', D', h', hnext, hcard⟩ := h.merge hd hb
                    simp only [if_true, h', ok_bind]
                    exact ih hnext (by omega)

end Arena

end CliquePath
