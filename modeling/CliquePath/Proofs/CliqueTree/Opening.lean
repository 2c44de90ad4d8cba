import CliquePath.Proofs.CliqueTree.Closing

set_option autoImplicit false

/-!
# Opening a node

This module shows by induction over the node that an opening, if there is one, is ready to be closed
or to be folded into the place above: it stands for the bags of the node and awaits a section with
the neighbours below the node.
-/

namespace CliquePath

open Node

/-- What the opening of a node is good for: the row stands for the bags of the node, the vertices of
a firm node cross all its gaps, and the row of a Q-node has more than one section. -/
structure Opened (nbrs : List Vertex) (N : Node) (o : Opening) : Prop where
  ready : o.Ready nbrs {B | B ∈ N.bags}
  linked : N.Firm → o.pattern.Linked o.row.size
  wide : (∃ row, N = .qnode row) → 2 ≤ o.row.size

section Fold

variable {nbrs held : List Vertex} {before after : List Node} {c : Node} {o : Opening}

theorem pattern_insertAt_zero (o : Opening) (b : Node) :
    Opening.pattern { o with row := o.row.insertAt 0 ⟨[], b⟩ } = o.pattern.widened := by
  rw [Opening.pattern, Opening.pattern, ← Pattern.ofLists_nil_cons]
  simp

theorem size_insertAt_zero (o : Opening) (b : Node) :
    (o.row.insertAt 0 ⟨[], b⟩).size = o.row.size + 1 := by
  rw [← Row.length_toList]
  simp

/-- Folding a P-node into the row below it. -/
theorem Opened.foldChildren (hp : (pnode held (before ++ c :: after)).Proper)
    (hmiss : ∀ d ∈ before ++ after, d.meets nbrs = false) (h : Opened nbrs c o) :
    Opened nbrs (pnode held (before ++ c :: after))
      (o.foldChildren nbrs held (before ++ after)) where
  ready := h.ready.foldChildren hp hmiss h.linked h.wide
  linked := by
    -- The P-node holds a vertex, which links the new section to the others.
    intro hfirm
    have hheld : ∃ v, v ∈ held := List.exists_mem_of_ne_nil held hfirm
    have hc : c.Firm := by
      cases hp with
      | pnode nodup apart sons firm arity proper => exact firm c (by simp)
    have hl := h.linked hc
    unfold Opening.foldChildren
    split
    next =>
      rw [Opening.pattern_carry, Opening.size_carry]
      exact hl.carried
    next =>
      rw [Opening.pattern_carry, Opening.size_carry, pattern_insertAt_zero, size_insertAt_zero]
      exact hl.folded hheld h.ready.opened.pos
  wide := by
    -- A P-node is no Q-node.
    rintro ⟨row, hrow⟩
    cases hrow

/-- A vertex held by a P-node that is not a neighbour is held by all sections of the row that the
P-node becomes, and there is more than one section. -/
theorem Opened.spans_foldChildren {x : Vertex} (hp : (pnode held (before ++ c :: after)).Proper)
    (h : Opened nbrs c o) (hx : x ∈ held) (hxn : x ∉ nbrs) :
    2 ≤ (o.foldChildren nbrs held (before ++ after)).row.size ∧
      (o.foldChildren nbrs held (before ++ after)).pattern.Spans x 0
        ((o.foldChildren nbrs held (before ++ after)).row.size - 1) := by
  have hpos := h.ready.opened.pos
  have hp' := hp
  cases hp' with
  | pnode nodup apart sons firm arity proper =>
      have hcm : c ∈ before ++ c :: after := by simp
      -- The vertex is not below the P-node, so the row has it only where it is carried.
      have hno : ∀ i, ¬ o.pattern i x := fun i hi =>
        apart c hcm x hx (h.ready.mem_of_pattern (proper c hcm) hi)
      unfold Opening.foldChildren
      split
      next hnil =>
        -- The opened child is the only one, so it is a Q-node, whose row is wide by itself.
        have hq : ∃ row, c = .qnode row := by
          obtain ⟨rfl, rfl⟩ := List.append_eq_nil_iff.1 hnil
          exact hp.of_only.2
        rw [Opening.pattern_carry, Opening.size_carry]
        exact ⟨h.wide hq, Pattern.spans_carried_of_not_mem hpos hx hno hxn⟩
      next =>
        rw [Opening.pattern_carry, Opening.size_carry, pattern_insertAt_zero, size_insertAt_zero]
        -- The section set aside is one more.
        refine ⟨by omega, Pattern.spans_carried_of_not_mem (by omega) hx (fun i hi => ?_) hxn⟩
        cases i with
        | zero => exact Pattern.not_widened_zero _ _ hi
        | succ i => exact hno i ((Pattern.widened_succ _ _ _).1 hi)

end Fold

section Ends

variable {nbrs : List Vertex} {row : Row (Section Node)} {o : Opening}

theorem Row.nodup_owned (row : Row (Section Node)) (hnodup : nbrs.Nodup) :
    (row.owned nbrs).Nodup :=
  hnodup.filter _

/-- The row of a Q-node that holds all its neighbours at one end. -/
theorem opened_ofRow? (hst : row.Standing) (hproper : ∀ s ∈ row.toList, s.son.Proper)
    (hnodup : nbrs.Nodup) (hmiss : ∀ s ∈ row.toList, s.son.meets nbrs = false)
    (hne : ∃ v, v ∈ row.owned nbrs) (ho : Opening.ofRow? nbrs row = some o) :
    Opened nbrs (qnode row) o := by
  have h3 := hst.rigid.three
  -- The last section is asked first, so a row with the neighbours at both ends stays as it is.
  have hends : (∃ s, row.toList.getLast? = some s ∧ (∀ v ∈ row.owned nbrs, v ∈ s.held) ∧
        o = ⟨row, row.owned nbrs⟩) ∨
      ∃ s, row.toList.head? = some s ∧ (∀ v ∈ row.owned nbrs, v ∈ s.held) ∧
        o = ⟨row.reverse, row.owned nbrs⟩ := by
    unfold Opening.ofRow? at ho
    dsimp only at ho
    split at ho
    next hl =>
      left
      cases hs : row.toList.getLast? with
      | none => simp [hs] at hl
      | some s =>
          rw [hs] at hl
          exact ⟨s, rfl, holdsAll_iff.1 hl, (Option.some.inj ho).symm⟩
    next =>
      split at ho
      next hf =>
        right
        cases hs : row.toList.head? with
        | none => simp [hs] at hf
        | some s =>
            rw [hs] at hf
            exact ⟨s, rfl, holdsAll_iff.1 hf, (Option.some.inj ho).symm⟩
      next => cases ho
  rcases hends with ⟨s, hs, hall, rfl⟩ | ⟨s, hs, hall, rfl⟩
  · have hend : ∀ v ∈ row.owned nbrs, row.pattern (row.size - 1) v := by
      intro v hv
      rw [List.getLast?_eq_getElem?, Row.length_toList] at hs
      exact Row.pattern_iff.2 ⟨s, hs, hall v hv⟩
    exact ⟨Opening.ready_ofEnd hst hproper hmiss (row.nodup_owned hnodup)
      (fun _ => Row.mem_owned) hend hne, fun _ => Opening.linked_ofEnd hst hend hne,
      fun _ => by show 2 ≤ row.size; omega⟩
  · -- A row that is turned around has the same bags.
    have hend : ∀ v ∈ row.owned nbrs, row.reverse.pattern (row.reverse.size - 1) v := by
      intro v hv
      have hs' : row.reverse.toList[row.reverse.size - 1]? = some s := by
        rw [← Row.length_toList, ← List.getLast?_eq_getElem?, Row.toList_reverse,
          List.getLast?_reverse]
        exact hs
      exact Row.pattern_iff.2 ⟨s, hs', hall v hv⟩
    have hready := Opening.ready_ofEnd hst.reverse (by simpa using hproper) (by simpa using hmiss)
      (row.nodup_owned hnodup) (fun v => by rw [Row.mem_owned]; simp) hend hne
    simp only [Row.mem_bags_reverse] at hready
    exact ⟨hready, fun _ => Opening.linked_ofEnd hst.reverse hend hne,
      fun _ => by show 2 ≤ row.reverse.size; rw [Row.size_reverse]; omega⟩

variable {before after : List (Section Node)} {s : Section Node}

/-- The path goes through the last section. -/
theorem opened_foldLast (h : Opened nbrs s.son o) (hst : row.Standing)
    (hproper : ∀ t ∈ row.toList, t.son.Proper) (hrow : row.toList = before ++ [s])
    (hmiss : ∀ t ∈ before, t.son.meets nbrs = false)
    (hown : ∀ v ∈ nbrs, (∃ t ∈ row.toList, v ∈ t.held) → v ∈ s.held) :
    Opened nbrs (qnode row) (o.foldLast nbrs row s) where
  ready := h.ready.foldLast hst hproper hrow hmiss hown
  linked _ := h.ready.linked_foldLast hst (hproper s (by simp [hrow])) hrow
  wide _ := by
    have h3 := hst.rigid.three
    rw [Opening.size_foldLast hrow]
    omega

/-- The path goes through the first section, so the row is turned around. -/
theorem opened_foldFirst (h : Opened nbrs s.son o) (hst : row.Standing)
    (hproper : ∀ t ∈ row.toList, t.son.Proper) (hrow : row.toList = s :: after)
    (hmiss : ∀ t ∈ after, t.son.meets nbrs = false)
    (hown : ∀ v ∈ nbrs, (∃ t ∈ row.toList, v ∈ t.held) → v ∈ s.held) :
    Opened nbrs (qnode row) (o.foldLast nbrs row.reverse s) := by
  have hrev : row.reverse.toList = after.reverse ++ [s] := by
    rw [Row.toList_reverse, hrow, List.reverse_cons]
  have hopened := opened_foldLast h hst.reverse (by simpa using hproper) hrev
    (by simpa using hmiss) (by simpa using hown)
  -- The bags of a Q-node do not depend on how its row is turned.
  have hready := hopened.ready
  simp only [Row.mem_bags_reverse] at hready
  exact ⟨hready, fun _ => hopened.linked trivial, fun _ => hopened.wide ⟨_, rfl⟩⟩

end Ends

namespace Node

variable {held nbrs : List Vertex} {children : List Node} {row : Row (Section Node)} {N : Node}
variable {o : Opening}

theorem owned_held_iff {held : List Vertex} :
    holdsAll (row.owned nbrs) held = true ↔
      ∀ v ∈ nbrs, (∃ t ∈ row.toList, v ∈ t.held) → v ∈ held := by
  rw [holdsAll_iff]
  constructor
  · intro h v hn ht
    exact h v (Row.mem_owned.2 ⟨hn, ht⟩)
  · intro h v hv
    obtain ⟨hn, ht⟩ := Row.mem_owned.1 hv
    exact h v hn ht

/-- The ways in which a P-node is opened: it is the lowest place of the path, or the row comes up
from the only child that has neighbours. -/
theorem opening?_pnode_cases (ho : (pnode held children).opening? nbrs = some o) :
    (∀ c ∈ children, c.meets nbrs = false) ∧
        o = .ofPlace nbrs held (fun rest => .bundle rest children) ∨
      ∃ before c after inner, children = before ++ c :: after ∧ c.meets nbrs = true ∧
        (∀ d ∈ before ++ after, d.meets nbrs = false) ∧ c.opening? nbrs = some inner ∧
        o = inner.foldChildren nbrs held (before ++ after) := by
  rw [opening?] at ho
  split at ho
  next hfind =>
    rw [Option.some.injEq] at ho
    exact Or.inl ⟨Sole.find_eq_absent hfind, ho.symm⟩
  next => cases ho
  next before c after hfind =>
    right
    obtain ⟨hc, hmiss⟩ := Sole.find_eq_one hfind
    obtain ⟨inner, hinner, rfl⟩ := Option.map_eq_some_iff.1 ho
    exact ⟨before, c, after, inner, Sole.eq_append_of_find hfind, hc, hmiss, hinner, rfl⟩

/-- The ways in which a Q-node is opened: its row holds all neighbours, or the row comes up from the
only son that has neighbours, at the first or the last section. -/
theorem opening?_qnode_cases (ho : (qnode row).opening? nbrs = some o) :
    (∀ s ∈ row.toList, s.son.meets nbrs = false) ∧ Opening.ofRow? nbrs row = some o ∨
      ∃ before s after inner, row.toList = before ++ s :: after ∧ s.son.meets nbrs = true ∧
        (∀ t ∈ before ++ after, t.son.meets nbrs = false) ∧
        (∀ v ∈ nbrs, (∃ t ∈ row.toList, v ∈ t.held) → v ∈ s.held) ∧
        s.son.opening? nbrs = some inner ∧
        (before = [] ∧ o = inner.foldLast nbrs row.reverse s ∨
          after = [] ∧ o = inner.foldLast nbrs row s) := by
  rw [opening?] at ho
  split at ho
  next hfind => exact Or.inl ⟨Sole.find_eq_absent hfind, ho⟩
  next => cases ho
  next before s after hfind =>
    right
    obtain ⟨hs, hmiss⟩ := Sole.find_eq_one hfind
    have hrow := Sole.eq_append_of_find hfind
    split at ho
    next => cases ho
    next hheld =>
      have hown := owned_held_iff.1 (by simpa using hheld)
      -- Below an end section, the row below comes up; the new vertex will stand at the outer end.
      split at ho
      next hfirst =>
        obtain ⟨inner, hinner, rfl⟩ := Option.map_eq_some_iff.1 ho
        exact ⟨before, s, after, inner, hrow, hs, hmiss, hown, hinner,
          Or.inl ⟨List.isEmpty_iff.1 hfirst, rfl⟩⟩
      next =>
        split at ho
        next hlast =>
          obtain ⟨inner, hinner, rfl⟩ := Option.map_eq_some_iff.1 ho
          exact ⟨before, s, after, inner, hrow, hs, hmiss, hown, hinner,
            Or.inr ⟨List.isEmpty_iff.1 hlast, rfl⟩⟩
        next => cases ho

/-- The opening of a node in normal form, if there is one, stands for its bags. -/
theorem Proper.opened (hN : N.Proper) (hnodup : nbrs.Nodup) (hmeet : N.meets nbrs = true)
    (ho : N.opening? nbrs = some o) : Opened nbrs N o := by
  -- The induction follows the opened path down to its lowest place.
  induction hN generalizing o with
  | @leaf held nodup =>
      rw [opening?, Option.some.injEq] at ho
      subst ho
      obtain ⟨v, hn, hv⟩ := meets_iff.1 hmeet
      have hheld : ∃ v ∈ held, v ∈ nbrs := ⟨v, by simpa using hv, hn⟩
      refine ⟨Opening.ready_ofLeaf (.leaf nodup) hheld, fun _ => Opening.linked_ofPlace hheld, ?_⟩
      rintro ⟨row, hrow⟩
      cases hrow
  | @pnode held children nodup apart sons firm arity proper ih =>
      have hp := Proper.pnode nodup apart sons firm arity proper
      rcases opening?_pnode_cases ho with ⟨hmiss, rfl⟩ |
        ⟨before, c, after, inner, rfl, hc, hmiss, hinner, rfl⟩
      · have hheld := exists_held_of_absent hmeet hmiss
        refine ⟨Opening.ready_ofChildren hp hheld hmiss, fun _ => Opening.linked_ofPlace hheld, ?_⟩
        rintro ⟨row, hrow⟩
        cases hrow
      · exact (ih c (by simp) hc hinner).foldChildren hp hmiss
  | @qnode row standing proper ih =>
      rcases opening?_qnode_cases ho with ⟨hmiss, ho⟩ |
        ⟨before, s, after, inner, hrow, hs, hmiss, hown, hinner, hend⟩
      · exact opened_ofRow? standing proper hnodup hmiss (exists_owned_of_absent hmeet hmiss) ho
      · have hopened := ih s (by simp [hrow]) hs hinner
        rcases hend with ⟨rfl, rfl⟩ | ⟨rfl, rfl⟩
        · exact opened_foldFirst hopened standing proper hrow hmiss hown
        · exact opened_foldLast hopened standing proper hrow (by simpa using hmiss) hown

end Node

end CliquePath
