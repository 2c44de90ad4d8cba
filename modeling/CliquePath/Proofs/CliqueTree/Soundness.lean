import CliquePath.Proofs.CliqueTree.Growth

set_option autoImplicit false

/-!
# What a successful growth gives

This module goes through the ways in which a node can grow and shows by induction that each gives a
node in normal form with one more bag.
-/

namespace CliquePath

open Node

namespace Node

variable {held nbrs : List Vertex} {u v x : Vertex} {N : Node}

/-! ## Leaves and P-nodes that stay -/

theorem reached_eq_inter (nbrs held : List Vertex) :
    {v | v ∈ reached nbrs held} = {v | v ∈ nbrs ∧ v ∈ held} := by
  ext v
  rw [Set.mem_ofPred_eq, mem_reached]
  exact and_comm

/-- A node whose clique is that of its vertices alone is replaced by a P-node that holds the
neighbours, above the rest of the old node and the new vertex. -/
theorem grows_besideRest {rest : Node} (nodup : held.Nodup) (hmeet : ∃ v ∈ held, v ∈ nbrs)
    (hu : u ∉ held) (hrest : rest.Proper) (hfirm : rest.Firm) (hur : u ∉ rest.vertices)
    (hapart : ∀ v ∈ reached nbrs held, v ∉ rest.vertices)
    (hfits : ∃ B ∈ {B | B ∈ N.bags}, {v | v ∈ nbrs ∧ v ∈ held} ⊆ B)
    (hbags : ∀ B, B ∈ rest.bagsUnder (reached nbrs held) ↔ B ∈ N.bags)
    (hN : ¬ ∃ row, N = .qnode row) :
    Grows N u {v | v ∈ nbrs ∧ v ∈ held} (.plain (pnode (reached nbrs held) [rest, leaf [u]])) := by
  have hreached : reached nbrs held ≠ [] := by
    obtain ⟨w, hw, hwn⟩ := hmeet
    exact List.ne_nil_of_mem (mem_reached.2 ⟨hw, hwn⟩)
  have hproper : (pnode (reached nbrs held) [rest, leaf [u]]).Proper :=
    hrest.withLeaf hfirm hur (nodup.filter _) hapart fun hm => hu (mem_reached.1 hm).1
  refine ⟨.plain hproper, fun _ => hreached, fun h => absurd h hN, ?_⟩
  have hplain : (Grown.plain (pnode (reached nbrs held) [rest, leaf [u]])).settle =
      pnode (reached nbrs held) [rest, leaf [u]] := rfl
  rw [hplain]
  refine Extends.of_added hfits fun B => ?_
  rw [Set.mem_ofPred_eq, Set.mem_ofPred_eq, ← hbags, ← reached_eq_inter, ← mem_bagsUnder_new,
    bags_pnode]
  simp only [List.flatMap_cons, List.flatMap_nil, List.append_nil, List.mem_append]

/-- A leaf all of whose vertices are neighbours takes the new vertex in. -/
theorem grows_extendLeaf (nodup : held.Nodup) (hfull : ∀ v ∈ held, v ∈ nbrs) (hu : u ∉ held) :
    Grows (leaf held) u {v | v ∈ nbrs ∧ v ∈ held} (.plain (leaf (held ++ [u]))) := by
  have hA : {v | v ∈ nbrs ∧ v ∈ held} = {v | v ∈ held} := by
    ext v
    exact ⟨fun hv => hv.2, fun hv => ⟨hfull v hv, hv⟩⟩
  have hinsert : {v | v ∈ held ++ [u]} = insert u {v | v ∈ held} := by
    ext v
    simp [or_comm]
  have hproper : (Node.leaf (held ++ [u])).Proper := by
    refine .leaf (List.nodup_append.2 ⟨nodup, by simp, ?_⟩)
    rintro a ha b hb rfl
    exact hu (List.mem_singleton.1 hb ▸ ha)
  have hfirm : (Node.leaf (held ++ [u])).Firm := List.append_ne_nil_of_right_ne_nil _ (by simp)
  refine ⟨.plain hproper, fun _ => hfirm, (fun ⟨r, hr⟩ => by cases hr), ?_⟩
  have hplain : (Grown.plain (leaf (held ++ [u]))).settle = leaf (held ++ [u]) := rfl
  have hold : ∀ B, B ∈ (leaf held).bags ↔ B = {v | v ∈ held} := by simp
  have hnew : ∀ B, B ∈ (leaf (held ++ [u])).bags ↔ B = insert u {v | v ∈ held} := by
    intro B
    rw [bags_leaf, hinsert, List.mem_singleton]
  -- The one old clique is not maximal any more.
  rw [hplain, hA]
  exact ⟨⟨_, (hold _).2 rfl, Set.Subset.refl _⟩, fun B hB => Or.inr ((hold B).1 hB),
    fun B hB => Or.inr ((hnew B).1 hB), (hnew _).2 rfl⟩

theorem grows_growLeaf (h : (Node.leaf held).Proper) (hmeet : ∃ v ∈ held, v ∈ nbrs)
    (hu : u ∉ held) :
    Grows (leaf held) u {v | v ∈ nbrs ∧ v ∈ held} (.plain (growLeaf u nbrs held)) := by
  cases h with
  | leaf nodup =>
      rw [growLeaf]
      split
      next hfull => exact grows_extendLeaf nodup (isFull_iff.1 hfull) hu
      next hfull =>
        rw [Bool.not_eq_true, not_isFull_iff] at hfull
        -- The vertices that are no neighbours stay below, in a leaf of their own.
        obtain ⟨y, hy, hyn⟩ := hfull
        have hmissed : missed nbrs held ≠ [] := List.ne_nil_of_mem (mem_missed.2 ⟨hy, hyn⟩)
        have hold : ∀ B, B ∈ (leaf held).bags ↔ B = {v | v ∈ held} := by simp
        have hunion := Opening.union_reached_missed nbrs held ∅
        simp only [Set.union_empty] at hunion
        refine grows_besideRest nodup hmeet hu (.leaf (nodup.filter _)) hmissed ?_ ?_
          ⟨_, (hold _).2 rfl, fun v hv => hv.2⟩ ?_ (fun ⟨r, hr⟩ => by cases hr)
        · rw [vertices_leaf]
          exact fun hm => hu (mem_missed.1 hm).1
        · intro v hv hm
          rw [vertices_leaf] at hm
          exact (mem_missed.1 hm).2 (mem_reached.1 hv).2
        · intro B
          rw [hold, mem_bagsUnder, bags_leaf]
          simp only [List.mem_singleton, exists_eq_left, hunion, eq_comm]

section Children

variable {children : List Node}

/-- If no child has a neighbour, the neighbours are those that the P-node holds. -/
theorem neighbors_pnode_of_missed (hmiss : ∀ c ∈ children, c.meets nbrs = false) :
    {v | v ∈ nbrs ∧ v ∈ (pnode held children).vertices} = {v | v ∈ nbrs ∧ v ∈ held} := by
  ext v
  exact and_congr_right fun hn => mem_vertices_pnode_of_absent hmiss hn

/-- The vertices that a P-node holds are in one of its bags. -/
theorem exists_bag_pnode (h : (pnode held children).Proper) :
    ∃ B ∈ {B | B ∈ (pnode held children).bags}, {v | v ∈ nbrs ∧ v ∈ held} ⊆ B := by
  obtain ⟨c, hc⟩ := List.exists_mem_of_ne_nil _ h.children_ne_nil
  cases h with
  | pnode nodup apart sons firm arity proper =>
      obtain ⟨C, hC⟩ := List.exists_mem_of_ne_nil _ (proper c hc).bags_ne_nil
      refine ⟨{v | v ∈ held} ∪ C, ?_, fun v hv => Or.inl hv.2⟩
      rw [Set.mem_ofPred_eq, bags_pnode, List.mem_flatMap]
      exact ⟨c, hc, mem_bagsUnder.2 ⟨C, hC, rfl⟩⟩

/-- A P-node that holds only neighbours gets the new vertex as a child. -/
theorem grows_appendLeaf (h : (pnode held children).Proper) (hfull : ∀ v ∈ held, v ∈ nbrs)
    (hu : u ∉ (pnode held children).vertices) :
    Grows (pnode held children) u {v | v ∈ nbrs ∧ v ∈ held}
      (.plain (pnode held (children ++ [leaf [u]]))) := by
  have hplain : (Grown.plain (pnode held (children ++ [leaf [u]]))).settle =
      pnode held (children ++ [leaf [u]]) := rfl
  have hfullset : {v | v ∈ nbrs ∧ v ∈ held} = {v | v ∈ held} := by
    ext v
    exact ⟨fun hv => hv.2, fun hv => ⟨hfull v hv, hv⟩⟩
  refine ⟨.plain (h.appendLeaf hu), fun hf => hf, (fun ⟨r, hr⟩ => by cases hr), ?_⟩
  rw [hplain]
  refine Extends.of_added (exists_bag_pnode h) fun B => ?_
  rw [Set.mem_ofPred_eq, Set.mem_ofPred_eq, hfullset, bags_pnode, bags_pnode,
    List.flatMap_append, List.mem_append, ← mem_bagsUnder_new]
  simp only [List.flatMap_cons, List.flatMap_nil, List.append_nil]

theorem grows_growChildren (h : (pnode held children).Proper)
    (hmeet : ∃ v ∈ held, v ∈ nbrs) (hmiss : ∀ c ∈ children, c.meets nbrs = false)
    (hu : u ∉ (pnode held children).vertices) :
    Grows (pnode held children) u {v | v ∈ nbrs ∧ v ∈ (pnode held children).vertices}
      (.plain (growChildren u nbrs held children)) := by
  obtain ⟨huh, huc⟩ := not_mem_vertices_pnode.1 hu
  have hfits : ∃ B ∈ (pnode held children).bags, {v | v ∈ nbrs ∧ v ∈ held} ⊆ B :=
    exists_bag_pnode h
  rw [neighbors_pnode_of_missed hmiss, growChildren]
  split
  next hfull => exact grows_appendLeaf h (isFull_iff.1 hfull) hu
  next hfull =>
    rw [Bool.not_eq_true, not_isFull_iff] at hfull
    obtain ⟨y, hy, hyn⟩ := hfull
    -- The vertices that are no neighbours stay with the children, in a P-node of their own.
    have hmissed : missed nbrs held ≠ [] := List.ne_nil_of_mem (mem_missed.2 ⟨hy, hyn⟩)
    cases h with
    | pnode nodup apart sons firm arity proper =>
        have hrest : (pnode (missed nbrs held) children).Proper := by
          refine .pnode (nodup.filter _) (fun c hc v hv => apart c hc v (mem_missed.1 hv).1) sons
            firm ?_ proper
          -- The arity of the old node carries over, as what stays is not empty.
          rcases arity with h2 | ⟨-, hrow⟩
          · exact Or.inl h2
          · exact Or.inr ⟨hmissed, hrow⟩
        refine grows_besideRest nodup hmeet huh hrest hmissed ?_ ?_ hfits ?_
          (fun ⟨r, hr⟩ => by cases hr)
        · intro hm
          rcases mem_vertices_pnode.1 hm with hm | ⟨c, hc, hm⟩
          · exact huh (mem_missed.1 hm).1
          · exact huc c hc hm
        · intro v hv hm
          rcases mem_vertices_pnode.1 hm with hm | ⟨c, hc, hm⟩
          · exact (mem_missed.1 hm).2 (mem_reached.1 hv).2
          · exact apart c hc v (mem_reached.1 hv).1 hm
        · intro B
          simp only [bags_pnode, mem_bagsUnder, List.mem_flatMap]
          constructor
          · rintro ⟨-, ⟨c, hc, C, hC, rfl⟩, rfl⟩
            exact ⟨c, hc, C, hC, (Opening.union_reached_missed nbrs held C).symm⟩
          · rintro ⟨c, hc, C, hC, rfl⟩
            exact ⟨_, ⟨c, hc, C, hC, rfl⟩, Opening.union_reached_missed nbrs held C⟩

end Children

/-! ## Rows that are overlapped throughout -/

/-- A node that becomes a row overlapped throughout. -/
theorem grows_ofRow {row : Row (Section Node)} {A : Set Vertex} (hclosed : row.Closed)
    (hsons : ∀ s ∈ row.toList, s.son.Proper)
    (hbags : Extends {B | B ∈ N.bags} {B | ∃ t ∈ row.toList, B ∈ t.son.bagsUnder t.held} A u) :
    Grows N u A (.ofRow row) where
  sound := Grown.sound_ofRow hclosed hsons
  firm _ := Grown.firm_settle trivial
  row _ := ⟨_, rfl⟩
  bags := by
    have hnew : {B | B ∈ (Grown.ofRow row).settle.bags} =
        {B | ∃ t ∈ row.toList, B ∈ t.son.bagsUnder t.held} := by
      ext B
      rw [Set.mem_ofPred_eq, Grown.bags_settle_ofRow, List.mem_flatMap, Set.mem_ofPred_eq]
    rwa [hnew]

theorem grows_growRow? {row : Row (Section Node)} {g : Grown} (hst : row.Standing)
    (hproper : ∀ s ∈ row.toList, s.son.Proper) (hnodup : nbrs.Nodup)
    (hmeet : (qnode row).meets nbrs = true) (hmiss : ∀ s ∈ row.toList, s.son.meets nbrs = false)
    (hu : u ∉ (qnode row).vertices) (hg : growRow? u nbrs row = some g) :
    Grows (qnode row) u {v | v ∈ nbrs ∧ v ∈ (qnode row).vertices} g := by
  have hA : {v | v ∈ nbrs ∧ v ∈ (qnode row).vertices} = {v | v ∈ row.owned nbrs} := by
    ext v
    rw [Set.mem_ofPred_eq, Set.mem_ofPred_eq, Row.mem_owned]
    exact and_congr_right fun hn => mem_vertices_qnode_of_absent hmiss hn
  have hne := exists_owned_of_absent hmeet hmiss
  rw [hA]
  rcases growRow?_cases hst hnodup hne hg with ⟨i, s, hs, hheld, rfl⟩ | ⟨i, him, had, hfr, rfl⟩
  · have hsm : s ∈ row.toList := List.mem_of_getElem? hs
    obtain ⟨hi, hsi⟩ := List.getElem?_eq_some_iff.1 hs
    have hrow : row.toList = row.toList.take i ++ s :: row.toList.drop (i + 1) := by
      conv_lhs => rw [← List.take_append_drop i row.toList, List.drop_eq_getElem_cons hi, hsi]
    have huv : u ∉ s.son.vertices := (not_mem_vertices_qnode.1 hu s hsm).2
    have h := grows_underSection (g := .plain (s.son.beside u)) hst hproper hrow hu
      ((hproper s hsm).beside huv) ((hproper s hsm).extends_beside u)
    have hset : {v | v ∈ s.held} = {v | v ∈ row.owned nbrs} := by
      ext v
      exact hheld v
    have hlen : (row.toList.take i).length = i := by
      rw [List.length_take]
      omega
    rwa [hlen, hset, Set.union_empty] at h
  · have hclosed := hst.closed_insertAt him hne (row.nodup_owned hnodup) had hfr hu
    have hsons : ∀ t ∈ (row.insertAt i ⟨row.owned nbrs, .leaf [u]⟩).toList, t.son.Proper := by
      rw [Row.toList_insertAt]
      intro t ht
      simp only [List.mem_append, List.mem_cons] at ht
      rcases ht with ht | rfl | ht
      · exact hproper t (List.mem_of_mem_take ht)
      · exact .leaf (by simp)
      · exact hproper t (List.mem_of_mem_drop ht)
    -- One of the sections beside the gap holds all of the neighbours.
    have hshared : ∃ s ∈ row.toList, ∀ v ∈ row.owned nbrs, v ∈ s.held := by
      obtain ⟨j, hj⟩ : ∃ j, ∀ v, v ∈ row.owned nbrs → row.pattern j v := by
        rcases had.shared with ⟨-, hall⟩ | hall
        · exact ⟨_, hall⟩
        · exact ⟨_, hall⟩
      obtain ⟨w, hw⟩ := hne
      obtain ⟨s, hs, -⟩ := Row.pattern_iff.1 (hj w hw)
      refine ⟨s, List.mem_of_getElem? hs, fun v hv => ?_⟩
      obtain ⟨t, ht, hvt⟩ := Row.pattern_iff.1 (hj v hv)
      rw [hs, Option.some.injEq] at ht
      rwa [ht]
    obtain ⟨s, hs, hall⟩ := hshared
    exact grows_ofRow hclosed hsons (Row.Standing.extends_insertAt hproper hs hall)

section Close

variable {before after : List Node} {c : Node} {o : Opening}

/-- The highest place on an opened path, a P-node that holds a vertex other than neighbours. -/
theorem grows_closeChildren (hp : (pnode held (before ++ c :: after)).Proper)
    (hmiss : ∀ d ∈ before ++ after, d.meets nbrs = false) (h : Opened nbrs c o)
    (hu : u ∉ (pnode held (before ++ c :: after)).vertices) (hx : x ∈ held) (hxn : x ∉ nbrs) :
    Grows (pnode held (before ++ c :: after)) u
      {v | v ∈ nbrs ∧ v ∈ (pnode held (before ++ c :: after)).vertices}
      (.ofRow ((o.foldChildren nbrs held (before ++ after)).close u)) := by
  have hready := h.ready.foldChildren hp hmiss h.linked h.wide
  have hub : ∀ B ∈ {B | B ∈ (pnode held (before ++ c :: after)).bags}, u ∉ B := fun B hB hv =>
    hu (hp.mem_vertices.2 ⟨B, hB, hv⟩)
  have hbags := hready.extends_close (u := u)
  have hA : {v | v ∈ nbrs ∧ v ∈ (pnode held (before ++ c :: after)).vertices} =
      {v | v ∈ nbrs ∧ ∃ B ∈ {B | B ∈ (pnode held (before ++ c :: after)).bags}, v ∈ B} := by
    ext v
    exact and_congr_right' hp.mem_vertices
  obtain ⟨hk, hspans⟩ := h.spans_foldChildren hp hx hxn
  rw [hA]
  exact grows_ofRow (hready.closed hub hk hspans) hready.proper_close hbags

end Close

section CloseRow

variable {row : Row (Section Node)} {before after : List (Section Node)} {s : Section Node}
variable {o : Opening}

/-- The row into which the opened row is taken: the row itself or the row turned around. Only
neighbours are held by the replaced section and the next one. -/
theorem closeRow?_cases {row' : Row (Section Node)}
    (h : closeRow? u nbrs row before s after o = some row') :
    (∀ t, after.head? = some t → ∀ v ∈ s.held, v ∈ t.held → v ∈ nbrs) ∧
        row' = o.closeInto u nbrs row before.length s ∨
      (∀ t, before.reverse.head? = some t → ∀ v ∈ s.held, v ∈ t.held → v ∈ nbrs) ∧
        row' = o.closeInto u nbrs row.reverse after.reverse.length s := by
  unfold closeRow? at h
  split at h
  -- Nothing on the left: the row is turned around, and the section faces left.
  next hbefore =>
    right
    refine ⟨?_, ?_⟩
    · rw [List.head?_reverse, hbefore]
      simp
    · rw [List.length_reverse]
      exact (Option.some.inj h).symm
  -- Nothing on the right: the section faces right as it is.
  next hafter =>
    left
    refine ⟨?_, (Option.some.inj h).symm⟩
    rw [hafter]
    simp
  -- An inner section faces a side on which its other vertices do not go on.
  next l r hl hr =>
    split at h
    next hpart =>
      left
      refine ⟨fun t ht v hvs hvt => ?_, (Option.some.inj h).symm⟩
      rw [hr, Option.some.injEq] at ht
      exact partsBeyond_iff.1 hpart v hvs (ht ▸ hvt)
    next =>
      split at h
      next hpart =>
        right
        refine ⟨fun t ht v hvs hvt => ?_, ?_⟩
        · rw [List.head?_reverse, hl, Option.some.injEq] at ht
          exact partsBeyond_iff.1 hpart v hvs (ht ▸ hvt)
        · rw [List.length_reverse]
          exact (Option.some.inj h).symm
      next => cases h

theorem grows_closeInto (hst : row.Standing) (hproper : ∀ t ∈ row.toList, t.son.Proper)
    (hrow : row.toList = before ++ s :: after)
    (hmiss : ∀ t ∈ before ++ after, t.son.meets nbrs = false)
    (hown : ∀ v ∈ nbrs, (∃ t ∈ row.toList, v ∈ t.held) → v ∈ s.held) (h : Opened nbrs s.son o)
    (hpart : ∀ t, after.head? = some t → ∀ v ∈ s.held, v ∈ t.held → v ∈ nbrs)
    (hu : u ∉ (qnode row).vertices) (hx : x ∈ s.held) (hxn : x ∉ nbrs) :
    Grows (qnode row) u {v | v ∈ nbrs ∧ v ∈ (qnode row).vertices}
      (.ofRow (o.closeInto u nbrs row before.length s)) :=
  have hs : s.son.Proper := hproper s (by simp [hrow])
  grows_ofRow (h.ready.closed_closeInto hst hs hrow hpart hu hx hxn)
    (h.ready.proper_closeInto hs hproper hrow) (h.ready.extends_closeInto hs hrow hmiss hown)

theorem vertices_reverse (row : Row (Section Node)) :
    v ∈ (qnode row.reverse).vertices ↔ v ∈ (qnode row).vertices := by
  simp

/-- The highest place on an opened path, a section that holds a vertex other than neighbours. -/
theorem grows_closeRow? {row' : Row (Section Node)} (hst : row.Standing)
    (hproper : ∀ t ∈ row.toList, t.son.Proper) (hrow : row.toList = before ++ s :: after)
    (hmiss : ∀ t ∈ before ++ after, t.son.meets nbrs = false)
    (hown : ∀ v ∈ nbrs, (∃ t ∈ row.toList, v ∈ t.held) → v ∈ s.held) (h : Opened nbrs s.son o)
    (hu : u ∉ (qnode row).vertices) (hx : x ∈ s.held) (hxn : x ∉ nbrs)
    (hclose : closeRow? u nbrs row before s after o = some row') :
    Grows (qnode row) u {v | v ∈ nbrs ∧ v ∈ (qnode row).vertices} (.ofRow row') := by
  rcases closeRow?_cases hclose with ⟨hpart, rfl⟩ | ⟨hpart, rfl⟩
  · exact grows_closeInto hst hproper hrow hmiss hown h hpart hu hx hxn
  · -- The row turned around has the same bags, so the first case applies to it.
    have hrev : row.reverse.toList = after.reverse ++ s :: before.reverse := by
      rw [Row.toList_reverse, hrow]
      simp
    have hmiss' : ∀ t ∈ after.reverse ++ before.reverse, t.son.meets nbrs = false := by
      intro t ht
      refine hmiss t ?_
      simp only [List.mem_append, List.mem_reverse] at ht ⊢
      exact ht.symm
    have hgrows := grows_closeInto hst.reverse (by simpa using hproper) hrev hmiss'
      (by simpa using hown) h hpart (by rwa [vertices_reverse]) hx hxn
    have hbags := hgrows.bags
    simp only [Row.mem_bags_reverse, vertices_reverse] at hbags
    exact ⟨hgrows.sound, fun _ => hgrows.firm trivial, fun _ => hgrows.row ⟨_, rfl⟩, hbags⟩

end CloseRow

/-! ## Growth -/

section Cases

variable {children : List Node} {row : Row (Section Node)} {g : Grown}

/-- The ways in which a P-node grows: it is the lowest place of the path; it is reached as a whole
and the path goes on below it; or it is the highest place that is reached in part. -/
theorem grow?_pnode_cases (hg : (pnode held children).grow? u nbrs = some g) :
    (∀ c ∈ children, c.meets nbrs = false) ∧ g = .plain (growChildren u nbrs held children) ∨
      ∃ before c after, children = before ++ c :: after ∧ c.meets nbrs = true ∧
        (∀ d ∈ before ++ after, d.meets nbrs = false) ∧
        ((∀ v ∈ held, v ∈ nbrs) ∧
            (∃ g', c.grow? u nbrs = some g' ∧ g = g'.underChildren held before after) ∨
          ∃ x o, x ∈ held ∧ x ∉ nbrs ∧ c.opening? nbrs = some o ∧
            g = .ofRow ((o.foldChildren nbrs held (before ++ after)).close u)) := by
  rw [grow?] at hg
  split at hg
  next hfind =>
    rw [Option.some.injEq] at hg
    exact Or.inl ⟨Sole.find_eq_absent hfind, hg.symm⟩
  next => cases hg
  -- One child meets the neighbours; whether all held vertices are neighbours decides the way.
  next before c after hfind =>
    right
    obtain ⟨hc, hmiss⟩ := Sole.find_eq_one hfind
    refine ⟨before, c, after, Sole.eq_append_of_find hfind, hc, hmiss, ?_⟩
    split at hg
    next hfull =>
      obtain ⟨g', hg', rfl⟩ := Option.map_eq_some_iff.1 hg
      exact Or.inl ⟨isFull_iff.1 hfull, g', hg', rfl⟩
    next hfull =>
      rw [Bool.not_eq_true, not_isFull_iff] at hfull
      obtain ⟨x, hx, hxn⟩ := hfull
      obtain ⟨o, ho, rfl⟩ := Option.map_eq_some_iff.1 hg
      exact Or.inr ⟨x, o, hx, hxn, ho, rfl⟩

/-- The ways in which a Q-node grows: its row holds all neighbours; the path goes on below a section
that is reached as a whole; or the section is the highest place that is reached in part. -/
theorem grow?_qnode_cases (hg : (qnode row).grow? u nbrs = some g) :
    (∀ s ∈ row.toList, s.son.meets nbrs = false) ∧ growRow? u nbrs row = some g ∨
      ∃ before s after, row.toList = before ++ s :: after ∧ s.son.meets nbrs = true ∧
        (∀ t ∈ before ++ after, t.son.meets nbrs = false) ∧
        (∀ v ∈ nbrs, (∃ t ∈ row.toList, v ∈ t.held) → v ∈ s.held) ∧
        ((∀ v ∈ s.held, v ∈ nbrs) ∧
            (∃ g', s.son.grow? u nbrs = some g' ∧ g = g'.underSection row before.length s) ∨
          ∃ x o row', x ∈ s.held ∧ x ∉ nbrs ∧ s.son.opening? nbrs = some o ∧
            closeRow? u nbrs row before s after o = some row' ∧ g = .ofRow row') := by
  rw [grow?] at hg
  split at hg
  next hfind => exact Or.inl ⟨Sole.find_eq_absent hfind, hg⟩
  next => cases hg
  -- One son meets the neighbours, so all of them that the row holds must be held above that son.
  next before s after hfind =>
    right
    obtain ⟨hs, hmiss⟩ := Sole.find_eq_one hfind
    split at hg
    next => cases hg
    next hheld =>
      have hown := owned_held_iff.1 (by simpa using hheld)
      refine ⟨before, s, after, Sole.eq_append_of_find hfind, hs, hmiss, hown, ?_⟩
      split at hg
      next hfull =>
        obtain ⟨g', hg', rfl⟩ := Option.map_eq_some_iff.1 hg
        exact Or.inl ⟨isFull_iff.1 hfull, g', hg', rfl⟩
      next hfull =>
        rw [Bool.not_eq_true, not_isFull_iff] at hfull
        obtain ⟨x, hx, hxn⟩ := hfull
        obtain ⟨o, ho, hclose⟩ := Option.bind_eq_some_iff.1 hg
        obtain ⟨row', hrow', rfl⟩ := Option.map_eq_some_iff.1 hclose
        exact Or.inr ⟨x, o, row', hx, hxn, ho, hrow', rfl⟩

/-- All that the P-node holds are neighbours; the other neighbours lie below one child. -/
theorem neighbors_pnode_of_full {before after : List Node} {c : Node}
    (hmiss : ∀ d ∈ before ++ after, d.meets nbrs = false) (hfull : ∀ v ∈ held, v ∈ nbrs) :
    {v | v ∈ nbrs ∧ v ∈ (pnode held (before ++ c :: after)).vertices} =
      {v | v ∈ held} ∪ {v | v ∈ nbrs ∧ v ∈ c.vertices} := by
  ext v
  rw [Set.mem_union, Set.mem_ofPred_eq, Set.mem_ofPred_eq, Set.mem_ofPred_eq]
  constructor
  · rintro ⟨hn, hv⟩
    exact ((mem_vertices_pnode_of_one hmiss hn).1 hv).imp_right fun hc => ⟨hn, hc⟩
  · rintro (hv | ⟨hn, hv⟩)
    · exact ⟨hfull v hv, mem_vertices_pnode.2 (Or.inl hv)⟩
    · exact ⟨hn, (mem_vertices_pnode_of_one hmiss hn).2 (Or.inr hv)⟩

/-- All that the section holds are neighbours; the other neighbours lie below it. -/
theorem neighbors_qnode_of_full {before after : List (Section Node)} {s : Section Node}
    (hrow : row.toList = before ++ s :: after)
    (hmiss : ∀ t ∈ before ++ after, t.son.meets nbrs = false)
    (hown : ∀ v ∈ nbrs, (∃ t ∈ row.toList, v ∈ t.held) → v ∈ s.held)
    (hfull : ∀ v ∈ s.held, v ∈ nbrs) :
    {v | v ∈ nbrs ∧ v ∈ (qnode row).vertices} =
      {v | v ∈ s.held} ∪ {v | v ∈ nbrs ∧ v ∈ s.son.vertices} := by
  ext v
  rw [Set.mem_union, Set.mem_ofPred_eq, Set.mem_ofPred_eq, Set.mem_ofPred_eq]
  constructor
  · rintro ⟨hn, hv⟩
    exact ((mem_vertices_qnode_of_one hrow hmiss hn).1 hv).imp (hown v hn) fun hs => ⟨hn, hs⟩
  · rintro (hv | ⟨hn, hv⟩)
    · exact ⟨hfull v hv, mem_vertices_qnode.2 ⟨s, by simp [hrow], Or.inl hv⟩⟩
    · exact ⟨hn, (mem_vertices_qnode_of_one hrow hmiss hn).2 (Or.inr hv)⟩

end Cases

/-- A node in normal form that grows by a new vertex gives a node in normal form with one more
bag, that of the new vertex and its neighbours. -/
theorem Proper.grows {g : Grown} (hN : N.Proper) (hnodup : nbrs.Nodup)
    (hmeet : N.meets nbrs = true) (hu : u ∉ N.vertices) (hg : N.grow? u nbrs = some g) :
    Grows N u {v | v ∈ nbrs ∧ v ∈ N.vertices} g := by
  -- The induction follows the path down as long as it is reached as a whole.
  induction hN generalizing g with
  | @leaf held nodup =>
      rw [grow?, Option.some.injEq] at hg
      subst hg
      rw [vertices_leaf] at hu
      obtain ⟨v, hn, hv⟩ := meets_iff.1 hmeet
      rw [vertices_leaf] at hv
      have h : Grows (Node.leaf held) u {v | v ∈ nbrs ∧ v ∈ held} (.plain (growLeaf u nbrs held)) :=
        grows_growLeaf (.leaf nodup) ⟨v, hv, hn⟩ hu
      simpa only [vertices_leaf] using h
  | @pnode held children nodup apart sons firm arity proper ih =>
      have hp := Proper.pnode nodup apart sons firm arity proper
      rcases grow?_pnode_cases hg with ⟨hmiss, rfl⟩ | ⟨before, c, after, rfl, hc, hmiss, hways⟩
      · exact grows_growChildren hp (exists_held_of_absent hmeet hmiss) hmiss hu
      · rcases hways with ⟨hfull, g', hg', rfl⟩ | ⟨x, o, hx, hxn, ho, rfl⟩
        · have huc : u ∉ c.vertices := (not_mem_vertices_pnode.1 hu).2 c (by simp)
          rw [neighbors_pnode_of_full hmiss hfull]
          exact grows_underChildren hp hu (ih c (by simp) hc huc hg')
        · have hopened := (proper c (by simp)).opened hnodup hc ho
          exact grows_closeChildren hp hmiss hopened hu hx hxn
  | @qnode row standing proper ih =>
      rcases grow?_qnode_cases hg with ⟨hmiss, hg⟩ |
        ⟨before, s, after, hrow, hs, hmiss, hown, hways⟩
      · exact grows_growRow? standing proper hnodup hmeet hmiss hu hg
      · have hsm : s ∈ row.toList := by simp [hrow]
        rcases hways with ⟨hfull, g', hg', rfl⟩ | ⟨x, o, row', hx, hxn, ho, hclose, rfl⟩
        · have hus : u ∉ s.son.vertices := (not_mem_vertices_qnode.1 hu s hsm).2
          have hson := ih s hsm hs hus hg'
          rw [neighbors_qnode_of_full hrow hmiss hown hfull]
          exact grows_underSection standing proper hrow hu hson.sound.settle hson.bags
        · have hopened := (proper s hsm).opened hnodup hs ho
          exact grows_closeRow? standing proper hrow hmiss hown hopened hu hx hxn hclose

end Node

end CliquePath
