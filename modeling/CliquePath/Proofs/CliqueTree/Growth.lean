import CliquePath.Proofs.CliqueTree.Gaps

set_option autoImplicit false

/-!
# Growing a node keeps its normal form

This module shows by induction over the node what a successful growth gives: a node in normal form
whose bags are the old ones together with the bag of the new vertex and its neighbours.
-/

namespace CliquePath

open Node

/-- What a node in normal form becomes when it grows by the vertex `u` with neighbours `A`. -/
structure Grows (N : Node) (u : Vertex) (A : Set Vertex) (g : Grown) : Prop where
  sound : g.Sound
  firm : N.Firm → g.settle.Firm
  row : (∃ row, N = .qnode row) → ∃ row, g.node = .qnode row
  bags : Extends {B | B ∈ N.bags} {B | B ∈ g.settle.bags} A u

namespace Node

variable {held nbrs : List Vertex} {u v : Vertex} {N : Node}

/-! ## A clique of its own -/

theorem bags_beside (N : Node) (u : Vertex) :
    (∀ B, B ∈ (N.beside u).bags ↔ B ∈ N.bags ∨ B = {u}) ∨
      N.bags = [∅] ∧ ∀ B, B ∈ (N.beside u).bags ↔ B = {u} := by
  have hleaf : {v | v = u} = ({u} : Set Vertex) := rfl
  have hempty : {v | v ∈ ([] : List Vertex)} = (∅ : Set Vertex) := by
    ext v
    simp
  unfold beside
  split
  -- The empty leaf has the empty bag, which the new vertex takes over.
  next =>
    right
    simp [hleaf]
  -- Another child of a P-node that holds nothing.
  next children =>
    left
    intro B
    simp [bags_pnode, bagsUnder, or_comm, eq_comm]
  next =>
    left
    intro B
    simp [bags_pnode, bagsUnder, or_comm, eq_comm]

/-- A vertex without neighbours stands beside everything. -/
theorem Proper.extends_beside (h : N.Proper) (u : Vertex) :
    Extends {B | B ∈ N.bags} {B | B ∈ (N.beside u).bags} ∅ u := by
  have hone : insert u (∅ : Set Vertex) = {u} := by simp
  rcases bags_beside N u with hbags | ⟨hold, hbags⟩
  · obtain ⟨C, hC⟩ := List.exists_mem_of_ne_nil _ h.bags_ne_nil
    refine Extends.of_added ⟨C, hC, Set.empty_subset C⟩ fun B => ?_
    rw [hone]
    exact hbags B
  · refine ⟨⟨∅, by simp [hold], Set.empty_subset _⟩, ?_, ?_, ?_⟩
    · intro B hB
      rw [Set.mem_ofPred_eq, hold, List.mem_singleton] at hB
      exact Or.inr hB
    · intro B hB
      rw [hone]
      exact Or.inr ((hbags B).1 hB)
    · rw [hone]
      exact (hbags _).2 rfl

theorem Proper.appendLeaf {children : List Node} (h : (Node.pnode held children).Proper)
    (hu : u ∉ (Node.pnode held children).vertices) :
    (Node.pnode held (children ++ [Node.leaf [u]])).Proper := by
  have hpos := List.length_pos_iff.2 h.children_ne_nil
  obtain ⟨huh, huc⟩ := not_mem_vertices_pnode.1 hu
  cases h with
  | pnode nodup apart sons firm arity proper =>
      refine .pnode nodup ?_ ?_ ?_ (Or.inl (by simp; omega)) ?_
      · refine List.forall_mem_append.2 ⟨apart, List.forall_mem_singleton.2 fun v hv hvu => ?_⟩
        rw [vertices_leaf, List.mem_singleton] at hvu
        exact huh (hvu ▸ hv)
      · refine List.pairwise_append.2 ⟨sons, List.pairwise_singleton _ _, ?_⟩
        intro c hc d hd v hv hvd
        rw [List.mem_singleton.1 hd, vertices_leaf, List.mem_singleton] at hvd
        exact huc c hc (hvd ▸ hv)
      · exact List.forall_mem_append.2 ⟨firm, List.forall_mem_singleton.2 (List.cons_ne_nil u [])⟩
      · exact List.forall_mem_append.2 ⟨proper, List.forall_mem_singleton.2 (.leaf (by simp))⟩

/-- A node and a leaf below a P-node. -/
theorem Proper.withLeaf (h : N.Proper) (hfirm : N.Firm) (hu : u ∉ N.vertices) (nodup : held.Nodup)
    (hapart : ∀ v ∈ held, v ∉ N.vertices) (huh : u ∉ held) :
    (Node.pnode held [N, Node.leaf [u]]).Proper := by
  refine .pnode nodup ?_ ?_ ?_ (Or.inl (by simp)) ?_
  · simp only [List.forall_mem_cons, vertices_leaf]
    exact ⟨hapart, fun v hv hvu => huh (List.mem_singleton.1 hvu ▸ hv), by simp⟩
  · refine List.pairwise_cons.2 ⟨fun d hd v hv hvd => ?_, List.pairwise_singleton _ _⟩
    rw [List.mem_singleton.1 hd, vertices_leaf, List.mem_singleton] at hvd
    exact hu (hvd ▸ hv)
  · simp only [List.forall_mem_cons]
    exact ⟨hfirm, List.cons_ne_nil u [], by simp⟩
  · simp only [List.forall_mem_cons]
    exact ⟨h, .leaf (by simp), by simp⟩

theorem Proper.beside (h : N.Proper) (hu : u ∉ N.vertices) : (N.beside u).Proper := by
  unfold Node.beside
  split
  next => exact .leaf (by simp)
  next children => exact h.appendLeaf hu
  next hleaf hpnode =>
    have hfirm : N.Firm := by
      cases h with
      | @leaf held nodup =>
          intro hnil
          exact hleaf (by rw [hnil])
      | @pnode held children nodup apart sons firm arity proper =>
          intro hnil
          exact hpnode children (by rw [hnil])
      | qnode standing proper => trivial
    exact h.withLeaf hfirm hu List.nodup_nil (by simp) (by simp)

/-! ## The places above a change -/

/-- The vertices of the new node are the old ones and the new one. -/
theorem mem_vertices_of_extends {M : Node} {A : Set Vertex} (hN : N.Proper) (hM : M.Proper)
    (h : Extends {B | B ∈ N.bags} {B | B ∈ M.bags} A u) :
    v ∈ M.vertices ↔ v = u ∨ v ∈ N.vertices := by
  rw [hM.mem_vertices, hN.mem_vertices]
  exact h.covers_iff

section Sections

variable {row : Row (Section Node)} {before after : List (Section Node)} {s : Section Node}

theorem bags_section (hrow : row.toList = before ++ s :: after) :
    {B | B ∈ (qnode row).bags} = ((fun B => {v | v ∈ s.held} ∪ B) '' {B | B ∈ s.son.bags}) ∪
      {B | ∃ t ∈ before ++ after, B ∈ t.son.bagsUnder t.held} := by
  ext B
  have hs : B ∈ (fun B => {v | v ∈ s.held} ∪ B) '' {B | B ∈ s.son.bags} ↔
      B ∈ s.son.bagsUnder s.held := mem_bagsUnder.symm
  rw [Set.mem_union, hs, Set.mem_ofPred_eq, Set.mem_ofPred_eq, bags_qnode, hrow, List.mem_flatMap]
  simp only [List.mem_append, List.mem_cons, or_and_right, exists_or, exists_eq_left]
  exact or_left_comm

theorem toList_setSon (hrow : row.toList = before ++ s :: after) (M : Node) :
    (row.set before.length { s with son := M }).toList =
      before ++ { s with son := M } :: after := by
  rw [Row.toList_set, hrow]
  simp

/-- Positions with something below them keep it when a node with a vertex takes the place of a
son. -/
theorem below_setSon {M : Node} {i : Nat} (hM : M.vertices ≠ [])
    (h : below (before ++ s :: after) i) : below (before ++ { s with son := M } :: after) i := by
  rcases Nat.lt_trichotomy i before.length with hi | rfl | hi
  · rw [below_append_left hi] at h ⊢
    exact h
  · exact ⟨{ s with son := M }, by simp, hM⟩
  · obtain ⟨j, rfl⟩ : ∃ j, i = before.length + (j + 1) := ⟨i - before.length - 1, by omega⟩
    rw [below_append_right (by omega), Nat.add_sub_cancel_left, below_cons_succ] at h ⊢
    exact h

/-- A son may be replaced by a node with one more vertex, which is a new one. -/
theorem standing_setSon {M : Node} (hst : row.Standing) (hrow : row.toList = before ++ s :: after)
    (hu : u ∉ (qnode row).vertices) (hM : ∀ v, v ∈ M.vertices ↔ v = u ∨ v ∈ s.son.vertices) :
    (row.set before.length { s with son := M }).Standing := by
  have hsm : s ∈ row.toList := by simp [hrow]
  have hu' := not_mem_vertices_qnode.1 hu
  have hlist := toList_setSon hrow M
  -- The sections hold the same, so which positions a vertex spans is unchanged.
  have hpattern : (row.set before.length { s with son := M }).pattern = row.pattern := by
    rw [Row.pattern, Row.pattern, hlist, hrow]
    simp
  -- The changed section by itself.
  have hsection : Apart [{ s with son := M }] := by
    refine ⟨?_, ?_, List.pairwise_singleton _ _⟩
    · simpa using hst.apart.nodup s hsm
    · simp only [List.forall_mem_singleton]
      intro v hv hvM
      rcases (hM v).1 hvM with rfl | hvs
      · exact (hu' s hsm).1 hv
      · exact hst.apart.held s hsm s hsm v hv hvs
  refine ⟨hst.ascending.set _ _, ?_, ?_, ?_⟩
  · have hap := hst.apart
    rw [hrow] at hap
    rw [hlist]
    refine hap.splice hsection ?_ ?_
    · simp only [List.forall_mem_singleton]
      exact fun v hv => Or.inl hv
    · simp only [List.forall_mem_singleton]
      intro v hv
      rcases (hM v).1 hv with rfl | hvs
      · refine Or.inr fun r hr => hu' r ?_
        rw [hrow]
        exact mem_middle_iff.2 (Or.inr hr)
      · exact Or.inl hvs
  · rw [hpattern, Row.size_set]
    exact hst.rigid
  · -- A section with a vertex below it still has one: the new vertex is there.
    rw [hpattern, Row.size_set, hlist]
    refine hst.filled.imp fun i _ hb => ?_
    rw [hrow] at hb
    exact below_setSon (List.ne_nil_of_mem ((hM u).2 (Or.inl rfl))) hb

/-- A change below a section of a Q-node. -/
theorem grows_underSection {g : Grown} {A : Set Vertex} (hst : row.Standing)
    (hproper : ∀ t ∈ row.toList, t.son.Proper) (hrow : row.toList = before ++ s :: after)
    (hu : u ∉ (qnode row).vertices) (hg : g.settle.Proper)
    (hA : Extends {B | B ∈ s.son.bags} {B | B ∈ g.settle.bags} A u) :
    Grows (qnode row) u ({v | v ∈ s.held} ∪ A) (.underSection row before.length s g) := by
  have hson : ∀ v, v ∈ g.settle.vertices ↔ v = u ∨ v ∈ s.son.vertices := fun v =>
    mem_vertices_of_extends (hproper s (by simp [hrow])) hg hA
  have hlist := toList_setSon hrow g.settle
  have hplain : (Grown.underSection row before.length s g).settle =
      qnode (row.set before.length { s with son := g.settle }) := rfl
  refine ⟨.plain (.qnode (standing_setSon hst hrow hu hson) ?_),
    fun _ => Grown.firm_settle trivial, fun _ => ⟨_, rfl⟩, ?_⟩
  · rw [hrow] at hproper
    rw [hlist]
    exact forall_mem_middle.2 ⟨hg, (forall_mem_middle.1 hproper).2⟩
  · rw [hplain, bags_section hrow, bags_section hlist]
    exact (hA.image _).union _

end Sections

section Children

variable {before after : List Node} {c : Node}

theorem bags_children (held : List Vertex) (before : List Node) (c : Node) (after : List Node) :
    {B | B ∈ (pnode held (before ++ c :: after)).bags} = (fun B => {v | v ∈ held} ∪ B) ''
      ({B | B ∈ c.bags} ∪ {B | ∃ d ∈ before ++ after, B ∈ d.bags}) := by
  rw [Set.union_comm]
  exact (image_bags_pnode held before c after).symm

/-- A child may be replaced by a node with one more vertex, which is a new one. -/
theorem Proper.replaceChild {M : Node} (h : (Node.pnode held (before ++ c :: after)).Proper)
    (hothers : before ++ after ≠ []) (hu : u ∉ (Node.pnode held (before ++ c :: after)).vertices)
    (hM : M.Proper) (hfirm : M.Firm) (hvertices : ∀ v ∈ M.vertices, v = u ∨ v ∈ c.vertices) :
    (Node.pnode held (before ++ M :: after)).Proper := by
  obtain ⟨huh, huc⟩ := not_mem_vertices_pnode.1 hu
  have hpos := List.length_pos_iff.2 hothers
  cases h with
  | pnode nodup apart sons firm arity proper =>
      obtain ⟨hcheld, hdheld⟩ := forall_mem_middle.1 apart
      obtain ⟨hcd, hdisjoint⟩ := disjoint_middle_iff.1 sons
      -- There are two children or more, so the arity does not depend on what the new one is.
      refine .pnode nodup ?_ ?_ ?_ (Or.inl ?_) ?_
      · refine forall_mem_middle.2 ⟨fun v hv hvM => ?_, hdheld⟩
        rcases hvertices v hvM with rfl | hvc
        · exact huh hv
        · exact hcheld v hv hvc
      · refine disjoint_middle_iff.2 ⟨fun d hd v hvM hvd => ?_, hdisjoint⟩
        rcases hvertices v hvM with rfl | hvc
        · exact huc d (mem_middle_iff.2 (Or.inr hd)) hvd
        · exact hcd d hd v hvc hvd
      · exact forall_mem_middle.2 ⟨hfirm, (forall_mem_middle.1 firm).2⟩
      · rw [List.length_append] at hpos
        rw [List.length_append, List.length_cons]
        omega
      · exact forall_mem_middle.2 ⟨hM, (forall_mem_middle.1 proper).2⟩

/-- A change below the only child of a P-node leaves what was lifted to the P-node itself. -/
theorem grows_underOnly {g : Grown} {A : Set Vertex} (hp : (pnode held [c]).Proper)
    (hu : u ∉ (pnode held [c]).vertices) (hg : Grows c u A g) :
    Grows (pnode held [c]) u ({v | v ∈ held} ∪ A) (.plain (pnode (held ++ g.lifted) [g.node])) := by
  obtain ⟨hheld, hrow⟩ := hp.of_only
  obtain ⟨row', hrow'⟩ := hg.row hrow
  obtain ⟨huh, -⟩ := not_mem_vertices_pnode.1 hu
  have hne : held ++ g.lifted ≠ [] := by simp [hheld]
  have hplain : (Grown.plain (pnode (held ++ g.lifted) [g.node])).settle =
      pnode (held ++ g.lifted) [g.node] := rfl
  cases hp with
  | pnode nodup apart sons firm arity proper =>
      -- The node below has the new vertex besides its old ones, so it is still apart from what is held.
      have hson : ∀ v, v ∈ g.settle.vertices ↔ v = u ∨ v ∈ c.vertices := fun v =>
        mem_vertices_of_extends (proper c (by simp)) hg.sound.settle hg.bags
      have houtside : ∀ v ∈ held, v ∉ g.settle.vertices := by
        intro v hv hvs
        rcases (hson v).1 hvs with rfl | hvc
        · exact huh hv
        · exact apart c (by simp) v hv hvc
      have hproper : (pnode (held ++ g.lifted) [g.node]).Proper := by
        refine .pnode (List.nodup_append.2 ⟨nodup, hg.sound.nodup, ?_⟩) ?_
          (List.pairwise_singleton _ _) ?_ (Or.inr ⟨hne, row', by rw [hrow']⟩) ?_
        · rintro a ha b hb rfl
          exact houtside a ha ((Grown.mem_vertices_settle g).2 (Or.inl hb))
        · simp only [List.forall_mem_singleton]
          refine List.forall_mem_append.2 ⟨fun v hv hvn => ?_, hg.sound.apart⟩
          exact houtside v hv ((Grown.mem_vertices_settle g).2 (Or.inr hvn))
        · rw [List.forall_mem_singleton, hrow']
          trivial
        · exact List.forall_mem_singleton.2 hg.sound.proper
      refine ⟨.plain hproper, fun _ => Grown.firm_settle hne, (fun ⟨r, hr⟩ => by cases hr), ?_⟩
      -- The bags of both nodes are those below them with the held vertices added.
      have hnew : {B | B ∈ (pnode (held ++ g.lifted) [g.node]).bags} =
          (fun B => {v | v ∈ held} ∪ B) '' {B | B ∈ g.settle.bags} := by
        ext B
        have hset : {v | v ∈ held ++ g.lifted} = {v | v ∈ held} ∪ {v | v ∈ g.lifted} := by
          ext v
          simp
        rw [Set.mem_ofPred_eq, bags_pnode, Grown.bags_settle]
        simp only [List.flatMap_cons, List.flatMap_nil, List.append_nil, mem_bagsUnder,
          Set.mem_image, Set.mem_ofPred_eq, exists_exists_and_eq_and, hset, Set.union_assoc]
      have hold : {B | B ∈ (pnode held [c]).bags} =
          (fun B => {v | v ∈ held} ∪ B) '' {B | B ∈ c.bags} := by
        ext B
        simp only [bags_pnode, List.flatMap_cons, List.flatMap_nil, List.append_nil, mem_bagsUnder,
          Set.mem_image, Set.mem_ofPred_eq]
      rw [hplain, hnew, hold]
      exact hg.bags.image _

/-- A change below a P-node. -/
theorem grows_underChildren {g : Grown} {A : Set Vertex}
    (hp : (pnode held (before ++ c :: after)).Proper)
    (hu : u ∉ (pnode held (before ++ c :: after)).vertices) (hg : Grows c u A g) :
    Grows (pnode held (before ++ c :: after)) u ({v | v ∈ held} ∪ A)
      (.underChildren held before after g) := by
  unfold Grown.underChildren
  split
  next honly =>
    obtain ⟨rfl, rfl⟩ : before = [] ∧ after = [] := by simpa using honly
    exact grows_underOnly hp hu hg
  next hsome =>
    -- What was lifted settles in a P-node of its own, since other children stand beside it.
    have hothers : before ++ after ≠ [] := by
      intro hnil
      obtain ⟨rfl, rfl⟩ := List.append_eq_nil_iff.1 hnil
      exact hsome rfl
    have hchild : c.Proper ∧ c.Firm := by
      cases hp with
      | pnode nodup apart sons firm arity proper => exact ⟨proper c (by simp), firm c (by simp)⟩
    have hproper := hp.replaceChild hothers hu hg.sound.settle (hg.firm hchild.2) fun v =>
      (mem_vertices_of_extends hchild.1 hg.sound.settle hg.bags).1
    have hplain : (Grown.plain (pnode held (before ++ g.settle :: after))).settle =
        pnode held (before ++ g.settle :: after) := rfl
    refine ⟨.plain hproper, fun h => h, (fun ⟨r, hr⟩ => by cases hr), ?_⟩
    rw [hplain, bags_children, bags_children]
    exact (hg.bags.union _).image _

end Children

end Node

end CliquePath
