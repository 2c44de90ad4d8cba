import CliquePath.Proofs.CliqueTree.Ready

set_option autoImplicit false

/-!
# Folding a node into a row

This module moves a row that awaits its last section over a P-node. The other children of the node
are bundled into a new leftmost section and what the node holds is carried on by all sections.
-/

namespace CliquePath

namespace Node

/-! ## Bundles -/

theorem bagsUnder_nil (node : Node) : node.bagsUnder [] = node.bags := by
  simp [bagsUnder]

/-- A bundle has the bags of the P-node that it stands for. -/
theorem bags_bundle (held : List Vertex) (children : List Node) :
    (bundle held children).bags = children.flatMap (bagsUnder held) := by
  unfold bundle
  split
  next child => simp [bagsUnder_nil]
  next => exact bags_pnode held children

theorem mem_vertices_bundle {held : List Vertex} {children : List Node} {v : Vertex} :
    v ∈ (bundle held children).vertices ↔ v ∈ held ∨ ∃ c ∈ children, v ∈ c.vertices := by
  unfold bundle
  split
  next child => simp
  next => exact mem_vertices_pnode

theorem proper_bundle {held : List Vertex} {children : List Node} (nodup : held.Nodup)
    (apart : ∀ c ∈ children, ∀ v ∈ held, v ∉ c.vertices)
    (sons : children.Pairwise fun c d => ∀ v ∈ c.vertices, v ∉ d.vertices)
    (firm : ∀ c ∈ children, c.Firm) (proper : ∀ c ∈ children, c.Proper)
    (arity : 2 ≤ children.length ∨ ∃ c, children = [c] ∧ (held = [] ∨ ∃ row, c = .qnode row)) :
    (bundle held children).Proper := by
  unfold bundle
  split
  next child => exact proper child List.mem_cons_self
  next hnot =>
    refine .pnode nodup apart sons firm ?_ proper
    rcases arity with h | ⟨c, rfl, h⟩
    · exact Or.inl h
    · right
      -- A P-node that holds nothing and has one child would have been that child.
      have hne : held ≠ [] := by
        rintro rfl
        exact hnot c rfl rfl
      rcases h with rfl | ⟨row, rfl⟩
      · exact absurd rfl hne
      · exact ⟨hne, row, rfl⟩

end Node

open Node

namespace Opening

variable {nbrs : List Vertex} {bags : Set (Set Vertex)} {o : Opening} {i : Nat} {v : Vertex}

/-! ## A new leftmost section -/

/-- The other children of a P-node become the leftmost section. -/
theorem Ready.widen (h : o.Ready nbrs bags) (hl : o.pattern.Linked o.row.size) {b : Node}
    (hb : b.Proper) (hne : b.vertices ≠ []) (hout : ∀ v ∈ b.vertices, ∀ B ∈ bags, v ∉ B)
    (hmiss : b.meets nbrs = false) :
    Ready nbrs ({B | B ∈ b.bags} ∪ bags) { o with row := o.row.insertAt 0 ⟨[], b⟩ } := by
  have hlist : (o.row.insertAt 0 ⟨[], b⟩).toList = ⟨[], b⟩ :: o.row.toList := by simp
  have hsize : (o.row.insertAt 0 ⟨[], b⟩).size = o.row.size + 1 := by
    rw [← Row.length_toList, hlist, List.length_cons, Row.length_toList]
  have hpattern : pattern { o with row := o.row.insertAt 0 ⟨[], b⟩ } = o.pattern.widened := by
    rw [pattern, pattern, ← Pattern.ofLists_nil_cons, hlist]
    rfl
  refine ⟨h.ascending.insertAt 0 _, ?_, ?_, ?_, ?_, h.nodup, ?_, ?_⟩
  · rw [hlist]
    refine ⟨?_, ?_, List.pairwise_cons.2 ⟨?_, h.apart.sons⟩⟩
    · simp only [List.forall_mem_cons]
      exact ⟨List.nodup_nil, h.apart.nodup⟩
    · intro s hs t ht v hv
      rcases List.mem_cons.1 hs with rfl | hs
      · simp at hv
      · rcases List.mem_cons.1 ht with rfl | ht
        · intro hvb
          obtain ⟨B, hB, hvB⟩ := h.mem_iff.1 ⟨s, hs, Or.inl hv⟩
          exact hout v hvb B hB hvB
        · exact h.apart.held s hs t ht v hv
    · intro t ht v hvb hvt
      obtain ⟨B, hB, hvB⟩ := h.mem_iff.1 ⟨t, ht, Or.inr hvt⟩
      exact hout v hvb B hB hvB
  · rw [hlist]
    simp only [List.forall_mem_cons]
    exact ⟨hb, h.proper⟩
  · -- The new section holds nothing, so every span moves by one position.
    rw [hpattern, hsize]
    exact h.opened.widened hl
  · rw [hpattern, hsize, hlist]
    refine h.filled.widened ⟨_, List.getElem?_cons_zero, hne⟩ fun i _ hi => ?_
    obtain ⟨s, hs, hvs⟩ := hi
    exact ⟨s, by rwa [List.getElem?_cons_succ], hvs⟩
  · intro B
    rw [hlist]
    simp only [List.mem_cons, exists_eq_or_imp, h.stands, bagsUnder_nil, Set.mem_union]
    rfl
  · -- The new section has no neighbour, so the link is that of the old row.
    intro v
    rw [h.link]
    constructor
    · rintro ⟨hn, B, hB, hv⟩
      exact ⟨hn, B, Or.inr hB, hv⟩
    · rintro ⟨hn, B, hB | hB, hv⟩
      · exact absurd (hb.mem_vertices.2 ⟨B, hB, hv⟩) (not_meets_iff.1 hmiss v hn)
      · exact ⟨hn, B, hB, hv⟩

/-- The bundle of other children as the leftmost section. -/
theorem Ready.widen_bundle (h : o.Ready nbrs bags) (hl : o.pattern.Linked o.row.size)
    {others : List Node} (hne : others ≠ [])
    (hsons : others.Pairwise fun c d => ∀ v ∈ c.vertices, v ∉ d.vertices)
    (hfirm : ∀ d ∈ others, d.Firm) (hproper : ∀ d ∈ others, d.Proper)
    (hout : ∀ d ∈ others, ∀ v ∈ d.vertices, ∀ B ∈ bags, v ∉ B)
    (hmiss : ∀ d ∈ others, d.meets nbrs = false) :
    Ready nbrs ({B | ∃ d ∈ others, B ∈ d.bags} ∪ bags)
      { o with row := o.row.insertAt 0 ⟨[], bundle [] others⟩ } := by
  have hb : (bundle [] others).Proper := by
    refine proper_bundle List.nodup_nil (by simp) hsons hfirm hproper ?_
    -- Several children stay a P-node, a single one is the bundle itself.
    rcases Nat.lt_or_ge 1 others.length with h2 | h1
    · exact Or.inl h2
    · have hpos := List.length_pos_iff.2 hne
      obtain ⟨d, hd⟩ := List.length_eq_one_iff.1 (by omega : others.length = 1)
      exact Or.inr ⟨d, hd, Or.inl rfl⟩
  have hvb : ∀ v ∈ (bundle [] others).vertices, ∃ d ∈ others, v ∈ d.vertices := by
    intro v hv
    simpa using mem_vertices_bundle.1 hv
  have hbne : (bundle [] others).vertices ≠ [] := by
    obtain ⟨d, hd⟩ := List.exists_mem_of_ne_nil _ hne
    obtain ⟨v, hv⟩ := List.exists_mem_of_ne_nil _ ((hproper d hd).vertices_ne_nil (hfirm d hd))
    exact List.ne_nil_of_mem (mem_vertices_bundle.2 (Or.inr ⟨d, hd, hv⟩))
  have hbmiss : (bundle [] others).meets nbrs = false := by
    rw [not_meets_iff]
    intro v hn hv
    obtain ⟨d, hd, hvd⟩ := hvb v hv
    exact not_meets_iff.1 (hmiss d hd) v hn hvd
  have hbout : ∀ v ∈ (bundle [] others).vertices, ∀ B ∈ bags, v ∉ B := by
    intro v hv
    obtain ⟨d, hd, hvd⟩ := hvb v hv
    exact hout d hd v hvd
  have hset : {B | B ∈ (bundle [] others).bags} = {B | ∃ d ∈ others, B ∈ d.bags} := by
    ext B
    simp only [bags_bundle, bagsUnder_nil, Set.mem_ofPred_eq, List.mem_flatMap]
  rw [← hset]
  exact h.widen hl hb hbne hbout hbmiss

end Opening

/-! ## Folding a P-node into the row -/

section Fold

variable {nbrs held : List Vertex} {before after : List Node} {c : Node} {o : Opening}

/-- The bags of a P-node are those of its children below what it holds. -/
theorem image_bags_pnode (held : List Vertex) (before : List Node) (c : Node) (after : List Node) :
    (fun B => {v | v ∈ held} ∪ B) '' ({B | ∃ d ∈ before ++ after, B ∈ d.bags} ∪ {B | B ∈ c.bags}) =
      {B | B ∈ (pnode held (before ++ c :: after)).bags} := by
  ext B
  rw [bags_pnode]
  simp only [Set.mem_image, Set.mem_union, Set.mem_ofPred_eq, List.mem_flatMap, mem_bagsUnder,
    List.mem_append, List.mem_cons]
  constructor
  · rintro ⟨C, ⟨d, hd, hC⟩ | hC, rfl⟩
    · exact ⟨d, by tauto, C, hC, rfl⟩
    · exact ⟨c, by tauto, C, hC, rfl⟩
  · rintro ⟨d, hd, C, hC, rfl⟩
    rcases hd with hd | rfl | hd
    · exact ⟨C, Or.inl ⟨d, Or.inl hd, hC⟩, rfl⟩
    · exact ⟨C, Or.inr hC, rfl⟩
    · exact ⟨C, Or.inl ⟨d, Or.inr hd, hC⟩, rfl⟩

theorem Opening.foldChildren_of_ne_nil {others : List Node} (hne : others ≠ []) :
    o.foldChildren nbrs held others =
      ({ o with row := o.row.insertAt 0 ⟨[], bundle [] others⟩ } : Opening).carry nbrs held := by
  cases others with
  | nil => exact absurd rfl hne
  | cons d rest => rfl

theorem Opening.Ready.foldChildren (hp : (pnode held (before ++ c :: after)).Proper)
    (hmiss : ∀ d ∈ before ++ after, d.meets nbrs = false)
    (h : o.Ready nbrs {B | B ∈ c.bags}) (hl : c.Firm → o.pattern.Linked o.row.size)
    (hwide : (∃ row, c = .qnode row) → 2 ≤ o.row.size) :
    (o.foldChildren nbrs held (before ++ after)).Ready nbrs
      {B | B ∈ (pnode held (before ++ c :: after)).bags} := by
  have hp' := hp
  cases hp' with
  | pnode nodup apart sons firm arity proper =>
      obtain ⟨hcheld, hdheld⟩ := forall_mem_middle.1 apart
      obtain ⟨hcfirm, hdfirm⟩ := forall_mem_middle.1 firm
      obtain ⟨hcproper, hdproper⟩ := forall_mem_middle.1 proper
      have houtc : ∀ v ∈ held, ∀ B ∈ c.bags, v ∉ B := fun v hv B hB hvB =>
        hcheld v hv (hcproper.mem_vertices.2 ⟨B, hB, hvB⟩)
      rw [← image_bags_pnode]
      by_cases hnil : before ++ after = []
      · -- A single child is a Q-node, whose row is wide enough to carry the vertices held.
        obtain ⟨rfl, rfl⟩ := List.append_eq_nil_iff.1 hnil
        have hset : ({B | ∃ d ∈ ([] : List Node) ++ [], B ∈ d.bags} ∪ {B | B ∈ c.bags} :
            Set (Set Vertex)) = {B | B ∈ c.bags} := by
          ext B
          simp
        rw [hset]
        exact h.carry (hwide hp.of_only.2) nodup houtc
      · obtain ⟨hcd, hothers⟩ := disjoint_middle_iff.1 sons
        have hbout : ∀ d ∈ before ++ after, ∀ v ∈ d.vertices, ∀ B ∈ c.bags, v ∉ B :=
          fun d hd v hvd B hB hvB => hcd d hd v (hcproper.mem_vertices.2 ⟨B, hB, hvB⟩) hvd
        have hw := h.widen_bundle (hl hcfirm) hnil hothers hdfirm hdproper hbout hmiss
        rw [Opening.foldChildren_of_ne_nil hnil]
        refine hw.carry ?_ nodup ?_
        · have hpos := h.opened.pos
          rw [← Row.length_toList]
          simp
          omega
        · rintro v hv B (⟨d, hd, hB⟩ | hB) hvB
          · exact hdheld d hd v hv ((hdproper d hd).mem_vertices.2 ⟨B, hB, hvB⟩)
          · exact houtc v hv B hB hvB

end Fold

end CliquePath
