import CliquePath.Proofs.CliqueTree.Equations
import CliquePath.Proofs.CliqueTree.Correctness

set_option autoImplicit false

/-!
# The cliques of a clique tree

This module shows that a tree in normal form lists the maximal cliques of its graph, each once. The
lists that `cliques` reads off a node have the vertices of its bags. No bag contains another one: of
two bags below different children each has a vertex of its own child, and of two sections of a row
each has a vertex below it or one whose span stops short of the other. Vertices that pairwise share
bags have a bag in common, since their ranges of bags pairwise overlap.
-/

namespace CliquePath

/-- A set of pairwise joined vertices to which no other vertex can be added. -/
structure MaximalClique (vertices : List Vertex) (adjacent : Vertex → Vertex → Prop)
    (K : Set Vertex) : Prop where
  nonempty : K.Nonempty
  sub : ∀ v ∈ K, v ∈ vertices
  joined : ∀ v ∈ K, ∀ w ∈ K, v ≠ w → adjacent v w
  maximal : ∀ v ∈ vertices, (∀ w ∈ K, v ≠ w → adjacent v w) → v ∈ K

/-- Maximal cliques depend on the vertices only, not on their order. -/
theorem MaximalClique.congr {vertices vertices' : List Vertex} {adjacent : Vertex → Vertex → Prop}
    {K : Set Vertex} (h : MaximalClique vertices adjacent K) (hsame : ∀ v, v ∈ vertices ↔ v ∈ vertices') :
    MaximalClique vertices' adjacent K :=
  ⟨h.nonempty, fun v hv => (hsame v).1 (h.sub v hv), h.joined,
    fun v hv => h.maximal v ((hsame v).2 hv)⟩

/-- Neither of two sets contains the other. -/
def Incomparable (B C : Set Vertex) : Prop := ¬ B ⊆ C ∧ ¬ C ⊆ B

/-- Two sets stay incomparable if vertices that are in neither of them join both. -/
theorem Incomparable.union {B C H : Set Vertex} (h : Incomparable B C) (hB : ∀ v ∈ B, v ∉ H)
    (hC : ∀ v ∈ C, v ∉ H) : Incomparable (H ∪ B) (H ∪ C) := by
  constructor
  · intro hsub
    refine h.1 fun v hv => ?_
    rcases hsub (Or.inr hv) with hvH | hvC
    · exact absurd hvH (hB v hv)
    · exact hvC
  · intro hsub
    refine h.2 fun v hv => ?_
    rcases hsub (Or.inr hv) with hvH | hvB
    · exact absurd hvH (hC v hv)
    · exact hvB

namespace Node

variable {N : Node} {held above : List Vertex} {v : Vertex}

/-! ## No bag contains another one -/

theorem Proper.mem_of_bag (h : N.Proper) {B : Set Vertex} (hB : B ∈ N.bags) (hv : v ∈ B) :
    v ∈ N.vertices :=
  h.mem_vertices.2 ⟨B, hB, hv⟩

/-- Only the leaf without vertices has an empty bag. -/
theorem Proper.bag_nonempty (h : N.Proper) (hne : N.vertices ≠ []) :
    ∀ B ∈ N.bags, B.Nonempty := by
  induction h with
  | @leaf held nodup =>
      intro B hB
      obtain ⟨v, hv⟩ := List.exists_mem_of_ne_nil _ hne
      rw [bags_leaf, List.mem_singleton] at hB
      exact hB ▸ ⟨v, by simpa using hv⟩
  | @pnode held children nodup apart sons firm arity proper ih =>
      intro B hB
      rw [bags_pnode, List.mem_flatMap] at hB
      obtain ⟨c, hc, hB⟩ := hB
      obtain ⟨C, hC, rfl⟩ := mem_bagsUnder.1 hB
      exact (ih c hc ((proper c hc).vertices_ne_nil (firm c hc)) C hC).mono fun v hv => Or.inr hv
  | @qnode row standing proper ih =>
      intro B hB
      rw [bags_qnode, List.mem_flatMap] at hB
      obtain ⟨s, hs, hB⟩ := hB
      obtain ⟨C, hC, rfl⟩ := mem_bagsUnder.1 hB
      by_cases hson : s.son.vertices = []
      · -- A section with nothing below it holds a vertex.
        obtain ⟨i, hi⟩ := List.mem_iff_getElem?.1 hs
        have hlt : i < row.size := by
          rw [← Row.length_toList]
          exact (List.getElem?_eq_some_iff.1 hi).1
        rcases standing.filled i hlt with ⟨t, ht, htne⟩ | ⟨⟨v, p, hp, hspan⟩, -⟩
        · rw [hi, Option.some.injEq] at ht
          exact absurd (ht ▸ hson) htne
        · obtain ⟨t, ht, hv⟩ := Row.pattern_iff.1 (hspan.held (Nat.le_of_lt hp) (Nat.le_refl i))
          rw [hi, Option.some.injEq] at ht
          exact ⟨v, Or.inl (ht ▸ hv)⟩
      · exact (ih s hs hson C hC).mono fun v hv => Or.inr hv

/-- A section has a vertex that another section of the row does not have, in each of its bags. -/
theorem Row.Standing.exists_own {row : Row (Section Node)} (h : row.Standing)
    (hproper : ∀ s ∈ row.toList, s.son.Proper) {i j : Nat} (hij : i ≠ j) {s t : Section Node}
    (hs : row.toList[i]? = some s) (ht : row.toList[j]? = some t) {B C : Set Vertex}
    (hB : B ∈ s.son.bags) (hC : C ∈ t.son.bags) :
    ¬ {v | v ∈ s.held} ∪ B ⊆ {v | v ∈ t.held} ∪ C := by
  intro hsub
  have hsmem := List.mem_of_getElem? hs
  have htmem := List.mem_of_getElem? ht
  have hlt : i < row.size := by
    rw [← Row.length_toList]
    exact (List.getElem?_eq_some_iff.1 hs).1
  -- What `s` holds is not below `t`, and what is below `s` is neither held by `t` nor below it.
  have hheld : ∀ v ∈ s.held, v ∈ t.held := by
    intro v hv
    rcases hsub (Or.inl hv) with hvt | hvC
    · exact hvt
    · exact absurd ((hproper t htmem).mem_of_bag hC hvC) (h.apart.held s hsmem t htmem v hv)
  by_cases hson : s.son.vertices = []
  · rcases h.filled i hlt with ⟨s', hs', hne⟩ | ⟨⟨v, p, hp, hvspan⟩, w, q, hq, hwspan⟩
    · rw [hs, Option.some.injEq] at hs'
      exact hne (hs' ▸ hson)
    · have hstop : ∀ x, row.pattern i x → row.pattern j x := by
        intro x hx
        obtain ⟨s', hs', hx⟩ := Row.pattern_iff.1 hx
        rw [hs, Option.some.injEq] at hs'
        exact Row.pattern_iff.2 ⟨t, ht, hheld x (hs' ▸ hx)⟩
      have hv := (hvspan j).1 (hstop v (hvspan.held (Nat.le_of_lt hp) (Nat.le_refl i)))
      have hw := (hwspan j).1 (hstop w (hwspan.held (Nat.le_refl i) (Nat.le_of_lt hq)))
      omega
  · obtain ⟨v, hv⟩ := (hproper s hsmem).bag_nonempty hson B hB
    have hvs := (hproper s hsmem).mem_of_bag hB hv
    rcases hsub (Or.inr hv) with hvt | hvC
    · exact h.apart.held t htmem s hsmem v hvt hvs
    · have hvt := (hproper t htmem).mem_of_bag hC hvC
      have hdisjoint := List.pairwise_iff_getElem.1 h.apart.sons
      obtain ⟨hi, rfl⟩ := List.getElem?_eq_some_iff.1 hs
      obtain ⟨hj, rfl⟩ := List.getElem?_eq_some_iff.1 ht
      rcases Nat.lt_or_gt_of_ne hij with hlt | hlt
      · exact hdisjoint i j hi hj hlt v hvs hvt
      · exact hdisjoint j i hj hi hlt v hvt hvs

/-- No bag of a node in normal form contains another one. -/
theorem Proper.incomparable (h : N.Proper) : N.bags.Pairwise Incomparable := by
  induction h with
  | leaf nodup => simp
  | @pnode held children nodup apart sons firm arity proper ih =>
      rw [bags_pnode, List.pairwise_flatMap]
      constructor
      · intro c hc
        have hout : ∀ B ∈ c.bags, ∀ v ∈ B, v ∉ ({v | v ∈ held} : Set Vertex) :=
          fun B hB v hv hheld => apart c hc v hheld ((proper c hc).mem_of_bag hB hv)
        rw [bagsUnder, List.pairwise_map]
        exact (ih c hc).imp_of_mem fun hB hC hBC => hBC.union (hout _ hB) (hout _ hC)
      · -- Below different children, each bag has a vertex that the other one lacks, since children are firm.
        refine sons.imp_of_mem fun {c d} hc hd hcd B hB C hC => ?_
        obtain ⟨B, hBc, rfl⟩ := mem_bagsUnder.1 hB
        obtain ⟨C, hCd, rfl⟩ := mem_bagsUnder.1 hC
        obtain ⟨v, hv⟩ := (proper c hc).bag_nonempty
          ((proper c hc).vertices_ne_nil (firm c hc)) B hBc
        obtain ⟨w, hw⟩ := (proper d hd).bag_nonempty
          ((proper d hd).vertices_ne_nil (firm d hd)) C hCd
        have hvc := (proper c hc).mem_of_bag hBc hv
        have hwd := (proper d hd).mem_of_bag hCd hw
        constructor
        · intro hsub
          rcases hsub (Or.inr hv) with hheld | hvC
          · exact apart c hc v hheld hvc
          · exact hcd v hvc ((proper d hd).mem_of_bag hCd hvC)
        · intro hsub
          rcases hsub (Or.inr hw) with hheld | hwB
          · exact apart d hd w hheld hwd
          · exact hcd w ((proper c hc).mem_of_bag hBc hwB) hwd
  | @qnode row standing proper ih =>
      rw [bags_qnode, List.pairwise_flatMap]
      constructor
      · intro s hs
        have hout : ∀ B ∈ s.son.bags, ∀ v ∈ B, v ∉ ({v | v ∈ s.held} : Set Vertex) :=
          fun B hB v hv hheld =>
            standing.apart.held s hs s hs v hheld ((proper s hs).mem_of_bag hB hv)
        rw [bagsUnder, List.pairwise_map]
        exact (ih s hs).imp_of_mem fun hB hC hBC => hBC.union (hout _ hB) (hout _ hC)
      · -- Below different sections, the row itself tells the bags apart.
        refine List.pairwise_iff_getElem.2 fun i j hi hj hij B hB C hC => ?_
        obtain ⟨B, hBc, rfl⟩ := mem_bagsUnder.1 hB
        obtain ⟨C, hCd, rfl⟩ := mem_bagsUnder.1 hC
        have hi' := List.getElem?_eq_getElem hi
        have hj' := List.getElem?_eq_getElem hj
        exact ⟨Row.Standing.exists_own standing proper (Nat.ne_of_lt hij) hi' hj' hBc hCd,
          Row.Standing.exists_own standing proper (Nat.ne_of_gt hij) hj' hi' hCd hBc⟩

/-! ## The lists of a node -/

/-- The lists below a node have the vertices of its bags, with those held above. -/
theorem cliques_bags (N : Node) (above : List Vertex) :
    (N.cliques above).map (fun K => {v | v ∈ K}) = N.bagsUnder above := by
  have hunion : ∀ (held above : List Vertex) (B : Set Vertex),
      ({v | v ∈ held ++ above} ∪ B : Set Vertex) = {v | v ∈ above} ∪ ({v | v ∈ held} ∪ B) := by
    intro held above B
    ext v
    simp only [List.mem_append, Set.mem_union, Set.mem_ofPred_eq]
    tauto
  have hunder : ∀ (held : List Vertex) (above : List Vertex) (c : Node),
      (c.bagsUnder held).map ({v | v ∈ above} ∪ ·) = c.bagsUnder (held ++ above) := by
    intro held above c
    rw [bagsUnder, bagsUnder, List.map_map]
    exact List.map_congr_left fun B _ => (hunion held above B).symm
  -- The vertices held above are handed down, so the induction is for any of them.
  induction N using Node.induction generalizing above with
  | hleaf held =>
      rw [cliques_leaf, bagsUnder, bags_leaf]
      simp only [List.map_cons, List.map_nil]
      congr 1
      ext v
      simp [or_comm]
  | hpnode held children ih =>
      rw [cliques_pnode, bagsUnder, bags_pnode, List.map_flatMap, List.map_flatMap]
      exact List.flatMap_congr fun c hc => by rw [ih c hc, hunder]
  | hqnode row ih =>
      rw [cliques_qnode, bagsUnder, bags_qnode, List.map_flatMap, List.map_flatMap]
      exact List.flatMap_congr fun s hs => by rw [ih s hs, hunder]

/-- The lists of a node in normal form are strictly ascending. -/
theorem Proper.pairwise_cliques (h : N.Proper) (habove : above.Nodup)
    (hout : ∀ v ∈ above, v ∉ N.vertices) : ∀ K ∈ N.cliques above, K.Pairwise (· < ·) := by
  -- What is held above grows on the way down and stays apart from what is below.
  induction h generalizing above with
  | @leaf held nodup =>
      intro K hK
      rw [cliques_leaf, List.mem_singleton] at hK
      rw [hK]
      refine pairwise_mergeSort_lt (List.nodup_append.2 ⟨nodup, habove, ?_⟩)
      rintro v hv w hw rfl
      exact hout v hw (by simpa using hv)
  | @pnode held children nodup apart sons firm arity proper ih =>
      intro K hK
      rw [cliques_pnode, List.mem_flatMap] at hK
      obtain ⟨c, hc, hK⟩ := hK
      refine ih c hc (List.nodup_append.2 ⟨nodup, habove, ?_⟩) ?_ K hK
      · rintro v hv w hw rfl
        exact (not_mem_vertices_pnode.1 (hout v hw)).1 hv
      · intro v hv
        rcases List.mem_append.1 hv with hv | hv
        · exact apart c hc v hv
        · exact (not_mem_vertices_pnode.1 (hout v hv)).2 c hc
  | @qnode row standing proper ih =>
      intro K hK
      rw [cliques_qnode, List.mem_flatMap] at hK
      obtain ⟨s, hs, hK⟩ := hK
      refine ih s hs (List.nodup_append.2 ⟨standing.apart.nodup s hs, habove, ?_⟩) ?_ K hK
      · rintro v hv w hw rfl
        exact (not_mem_vertices_qnode.1 (hout v hw) s hs).1 hv
      · intro v hv
        rcases List.mem_append.1 hv with hv | hv
        · exact standing.apart.held s hs s hs v hv
        · exact (not_mem_vertices_qnode.1 (hout v hv) s hs).2

end Node

namespace CliqueTree

variable {t : CliqueTree} {calls : Calls} {v : Vertex}

/-! ## The lists of a tree -/

theorem Sound.cliques_eq_nil (h : t.Sound) (hroot : t.root = none) : t.placed = [] := by
  rw [List.eq_nil_iff_forall_not_mem]
  intro v hv
  have hv' := (h.placed v).2 hv
  simp [node, hroot] at hv'

/-- The lists of a tree in normal form have the vertices of its bags, unless it is empty. -/
theorem map_cliques (hroot : t.root ≠ none) :
    t.cliques.map (fun K => {v | v ∈ K}) = t.node.bags := by
  obtain ⟨N, hN⟩ := Option.ne_none_iff_exists'.1 hroot
  have hnone : ({v | v ∈ ([] : List Vertex)} : Set Vertex) = ∅ := by simp
  simp only [cliques, node, hN, Option.getD_some, Node.cliques_bags, Node.bagsUnder, hnone,
    Set.empty_union, List.map_id']

/-- The position of a list and of its bag. -/
theorem exists_clique_iff (hroot : t.root ≠ none) (p : Nat) (v : Vertex) :
    (∃ K, t.cliques[p]? = some K ∧ v ∈ K) ↔ BagAt t.node.bags p v := by
  rw [BagAt, ← map_cliques hroot]
  simp only [List.getElem?_map, Option.map_eq_some_iff]
  constructor
  · rintro ⟨K, hK, hv⟩
    exact ⟨_, ⟨K, hK, rfl⟩, hv⟩
  · rintro ⟨_, ⟨K, hK, rfl⟩, hv⟩
    exact ⟨K, hK, hv⟩

/-- The cliques and the intervals of a tree in normal form are two readings of one arrangement. -/
theorem Sound.mem_clique_iff (h : t.Sound) (hv : v ∈ t.placed) :
    ∃ i, t.node.arrangement.interval? v = some i ∧ i.start < i.stop ∧
      i.stop ≤ t.cliques.length ∧
      ∀ p, (∃ K, t.cliques[p]? = some K ∧ v ∈ K) ↔ i.start ≤ p ∧ p < i.stop := by
  have hroot : t.root ≠ none := by
    intro hnone
    simp [h.cliques_eq_nil hnone] at hv
  obtain ⟨i, hi, hlt, hbags⟩ := h.exists_range hv
  refine ⟨i, hi, hlt, ?_, fun p => (exists_clique_iff hroot p v).trans (hbags p)⟩
  have hlast := ((hbags (i.stop - 1)).2 (by omega)).lt_length
  have hlength : t.cliques.length = t.node.bags.length := by
    rw [← map_cliques hroot, List.length_map]
  omega

theorem Sound.mem_placed_of_mem_clique (h : t.Sound) {K : List Vertex} (hK : K ∈ t.cliques)
    (hv : v ∈ K) : v ∈ t.placed := by
  have hroot : t.root ≠ none := by
    intro hnone
    simp [cliques, hnone] at hK
  obtain ⟨p, hp⟩ := List.mem_iff_getElem?.1 hK
  obtain ⟨B, hB, hvB⟩ := (exists_clique_iff hroot p v).1 ⟨K, hp, hv⟩
  exact h.mem_placed.2 ⟨B, List.mem_of_getElem? hB, hvB⟩

theorem Sound.pairwise_cliques (h : t.Sound) : ∀ K ∈ t.cliques, K.Pairwise (· < ·) := by
  intro K hK
  cases hroot : t.root with
  | none => simp [cliques, hroot] at hK
  | some N =>
      have hproper : N.Proper := by simpa [node, hroot] using h.proper
      refine hproper.pairwise_cliques List.nodup_nil (by simp) K ?_
      simpa [cliques, hroot] using hK

theorem Sound.nodup_cliques (h : t.Sound) : t.cliques.Nodup := by
  cases hroot : t.root with
  | none => simp [cliques, hroot]
  | some N =>
      have hbags := h.proper.incomparable
      rw [← map_cliques (by simp [hroot]), List.pairwise_map] at hbags
      refine hbags.imp fun {K L} hKL heq => ?_
      exact hKL.1 (heq ▸ Set.Subset.rfl)

theorem Sound.bag_nonempty (h : t.Sound) (hplaced : t.placed ≠ []) :
    ∀ B ∈ t.bags, B.Nonempty := by
  obtain ⟨v, hv⟩ := List.exists_mem_of_ne_nil _ hplaced
  exact h.proper.bag_nonempty (List.ne_nil_of_mem ((h.placed v).2 hv))

/-- A tree with a history has a root as soon as a vertex was put in. -/
theorem After.root_eq_none_iff (h : After calls t) : t.root = none ↔ t.placed = [] := by
  cases h with
  | start => simp [empty]
  | @insert calls t t' g u _ _ hins =>
      obtain ⟨hg, hu⟩ := insert_ok hins
      rw [insert_eq hg hu] at hins
      cases hat : attach? t.root u (t.placedNeighbors g u) with
      | none => simp [hat] at hins
      | some N =>
          simp only [hat, Except.ok.injEq, Placement.placed.injEq] at hins
          simp [← hins]

/-- Vertices that pairwise share a bag have a bag in common: the one in which the last of their
ranges starts. -/
theorem Sound.exists_common_bag (h : t.Sound) {K : Set Vertex} (hne : K.Nonempty)
    (hsub : ∀ v ∈ K, v ∈ t.placed)
    (hshares : ∀ v ∈ K, ∀ w ∈ K, v ≠ w → Shares t.bags v w) : ∃ B ∈ t.bags, K ⊆ B := by
  have hrange : ∀ v ∈ K, ∃ i : Interval, i.start < i.stop ∧
      ∀ k, BagAt t.node.bags k v ↔ i.start ≤ k ∧ k < i.stop := by
    intro v hv
    obtain ⟨i, -, hlt, hi⟩ := h.exists_range (hsub v hv)
    exact ⟨i, hlt, hi⟩
  have : Nonempty Interval := ⟨⟨0, 0⟩⟩
  choose! range hlt hbag using hrange
  have hfinite : K.Finite := t.placed.toFinset.finite_toSet.subset fun v hv => by
    simpa using hsub v hv
  -- The vertex whose range starts last.
  obtain ⟨w, hw, hlast⟩ := hfinite.exists_maximalFor (fun v => (range v).start) K hne
  have hmeet : ∀ v ∈ K, BagAt t.node.bags (range w).start v := by
    intro v hv
    have hle : (range v).start ≤ (range w).start := by
      rcases Nat.le_total (range v).start (range w).start with hle | hle
      · exact hle
      · exact hlast hv hle
    refine (hbag v hv _).2 ⟨hle, ?_⟩
    by_cases hvw : v = w
    · exact hvw ▸ hlt v hv
    · -- The bag that both share lies in both ranges, so the range of `v` reaches the start of the other.
      obtain ⟨B, hB, hvB, hwB⟩ := hshares v hv w hw hvw
      obtain ⟨k, hk⟩ := List.mem_iff_getElem?.1 hB
      have h1 := (hbag v hv k).1 ⟨B, hk, hvB⟩
      have h2 := (hbag w hw k).1 ⟨B, hk, hwB⟩
      omega
  obtain ⟨B, hB, -⟩ := hmeet w hw
  refine ⟨B, List.mem_of_getElem? hB, fun v hv => ?_⟩
  obtain ⟨C, hC, hvC⟩ := hmeet v hv
  rw [hB, Option.some.injEq] at hC
  exact hC ▸ hvC

/-- The lists of a tree with a history are the maximal cliques of the recorded graph. -/
theorem After.mem_cliques_iff (hafter : After calls t) {K : List Vertex}
    (hK : K.Pairwise (· < ·)) :
    K ∈ t.cliques ↔ MaximalClique (inserted calls) (recorded calls) {v | v ∈ K} := by
  have h := hafter.keeps
  have hjoined : ∀ v ∈ inserted calls, ∀ w ∈ inserted calls, v ≠ w →
      (Shares t.bags v w ↔ recorded calls v w) := by
    intro v hv w hw hvw
    rw [← h.placed] at hv hw
    exact h.shares v hv w hw hvw
  have hplaced : ∀ v, v ∈ inserted calls ↔ ∃ B ∈ t.bags, v ∈ B := fun v =>
    h.placed ▸ h.sound.mem_placed
  -- A set of placed vertices lies in a bag as soon as its members are pairwise joined.
  have hcommon : ∀ J : Set Vertex, J.Nonempty → (∀ v ∈ J, v ∈ inserted calls) →
      (∀ v ∈ J, ∀ w ∈ J, v ≠ w → recorded calls v w) → ∃ B ∈ t.bags, J ⊆ B := by
    intro J hne hsub hrec
    refine h.sound.exists_common_bag hne (fun v hv => h.placed ▸ hsub v hv) ?_
    exact fun v hv w hw hvw => (hjoined v (hsub v hv) w (hsub w hw) hvw).2 (hrec v hv w hw hvw)
  by_cases hroot : t.root = none
  · have hnone : inserted calls = [] := h.placed ▸ h.sound.cliques_eq_nil hroot
    constructor
    · intro hmem
      simp [cliques, hroot] at hmem
    · intro hmax
      obtain ⟨v, hv⟩ := hmax.nonempty
      have hv' := hmax.sub v hv
      simp [hnone] at hv'
  · have hbags : ∀ B : Set Vertex, B ∈ t.bags ↔ ∃ L ∈ t.cliques, {v | v ∈ L} = B := by
      intro B
      show B ∈ t.node.bags ↔ _
      rw [← map_cliques hroot, List.mem_map]
    have hsub : ∀ B ∈ t.bags, ∀ v ∈ B, v ∈ inserted calls :=
      fun B hB v hv => (hplaced v).2 ⟨B, hB, hv⟩
    have hantichain : ∀ B ∈ t.bags, ∀ C ∈ t.bags, B ⊆ C → B = C := by
      intro B hB C hC hBC
      by_contra hne
      have hsymm : Std.Symm Incomparable := ⟨fun _ _ h => ⟨h.2, h.1⟩⟩
      exact (h.sound.proper.incomparable.forall hB hC hne).1 hBC
    constructor
    · intro hmem
      have hKbag : {v | v ∈ K} ∈ t.bags := (hbags _).2 ⟨K, hmem, rfl⟩
      have hrec : ∀ v ∈ K, ∀ w ∈ K, v ≠ w → recorded calls v w := fun v hv w hw hvw =>
        (hjoined v (hsub _ hKbag v hv) w (hsub _ hKbag w hw) hvw).1 ⟨_, hKbag, hv, hw⟩
      refine ⟨h.sound.bag_nonempty (mt hafter.root_eq_none_iff.2 hroot) _ hKbag, hsub _ hKbag, hrec,
        fun v hv hjoin => ?_⟩
      -- With the vertex the clique would lie in a bag, which then contains this one.
      obtain ⟨B, hB, hKB⟩ := hcommon (Insert.insert v {v | v ∈ K}) (Set.insert_nonempty v _)
        (by
          rintro x (rfl | hx)
          · exact hv
          · exact hsub _ hKbag x hx)
        (by
          rintro x (rfl | hx) y (rfl | hy) hxy
          · exact absurd rfl hxy
          · exact hjoin y hy hxy
          · exact recorded_symm (hjoin x hx (Ne.symm hxy))
          · exact hrec x hx y hy hxy)
      have heq := hantichain _ hKbag B hB ((Set.subset_insert v _).trans hKB)
      exact heq ▸ hKB (Set.mem_insert v _)
    · intro hmax
      obtain ⟨B, hB, hKB⟩ := hcommon _ hmax.nonempty hmax.sub hmax.joined
      obtain ⟨L, hL, rfl⟩ := (hbags B).1 hB
      have hLK : ∀ v ∈ L, v ∈ K := by
        intro v hv
        refine hmax.maximal v (hsub _ hB v hv) fun w hw hvw => ?_
        exact (hjoined v (hsub _ hB v hv) w (hmax.sub w hw) hvw).1 ⟨_, hB, hv, hKB hw⟩
      have hsame : K = L := (List.perm_ext_iff_of_nodup (hK.imp Nat.ne_of_lt)
        ((h.sound.pairwise_cliques L hL).imp Nat.ne_of_lt)).2
          (fun v => ⟨fun hv => hKB hv, hLK v⟩) |>.eq_of_pairwise
            (fun a b _ _ hab hba => absurd hba (Nat.lt_asymm hab)) hK (h.sound.pairwise_cliques L hL)
      exact hsame ▸ hL

/-- The cliques of a tree with a history are the maximal cliques of the recorded graph, each once
and strictly ascending, and those of any vertex are consecutive. -/
theorem cliques_maximal (h : After calls t) :
    (∀ K ∈ t.cliques, K.Pairwise (· < ·)) ∧ t.cliques.Nodup ∧
      (∀ K : List Vertex, K.Pairwise (· < ·) →
        (K ∈ t.cliques ↔ MaximalClique (inserted calls) (recorded calls) {v | v ∈ K})) ∧
      ∀ v, ∃ first stop : Nat, ∀ p : Nat,
        (∃ K, t.cliques[p]? = some K ∧ v ∈ K) ↔ first ≤ p ∧ p < stop := by
  have hkeeps := h.keeps
  refine ⟨hkeeps.sound.pairwise_cliques, hkeeps.sound.nodup_cliques, fun K hK => ?_, fun v => ?_⟩
  · exact h.mem_cliques_iff hK
  · by_cases hv : v ∈ t.placed
    · obtain ⟨i, -, -, -, hi⟩ := hkeeps.sound.mem_clique_iff hv
      exact ⟨i.start, i.stop, hi⟩
    · refine ⟨0, 0, fun p => iff_of_false ?_ (by omega)⟩
      rintro ⟨K, hK, hvK⟩
      exact hv (hkeeps.sound.mem_placed_of_mem_clique (List.mem_of_getElem? hK) hvK)

/-- The cliques and the intervals of a tree with a history agree. -/
theorem cliques_agree_intervals (h : After calls t) :
    (∀ v ∈ inserted calls, ∃ i, t.intervals.get? v = some i ∧ i.stop ≤ t.cliques.length + 1 ∧
      ∀ p, 1 ≤ p → ((∃ K, t.cliques[p - 1]? = some K ∧ v ∈ K) ↔ i.start ≤ p ∧ p < i.stop)) ∧
      ∀ K ∈ t.cliques, K.Nodup ∧ ∀ v ∈ K, v ∈ inserted calls := by
  have hkeeps := h.keeps
  constructor
  · intro v hv
    rw [← hkeeps.placed] at hv
    obtain ⟨i, hi, -, hstop, hrange⟩ := hkeeps.sound.mem_clique_iff hv
    have hmem : (v, i.shift 1) ∈ t.intervals := hkeeps.sound.mem_intervals.2 ⟨hv, i, hi, rfl⟩
    have hkeys : (t.intervals.map Prod.fst).Nodup := by
      rw [hkeeps.sound.keys_intervals]
      exact (List.mergeSort_perm _ _).nodup_iff.2 hkeeps.sound.nodup
    -- Positions count from one in the answer and from zero in the bags.
    refine ⟨i.shift 1, Assignment.get?_of_mem hkeys hmem, by simpa [Interval.shift] using hstop,
      fun p hp => ?_⟩
    rw [hrange]
    simp only [Interval.shift]
    omega
  · intro K hK
    refine ⟨(hkeeps.sound.pairwise_cliques K hK).imp Nat.ne_of_lt, fun v hv => ?_⟩
    rw [← hkeeps.placed]
    exact hkeeps.sound.mem_placed_of_mem_clique hK hv

end CliqueTree

end CliquePath
