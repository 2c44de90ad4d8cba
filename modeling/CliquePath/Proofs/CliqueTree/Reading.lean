import CliquePath.CliqueTree.Arrangement
import CliquePath.Proofs.CliqueTree.Places

set_option autoImplicit false

/-!
# Reading intervals off a clique tree

This module shows that the interval read off a tree in normal form for a vertex is the range of the
bags that have the vertex. The ranges of the places that hold a vertex make up the positions of its
bags, by induction over the node; these bags are consecutive, by a second induction; so the hull of
the ranges adds no position.
-/

namespace CliquePath

/-- The bag at a position has the vertex. -/
def BagAt (bags : List (Set Vertex)) (k : Nat) (v : Vertex) : Prop := ∃ B, bags[k]? = some B ∧ v ∈ B

section BagAt

variable {left right : List (Set Vertex)} {bags : List (Set Vertex)} {k : Nat} {v : Vertex}

theorem BagAt.lt_length (h : BagAt bags k v) : k < bags.length := by
  obtain ⟨B, hB, -⟩ := h
  exact (List.getElem?_eq_some_iff.1 hB).1

theorem exists_bagAt_iff : (∃ k, BagAt bags k v) ↔ ∃ B ∈ bags, v ∈ B := by
  constructor
  · rintro ⟨k, B, hB, hv⟩
    exact ⟨B, List.mem_of_getElem? hB, hv⟩
  · rintro ⟨B, hB, hv⟩
    obtain ⟨k, hk⟩ := List.mem_iff_getElem?.1 hB
    exact ⟨k, B, hk, hv⟩

theorem bagAt_append_left (h : k < left.length) : BagAt (left ++ right) k v ↔ BagAt left k v := by
  simp [BagAt, List.getElem?_append_left h]

theorem bagAt_append_right (h : left.length ≤ k) :
    BagAt (left ++ right) k v ↔ BagAt right (k - left.length) v := by
  simp [BagAt, List.getElem?_append_right h]

theorem bagAt_map_union {held : List Vertex} :
    BagAt (bags.map ({v | v ∈ held} ∪ ·)) k v ↔
      k < bags.length ∧ v ∈ held ∨ BagAt bags k v := by
  simp only [BagAt, List.getElem?_map, Option.map_eq_some_iff]
  constructor
  · rintro ⟨B, ⟨C, hC, rfl⟩, hv | hv⟩
    · exact Or.inl ⟨(List.getElem?_eq_some_iff.1 hC).1, hv⟩
    · exact Or.inr ⟨C, hC, hv⟩
  · rintro (⟨hk, hv⟩ | ⟨C, hC, hv⟩)
    · exact ⟨_, ⟨_, List.getElem?_eq_getElem hk, rfl⟩, Or.inl hv⟩
    · exact ⟨_, ⟨C, hC, rfl⟩, Or.inr hv⟩

end BagAt

/-! ## The ranges of the places -/

namespace Arrangement

/-- The places of an arrangement tell which vertices each bag of a list has. -/
structure Reads (a : Arrangement) (bags : List (Set Vertex)) : Prop where
  width : a.width = bags.length
  ranges : ∀ p ∈ a.places, p.range.start < p.range.stop ∧ p.range.stop ≤ a.width
  covers : ∀ v k, BagAt bags k v ↔
    ∃ p ∈ a.places, v ∈ p.held ∧ p.range.start ≤ k ∧ k < p.range.stop

variable {a b : Arrangement} {bags bags' : List (Set Vertex)}

theorem reads_single : single.Reads [∅] where
  width := rfl
  ranges p hp := by simp [single] at hp
  covers v k := by
    simp only [single, List.not_mem_nil, false_and, exists_false, iff_false]
    rintro ⟨B, hB, hv⟩
    rw [List.mem_singleton.1 (List.mem_of_getElem? hB)] at hv
    exact hv

theorem Reads.under (h : a.Reads bags) (held : List Vertex) (hne : bags ≠ []) :
    (under held a).Reads (bags.map ({v | v ∈ held} ∪ ·)) where
  width := by
    rw [List.length_map]
    exact h.width
  ranges p hp := by
    rcases List.mem_cons.1 hp with rfl | hp
    · have := List.length_pos_iff.2 hne
      refine ⟨?_, Nat.le_refl _⟩
      show 0 < a.width
      rw [h.width]
      exact this
    · exact h.ranges p hp
  covers v k := by
    rw [bagAt_map_union, h.covers]
    simp only [Arrangement.under, List.mem_cons, exists_eq_or_imp, Nat.zero_le, true_and, h.width]
    exact or_congr_left and_comm

theorem Reads.beside (h : a.Reads bags) (h' : b.Reads bags') :
    (beside a b).Reads (bags ++ bags') where
  width := by
    rw [List.length_append, ← h.width, ← h'.width]
    rfl
  ranges p hp := by
    show p.range.start < p.range.stop ∧ p.range.stop ≤ a.width + b.width
    rcases List.mem_append.1 hp with hp | hp
    · have := h.ranges p hp
      omega
    · obtain ⟨q, hq, rfl⟩ := List.mem_map.1 hp
      have := h'.ranges q hq
      show q.range.start + a.width < q.range.stop + a.width ∧ _
      simp only [Interval.shift]
      omega
  covers v k := by
    simp only [Arrangement.beside, List.mem_append, List.mem_map, or_and_right, exists_or,
      exists_exists_and_eq_and, Interval.shift]
    -- The ranges on the right were shifted by the width of the left arrangement.
    rcases Nat.lt_or_ge k bags.length with hk | hk
    · rw [bagAt_append_left hk, h.covers]
      refine (or_iff_left ?_).symm
      rintro ⟨p, -, -, hp, -⟩
      rw [h.width] at hp
      omega
    · rw [bagAt_append_right hk, h'.covers, ← h.width]
      rw [← h.width] at hk
      constructor
      · rintro ⟨p, hp, hv, h1, h2⟩
        exact Or.inr ⟨p, hp, hv, by omega, by omega⟩
      · rintro (⟨p, hp, hv, h1, h2⟩ | ⟨p, hp, hv, h1, h2⟩)
        · have := h.ranges p hp
          omega
        · exact ⟨p, hp, hv, by omega, by omega⟩

theorem reads_inRow {α : Type} {f : α → Arrangement} {bagsOf : α → List (Set Vertex)}
    {items : List α} (h : ∀ x ∈ items, (f x).Reads (bagsOf x)) :
    (inRow (items.map f)).Reads (items.flatMap bagsOf) := by
  induction items with
  | nil =>
      refine ⟨rfl, fun p hp => by simp [inRow] at hp, fun v k => ?_⟩
      simp [BagAt, inRow]
  | cons x rest ih =>
      exact (h x List.mem_cons_self).beside (ih fun y hy => h y (List.mem_cons_of_mem x hy))

/-- The hull of some ranges starts and stops where one of them does. -/
theorem foldl_hull (first : Interval) (rest : List Interval) :
    (∃ i ∈ first :: rest, (rest.foldl Interval.hull first).start = i.start) ∧
      (∃ i ∈ first :: rest, (rest.foldl Interval.hull first).stop = i.stop) ∧
      ∀ i ∈ first :: rest, (rest.foldl Interval.hull first).start ≤ i.start ∧
        i.stop ≤ (rest.foldl Interval.hull first).stop := by
  -- The hull of the first two ranges takes the place of the first one.
  induction rest generalizing first with
  | nil => simp
  | cons j rest ih =>
      rw [List.foldl_cons]
      obtain ⟨⟨i₁, hi₁, hstart⟩, ⟨i₂, hi₂, hstop⟩, hall⟩ := ih (first.hull j)
      have hhull : (rest.foldl Interval.hull (first.hull j)).start ≤ min first.start j.start ∧
          max first.stop j.stop ≤ (rest.foldl Interval.hull (first.hull j)).stop :=
        hall (first.hull j) List.mem_cons_self
      refine ⟨?_, ?_, ?_⟩
      · rcases List.mem_cons.1 hi₁ with rfl | hi₁
        · rw [hstart]
          rcases Nat.le_total first.start j.start with hle | hle
          · exact ⟨first, by simp, Nat.min_eq_left hle⟩
          · exact ⟨j, by simp, Nat.min_eq_right hle⟩
        · exact ⟨i₁, by simp [hi₁], hstart⟩
      · rcases List.mem_cons.1 hi₂ with rfl | hi₂
        · rw [hstop]
          rcases Nat.le_total first.stop j.stop with hle | hle
          · exact ⟨j, by simp, Nat.max_eq_right hle⟩
          · exact ⟨first, by simp, Nat.max_eq_left hle⟩
        · exact ⟨i₂, by simp [hi₂], hstop⟩
      · intro i hi
        rcases List.mem_cons.1 hi with rfl | hi
        · omega
        · rcases List.mem_cons.1 hi with rfl | hi
          · omega
          · exact hall i (List.mem_cons_of_mem _ hi)

/-- The hull of the ranges of a vertex starts and stops with bags that have the vertex, and no bag
beyond it has the vertex. -/
theorem Reads.exists_interval? {v : Vertex} (h : a.Reads bags) (hv : ∃ k, BagAt bags k v) :
    ∃ i, a.interval? v = some i ∧ i.start < i.stop ∧ BagAt bags i.start v ∧
      BagAt bags (i.stop - 1) v ∧ ∀ k, BagAt bags k v → i.start ≤ k ∧ k < i.stop := by
  have hmem : ∀ i, i ∈ (a.places.filter fun p => p.held.contains v).map Place.range ↔
      ∃ p ∈ a.places, v ∈ p.held ∧ p.range = i := by
    intro i
    simp [and_assoc]
  -- Some bag has the vertex, so some place holds it.
  obtain ⟨first, rest, hlist⟩ : ∃ first rest,
      (a.places.filter fun p => p.held.contains v).map Place.range = first :: rest := by
    obtain ⟨k, hk⟩ := hv
    obtain ⟨p, hp, hvp, -⟩ := (h.covers v k).1 hk
    exact List.exists_cons_of_ne_nil (List.ne_nil_of_mem ((hmem _).2 ⟨p, hp, hvp, rfl⟩))
  rw [hlist] at hmem
  obtain ⟨⟨i₁, hi₁, hstart⟩, ⟨i₂, hi₂, hstop⟩, hall⟩ := foldl_hull first rest
  refine ⟨rest.foldl Interval.hull first, ?_, ?_, ?_, ?_, ?_⟩
  · unfold interval?
    rw [hlist]
  · obtain ⟨p, hp, hvp, rfl⟩ := (hmem i₁).1 hi₁
    have h1 := h.ranges p hp
    have h2 := hall _ hi₁
    omega
  · obtain ⟨p, hp, hvp, rfl⟩ := (hmem i₁).1 hi₁
    rw [hstart]
    exact (h.covers v _).2 ⟨p, hp, hvp, Nat.le_refl _, (h.ranges p hp).1⟩
  · obtain ⟨p, hp, hvp, rfl⟩ := (hmem i₂).1 hi₂
    have h1 := h.ranges p hp
    rw [hstop]
    exact (h.covers v _).2 ⟨p, hp, hvp, by omega, by omega⟩
  · intro k hk
    obtain ⟨p, hp, hvp, h1, h2⟩ := (h.covers v k).1 hk
    have h3 := hall _ ((hmem _).2 ⟨p, hp, hvp, rfl⟩)
    omega

end Arrangement

namespace Node

variable {N : Node} {v : Vertex}

/-- The places of a node in normal form tell which vertices its bags have. -/
theorem Proper.reads (h : N.Proper) : N.arrangement.Reads N.bags := by
  induction h with
  | @leaf held nodup =>
      rw [arrangement_leaf, bags_leaf]
      have h := Arrangement.reads_single.under held (List.cons_ne_nil _ _)
      simpa using h
  | @pnode held children nodup apart sons firm arity proper ih =>
      rw [arrangement_pnode, bags_pnode]
      have hrow := Arrangement.reads_inRow ih
      have hne : children.flatMap bags ≠ [] := by
        have hchildren := (Proper.pnode nodup apart sons firm arity proper).children_ne_nil
        obtain ⟨c, hc⟩ := List.exists_mem_of_ne_nil _ hchildren
        obtain ⟨B, hB⟩ := List.exists_mem_of_ne_nil _ (proper c hc).bags_ne_nil
        exact List.ne_nil_of_mem (List.mem_flatMap.2 ⟨c, hc, hB⟩)
      have h := hrow.under held hne
      rwa [List.map_flatMap] at h
  | @qnode row standing proper ih =>
      rw [arrangement_qnode, bags_qnode]
      exact Arrangement.reads_inRow fun s hs => (ih s hs).under s.held (proper s hs).bags_ne_nil

/-! ## The bags of a vertex are consecutive -/

end Node

/-- The bags that have the vertex stand in one block. -/
def Blocked (bags : List (Set Vertex)) (v : Vertex) : Prop :=
  ∃ pre mid post, bags = pre ++ (mid ++ post) ∧ (∀ B ∈ pre, v ∉ B) ∧ (∀ B ∈ mid, v ∈ B) ∧
    ∀ B ∈ post, v ∉ B

namespace Blocked

variable {bags : List (Set Vertex)} {v : Vertex}

/-- A bag between two bags that have the vertex has it as well. -/
theorem between (h : Blocked bags v) {i j k : Nat} (hi : BagAt bags i v) (hk : BagAt bags k v)
    (hij : i ≤ j) (hjk : j ≤ k) : BagAt bags j v := by
  obtain ⟨pre, mid, post, rfl, hpre, hmid, hpost⟩ := h
  have hpi : pre.length ≤ i := by
    by_contra hlt
    rw [bagAt_append_left (by omega)] at hi
    obtain ⟨B, hB, hv⟩ := hi
    exact hpre B (List.mem_of_getElem? hB) hv
  have hkm : k < pre.length + mid.length := by
    by_contra hge
    rw [bagAt_append_right (by omega), bagAt_append_right (by omega)] at hk
    obtain ⟨B, hB, hv⟩ := hk
    exact hpost B (List.mem_of_getElem? hB) hv
  have hlt : j - pre.length < mid.length := by omega
  rw [bagAt_append_right (by omega), bagAt_append_left hlt]
  exact ⟨_, List.getElem?_eq_getElem hlt, hmid _ (List.getElem_mem hlt)⟩

theorem of_forall (h : ∀ B ∈ bags, v ∈ B) : Blocked bags v :=
  ⟨[], bags, [], by simp, by simp, h, by simp⟩

/-- Other bags that do not have the vertex stand around. -/
theorem within (h : Blocked bags v) {left right : List (Set Vertex)} (hl : ∀ B ∈ left, v ∉ B)
    (hr : ∀ B ∈ right, v ∉ B) : Blocked (left ++ (bags ++ right)) v := by
  obtain ⟨pre, mid, post, rfl, hpre, hmid, hpost⟩ := h
  refine ⟨left ++ pre, mid, post ++ right, by simp, ?_, hmid, ?_⟩
  · intro B hB
    rcases List.mem_append.1 hB with hB | hB
    · exact hl B hB
    · exact hpre B hB
  · intro B hB
    rcases List.mem_append.1 hB with hB | hB
    · exact hpost B hB
    · exact hr B hB

theorem under (h : Blocked bags v) (held : List Vertex) :
    Blocked (bags.map ({v | v ∈ held} ∪ ·)) v := by
  by_cases hv : v ∈ held
  · refine of_forall fun B hB => ?_
    obtain ⟨C, -, rfl⟩ := List.mem_map.1 hB
    exact Or.inl hv
  · obtain ⟨pre, mid, post, rfl, hpre, hmid, hpost⟩ := h
    refine ⟨pre.map ({v | v ∈ held} ∪ ·), mid.map ({v | v ∈ held} ∪ ·),
      post.map ({v | v ∈ held} ∪ ·), by simp, ?_, ?_, ?_⟩
    · intro B hB
      obtain ⟨C, hC, rfl⟩ := List.mem_map.1 hB
      exact fun h => h.elim hv (hpre C hC)
    · intro B hB
      obtain ⟨C, hC, rfl⟩ := List.mem_map.1 hB
      exact Or.inr (hmid C hC)
    · intro B hB
      obtain ⟨C, hC, rfl⟩ := List.mem_map.1 hB
      exact fun h => h.elim hv (hpost C hC)

end Blocked

namespace Node

variable {N : Node} {v : Vertex}

theorem not_mem_flatMap_bagsUnder {α : Type} {items : List α} (heldOf : α → List Vertex)
    (nodeOf : α → Node) (hproper : ∀ x ∈ items, (nodeOf x).Proper)
    (hv : ∀ x ∈ items, v ∉ heldOf x ∧ v ∉ (nodeOf x).vertices) :
    ∀ B ∈ items.flatMap fun x => (nodeOf x).bagsUnder (heldOf x), v ∉ B := by
  intro B hB hvB
  obtain ⟨x, hx, hB⟩ := List.mem_flatMap.1 hB
  rcases (mem_bags_under (hproper x hx).bags_ne_nil).1 ⟨B, hB, hvB⟩ with h | h
  · exact (hv x hx).1 h
  · exact (hv x hx).2 ((hproper x hx).mem_vertices.2 h)

/-- No bag has the vertex. -/
theorem blocked_of_not_mem {bags : List (Set Vertex)} (h : ∀ B ∈ bags, v ∉ B) : Blocked bags v :=
  ⟨bags, [], [], by simp, h, by simp, by simp⟩

/-- A vertex that the places above several nodes do not hold lies below one of the nodes at most. -/
theorem blocked_flatMap {α : Type} {items : List α} (heldOf : α → List Vertex) (nodeOf : α → Node)
    (hproper : ∀ x ∈ items, (nodeOf x).Proper) (hblocked : ∀ x ∈ items, Blocked (nodeOf x).bags v)
    (hheld : ∀ x ∈ items, v ∉ heldOf x)
    (hsons : items.Pairwise fun x y => ∀ v ∈ (nodeOf x).vertices, v ∉ (nodeOf y).vertices) :
    Blocked (items.flatMap fun x => (nodeOf x).bagsUnder (heldOf x)) v := by
  by_cases hson : ∃ x ∈ items, v ∈ (nodeOf x).vertices
  · obtain ⟨x, hx, hvx⟩ := hson
    obtain ⟨before, after, rfl⟩ := List.append_of_mem hx
    obtain ⟨-, hrest, hcross⟩ := List.pairwise_append.1 hsons
    rw [List.flatMap_append, List.flatMap_cons]
    refine ((hblocked x hx).under (heldOf x)).within ?_ ?_
    · refine not_mem_flatMap_bagsUnder heldOf nodeOf (fun y hy => hproper y (by simp [hy])) fun y hy =>
        ⟨hheld y (by simp [hy]), fun hvy => hcross y hy x List.mem_cons_self v hvy hvx⟩
    · refine not_mem_flatMap_bagsUnder heldOf nodeOf (fun y hy => hproper y (by simp [hy])) fun y hy =>
        ⟨hheld y (by simp [hy]), (List.pairwise_cons.1 hrest).1 y hy v hvx⟩
  · push Not at hson
    exact blocked_of_not_mem (not_mem_flatMap_bagsUnder heldOf nodeOf hproper fun x hx =>
      ⟨hheld x hx, hson x hx⟩)

/-- The sections that hold a vertex stand in one block, so its bags do: the row is cut where the span of
the vertex starts and behind where it stops. -/
theorem blocked_span {row : Row (Section Node)} {i : Nat} (standing : row.Standing)
    (proper : ∀ s ∈ row.toList, s.son.Proper) (hi : row.pattern i v) :
    Blocked (row.toList.flatMap fun s => s.son.bagsUnder s.held) v := by
  obtain ⟨s, e, hse, hem, hs⟩ := standing.rigid.lined i v hi
  have hout : ∀ t ∈ row.toList, v ∉ t.son.vertices := by
    obtain ⟨r, hr, hvr⟩ := Row.pattern_iff.1 hi
    exact fun t ht => standing.apart.held r (List.mem_of_getElem? hr) t ht v hvr
  have hsplit : row.toList = row.toList.take s ++
      ((row.toList.drop s).take (e + 1 - s) ++ row.toList.drop (e + 1)) := by
    rw [show row.toList.drop (e + 1) = (row.toList.drop s).drop (e + 1 - s) by
      rw [List.drop_drop, show s + (e + 1 - s) = e + 1 by omega],
      List.take_append_drop, List.take_append_drop]
  refine ⟨_, _, _, by conv_lhs => rw [hsplit, List.flatMap_append, List.flatMap_append], ?_, ?_, ?_⟩
  · refine not_mem_flatMap_bagsUnder Section.held Section.son (fun t ht => proper t (List.mem_of_mem_take ht))
      fun t ht => ⟨fun hvt => ?_, hout t (List.mem_of_mem_take ht)⟩
    obtain ⟨j, hj, rfl⟩ := List.getElem_of_mem ht
    rw [List.length_take] at hj
    rw [List.getElem_take] at hvt
    have := hs.start_le (Row.pattern_iff.2 ⟨_, List.getElem?_eq_getElem (by omega), hvt⟩)
    omega
  · intro B hB
    obtain ⟨t, ht, hB⟩ := List.mem_flatMap.1 hB
    obtain ⟨C, -, rfl⟩ := mem_bagsUnder.1 hB
    obtain ⟨j, hj, rfl⟩ := List.getElem_of_mem ht
    rw [List.length_take, List.length_drop] at hj
    obtain ⟨r, hr, hvr⟩ := Row.pattern_iff.1 (hs.held (i := s + j) (by omega) (by omega))
    rw [List.getElem?_eq_getElem (by omega), Option.some.injEq] at hr
    -- Each of these sections holds the vertex, so all bags below them have it.
    left
    rw [List.getElem_take, List.getElem_drop, hr]
    exact hvr
  · refine not_mem_flatMap_bagsUnder Section.held Section.son (fun t ht => proper t (List.mem_of_mem_drop ht))
      fun t ht => ⟨fun hvt => ?_, hout t (List.mem_of_mem_drop ht)⟩
    obtain ⟨j, hj, rfl⟩ := List.getElem_of_mem ht
    rw [List.length_drop] at hj
    rw [List.getElem_drop] at hvt
    have := hs.le_stop (Row.pattern_iff.2 ⟨_, List.getElem?_eq_getElem (by omega), hvt⟩)
    omega

/-- The bags of a vertex stand in one block. -/
theorem Proper.blocked (h : N.Proper) (v : Vertex) : Blocked N.bags v := by
  induction h with
  | @leaf held nodup =>
      rw [bags_leaf]
      by_cases hv : v ∈ held
      · exact .of_forall (by simpa using hv)
      · exact blocked_of_not_mem (by simpa using hv)
  | @pnode held children nodup apart sons firm arity proper ih =>
      rw [bags_pnode]
      by_cases hheld : v ∈ held
      · refine .of_forall fun B hB => ?_
        obtain ⟨c, -, hB⟩ := List.mem_flatMap.1 hB
        obtain ⟨C, -, rfl⟩ := mem_bagsUnder.1 hB
        exact Or.inl hheld
      · exact blocked_flatMap (fun _ => held) id proper ih (fun _ _ => hheld) sons
  | @qnode row standing proper ih =>
      rw [bags_qnode]
      by_cases hheld : ∃ i, row.pattern i v
      · obtain ⟨i, hi⟩ := hheld
        exact blocked_span standing proper hi
      · -- No section holds the vertex, so it lies below one of them at most.
        exact blocked_flatMap Section.held Section.son proper ih
          (fun t ht hvt => hheld (Row.exists_pattern_iff.2 ⟨t, ht, hvt⟩)) standing.apart.sons

/-- The interval of a vertex is the range of its bags. -/
theorem Proper.exists_interval? (h : N.Proper) (hv : v ∈ N.vertices) :
    ∃ i, N.arrangement.interval? v = some i ∧ i.start < i.stop ∧
      ∀ k, BagAt N.bags k v ↔ i.start ≤ k ∧ k < i.stop := by
  obtain ⟨i, hi, hlt, hstart, hstop, hall⟩ :=
    h.reads.exists_interval? (exists_bagAt_iff.2 (h.mem_vertices.1 hv))
  refine ⟨i, hi, hlt, fun k => ⟨hall k, fun hk => ?_⟩⟩
  exact (h.blocked v).between hstart hstop hk.1 (by omega)

end Node

end CliquePath
