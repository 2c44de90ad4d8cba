import CliquePath.Proofs.CliqueTree.Folding
import CliquePath.Proofs.CliqueTree.Intervals
import CliquePath.Proofs.LinkedTree.Cliques
import CliquePath.Proofs.LinkedTree.NormalForm

set_option autoImplicit false

/-!
# The intervals of a linked tree

This module shows that a linked tree gives every vertex the interval that the vertex has in the clique
tree for which it stands. A bag has a vertex exactly when the number of its leaf lies in the range of a
cell that holds the vertex. The slot of a vertex names such a cell, or the first and the last one in a
row, whose ranges ascend.
-/

namespace CliquePath

open Cells (one)
open Plan (ctx limbLeaves LaidOut)

/-! ## Numbered bags -/

/-- The bag with the number `m` has the vertex, if the number of the first bag is `n + 1`. -/
def BagFrom (n : Nat) (bags : List (Set Vertex)) (m : Nat) (v : Vertex) : Prop :=
  ∃ k, m = n + k + 1 ∧ BagAt bags k v

section BagFrom

variable {n m : Nat} {bags bags' : List (Set Vertex)} {v : Vertex} {held : List Vertex}

theorem bagFrom_append :
    BagFrom n (bags ++ bags') m v ↔ BagFrom n bags m v ∨ BagFrom (n + bags.length) bags' m v := by
  constructor
  · rintro ⟨k, rfl, hk⟩
    -- a number below the length of the first list falls in it
    by_cases hlt : k < bags.length
    · exact Or.inl ⟨k, rfl, (bagAt_append_left hlt).1 hk⟩
    · rw [not_lt] at hlt
      exact Or.inr ⟨k - bags.length, by omega, (bagAt_append_right hlt).1 hk⟩
  · rintro (⟨k, rfl, hk⟩ | ⟨k, rfl, hk⟩)
    · exact ⟨k, rfl, (bagAt_append_left hk.lt_length).2 hk⟩
    · refine ⟨bags.length + k, by omega, (bagAt_append_right (Nat.le_add_right _ _)).2 ?_⟩
      rwa [Nat.add_sub_cancel_left]

/-- The bags of several entries are those of one of them, behind the bags of the entries before it. -/
theorem bagFrom_flatMap {α : Type} {f : α → List (Set Vertex)} {xs : List α} :
    BagFrom n (xs.flatMap f) m v ↔
      ∃ before x after, xs = before ++ x :: after ∧ BagFrom (n + (before.flatMap f).length) (f x) m v := by
  induction xs generalizing n with
  | nil => simp [BagFrom, BagAt]
  | cons y rest ih =>
      rw [List.flatMap_cons, bagFrom_append, ih]
      constructor
      · rintro (h | ⟨before, x, after, rfl, h⟩)
        · exact ⟨[], y, rest, rfl, h⟩
        · refine ⟨y :: before, x, after, rfl, ?_⟩
          rwa [List.flatMap_cons, List.length_append, ← Nat.add_assoc]
      · rintro ⟨before, x, after, hsplit, h⟩
        rcases List.cons_eq_append_iff.1 hsplit with ⟨rfl, hx⟩ | ⟨before', rfl, rfl⟩
        · cases hx
          exact Or.inl h
        · rw [List.flatMap_cons, List.length_append, ← Nat.add_assoc] at h
          exact Or.inr ⟨before', x, after, rfl, h⟩

theorem bagFrom_singleton {B : Set Vertex} : BagFrom n [B] m v ↔ m = n + 1 ∧ v ∈ B := by
  constructor
  · rintro ⟨k, rfl, C, hC, hv⟩
    obtain ⟨hk, rfl⟩ := List.getElem?_eq_some_iff.1 hC
    simp only [List.length_singleton, Nat.lt_one_iff] at hk
    subst hk
    exact ⟨rfl, hv⟩
  · rintro ⟨rfl, hv⟩
    exact ⟨0, rfl, B, rfl, hv⟩

end BagFrom

/-- The number lies in the range of the cell. -/
def Layout.Spans (l : Layout) (id : NodeId) (m : Nat) : Prop :=
  ∃ r, l.range? id = some r ∧ r.1 ≤ m ∧ m ≤ r.2

/-- The number lies in the range of a cell that holds the vertex. -/
def Layout.Reaches (l : Layout) (M : Cells) (v : Vertex) (m : Nat) : Prop :=
  ∃ p, M.Holds v p ∧ l.Spans p.1 m

/-- A place adds the vertices that it holds to the bags whose numbers lie in its range. -/
theorem bagFrom_union {l : Layout} {id : NodeId} {n m : Nat} {v : Vertex} {bags : List (Set Vertex)}
    {held : List Vertex} (hid : l.range? id = some (n + 1, n + bags.length)) :
    BagFrom n (bags.map ({v | v ∈ held} ∪ ·)) m v ↔ (v ∈ held ∧ l.Spans id m) ∨ BagFrom n bags m v := by
  have hspans : l.Spans id m ↔ n + 1 ≤ m ∧ m ≤ n + bags.length := by
    simp [Layout.Spans, hid]
  rw [hspans]
  constructor
  · rintro ⟨k, rfl, hk⟩
    rcases bagAt_map_union.1 hk with ⟨hlt, hv⟩ | hk
    · exact Or.inl ⟨hv, by omega, by omega⟩
    · exact Or.inr ⟨k, rfl, hk⟩
  · rintro (⟨hv, hle, hge⟩ | ⟨k, rfl, hk⟩)
    · exact ⟨m - n - 1, by omega, bagAt_map_union.2 (Or.inl ⟨by omega, hv⟩)⟩
    · exact ⟨k, rfl, bagAt_map_union.2 (Or.inr hk)⟩

namespace Plan

variable {T : Plan} {n m : Nat} {l : Layout} {v : Vertex}

/-- Several plans have as many bags as leaves if each of them has. -/
theorem length_limb_bags {α : Type} {xs : List α} {bagsOf : α → List (Set Vertex)}
    {f : α → NodeId × Plan} (h : ∀ x ∈ xs, (bagsOf x).length = (f x).2.width) :
    (xs.flatMap bagsOf).length = (limbLeaves (xs.map f)).length := by
  rw [limbLeaves, List.flatMap_map, List.length_flatMap, List.length_flatMap]
  exact congrArg List.sum (List.map_congr_left h)

/-- There are as many bags as leaves. -/
theorem length_bags (T : Plan) : T.node.bags.length = T.width := by
  induction T using Plan.induction with
  | step T ih =>
      -- the case of a row differs from that of a P-node by the sections between the node and its limbs
      cases T with
      | leaf x held => simp [width]
      | pnode x held children =>
          rw [node_pnode, Node.bags_bundle, List.flatMap_map, width, leaves_eq]
          refine length_limb_bags (f := fun c => (x, c)) fun c hc => ?_
          rw [Node.bagsUnder, List.length_map, ih (x, c) (List.mem_map_of_mem hc)]
      | qnode q row =>
          rw [node_qnode, Node.bags_qnode, Row.toList_map, List.flatMap_map, width, leaves_eq]
          refine length_limb_bags (f := fun s : Part Plan => (s.id, s.son)) fun s hs => ?_
          rw [Node.bagsUnder, List.length_map, Part.shown, ih (s.id, s.son) (List.mem_map_of_mem hs)]

/-- Several limbs, cut before one of them. -/
theorem exists_split_map {α : Type} {f : α → NodeId × Plan} {xs : List α}
    {P : List (NodeId × Plan) → NodeId × Plan → Prop} :
    (∃ before k after, xs.map f = before ++ k :: after ∧ P before k) ↔
      ∃ before x after, xs = before ++ x :: after ∧ P (before.map f) (f x) := by
  constructor
  · rintro ⟨before, k, after, hsplit, h⟩
    obtain ⟨before', rest, rfl, rfl, hrest⟩ := List.map_eq_append_iff.1 hsplit
    obtain ⟨x, after', rfl, rfl, -⟩ := List.map_eq_cons_iff.1 hrest
    exact ⟨before', x, after', rfl, h⟩
  · rintro ⟨before, x, after, rfl, h⟩
    exact ⟨before.map f, f x, after.map f, by simp, h⟩

/-- A bag below a P-node has the vertices of the P-node, and those that a bag of one of its children
has. -/
theorem LaidOut.bagFrom_pnode {x : NodeId} {held : List Vertex} {children : List Plan}
    (h : (pnode x held children).LaidOut l n) :
    BagFrom n (pnode x held children).node.bags m v ↔ (v ∈ held ∧ l.Spans x m) ∨
      ∃ before k after, (pnode x held children).limbs = before ++ k :: after ∧
        BagFrom (n + (limbLeaves before).length) k.2.node.bags m v := by
  have hbags : (Node.bundle held (children.map Plan.node)).bags =
      (children.flatMap fun c => c.node.bags).map ({v | v ∈ held} ∪ ·) := by
    rw [Node.bags_bundle, List.flatMap_map, List.map_flatMap]
    rfl
  have hrange : l.range? x = some (n + 1, n + (children.flatMap fun c => c.node.bags).length) := by
    have hlen := length_bags (.pnode x held children)
    rw [node_pnode, hbags, List.length_map] at hlen
    rw [hlen]
    exact h.range
  rw [node_pnode, hbags, bagFrom_union hrange, bagFrom_flatMap, Plan.limbs, exists_split_map]
  refine or_congr_right (exists_congr fun before => exists_congr fun c => exists_congr fun after =>
    and_congr_right fun _ => ?_)
  rw [length_limb_bags (f := fun c => (x, c)) fun c _ => c.length_bags]

/-- A bag below a section has the vertices of the section, and those that the bag of the subtree has. -/
theorem LaidOut.bagFrom_section {q : NodeId} {row : Row (Part Plan)} (h : (qnode q row).LaidOut l n)
    {before after : List (Part Plan)} {s : Part Plan} (hsplit : row.toList = before ++ s :: after) :
    BagFrom (n + (before.flatMap fun s => s.shown.son.bagsUnder s.shown.held).length)
      (s.shown.son.bagsUnder s.shown.held) m v ↔ (v ∈ s.held ∧ l.Spans s.id m) ∨
        BagFrom (n + (limbLeaves (before.map fun s => (s.id, s.son))).length) s.son.node.bags m v := by
  have hlen : (before.flatMap fun s => s.shown.son.bagsUnder s.shown.held).length =
      (limbLeaves (before.map fun s => (s.id, s.son))).length :=
    length_limb_bags fun s _ => (List.length_map _).trans s.son.length_bags
  rw [hlen]
  refine bagFrom_union ?_
  obtain ⟨node, sections, limbs⟩ := h
  rw [sections q row rfl s (by rw [hsplit]; simp),
    show s.shown.son.bags.length = s.son.width from s.son.length_bags]
  exact (limbs (before.map fun s => (s.id, s.son)) (s.id, s.son)
    (after.map fun s => (s.id, s.son)) (by simp [Plan.limbs, sons, hsplit])).range

/-- A bag of a plan has a vertex exactly when a cell at the top of the plan does that spans the bag, or
when the bag lies in a limb and has the vertex there. -/
theorem LaidOut.bagFrom_iff (h : T.LaidOut l n) (parent : Option NodeId) :
    BagFrom n T.node.bags m v ↔ (∃ p, (T.own parent).Holds v p ∧ l.Spans p.1 m) ∨
      ∃ before k after, T.limbs = before ++ k :: after ∧
        BagFrom (n + (limbLeaves before).length) k.2.node.bags m v := by
  cases T with
  | leaf x held =>
      have hrange := h.range
      rw [id_leaf, width, leaves_leaf, List.length_singleton] at hrange
      rw [node_leaf, Node.bags_leaf, bagFrom_singleton]
      -- the vertices of a section reach every bag below it, and no other bag
      constructor
      · rintro ⟨rfl, hv⟩
        exact Or.inl ⟨(x, none), by simpa [own] using hv, _, hrange, le_rfl, le_rfl⟩
      · rintro (⟨p, hp, r, hr, hle, hge⟩ | ⟨before, k, after, hsplit, -⟩)
        · obtain ⟨hv, rfl⟩ : v ∈ held ∧ p = (x, none) := by simpa [own] using hp
          cases hrange.symm.trans hr
          exact ⟨by omega, hv⟩
        · simp [Plan.limbs] at hsplit
  | pnode x held children =>
      rw [h.bagFrom_pnode]
      refine or_congr_left ?_
      simp [own]
  | qnode q row =>
      rw [node_qnode, Node.bags_qnode, Row.toList_map, List.flatMap_map, bagFrom_flatMap]
      rw [Plan.limbs, sons, exists_split_map]
      simp only [holds_own_qnode]
      constructor
      · rintro ⟨before, s, after, hsplit, hbag⟩
        rcases (h.bagFrom_section hsplit).1 hbag with ⟨hv, hm⟩ | hbag
        · exact Or.inl ⟨_, ⟨s, by rw [hsplit]; simp, hv, rfl⟩, hm⟩
        · exact Or.inr ⟨before, s, after, hsplit, hbag⟩
      · rintro (⟨_, ⟨s, hs, hv, rfl⟩, hm⟩ | ⟨before, s, after, hsplit, hbag⟩)
        · obtain ⟨before, after, hsplit⟩ := List.append_of_mem hs
          exact ⟨before, s, after, hsplit, (h.bagFrom_section hsplit).2 (Or.inl ⟨hv, hm⟩)⟩
        · exact ⟨before, s, after, hsplit, (h.bagFrom_section hsplit).2 (Or.inr hbag)⟩

/-- A bag has a vertex exactly when its number lies in the range of a cell that holds the vertex. -/
theorem LaidOut.reaches_iff (h : T.LaidOut l n) (parent : Option NodeId) :
    l.Reaches (T.cells parent) v m ↔ BagFrom n T.node.bags m v := by
  induction h generalizing parent with
  | @mk n T node sections limbs ih =>
      rw [(LaidOut.mk node sections limbs).bagFrom_iff parent]
      constructor
      · rintro ⟨p, hp, hm⟩
        rcases holds_cells.1 hp with hp | ⟨k, hk, hp⟩
        · exact Or.inl ⟨p, hp, hm⟩
        · -- a cell that is not at the top is in one limb, whose bags are numbered on from those before
          obtain ⟨before, after, hsplit⟩ := List.append_of_mem hk
          exact Or.inr ⟨before, k, after, hsplit, (ih before k after hsplit _).1 ⟨p, hp, hm⟩⟩
      · rintro (⟨p, hp, hm⟩ | ⟨before, k, after, hsplit, hk⟩)
        · exact ⟨p, holds_cells.2 (Or.inl hp), hm⟩
        · obtain ⟨p, hp, hm⟩ := (ih before k after hsplit (some k.1)).2 hk
          exact ⟨p, holds_cells.2 (Or.inr ⟨k, by rw [hsplit]; simp, hp⟩), hm⟩

/-- Plans in order have leaves. -/
theorem Formed.width_pos (h : T.Formed) : 0 < T.width := by
  induction T using Plan.induction with
  | step T ih =>
      have hlimb : ∀ k ∈ T.limbs, 0 < T.width := by
        intro k hk
        obtain ⟨before, after, hsplit⟩ := List.append_of_mem hk
        have hpos := ih k hk (h.limb hk)
        rw [width] at hpos ⊢
        rw [leaves_eq, hsplit, limbLeaves_append, limbLeaves_cons, List.length_append,
          List.length_append, List.length_append]
        omega
      have hstable := (formed_iff.1 h).1
      -- a node without a limb would have no leaf below it, but only leaves have none
      cases T with
      | leaf x held => simp [width]
      | pnode x held children =>
          obtain ⟨c, hc⟩ := List.exists_mem_of_ne_nil children hstable
          exact hlimb (x, c) (List.mem_map_of_mem hc)
      | qnode q row =>
          obtain ⟨e, he⟩ := List.exists_mem_of_ne_nil row.keyed hstable.1
          exact hlimb (e.2.id, e.2.son) (List.mem_map_of_mem (List.mem_map_of_mem he))

/-- The range of a cell that holds a vertex is not empty. -/
theorem LaidOut.exists_range (h : T.LaidOut l n) (hformed : T.Formed) {p : NodeId × Option NodeId}
    (hp : (T.cells none).Holds v p) : ∃ r, l.range? p.1 = some r ∧ r.1 ≤ r.2 := by
  have hnode : ∀ U ∈ T.parts, ∃ r, l.range? U.id = some r ∧ r.1 ≤ r.2 := by
    intro U hU
    obtain ⟨m, hlaid⟩ := h.part hU
    have hpos := (hformed.of_mem hU).width_pos
    exact ⟨_, hlaid.range, by dsimp only; omega⟩
  obtain ⟨id, row?⟩ := p
  obtain ⟨d, hd, hv, -⟩ := hp
  obtain ⟨cs, U, rfl, hown⟩ := @exists_own _ _ _ [] hd
  have hU := mem_parts_under U cs
  -- a section has the range of its son; every other cell has that of its own node
  cases stores_of_own hown with
  | leaf x held => exact hnode _ hU
  | pnode x held children => exact hnode _ hU
  | qnode q row first last flipped => cases hv
  | part q row s hs left right rank =>
      obtain ⟨m, hlaid⟩ := h.part hU
      cases hlaid with
      | mk node sections =>
          rw [sections q row rfl s hs]
          exact hnode _ (mem_parts_trans (mem_parts_iff.2 (Or.inr
            ⟨(s.id, s.son), List.mem_map_of_mem hs, s.son.self_mem_parts⟩)) hU)

/-- The ranges of the sections of a row ascend. -/
theorem LaidOut.ascending {q : NodeId} {row : Row (Part Plan)} (h : (qnode q row).LaidOut l n) :
    (row.toList.map Part.id).Pairwise fun x y => ∀ r r', l.range? x = some r → l.range? y = some r' →
      r.1 ≤ r'.1 ∧ r.2 ≤ r'.2 := by
  have hids : row.toList.map Part.id = (sons row).map Prod.fst := by
    simp [sons, Function.comp_def]
  rw [hids]
  cases h with
  | mk node sections limbs =>
      refine Layout.ascending_limbs (n := n) fun before k after hsplit => ?_
      obtain ⟨s, hs, rfl⟩ := List.mem_map.1 (show k ∈ sons row by rw [hsplit]; simp)
      rw [sections q row rfl s hs]
      exact (limbs before (s.id, s.son) after hsplit).range

end Plan

/-- The first of several related entries. -/
theorem eq_or_of_head? {α : Type} {R : α → α → Prop} {xs : List α} {a x : α} (h : xs.Pairwise R)
    (ha : xs.head? = some a) (hx : x ∈ xs) : x = a ∨ R a x := by
  obtain ⟨rest, rfl⟩ := List.head?_eq_some_iff.1 ha
  exact (List.mem_cons.1 hx).imp_right fun hx => (List.pairwise_cons.1 h).1 x hx

/-- The last of several related entries. -/
theorem eq_or_of_getLast? {α : Type} {R : α → α → Prop} {xs : List α} {b x : α} (h : xs.Pairwise R)
    (hb : xs.getLast? = some b) (hx : x ∈ xs) : x = b ∨ R x b := by
  obtain ⟨ini, rfl⟩ := List.getLast?_eq_some_iff.1 hb
  rcases List.mem_append.1 hx with hx | hx
  · exact Or.inr ((List.pairwise_append.1 h).2.2 x hx b (List.mem_singleton_self b))
  · exact Or.inl (List.mem_singleton.1 hx)

namespace LinkedTree

variable {t : LinkedTree} {ct : CliqueTree} {S : Set Vertex} {W : Plan} {l : Layout} {v : Vertex}
variable {i? : Option Interval}

/-- The interval is the hull of the ranges of all cells that hold the vertex. -/
structure Hulls (l : Layout) (M : Cells) (v : Vertex) (i : Interval) : Prop where
  nonempty : i.start < i.stop
  first : l.Reaches M v i.start
  last : l.Reaches M v (i.stop - 1)
  inside : ∀ m, l.Reaches M v m → i.start ≤ m ∧ m < i.stop

theorem exists_range_eq {id : NodeId} {r : Nat × Nat} (h : l.range id = .ok r) : l.range? id = some r := by
  rw [Layout.range] at h
  cases hr : l.range? id with
  | none =>
      rw [hr] at h
      cases h
  | some r' =>
      rw [hr] at h
      rw [Except.ok.inj h]

/-- A slot that names a node. -/
theorem StoredInNode.hulls {id : NodeId} (st : t.StoredInNode v id)
    (h : (Work.mk t.arena t.slots []).Draws S W) (hlaid : W.LaidOut l 0)
    (hi : l.interval? (t.slots.get v) = .ok i?) : ∃ i, i? = some i ∧ Hulls l (W.cells none) v i := by
  rw [st.slot] at hi
  obtain ⟨r, hr, hi⟩ := Arena.exists_of_bind hi
  cases hi
  have hrange := exists_range_eq hr
  obtain ⟨c, hc, -⟩ := st.node
  have hholds : (W.cells none).Holds v (id, c.row?) :=
    ⟨c, h.mem_of_hasCell hc, (st.holder id c hc).2 rfl, rfl⟩
  obtain ⟨r', hr', hle⟩ := hlaid.exists_range h.formed hholds
  -- the vertex is in one cell, so that the range of this cell is the whole hull
  cases hrange.symm.trans hr'
  refine ⟨_, rfl, ⟨Nat.lt_succ_of_le hle, ⟨_, hholds, r, hrange, le_rfl, hle⟩,
    ⟨_, hholds, r, hrange, hle, le_rfl⟩, fun m hm => ?_⟩⟩
  obtain ⟨p, ⟨d, hd, hvd, -⟩, r', hr', hle, hge⟩ := hm
  rw [(st.holder p.1 d (h.hasCell hd)).1 hvd] at hr'
  cases hrange.symm.trans hr'
  exact ⟨hle, Nat.lt_succ_of_le hge⟩

/-- The sections that store a vertex have ascending ranges. -/
theorem StoredInRow.ascending {q : NodeId} {before run after : List NodeId}
    (st : t.StoredInRow v q before run after) (h : (Work.mk t.arena t.slots []).Draws S W)
    (hlaid : W.LaidOut l 0) : run.Pairwise fun x y => ∀ r r', l.range? x = some r →
      l.range? y = some r' → r.1 ≤ r'.1 ∧ r.2 ≤ r'.2 := by
  obtain ⟨c, hc⟩ := st.node
  obtain ⟨bs, T, rfl, -, hstores⟩ := h.stores hc
  have hsections := st.sections
  -- only a Q-node has sections to read
  cases hstores with
  | leaf x held =>
      rw [Arena.slices, Arena.ends, hc.1] at hsections
      cases hsections
  | pnode x held children =>
      rw [Arena.slices, Arena.ends, hc.1] at hsections
      cases hsections
  | part q row s hs left right rank =>
      rw [Arena.slices, Arena.ends, hc.1] at hsections
      cases hsections
  | qnode q row first last flipped =>
      obtain ⟨m, hrow⟩ := hlaid.part (Plan.mem_parts_under _ bs)
      rw [h.slices, Except.ok.injEq] at hsections
      refine hrow.ascending.sublist ?_
      rw [hsections]
      exact (List.sublist_append_left run after).trans (List.sublist_append_right before _)

/-- The ranges of the sections that store a vertex lie between those of the first and the last one. -/
theorem StoredInRow.between {q first last : NodeId} {before run after : List NodeId}
    {p : NodeId × Option NodeId} {x : Nat × Nat} (st : t.StoredInRow v q before run after)
    (h : (Work.mk t.arena t.slots []).Draws S W) (hlaid : W.LaidOut l 0)
    (hfirst : run.head? = some first) (hlast : run.getLast? = some last)
    (hp : (W.cells none).Holds v p) (hx : l.range? p.1 = some x) :
    (∀ a, l.range? first = some a → a.1 ≤ x.1) ∧ ∀ b, l.range? last = some b → x.2 ≤ b.2 := by
  obtain ⟨d, hd, hvd, -⟩ := hp
  have hmem := (st.holders p.1 d (h.hasCell hd)).1 hvd
  -- the ends of the run have the lowest start and the highest end of all sections of the run
  have hasc := st.ascending h hlaid
  constructor
  · intro a ha
    rcases eq_or_of_head? hasc hfirst hmem with heq | hrel
    · rw [heq] at hx
      cases ha.symm.trans hx
      exact le_rfl
    · exact (hrel a x ha hx).1
  · intro b hb
    rcases eq_or_of_getLast? hasc hlast hmem with heq | hrel
    · rw [heq] at hx
      cases hb.symm.trans hx
      exact le_rfl
    · exact (hrel x b hx hb).2

/-- A slot that names the ends of a run. -/
theorem StoredInRow.hulls {q : NodeId} {before run after : List NodeId}
    (st : t.StoredInRow v q before run after) (h : (Work.mk t.arena t.slots []).Draws S W)
    (hlaid : W.LaidOut l 0) (hi : l.interval? (t.slots.get v) = .ok i?) :
    ∃ i, i? = some i ∧ Hulls l (W.cells none) v i := by
  obtain ⟨first, last, hfirst, hlast, hslot⟩ := st.slot
  obtain ⟨one, other, hspan, hends⟩ : ∃ one other, t.slots.get v = .span one other ∧
      (one = first ∧ other = last ∨ one = last ∧ other = first) := by
    rcases hslot with hslot | hslot
    · exact ⟨first, last, hslot, Or.inl ⟨rfl, rfl⟩⟩
    · exact ⟨last, first, hslot, Or.inr ⟨rfl, rfl⟩⟩
  have hfit : (t.slots.get v).Fits ((W.cells none).Holds v) := h.agree.fit v
  rw [hspan] at hfit hi
  obtain ⟨q', hone, hother, -⟩ := hfit
  obtain ⟨r, hr, hi⟩ := Arena.exists_of_bind hi
  obtain ⟨r', hr', hi⟩ := Arena.exists_of_bind hi
  cases hi
  have hrange := exists_range_eq hr
  have hrange' := exists_range_eq hr'
  have hle : r.1 ≤ r.2 := by
    obtain ⟨r₁, hr₁, hle⟩ := hlaid.exists_range h.formed hone
    cases hrange.symm.trans hr₁
    exact hle
  have hle' : r'.1 ≤ r'.2 := by
    obtain ⟨r₁, hr₁, hle⟩ := hlaid.exists_range h.formed hother
    cases hrange'.symm.trans hr₁
    exact hle
  have hbetween : ∀ p x, (W.cells none).Holds v p → l.range? p.1 = some x →
      (r.1 ≤ x.1 ∧ x.2 ≤ r'.2) ∨ (r'.1 ≤ x.1 ∧ x.2 ≤ r.2) := by
    intro p x hp hx
    obtain ⟨hlow, hhigh⟩ := st.between h hlaid hfirst hlast hp hx
    rcases hends with ⟨rfl, rfl⟩ | ⟨rfl, rfl⟩
    · exact Or.inl ⟨hlow r hrange, hhigh r' hrange'⟩
    · exact Or.inr ⟨hlow r' hrange', hhigh r hrange⟩
  have hreach : ∀ m, r.1 ≤ m ∧ m ≤ r.2 ∨ r'.1 ≤ m ∧ m ≤ r'.2 → l.Reaches (W.cells none) v m := by
    rintro m (⟨hlow, hhigh⟩ | ⟨hlow, hhigh⟩)
    · exact ⟨_, hone, r, hrange, hlow, hhigh⟩
    · exact ⟨_, hother, r', hrange', hlow, hhigh⟩
  refine ⟨_, rfl, ⟨?_, hreach _ ?_, hreach _ ?_, ?_⟩⟩
  · dsimp only
    omega
  · dsimp only
    omega
  · dsimp only
    omega
  · rintro m ⟨p, hp, x, hx, hlow, hhigh⟩
    have hx' := hbetween p x hp hx
    dsimp only
    omega

/-- The interval of a vertex that is read off its slot is the one in the clique tree. -/
theorem interval_eq (h : (Work.mk t.arena t.slots []).Draws S W) (hproper : W.node.Proper)
    (hlaid : W.LaidOut l 0) (hv : v ∈ S) (hi : l.interval? (t.slots.get v) = .ok i?) :
    i? = (W.node.arrangement.interval? v).map fun i => i.shift 1 := by
  obtain ⟨i, rfl, hulls⟩ : ∃ i, i? = some i ∧ Hulls l (W.cells none) v i := by
    rcases stored h hproper hv with ⟨id, st⟩ | ⟨q, before, run, after, st⟩
    · exact st.hulls h hlaid hi
    · exact st.hulls h hlaid hi
  obtain ⟨j, hj, hlt, hbags⟩ := hproper.exists_interval? (h.mem_vertices.2 hv)
  have hreach : ∀ m, l.Reaches (W.cells none) v m ↔ j.start < m ∧ m ≤ j.stop := by
    intro m
    rw [hlaid.reaches_iff none]
    constructor
    · rintro ⟨k, rfl, hk⟩
      rw [hbags] at hk
      omega
    · rintro ⟨hlow, hhigh⟩
      exact ⟨m - 1, by omega, (hbags _).2 (by omega)⟩
  have hfirst := (hreach _).1 hulls.first
  have hlast := (hreach _).1 hulls.last
  have hlow := hulls.inside _ ((hreach (j.start + 1)).2 (by omega))
  have hhigh := hulls.inside _ ((hreach j.stop).2 (by omega))
  have hne := hulls.nonempty
  rw [hj, Option.map_some, Option.some.injEq]
  cases i
  simp only [Interval.shift, Interval.mk.injEq]
  dsimp only at hfirst hlast hlow hhigh hne
  omega

/-- The interval that is read off a slot, if there is one. -/
theorem Mirrors.interval?_eq (h : t.Mirrors ct) (hsound : ct.Sound) (hl : t.arena.layout = .ok l)
    (hi : l.interval? (t.slots.get v) = .ok i?) :
    i? = if v ∈ ct.placed then (ct.node.arrangement.interval? v).map fun i => i.shift 1 else none := by
  have hplaced : t.slots.get v ≠ .absent ↔ v ∈ ct.placed := Work.Forms.placed h
  by_cases hv : v ∈ ct.placed
  · rw [if_pos hv]
    have hnode := hsound.proper
    rw [CliqueTree.node] at hnode ⊢
    rw [Mirrors] at h
    have hmem : v ∈ {v | v ∈ ct.placed} := hv
    -- the linked tree is empty or stands for a plan
    generalize ct.root = root at h hnode
    generalize {v | v ∈ ct.placed} = S at h hmem
    cases h with
    | empty sound =>
        obtain ⟨r, hr⟩ := sound.agree.mem_iff_exists_holds.1 hmem
        exact absurd hr Cells.holds_zero
    | plan draws => exact interval_eq draws hnode (draws.layout hl).2 hmem hi
  · have habsent : t.slots.get v = .absent := by
      by_contra hne
      exact hv (hplaced.1 hne)
    rw [habsent] at hi
    rw [if_neg hv]
    exact (Except.ok.inj hi).symm

/-- The intervals of several vertices. -/
theorem intervals_eq_filterMap {g : Vertex → Option Interval} {slots : Slots} {vs : List Vertex}
    {intervals : Assignment} (h : l.intervals slots vs = .ok intervals)
    (hg : ∀ v i?, l.interval? (slots.get v) = .ok i? → i? = g v) :
    intervals = vs.filterMap fun v => (g v).map fun i => (v, i) := by
  induction vs generalizing intervals with
  | nil => exact (Except.ok.inj h).symm
  | cons v rest ih =>
      obtain ⟨i?, hi, h⟩ := Arena.exists_of_bind h
      rw [List.filterMap_cons, ← hg v i? hi]
      cases i? with
      | none => exact ih h
      | some i =>
          obtain ⟨later, hlater, h⟩ := Arena.exists_of_bind h
          cases h
          rw [ih hlater]
          rfl

/-- The placed vertices in ascending order. -/
theorem filter_range_placed (hsound : ct.Sound) {bound : Nat} (hbelow : ∀ v ∈ ct.placed, v < bound) :
    (List.range bound).filter (· ∈ ct.placed) = ct.placed.mergeSort := by
  have hperm : ((List.range bound).filter (· ∈ ct.placed)).Perm ct.placed.mergeSort := by
    rw [List.perm_ext_iff_of_nodup (List.nodup_range.filter _)
      ((List.mergeSort_perm _ _).nodup_iff.2 hsound.nodup)]
    intro v
    simp only [List.mem_filter, List.mem_range, decide_eq_true_eq, List.mem_mergeSort]
    exact ⟨fun h => h.2, fun h => ⟨hbelow v h, h⟩⟩
  exact hperm.eq_of_pairwise (fun a b _ _ hab hba => absurd hba (Nat.lt_asymm hab))
    (List.pairwise_lt_range.filter _) hsound.pairwise_placed

/-- A linked tree has the intervals of the clique tree for which it stands. -/
theorem Mirrors.intervals_eq (h : t.Mirrors ct) (hsound : ct.Sound)
    (ht : t.Sound {v | v ∈ ct.placed}) : t.intervals = .ok ct.intervals := by
  obtain ⟨intervals, hintervals⟩ := ht.intervals_ok
  obtain ⟨l, hl, hread⟩ := Arena.exists_of_bind hintervals
  rw [hintervals, intervals_eq_filterMap hread fun v i? => h.interval?_eq hsound hl, hsound.intervals_eq,
    ← filter_range_placed hsound ht.below, List.filterMap_filter]
  congr 1
  refine List.filterMap_congr fun v _ => ?_
  by_cases hv : v ∈ ct.placed
  · simp [hv, Function.comp_def]
  · simp [hv]

end LinkedTree

end CliquePath
