import CliquePath.Proofs.LinkedTree.Growing

set_option autoImplicit false

/-!
# New leaves in a plan

This module shows what becomes of a plan when a vertex is put in at a leaf, below a P-node or below a
section: the node of the plan grows as a node of a clique tree does. No run of sections changes, so
the slots still name the ends of all runs.
-/

namespace CliquePath

open Cells (one)
open Plan (ctx)

/-! ## Slots that keep their runs -/

/-- The runs of sections that slots name stay the same. -/
def Slots.Keeps (slots slots' : Slots) : Prop :=
  ∀ v a b, slots.get v = .span a b → slots'.get v = .span a b

namespace Slots

variable {slots slots' slots'' : Slots} {v : Vertex} {vs : List Vertex} {slot : Slot}
variable {ss : List (NodeId × List Vertex)}

theorem Keeps.trans (h : slots.Keeps slots') (h' : slots'.Keeps slots'') : slots.Keeps slots'' :=
  fun v a b hv => h' v a b (h v a b hv)

theorem keeps_put (hv : ∀ a b, slots.get v ≠ .span a b) : slots.Keeps (slots.put v slot) := by
  intro x a b hx
  have hne : x ≠ v := fun heq => hv a b (heq ▸ hx)
  rw [get_put, if_neg hne, hx]

theorem keeps_putAll (hvs : ∀ v ∈ vs, ∀ a b, slots.get v ≠ .span a b) :
    slots.Keeps (slots.putAll vs slot) := by
  intro x a b hx
  have hnot : x ∉ vs := fun hmem => hvs x hmem a b hx
  rw [get_putAll, if_neg hnot, hx]

theorem Marks.keep (h : slots.Marks ss) (hk : slots.Keeps slots') : slots'.Marks ss := by
  intro v f l hf hl
  exact (h v f l hf hl).imp (hk v f l) (hk v l f)

end Slots

/-! ## Plans with the rows of another plan -/

namespace Plan

variable {T G : Plan} {x : NodeId} {held : List Vertex} {children : List Plan}

/-- All rows of the plan are those of another one. -/
def RowsFrom (T G : Plan) : Prop := ∀ V ∈ G.parts, V.spans = [] ∨ V ∈ T.parts

theorem rowsFrom_self (T : Plan) : T.RowsFrom T := fun _ hV => Or.inr hV

theorem rowsFrom_leaf : T.RowsFrom (leaf x held) := by
  intro V hV
  rcases mem_parts_iff.1 hV with rfl | ⟨l, hl, -⟩
  · exact Or.inl rfl
  · simp [limbs] at hl

theorem rowsFrom_pnode (h : ∀ c ∈ children, T.RowsFrom c) : T.RowsFrom (pnode x held children) := by
  intro V hV
  rcases mem_parts_iff.1 hV with rfl | ⟨l, hl, hV⟩
  · exact Or.inl rfl
  · obtain ⟨c, hc, rfl⟩ := List.mem_map.1 hl
    exact h c hc V hV

theorem rowsFrom_limb {l : NodeId × Plan} (hl : l ∈ T.limbs) : T.RowsFrom l.2 :=
  fun _ hV => Or.inr (mem_parts_iff.2 (Or.inr ⟨l, hl, hV⟩))

/-- The top cell of a plan refers to the parent; no other cell does. -/
theorem cells_top (T : Plan) : ∃ (d : Cell) (n : Cells), d.kind.isSlice = false ∧
    ∀ parent, T.cells parent = one T.id { d with parent } + n := by
  cases T with
  | leaf x held =>
      exact ⟨leafCell none held, 0, rfl, fun parent => by rw [cells_leaf, add_zero]; rfl⟩
  | pnode x held children =>
      exact ⟨pCell none held (children.map Plan.id), _, rfl, fun parent => cells_pnode _ _ _⟩
  | qnode q row =>
      refine ⟨rowCell none (row.map Part.top).flipped (row.map Part.top).firstPart
        (row.map Part.top).lastPart, Loose.cells q (row.map Part.top).flipped
          (Entries.linked none none (row.map Part.top).keyed) + limbCells (sons row), ?_,
        fun parent => ?_⟩
      · cases (row.map Part.top).flipped <;> rfl
      · rw [cells_qnode, Row.cellsAt, add_assoc]
        rfl

theorem trim_leaf : (leaf x held).Trim := trim_iff.2 ⟨trivial, by simp [limbs]⟩

theorem trim_pnode (hvis : held ≠ [] ∨ children.length ≠ 1) (h : ∀ c ∈ children, c.Trim) :
    (pnode x held children).Trim :=
  trim_iff.2 ⟨hvis, by simpa [limbs] using h⟩

end Plan

namespace Work

variable {w w' : Work} {S S' : Set Vertex} {T G : Plan} {bs : List Bough} {u : Vertex}
variable {x : NodeId} {held : List Vertex} {k : Kind}

/-- Another plan in the focus whose rows are those of the old one or have their ends named. -/
theorem Draws.refocus (h : w.Draws S (T.under bs))
    (h' : w'.Stands S' (ctx bs) G.id (G.cells (ctx bs).parent))
    (hlive : w'.arena.live + T.count = w.arena.live + G.count) (hk : w.slots.Keeps w'.slots)
    (hrows : ∀ V ∈ G.parts, w'.slots.Marks V.spans ∨ V ∈ T.parts) (hG : G.Formed) :
    w'.Draws S' (G.under bs) := by
  have hruns : ∀ V ∈ (T.under bs).parts, w'.slots.Marks V.spans :=
    fun V hV => (h.runs V hV).keep hk
  have hcount := Plan.count_under T G bs
  refine h'.draws (by have := h.live; omega)
    (Plan.forall_parts_refill (fun b U V hU => ?_) (fun _ hV => hV) hruns fun V hV => ?_)
    (h.formed.refill hG)
  · rwa [Plan.spans_fill b V U]
  · -- a row of the new plan has its ends named, or is one of the old plan
    exact (hrows V hV).elim id fun hT => hruns V (Plan.mem_parts_trans hT (Plan.mem_parts_under T bs))

/-- The vertices of a leaf or P-node in focus have no runs. -/
theorem Stands.node_of_held {c : Ctx} {n : Cells} {v : Vertex}
    (h : w.Stands S c x (one x ⟨k, c.parent, held, true⟩ + n)) (hk : k.isSlice = false)
    (hv : v ∈ held) (a b : NodeId) : w.slots.get v ≠ .span a b := by
  have hagree := h.agree
  rw [add_assoc] at hagree
  have hrow : (⟨k, c.parent, held, true⟩ : Cell).row? = none := by
    simp [Cell.row?, hk]
  rw [(hagree.fit.of_node h.not_mem_ids hrow hv).1]
  simp

/-- A vertex that is not in the tree has no run. -/
theorem Draws.absent (h : w.Draws S T) (hu : u ∉ S) : w.slots.get u = .absent := by
  by_contra hne
  exact hu ((h.agree.placed u).1 hne)

end Work

/-! ## Slack plans -/

namespace Plan

/-- Every P-node without vertices has several children, or it is among the given places and its only
child is a Q-node. -/
def Slack (ids : List NodeId) (T : Plan) : Prop :=
  ∀ V ∈ T.parts, V.Visible ∨ V.id ∈ ids ∧ ∃ id q row, V = .pnode id [] [.qnode q row]

variable {T U : Plan} {ids ids' : List NodeId} {bs : List Bough}

theorem Trim.slack (h : T.Trim) (ids : List NodeId) : T.Slack ids := fun V hV => Or.inl (h V hV)

theorem Slack.mono (h : T.Slack ids) (hsub : ∀ t ∈ ids, t ∈ ids') : T.Slack ids' :=
  fun V hV => (h V hV).imp_right (And.imp_left (hsub _))

/-- A slack plan in the place of a part of a trim one. -/
theorem Slack.under (h : U.Slack ids) (hT : (T.under bs).Trim) : (U.under bs).Slack ids :=
  forall_parts_refill (fun b T U hb => Or.inl (visible_fill b T U hb)) (fun _ hV => Or.inl hV) hT h

theorem slack_iff : T.Slack ids ↔
    (T.Visible ∨ T.id ∈ ids ∧ ∃ id q row, T = .pnode id [] [.qnode q row]) ∧
      ∀ l ∈ T.limbs, l.2.Slack ids := by
  unfold Slack
  rw [parts_eq]
  simp only [List.forall_mem_cons, List.mem_flatMap]
  exact and_congr_right fun _ => ⟨fun h l hl U hU => h U ⟨l, hl, hU⟩,
    fun h U ⟨l, hl, hU⟩ => h l hl U hU⟩

end Plan

namespace Work

variable {w : Work} {S : Set Vertex} {T G : Plan} {bs : List Bough} {u : Vertex} {p : Pass}
variable {x : NodeId} {held : List Vertex} {children : List Plan}

/-- The cells stand for the plan in focus and around it; all slack nodes are noted. -/
structure Shows (w : Work) (S : Set Vertex) (bs : List Bough) (G : Plan) : Prop where
  draws : w.Draws S (G.under bs)
  touched : ∀ t ∈ w.touched, t ∈ (G.cells (ctx bs).parent).map Prod.fst
  slack : G.Slack w.touched

/-- Another plan in the focus, whose rows are those of the old one and whose nodes all show. -/
theorem Draws.shows {w' : Work} {S' : Set Vertex} (h : w.Draws S (T.under bs))
    (h' : w'.Stands S' (ctx bs) G.id (G.cells (ctx bs).parent))
    (hlive : w'.arena.live + T.count = w.arena.live + G.count) (hk : w.slots.Keeps w'.slots)
    (hrows : T.RowsFrom G) (hG : G.Formed) (htrim : G.Trim) : w'.Shows S' bs G :=
  ⟨h.refocus h' hlive hk (fun V hV => (hrows V hV).imp_left Slots.marks_of_nil) hG, h'.touched,
    htrim.slack _⟩

/-- The slots after some vertices of a leaf or P-node moved into a node above it. -/
theorem Draws.keeps_shelve {n : Cells} {k : Kind} {nbrs : List Vertex} {top leaf : NodeId}
    (h : w.Draws S T) {c : Ctx} (hst : w.Stands S c x (one x ⟨k, c.parent, held, true⟩ + n))
    (hk : k.isSlice = false) (hu : u ∉ S) :
    w.slots.Keeps ((w.slots.putAll (reached nbrs held) (.node top)).put u (.node leaf)) := by
  have hall : w.slots.Keeps (w.slots.putAll (reached nbrs held) (.node top)) :=
    Slots.keeps_putAll fun v hv => hst.node_of_held hk (mem_reached.1 hv).1
  -- the new vertex had no slot
  refine hall.trans (Slots.keeps_put fun a b => ?_)
  rw [Slots.get_putAll]
  split
  next => simp
  next => simp [h.absent hu]

/-- A node that is not full has vertices left when its neighbours are taken out. -/
theorem missed_ne_nil {nbrs : List Vertex} (h : ¬ isFull nbrs held = true) : missed nbrs held ≠ [] := by
  obtain ⟨v, hv, hn⟩ := not_isFull_iff.1 (Bool.not_eq_true _ ▸ h)
  exact List.ne_nil_of_mem (mem_missed.2 ⟨hv, hn⟩)

/-- A node that is not reached as a whole goes below a new P-node, beside a new leaf. -/
theorem Draws.shelve {n : Cells} {k : Kind} (h : w.Draws S (T.under bs)) (nbrs : List Vertex) {U : Plan}
    (hid : T.id = x)
    (hst : w.Stands S (ctx bs) x (one x ⟨k, (ctx bs).parent, held, true⟩ + n))
    (hk : k.isSlice = false) (hu : u ∉ S) (hid' : U.id = x)
    (hcells : ∀ parent, U.cells parent = one x ⟨k, parent, missed nbrs held, true⟩ + n)
    (hcount : U.count = T.count) (hrows : T.RowsFrom U) (hformed : U.Formed) (htrim : U.Trim) :
    ∃ a w₁ top w₂ leaf, w.arena.setHeld x (missed nbrs held) = .ok a ∧
      ({ w with arena := a } : Work).lift x (reached nbrs held) = .ok (w₁, top) ∧
      w₁.adoptLeaf top u = .ok w₂ ∧ ∀ ids, (∀ t ∈ ids, t = x ∨ t = top) →
        (w₂.touch ids).Shows (insert u S) bs
          (.pnode top (reached nbrs held) [U, .leaf leaf [u]]) := by
  obtain ⟨a, w₁, top, w₂, leaf, h₁, h₂, h₃, hslots, hs⟩ := hst.shelve h.formed.ok hk nbrs hu
  refine ⟨a, w₁, top, w₂, leaf, h₁, h₂, h₃, fun ids hids => ?_⟩
  have hs' := @Stands.touch _ _ _ _ _ hs ids fun t ht => by
    rcases hids t ht with rfl | rfl <;> simp
  -- the cells of the new plan, as the work on the arena leaves them
  have hG : (Plan.pnode top (reached nbrs held) [U, .leaf leaf [u]]).cells (ctx bs).parent = _ :=
    Plan.cells_pnode _ _ _
  simp only [List.map_cons, List.map_nil, Plan.limbCells_cons, Plan.limbCells_nil, add_zero,
    Plan.cells_leaf, hcells, hid', Plan.id_leaf] at hG
  have hheld := Arena.live_of_life (Arena.Lives.setHeld rfl _ _ h₁)
  have hlift := Arena.live_of_push (life_lift h₂)
  have hleaf := Arena.live_of_push (life_adoptLeaf h₃)
  refine h.shows (hs'.congr ?_) ?_ (hslots ▸ h.keeps_shelve hst hk hu) (Plan.rowsFrom_pnode ?_)
    (Plan.formed_pnode (by simp) ?_) (Plan.trim_pnode (Or.inr (by simp)) ?_)
  · rw [hG]
    abel
  · rw [Plan.count_pnode]
    simp only [List.map_cons, List.map_nil, List.sum_cons, List.sum_nil, Plan.count_leaf, hcount,
      Work.touch, hleaf, hlift, hheld]
    omega
  · simp [Plan.rowsFrom_leaf, hrows]
  · simp [Plan.formed_leaf, hformed]
  · simp [Plan.trim_leaf, htrim]

/-- A vertex joins the vertices of a leaf. -/
theorem Draws.joinLeaf (h : w.Draws S ((Plan.leaf x held).under bs)) (ht : w.touched = [])
    (hu : u ∉ S) : ∃ a, w.arena.setHeld x (held ++ [u]) = .ok a ∧
      Shows { w with arena := a, slots := w.slots.put u (.node x) } (insert u S) bs
        (.leaf x (held ++ [u])) := by
  have hst : w.Stands S (ctx bs) x _ := h.stands (by simp [ht])
  rw [Plan.cells_leaf] at hst
  obtain ⟨a, h', hs⟩ := hst.joinLeaf hu
  rw [← Plan.cells_leaf] at hs
  have hlive := Arena.live_of_life (Arena.Lives.setHeld rfl _ _ h')
  exact ⟨a, h', h.shows hs (by rw [hlive, Plan.count_leaf, Plan.count_leaf])
    (Slots.keeps_put (by simp [h.absent hu])) Plan.rowsFrom_leaf Plan.formed_leaf Plan.trim_leaf⟩

/-- A P-node gets a new leaf as its last child. -/
theorem Draws.adoptLeaf (h : w.Draws S ((Plan.pnode x held children).under bs)) (ht : w.touched = [])
    (htrim : (Plan.pnode x held children).Trim) (hu : u ∉ S) :
    ∃ w' leaf, w.adoptLeaf x u = .ok w' ∧ (∀ ids, (∀ t ∈ ids, t = x) →
      (w'.touch ids).Shows (insert u S) bs (.pnode x held (children ++ [.leaf leaf [u]]))) ∧
        (Plan.pnode x held (children ++ [.leaf leaf [u]])).Trim := by
  have hst : w.Stands S (ctx bs) x _ := h.stands (by simp [ht])
  rw [Plan.cells_pnode] at hst
  obtain ⟨hvis, hchildren⟩ := Plan.trim_iff.1 htrim
  obtain ⟨hstable, hformed⟩ := Plan.formed_iff.1 h.formed.focus
  have hlimb : ∀ c ∈ children, (x, c) ∈ (Plan.pnode x held children).limbs :=
    fun c hc => List.mem_map_of_mem hc
  obtain ⟨w', leaf, h', hslots, hs⟩ := hst.adoptLeaf hu
  -- an old child and the new leaf make two, so that the P-node is shown
  have hlen : (children ++ [Plan.leaf leaf [u]]).length ≠ 1 := by
    have hpos := List.length_pos_iff.2 (show children ≠ [] from hstable)
    rw [List.length_append, List.length_singleton]
    omega
  have htrim' : (Plan.pnode x held (children ++ [.leaf leaf [u]])).Trim := by
    refine Plan.trim_pnode (Or.inr hlen) ?_
    simp only [List.forall_mem_append, List.forall_mem_singleton]
    exact ⟨fun c hc => hchildren _ (hlimb c hc), Plan.trim_leaf⟩
  have hlive := Arena.live_of_push (life_adoptLeaf h')
  refine ⟨w', leaf, h', fun ids hids => h.shows ((hs.touch fun t ht => ?_).congr ?_) ?_
    (hslots ▸ Slots.keeps_put (by simp [h.absent hu])) (Plan.rowsFrom_pnode ?_)
    (Plan.formed_pnode (by simp) ?_) htrim', htrim'⟩
  · simp [hids t ht]
  · rw [Plan.cells_pnode, List.map_append, List.map_append, Plan.limbCells_append]
    simp only [List.map_cons, List.map_nil, Plan.limbCells_cons, Plan.limbCells_nil, Plan.cells_leaf,
      add_zero, Plan.id_leaf]
    abel
  · simp only [Plan.count_pnode, List.map_append, List.map_cons, List.map_nil, List.sum_append,
      List.sum_cons, List.sum_nil, Plan.count_leaf, Work.touch, hlive]
    omega
  · simp only [List.forall_mem_append, List.forall_mem_singleton]
    exact ⟨fun c hc => Plan.rowsFrom_limb (hlimb c hc), Plan.rowsFrom_leaf⟩
  · simp only [List.forall_mem_append, List.forall_mem_singleton]
    exact ⟨fun c hc => hformed _ (hlimb c hc), Plan.formed_leaf⟩

/-- A node gets a new P-node above it, with a new leaf beside it. -/
theorem Draws.pairUp (h : w.Draws S (T.under bs)) (ht : w.touched = []) (htrim : T.Trim)
    (hu : u ∉ S) : ∃ w' top leaf, w.pairUp T.id u = .ok (w', top) ∧
      (∀ ids, (∀ t ∈ ids, t = top) →
        (w'.touch ids).Shows (insert u S) bs (.pnode top [] [T, .leaf leaf [u]])) ∧
        (Plan.pnode top [] [T, .leaf leaf [u]]).Trim := by
  have hst : w.Stands S (ctx bs) T.id _ := h.stands (by simp [ht])
  obtain ⟨d, n, hkind, hcells⟩ := T.cells_top
  rw [hcells] at hst
  obtain ⟨w', top, leaf, h', hslots, hs⟩ := hst.pairUp h.formed.ok rfl hkind hu
  have htrim' : (Plan.pnode top [] [T, .leaf leaf [u]]).Trim :=
    Plan.trim_pnode (Or.inr (by simp)) (by simp [htrim, Plan.trim_leaf])
  have hlive : w'.arena.live = w.arena.live + 2 := by
    rw [Arena.live, life_pairUp h', Array.count_push_self, Array.count_push_self, Arena.live]
  refine ⟨w', top, leaf, h', fun ids hids => h.shows ((hs.touch fun t ht => ?_).congr ?_) ?_
    (hslots ▸ Slots.keeps_put (by simp [h.absent hu])) (Plan.rowsFrom_pnode ?_)
    (Plan.formed_pnode (by simp) ?_) htrim', htrim'⟩
  · simp [hids t ht]
  · rw [Plan.cells_pnode]
    simp only [List.map_cons, List.map_nil, Plan.limbCells_cons, Plan.limbCells_nil, Plan.cells_leaf,
      add_zero, Plan.id_leaf, hcells]
    abel
  · simp only [Plan.count_pnode, List.map_cons, List.map_nil, List.sum_cons, List.sum_nil,
      Plan.count_leaf, Work.touch, hlive]
    omega
  · simp [Plan.rowsFrom_self, Plan.rowsFrom_leaf]
  · simp [Plan.formed_leaf, h.formed.focus]

/-! ## At a leaf, below a P-node, below a section -/

/-- A vertex that is put in at a leaf. -/
theorem Draws.placeInLeaf (h : w.Draws S ((Plan.leaf x held).under bs)) (ht : w.touched = [])
    (hu : p.vertex ∉ S) :
    ∃ w' G, w.placeInLeaf p x = .ok w' ∧ w'.Shows (insert p.vertex S) bs G ∧
      (Plan.leaf x held).node.grow? p.vertex p.nbrs = some (.plain G.node) := by
  have hst : w.Stands S (ctx bs) x _ := h.stands (by simp [ht])
  rw [Plan.cells_leaf] at hst
  have hcell := hst.owns.cell rfl
  rw [Plan.node_leaf, Node.grow?_leaf]
  -- a leaf that is reached as a whole takes the vertex in; another one keeps what was missed
  by_cases hfull : isFull p.nbrs held = true
  · obtain ⟨a, h', hshows⟩ := h.joinLeaf ht hu
    refine ⟨_, _, ?_, hshows, ?_⟩
    · simp only [Work.placeInLeaf, hcell, ok_bind, held_leafCell, hfull, if_true, h', pure_eq_ok]
    · simp [Node.growLeaf, hfull]
  · obtain ⟨a, w₁, top, w₂, leaf, h₁, h₂, h₃, hshows⟩ := h.shelve (x := x) p.nbrs rfl
      (hst.congr (add_zero _).symm) rfl hu (U := .leaf x (missed p.nbrs held)) rfl
      (fun parent => by rw [Plan.cells_leaf, add_zero]; rfl) (by simp) Plan.rowsFrom_leaf Plan.formed_leaf
      Plan.trim_leaf
    refine ⟨w₂.touch [top], _, ?_, hshows [top] (by simp), ?_⟩
    · simp only [Work.placeInLeaf, hcell, ok_bind, held_leafCell, Bool.eq_false_iff.2 hfull,
        Bool.false_eq_true, if_false, h₁, h₂, h₃, pure_eq_ok]
    · simp [Node.growLeaf, hfull, Node.bundle]

/-- A vertex that is put in below a P-node. -/
theorem Draws.placeBelow (h : w.Draws S ((Plan.pnode x held children).under bs)) (ht : w.touched = [])
    (htrim : (Plan.pnode x held children).Trim) (hu : p.vertex ∉ S)
    (hlimbs : ∀ l ∈ (Plan.pnode x held children).limbs, l.2.node.meets p.nbrs = false) :
    ∃ w' G, w.placeBelow p x = .ok w' ∧ w'.Shows (insert p.vertex S) bs G ∧
      (Plan.pnode x held children).node.grow? p.vertex p.nbrs = some (.plain G.node) := by
  have hst : w.Stands S (ctx bs) x _ := h.stands (by simp [ht])
  rw [Plan.cells_pnode] at hst
  have hcell := hst.owns.cell (add_assoc _ _ _)
  obtain ⟨hvis, hchildren⟩ := Plan.trim_iff.1 htrim
  obtain ⟨hstable, hformed⟩ := Plan.formed_iff.1 h.formed.focus
  -- the node is the last one of its path, so that it grows itself and not a child
  have hfind : Sole.find (Node.meets p.nbrs) (children.map Plan.node) = .absent :=
    Sole.find_absent (List.forall_mem_map.2 fun c hc => hlimbs (x, c) (List.mem_map_of_mem hc))
  rw [Plan.node_of_visible hvis, Node.grow?_pnode, hfind]
  have hlimb : ∀ c ∈ children, (x, c) ∈ (Plan.pnode x held children).limbs :=
    fun c hc => List.mem_map_of_mem hc
  by_cases hfull : isFull p.nbrs held = true
  · obtain ⟨w', leaf, h', hshows, htrim'⟩ := h.adoptLeaf ht htrim hu
    refine ⟨w'.touch [x], _, ?_, hshows [x] (by simp), ?_⟩
    · simp only [Work.placeBelow, hcell, ok_bind, held_pCell, hfull, if_true, h', pure_eq_ok]
    · rw [Plan.node_of_visible (Plan.trim_iff.1 htrim').1]
      simp [Node.growChildren, hfull]
  · have hne := missed_ne_nil hfull
    have hvis' : (Plan.pnode x (missed p.nbrs held) children).Visible := Or.inl hne
    obtain ⟨a, w₁, top, w₂, leaf, h₁, h₂, h₃, hshows⟩ := h.shelve (x := x) p.nbrs rfl hst rfl hu
      (U := .pnode x (missed p.nbrs held) children) rfl
      (fun parent => Plan.cells_pnode _ _ _) (by simp [Plan.count_pnode])
      (Plan.rowsFrom_pnode fun c hc => Plan.rowsFrom_limb (hlimb c hc))
      (Plan.formed_pnode hstable fun c hc => hformed _ (hlimb c hc))
      (Plan.trim_pnode (Or.inl hne) fun c hc => hchildren _ (hlimb c hc))
    refine ⟨w₂.touch [x, top], _, ?_, hshows [x, top] (by simp), ?_⟩
    · simp only [Work.placeBelow, hcell, ok_bind, held_pCell, Bool.eq_false_iff.2 hfull,
        Bool.false_eq_true, if_false, h₁, h₂, h₃, pure_eq_ok]
    · rw [Plan.node_of_visible (Or.inr (by simp)), List.map_cons, Plan.node_of_visible hvis']
      simp [Node.growChildren, hfull]

/-- A vertex that is put in below a section, beside the node there. -/
theorem Draws.attachBelow (h : w.Draws S (T.under bs)) (ht : w.touched = []) (htrim : T.Trim)
    (hu : p.vertex ∉ S) {s : NodeId} {l : SliceLinks} (hl : w.arena.links s = .ok l)
    (hson : l.son = T.id) :
    ∃ w' G, w.attachBelow p s = .ok w' ∧ w'.Shows (insert p.vertex S) bs G ∧
      G.node = T.node.beside p.vertex := by
  have hst : w.Stands S (ctx bs) T.id _ := h.stands (by simp [ht])
  -- Whatever does not take the vertex itself is paired up with it.
  have hpair : ∀ d, w.arena.cell T.id = .ok d → (d.held.isEmpty && d.kind = .leaf) = false →
      (d.held.isEmpty && d.kind.isP) = false →
      T.node.beside p.vertex = .pnode [] [T.node, .leaf [p.vertex]] →
      ∃ w' G, w.attachBelow p s = .ok w' ∧ w'.Shows (insert p.vertex S) bs G ∧
        G.node = T.node.beside p.vertex := by
    intro d hd hleaf hp hnode
    obtain ⟨w', top, leaf, h', hshows, htrim'⟩ := h.pairUp ht htrim hu
    refine ⟨w'.touch [top], _, ?_, hshows [top] (by simp), ?_⟩
    · simp only [Work.attachBelow, hl, hson, hd, ok_bind, hleaf, hp, Bool.false_eq_true, if_false,
        h', pure_eq_ok]
    · rw [Plan.node_of_visible (Plan.trim_iff.1 htrim').1, hnode]
      simp
  cases T with
  | leaf x held =>
      rw [Plan.cells_leaf] at hst
      have hcell := hst.owns.cell rfl
      cases held with
      | cons v rest => exact hpair _ hcell rfl rfl (by simp [Node.beside])
      | nil =>
          obtain ⟨a, h', hshows⟩ := h.joinLeaf ht hu
          rw [List.nil_append] at h' hshows
          refine ⟨_, _, ?_, hshows, by simp [Node.beside]⟩
          rw [Plan.id_leaf] at hson
          simp only [Work.attachBelow, hl, hson, hcell, ok_bind, held_leafCell]
          simp [leafCell, h', ok_bind, pure_eq_ok]
  | pnode x held children =>
      rw [Plan.cells_pnode] at hst
      have hcell := hst.owns.cell (add_assoc _ _ _)
      have hvis := Plan.node_of_visible (Plan.trim_iff.1 htrim).1
      cases held with
      | cons v rest => exact hpair _ hcell rfl rfl (by rw [hvis]; simp [Node.beside])
      | nil =>
          obtain ⟨w', leaf, h', hshows, htrim'⟩ := h.adoptLeaf ht htrim hu
          refine ⟨w'.touch [x], _, ?_, hshows [x] (by simp), ?_⟩
          · rw [Plan.id_pnode] at hson
            simp only [Work.attachBelow, hl, hson, hcell, ok_bind, held_pCell]
            simp [pCell, Kind.isP, h', ok_bind, pure_eq_ok]
          · rw [hvis, Plan.node_of_visible (Plan.trim_iff.1 htrim').1]
            simp [Node.beside]
  | qnode q row =>
      rw [Plan.cells_qnode] at hst
      have hcell := hst.owns.cell_of_mem (Multiset.mem_add.2 (Or.inl (Arena.Owns.mem_row rfl)))
      refine hpair _ hcell ?_ ?_ (by simp [Node.beside]) <;> cases (row.map Part.top).flipped <;> rfl

end Work

end CliquePath
