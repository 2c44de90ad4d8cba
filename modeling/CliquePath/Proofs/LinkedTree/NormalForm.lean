import CliquePath.Proofs.LinkedTree.Mirroring
import CliquePath.Proofs.LinkedTree.OneTree

set_option autoImplicit false

/-!
# The normal form of a linked tree

This module states the normal form of a linked tree in terms of its live cells and its slots, and shows
that every tree has it which took in all vertices that were put in. It is read off the plan for which
the cells stand. That plan is trim, and the node that it shows is in normal form.
-/

namespace CliquePath

open Cells (one)
open Plan (ctx)

namespace LinkedTree

/-- One leaf or P-node stores the vertex, the one that its slot names. -/
structure StoredInNode (t : LinkedTree) (v : Vertex) (id : NodeId) : Prop where
  slot : t.slots.get v = .node id
  node : ∃ c, t.arena.HasCell id c ∧ (c.kind = .leaf ∨ c.kind.isP = true)
  holder : ∀ x d, t.arena.HasCell x d → (v ∈ d.held ↔ x = id)

/-- The sections of a Q-node from one end of the span in the slot to the other store the vertex. They
are two or more, but not all. -/
structure StoredInRow (t : LinkedTree) (v : Vertex) (q : NodeId) (before run after : List NodeId) :
    Prop where
  node : ∃ c, t.arena.HasCell q c
  sections : t.arena.slices q = .ok (before ++ (run ++ after))
  slot : ∃ first last, run.head? = some first ∧ run.getLast? = some last ∧
    (t.slots.get v = .span first last ∨ t.slots.get v = .span last first)
  several : 2 ≤ run.length
  notAll : before ++ after ≠ []
  holders : ∀ x d, t.arena.HasCell x d → (v ∈ d.held ↔ x ∈ run)

/-- The normal form of a linked tree that has the given vertices. -/
structure Normal (t : LinkedTree) (vs : List Vertex) : Prop where
  tree : t.arena.OneTree
  /-- A P-node without vertices has several children and is not the child of a P-node. -/
  pnodes : ∀ id c children, t.arena.HasCell id c → c.kind = .pnode children → c.held = [] →
    2 ≤ children.length ∧ ∀ p, c.parent = some p → t.arena.isP p = .ok false
  /-- A Q-node has three sections or more. -/
  qnodes : ∀ id c first last flipped, t.arena.HasCell id c → c.kind = .qnode first last flipped →
    ∃ ss, t.arena.slices id = .ok ss ∧ 3 ≤ ss.length
  stored : ∀ v ∈ vs, (∃ id, t.StoredInNode v id) ∨ ∃ q before run after, t.StoredInRow v q before run after
  /-- A leaf without vertices is the son of a section. -/
  leaves : ∀ id c, t.arena.HasCell id c → c.kind = .leaf → c.held = [] →
    ∃ s d, c.parent = some s ∧ t.arena.HasCell s d ∧ d.kind.isSlice = true

end LinkedTree

/-! ## Nodes of a trim plan -/

namespace Row

variable {row : Row (Part Plan)} {v : Vertex} {as m bs : List (Int × Part Plan)}

/-- No vertex is held by all sections of a row that stands. -/
theorem Block.not_all (h : row.Block v as m bs) (hshort : (row.map Part.shown).pattern.Short row.size) :
    as ++ bs ≠ [] := by
  intro hnil
  obtain ⟨rfl, rfl⟩ := List.append_eq_nil_iff.1 hnil
  have hkeyed := h.keyed
  rw [List.nil_append, List.append_nil] at hkeyed
  -- with nothing on either side the block is the whole row, which no run of a standing row is
  have hheld : ∀ s ∈ row.toList, v ∈ s.held := by
    intro s hs
    obtain ⟨e, he, rfl⟩ := List.mem_map.1 hs
    exact h.inside e (hkeyed ▸ he)
  have hlen : 0 < row.size := by
    rw [← Row.length_keyed, hkeyed]
    exact List.length_pos_iff.2 h.ne_nil
  refine hshort v fun i => ?_
  rw [pattern_iff, toList_map]
  constructor
  · rintro ⟨s, hs, -⟩
    have hi := (List.getElem?_eq_some_iff.1 hs).1
    rw [List.length_map, Row.length_toList] at hi
    omega
  · rintro ⟨-, hi⟩
    have hlt : i < row.toList.length := by
      rw [Row.length_toList]
      omega
    refine ⟨row.toList[i].shown, ?_, hheld _ (List.getElem_mem hlt)⟩
    rw [List.getElem?_map, List.getElem?_eq_getElem hlt]
    rfl

end Row

namespace Work

variable {w : Work} {S : Set Vertex} {W : Plan} {id : NodeId} {c : Cell} {v : Vertex}

/-- A P-node without vertices has several children and is not the child of a P-node. -/
theorem Draws.pnode_normal (h : w.Draws S W) (htrim : W.Trim) (hproper : W.node.Proper)
    (hc : w.arena.HasCell id c) {children : List NodeId} (hkind : c.kind = .pnode children)
    (hheld : c.held = []) :
    2 ≤ children.length ∧ ∀ p, c.parent = some p → w.arena.isP p = .ok false := by
  obtain ⟨bs, T, rfl, -, hstores⟩ := h.stores hc
  cases hstores with
  | leaf x held => cases hkind
  | qnode q row first last flipped => cases hkind
  | part q row s hs left right rank => cases hkind
  | pnode x held children =>
      cases hkind
      cases hheld
      -- without vertices a trim P-node is visible by the number of its children
      have hvis := (Plan.trim_iff.1 htrim.focus).1
      have hlen : children.length ≠ 1 := hvis.resolve_left fun hne => hne rfl
      have hpos := List.length_pos_iff.2 (show children ≠ [] from (Plan.formed_iff.1 h.formed.focus).1)
      rw [List.length_map]
      exact ⟨by omega, h.not_under (htrim.slack []) hproper hlen⟩

/-- A Q-node has three sections or more. -/
theorem Draws.qnode_normal (h : w.Draws S W) (hproper : W.node.Proper) (hc : w.arena.HasCell id c)
    {first last : NodeId} {flipped : Bool} (hkind : c.kind = .qnode first last flipped) :
    ∃ ss, w.arena.slices id = .ok ss ∧ 3 ≤ ss.length := by
  obtain ⟨bs, T, rfl, -, hstores⟩ := h.stores hc
  cases hstores with
  | leaf x held => cases hkind
  | pnode x held children => cases hkind
  | part q row s hs left right rank => cases hkind
  | qnode q row first last flipped =>
      refine ⟨_, h.slices, ?_⟩
      have hthree := (Plan.standing (Plan.proper_focus hproper)).rigid.three
      rwa [Row.size_map, ← Row.length_toList, ← List.length_map Part.id] at hthree

/-- A leaf without vertices is the son of a section. -/
theorem Draws.leaf_normal (h : w.Draws S W) (htrim : W.Trim) (hproper : W.node.Proper) (hS : S.Nonempty)
    (hc : w.arena.HasCell id c) (hkind : c.kind = .leaf) (hheld : c.held = []) :
    ∃ s d, c.parent = some s ∧ w.arena.HasCell s d ∧ d.kind.isSlice = true := by
  obtain ⟨bs, T, rfl, -, hstores⟩ := h.stores hc
  cases hstores with
  | pnode x held children => cases hkind
  | qnode q row first last flipped => cases hkind
  | part q row s hs left right rank => cases hkind
  | leaf x held =>
      cases hheld
      -- the only leaf of a tree has a vertex, and so has one below a P-node
      cases bs with
      | nil =>
          obtain ⟨v, hv⟩ := hS
          rw [← h.mem_vertices] at hv
          simp [Plan.under] at hv
      | cons b bs =>
          cases b with
          | branch y held before after =>
              have hvis := (Plan.trim_iff.1 (@Plan.Trim.focus _ bs htrim)).1
              have hfirm := Bough.firm_child hvis (@Plan.proper_focus _ bs hproper)
              rw [Plan.node_leaf] at hfirm
              exact absurd rfl hfirm
          | inRow q flipped xs key s held ys =>
              obtain ⟨left, right, rank, hcell⟩ := Draws.hasCell_part (s := ⟨s, held, .leaf id []⟩) h
                (by simp [Row.toList])
              exact ⟨s, _, rfl, hcell, rfl⟩

end Work

namespace LinkedTree

open CliquePath.Graph (threePath reachable_threePath)

variable {t : LinkedTree} {S : Set Vertex} {W : Plan} {v : Vertex} {id one other : NodeId}

/-- A vertex whose slot names a leaf or P-node is stored there and nowhere else. -/
theorem storedInNode (h : (Work.mk t.arena t.slots []).Draws S W) (hslot : t.slots.get v = .node id) :
    t.StoredInNode v id := by
  have hfit : (t.slots.get v).Fits ((W.cells none).Holds v) := h.agree.fit v
  rw [hslot] at hfit
  obtain ⟨⟨c, hc, hv, hrow⟩, honly⟩ := hfit
  have hcell : t.arena.HasCell id c := h.hasCell hc
  refine ⟨hslot, ⟨c, hcell, ?_⟩, fun x d hd => ⟨fun hvd => ?_, ?_⟩⟩
  · obtain ⟨bs, T, -, -, hstores⟩ := h.stores hcell
    cases hstores with
    | leaf x held => exact Or.inl rfl
    | pnode x held children => exact Or.inr rfl
    | qnode q row first last flipped => cases hv
    | part q row s hs left right rank => cases hrow
  · -- the fit of the slots makes the holder unique
    exact congrArg Prod.fst (honly (x, d.row?) ⟨d, h.mem_of_hasCell hd, hvd, rfl⟩)
  · rintro rfl
    rwa [hd.unique hcell]

/-- A vertex whose slot names a span is stored in the sections from one end of it to the other. -/
theorem exists_storedInRow (h : (Work.mk t.arena t.slots []).Draws S W) (hproper : W.node.Proper)
    (hslot : t.slots.get v = .span one other) : ∃ q before run after, t.StoredInRow v q before run after := by
  have hfit : (t.slots.get v).Fits ((W.cells none).Holds v) := h.agree.fit v
  rw [hslot] at hfit
  obtain ⟨q, ⟨c, hc, hv, hrow⟩, -, hall⟩ := hfit
  obtain ⟨bs, T, rfl, -, hstores⟩ := h.stores (h.hasCell hc)
  cases hstores with
  | leaf x held => cases hrow
  | pnode x held children => cases hrow
  | qnode q row first last flipped => cases hv
  | part q' row s hs left right rank =>
      obtain rfl : q' = q := Option.some.inj hrow
      have hrigid := (Plan.standing (Plan.proper_focus hproper)).rigid
      rw [Row.size_map] at hrigid
      obtain ⟨as, m, cs, hblock⟩ := Row.exists_block hrigid.lined ⟨s, hs, hv⟩
      obtain ⟨first, last, hfirst, hlast, hends⟩ := hblock.slot h.marks_row
      refine ⟨q', as.map fun e => e.2.id, m.map fun e => e.2.id, cs.map fun e => e.2.id, ?_, ?_, ?_, ?_, ?_,
        fun x d hd => ⟨fun hvd => ?_, fun hx => ?_⟩⟩
      · exact ⟨_, h.hasCell_own Row.row_mem_cellsAt⟩
      · refine h.slices.trans ?_
        rw [Row.toList, hblock.keyed]
        simp [Function.comp_def]
      · exact ⟨first.2.id, last.2.id, by simp [hfirst], by simp [hlast], hends⟩
      · simpa using hblock.several
      · simpa using hblock.not_all hrigid.short
      · -- Only sections of this row store the vertex.
        have hrow' : d.row? = some q' := hall (x, d.row?) ⟨d, h.mem_of_hasCell hd, hvd, rfl⟩
        obtain ⟨bs', T', heq, -, hstores⟩ := h.stores hd
        cases hstores with
        | leaf x held => cases hrow'
        | pnode x held children => cases hrow'
        | qnode q row first last flipped => cases hvd
        | part q'' row' s' hs' left right rank =>
            obtain rfl : q'' = q' := Option.some.inj hrow'
            have hsame := Plan.part_eq h.owns.nodup (heq ▸ Plan.mem_parts_under _ bs')
              (Plan.mem_parts_under _ bs) (show (Plan.qnode q'' row').id = (Plan.qnode q'' row).id from rfl)
            rw [Plan.qnode.injEq] at hsame
            rw [hsame.2] at hs'
            obtain ⟨e, he, rfl⟩ := List.mem_map.1 hs'
            exact List.mem_map_of_mem ((hblock.mem_iff he).1 hvd)
      · obtain ⟨e, he, rfl⟩ := List.mem_map.1 hx
        have hkeyed : e ∈ row.keyed := by
          rw [hblock.keyed]
          simp [he]
        obtain ⟨left', right', rank', hcell⟩ := h.hasCell_part (List.mem_map_of_mem hkeyed)
        rw [hd.unique hcell]
        exact hblock.inside e he

/-- Every vertex of the tree is stored where its slot says. -/
theorem stored (h : (Work.mk t.arena t.slots []).Draws S W) (hproper : W.node.Proper) (hv : v ∈ S) :
    (∃ id, t.StoredInNode v id) ∨ ∃ q before run after, t.StoredInRow v q before run after := by
  have hplaced : t.slots.get v ≠ .absent := (h.agree.placed v).2 hv
  cases hslot : t.slots.get v with
  | absent => exact absurd hslot hplaced
  | node id => exact Or.inl ⟨id, storedInNode h hslot⟩
  | span one other => exact Or.inr (exists_storedInRow h hproper hslot)

/-- A linked tree that stands for a clique tree in normal form is in normal form. -/
theorem Mirrors.normal {ct : CliqueTree} (h : t.Mirrors ct) (hsound : ct.Sound) : t.Normal ct.placed := by
  have hmem : ∀ v, v ∈ ct.placed ↔ v ∈ {v | v ∈ ct.placed} := fun v => Iff.rfl
  have hproper : ∀ node, ct.root = some node → node.Proper := by
    intro node hroot
    have hnode := hsound.proper
    rwa [CliqueTree.node, hroot] at hnode
  rw [Mirrors] at h
  generalize ct.root = root at h hproper
  generalize {v | v ∈ ct.placed} = S at h hmem
  cases h with
  | empty sound hroot live =>
      -- no cell of an empty tree is alive
      have hnone : ∀ id c, ¬ t.arena.HasCell id c := by
        intro id c hc
        have hlife := Arena.life_of_cell hc.1
        rw [hc.2] at hlife
        have hzero := sound.owns.mem_of_life (by simp) live hlife
        simp at hzero
      exact
        { tree := ⟨fun r hr => absurd (hr.symm.trans hroot) (by simp), fun p c hc => absurd hc (hnone p c),
            fun id c hc => absurd hc (hnone id c)⟩
          pnodes := fun id c _ hc => absurd hc (hnone id c)
          qnodes := fun id c _ _ _ hc => absurd hc (hnone id c)
          stored := fun v hv => by
            obtain ⟨r, hr⟩ := sound.agree.mem_iff_exists_holds.1 ((hmem v).1 hv)
            exact absurd hr Cells.holds_zero
          leaves := fun id c hc => absurd hc (hnone id c) }
  | plan draws trim nonempty =>
      have hnode := hproper _ rfl
      exact
        { tree := draws.oneTree
          pnodes := fun id c children hc => draws.pnode_normal trim hnode hc
          qnodes := fun id c first last flipped hc => draws.qnode_normal hnode hc
          stored := fun v hv => stored draws hnode ((hmem v).1 hv)
          leaves := fun id c hc => draws.leaf_normal trim hnode nonempty hc }

/-- The path on four vertices, one more than the path on three. -/
def fourPath : Graph := threePath.pushNumbered.join 2 3

theorem reachable_fourPath : fourPath.Reachable :=
  .insertEdge (.pushNumbered reachable_threePath) (u := 2) (v := 3) rfl

/-- A linked tree that took in every vertex is in normal form, whatever graphs these were taken from. -/
theorem normal_after (b : Nat) (calls : List Call) (hgraphs : ∀ c ∈ calls, c.graph.Reachable)
    (hall : ∀ answer ∈ (new b).answers calls, answer = .ok .inserted) :
    ((new b).after calls).Normal (calls.map Call.vertex) := by
  have hstart : CliqueTree.After (recorded []) .empty := .start
  obtain ⟨ct, hct, hmirrors⟩ := (mirrors_new b).run hstart hgraphs hall
  have hkeeps := hct.keeps
  have hnormal := hmirrors.normal hkeeps.sound
  -- every vertex of the calls was put in, and no other one
  have hplaced : ∀ v, v ∈ ct.placed ↔ v ∈ calls.map Call.vertex := by
    intro v
    rw [hkeeps.placed]
    simp [CliqueTree.inserted, recorded]
  exact { hnormal with stored := fun v hv => hnormal.stored v ((hplaced v).2 hv) }

/-- The path on four vertices, put in from one end to the other. The last vertex is new in the graph
when the others are in the tree already. The inner vertices have spans. -/
theorem normal_after_fourPath :
    let calls : List Call := [⟨threePath, 0⟩, ⟨threePath, 1⟩, ⟨threePath, 2⟩, ⟨fourPath, 3⟩]
    (∀ c ∈ calls, c.graph.Reachable) ∧ (∀ answer ∈ (new 0).answers calls, answer = .ok .inserted) ∧
      ((new 0).after calls).slots = #[.node 0, .span 8 5, .span 5 6, .node 4] ∧
      ((new 0).after calls).Normal [0, 1, 2, 3] := by
  intro calls
  have hgraphs : ∀ c ∈ calls, c.graph.Reachable := by
    simp [calls, reachable_threePath, reachable_fourPath]
  have hanswers : (new 0).answers calls = [.ok .inserted, .ok .inserted, .ok .inserted, .ok .inserted] := by
    cbv
  have hall : ∀ answer ∈ (new 0).answers calls, answer = .ok .inserted := by
    rw [hanswers]
    decide
  exact ⟨hgraphs, hall, by cbv, normal_after 0 calls hgraphs hall⟩

end LinkedTree

end CliquePath
