import CliquePath.Proofs.LinkedTree.Trails
import Mathlib.Logic.Relation

set_option autoImplicit false

/-!
# The tree of the live cells

This module states that the live cells of an arena form one tree, in which the links from a node to
those directly below it and the links from these to their parent are inverse to each other. The cells
that stand for a plan form such a tree.
-/

namespace CliquePath

open Cells (one)
open Plan (ctx)

namespace Arena

/-- The cell at a place, which is alive. -/
def HasCell (a : Arena) (id : NodeId) (c : Cell) : Prop := a.cell id = .ok c ∧ c.alive = true

/-- The nodes directly below a node: the children of a P-node, the sections of a Q-node from left to
right, what stands below a section. -/
def below (a : Arena) (id : NodeId) : Except TreeFault (List NodeId) := do
  match (← a.cell id).kind with
  | .leaf => return []
  | .pnode children => return children
  | .qnode .. => a.slices id
  | .slice son .. => return [son]

/-- The second node is directly below the first. -/
def Child (a : Arena) (p id : NodeId) : Prop := ∃ ids, a.below p = .ok ids ∧ id ∈ ids

/-- The live cells form one tree under the root. -/
structure OneTree (a : Arena) : Prop where
  /-- The root is alive and has no parent. -/
  root : ∀ r, a.root = some r → ∃ c, a.HasCell r c ∧ c.parent = none
  /-- The nodes directly below a live node are the live nodes of which it is the parent. -/
  linked : ∀ p c, a.HasCell p c → ∃ ids, a.below p = .ok ids ∧ ids.Nodup ∧
    ∀ id, id ∈ ids ↔ ∃ d, a.HasCell id d ∧ d.parent = some p
  /-- Every live node is below the root. -/
  reached : ∀ id c, a.HasCell id c → ∃ r, a.root = some r ∧ Relation.ReflTransGen a.Child r id

theorem HasCell.unique {a : Arena} {id : NodeId} {c d : Cell} (h : a.HasCell id c) (h' : a.HasCell id d) :
    c = d :=
  Except.ok.inj (h.1.symm.trans h'.1)

end Arena

/-- The places of the sections of a row, from left to right. -/
theorem Row.ids_top (row : Row (Part Plan)) :
    Entries.ids (row.map Part.top).keyed = row.toList.map Part.id := by
  rw [Entries.ids, Row.keyed_map, List.map_map, Row.toList, List.map_map]
  rfl

namespace Work

variable {w : Work} {S : Set Vertex} {T W : Plan} {bs : List Bough} {id : NodeId} {c : Cell}

theorem Draws.hasCell (h : w.Draws S W) (hc : (id, c) ∈ W.cells none) : w.arena.HasCell id c :=
  ⟨h.owns.cell_of_mem hc, Plan.alive_cells hc⟩

/-- The live cells are those that stand for the plan. -/
theorem Draws.mem_of_hasCell (h : w.Draws S W) (hc : w.arena.HasCell id c) : (id, c) ∈ W.cells none := by
  have hlife := Arena.life_of_cell hc.1
  rw [hc.2] at hlife
  obtain ⟨⟨x, d⟩, hd, rfl⟩ := Multiset.mem_map.1 (h.mem_of_life hlife)
  rwa [hc.unique (h.hasCell hd)]

/-- A cell of the node in focus is alive. -/
theorem Draws.hasCell_own (h : w.Draws S (T.under bs)) (hc : (id, c) ∈ T.own (ctx bs).parent) :
    w.arena.HasCell id c := by
  refine h.hasCell ?_
  rw [Plan.cells_under]
  exact Multiset.mem_add.2 (Or.inl (Plan.own_subset_cells hc))

/-- Every live cell is one of a part of the plan. -/
theorem Draws.stores (h : w.Draws S W) (hc : w.arena.HasCell id c) :
    ∃ bs T, W = T.under bs ∧ (id, c) ∈ T.own (ctx bs).parent ∧ Plan.Stores (ctx bs).parent T id c := by
  obtain ⟨cs, T, rfl, hown⟩ := @Plan.exists_own _ _ _ [] (h.mem_of_hasCell hc)
  rw [List.append_nil] at hown
  exact ⟨cs, T, rfl, hown, Plan.stores_of_own hown⟩

/-- The node in focus has a live cell that refers to its parent. -/
theorem Draws.hasCell_focus (h : w.Draws S (T.under bs)) :
    ∃ c, w.arena.HasCell T.id c ∧ c.parent = (ctx bs).parent := by
  obtain ⟨c, hc, hparent, -⟩ := T.exists_own_cell (ctx bs).parent
  exact ⟨c, h.hasCell_own hc, hparent⟩

/-! ## Links downwards -/

theorem Draws.below_leaf {x : NodeId} {held : List Vertex} (h : w.Draws S ((Plan.leaf x held).under bs)) :
    w.arena.below x = .ok [] := by
  rw [Arena.below, (h.hasCell_own (Cells.mem_one.2 rfl)).1]
  rfl

theorem Draws.below_pnode {x : NodeId} {held : List Vertex} {children : List Plan}
    (h : w.Draws S ((Plan.pnode x held children).under bs)) :
    w.arena.below x = .ok (children.map Plan.id) := by
  rw [Arena.below, (h.hasCell_own (Cells.mem_one.2 rfl)).1]
  rfl

theorem Draws.slices {q : NodeId} {row : Row (Part Plan)} (h : w.Draws S ((Plan.qnode q row).under bs)) :
    w.arena.slices q = .ok (row.toList.map Part.id) := by
  have hne : (row.map Part.top).keyed ≠ [] := by
    rw [Row.keyed_map]
    simpa using (Plan.formed_iff.1 h.formed.focus).1.1
  rw [h.owns.slices_row (Plan.cells_under_row q row bs) hne, Row.ids_top]

theorem Draws.below_qnode {q : NodeId} {row : Row (Part Plan)}
    (h : w.Draws S ((Plan.qnode q row).under bs)) :
    w.arena.below q = .ok (row.toList.map Part.id) := by
  rw [← h.slices, Arena.below]
  have hcell := (h.hasCell_own Row.row_mem_cellsAt).1
  rw [hcell]
  cases (row.map Part.top).flipped <;> rfl

/-- The cell of a section of the row in focus. -/
theorem Draws.hasCell_part {q : NodeId} {row : Row (Part Plan)} {s : Part Plan}
    (h : w.Draws S ((Plan.qnode q row).under bs)) (hs : s ∈ row.toList) :
    ∃ left right rank, w.arena.HasCell s.id ⟨.slice s.son.id left right rank, some q, s.held, true⟩ := by
  obtain ⟨left, right, rank, hcell⟩ := Plan.exists_part_cell (q := q) hs (ctx bs).parent
  exact ⟨left, right, rank, h.hasCell_own hcell⟩

theorem Draws.below_part {q : NodeId} {row : Row (Part Plan)} {s : Part Plan}
    (h : w.Draws S ((Plan.qnode q row).under bs)) (hs : s ∈ row.toList) :
    w.arena.below s.id = .ok [s.son.id] := by
  obtain ⟨left, right, rank, hcell⟩ := h.hasCell_part hs
  rw [Arena.below, hcell.1]
  rfl

/-- What stands directly below a node has a live cell that refers to it. -/
theorem Draws.hasCell_limb {l : NodeId × Plan} (h : w.Draws S (T.under bs)) (hl : l ∈ T.limbs) :
    ∃ c, w.arena.HasCell l.2.id c ∧ c.parent = some l.1 := by
  obtain ⟨b, rfl, hb⟩ := Plan.exists_fill hl
  obtain ⟨c, hc, hparent⟩ := @Draws.hasCell_focus _ _ _ (b :: bs) h
  refine ⟨c, hc, hparent.trans ?_⟩
  rw [← hb, ← Bough.holder_frame]
  rfl

/-! ## Links upwards -/

/-- The node in focus is directly below the place above it. -/
theorem Draws.child_focus {b : Bough} (h : w.Draws S (T.under (b :: bs))) :
    w.arena.Child b.holder T.id := by
  cases b with
  | branch x held before after =>
      exact ⟨_, @Draws.below_pnode _ _ _ _ _ (before ++ T :: after) h, by simp⟩
  | inRow q flipped xs key s held ys =>
      refine ⟨_, Draws.below_part (s := ⟨s, held, T⟩) h ?_, List.mem_singleton_self _⟩
      simp [Row.toList]

/-- A live node is directly below its parent. -/
theorem Draws.child_of_parent (h : w.Draws S W) (hc : w.arena.HasCell id c) {p : NodeId}
    (hp : c.parent = some p) : w.arena.Child p id := by
  obtain ⟨bs, T, rfl, -, hstores⟩ := h.stores hc
  -- The parent of a section is its Q-node, that of a node in focus the place above it.
  have hfocus : (ctx bs).parent = some p → w.arena.Child p T.id := by
    intro hparent
    cases bs with
    | nil => cases hparent
    | cons b bs =>
        have hholder : b.holder = p := by
          rw [← Bough.holder_frame]
          exact Option.some.inj hparent
        exact hholder ▸ h.child_focus
  cases hstores with
  | leaf x held => exact hfocus hp
  | pnode x held children => exact hfocus hp
  | qnode q row first last flipped => exact hfocus hp
  | part q row s hs left right rank =>
      cases hp
      exact ⟨_, h.below_qnode, List.mem_map_of_mem hs⟩

/-! ## One tree -/

/-- The node in focus is below the top of the plan. -/
theorem Draws.reached_focus (h : w.Draws S (T.under bs)) :
    Relation.ReflTransGen w.arena.Child (T.under bs).id T.id := by
  induction bs generalizing T with
  | nil => exact .refl
  | cons b bs ih =>
      have htop : Relation.ReflTransGen w.arena.Child (T.under (b :: bs)).id (b.fill T).id := ih h
      cases b with
      | branch x held before after => exact htop.tail h.child_focus
      | inRow q flipped xs key s held ys =>
          refine (htop.tail ⟨_, Draws.below_qnode h, ?_⟩).tail h.child_focus
          simp [Row.toList, Bough.holder]

/-- The cells that stand for a plan form one tree, and no other cell is alive. -/
theorem Draws.oneTree (h : w.Draws S W) : w.arena.OneTree where
  root r hr := by
    rw [h.owns.root_eq, Option.some.injEq] at hr
    exact hr ▸ @Draws.hasCell_focus _ _ _ [] h
  reached id c hc := by
    refine ⟨W.id, h.owns.root_eq, ?_⟩
    obtain ⟨bs, T, rfl, -, hstores⟩ := h.stores hc
    have htop := h.reached_focus
    cases hstores with
    | leaf x held => exact htop
    | pnode x held children => exact htop
    | qnode q row first last flipped => exact htop
    | part q row s hs left right rank => exact htop.tail ⟨_, h.below_qnode, List.mem_map_of_mem hs⟩
  linked p c hc := by
    -- It is enough that the nodes directly below refer to this one.
    have hlinked : ∀ ids, w.arena.below p = .ok ids → ids.Nodup →
        (∀ id ∈ ids, ∃ d, w.arena.HasCell id d ∧ d.parent = some p) →
        ∃ ids, w.arena.below p = .ok ids ∧ ids.Nodup ∧
          ∀ id, id ∈ ids ↔ ∃ d, w.arena.HasCell id d ∧ d.parent = some p := by
      refine fun ids hids hnodup hdown => ⟨ids, hids, hnodup, fun id => ⟨hdown id, ?_⟩⟩
      rintro ⟨d, hd, hparent⟩
      obtain ⟨ids', hids', hid⟩ := h.child_of_parent hd hparent
      rwa [Except.ok.inj (hids.symm.trans hids')]
    obtain ⟨bs, T, rfl, -, hstores⟩ := h.stores hc
    have hnodup : (T.limbs.map fun l => l.2.id).Nodup := Plan.nodup_limbs h.nodup_focus
    cases hstores with
    | leaf x held => exact hlinked _ h.below_leaf List.nodup_nil (by simp)
    | pnode x held children =>
        refine hlinked _ h.below_pnode (by simpa [Plan.limbs, Function.comp_def] using hnodup) ?_
        exact List.forall_mem_map.2 fun C hC => h.hasCell_limb (l := (_, C)) (List.mem_map_of_mem hC)
    | qnode q row first last flipped =>
        refine hlinked _ h.below_qnode ?_ ?_
        · have hids := h.owns.nodup_ids (Plan.cells_under_row p row bs)
          rwa [Row.ids_top] at hids
        · refine List.forall_mem_map.2 fun s hs => ?_
          obtain ⟨left, right, rank, hcell⟩ := h.hasCell_part hs
          exact ⟨_, hcell, rfl⟩
    | part q row s hs left right rank =>
        refine hlinked _ (h.below_part hs) (List.nodup_singleton _) ?_
        rw [List.forall_mem_singleton]
        exact h.hasCell_limb (l := (s.id, s.son)) (List.mem_map_of_mem hs)

end Work

end CliquePath
