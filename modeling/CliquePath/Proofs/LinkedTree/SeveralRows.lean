import CliquePath.Proofs.LinkedTree.Life
import CliquePath.Proofs.LinkedTree.Slots
import CliquePath.Proofs.Row.KeyBounds

set_option autoImplicit false

/-!
# Several linked rows

This module follows any number of Q-nodes in one arena, each with its row and with a budget for the
ranks of its sections. A new section can be put above any cell but a listed section; if the cell is a
Q-node that is followed, only its parent changes. A new Q-node joins the others with its row spread
evenly.
-/

namespace CliquePath

open Cells (one)

namespace Arena

variable {α : Type} {a : Arena} {id q s : NodeId} {n : Nat}

/-- A new section gets the next place. -/
theorem newSlice_place {a' : Arena} {son : NodeId} {held : List Vertex}
    (h : a.newSlice son held = .ok (a', s)) : s = a.cells.size ∧ a'.cells.size = a.cells.size + 1 := by
  obtain ⟨hs, hlife⟩ := life_newSlice h
  rw [size_of_life hlife, Array.size_push, size_life]
  exact ⟨hs, rfl⟩

theorem insertSlice_size {a' : Arena} {left right : Option NodeId} {son : NodeId}
    {held : List Vertex} (h : a.insertSlice q left right son held = .ok (a', s)) :
    a'.cells.size = a.cells.size + 1 := by
  rw [size_of_life (life_insertSlice h), Array.size_push, size_life]

/-! ## Several rows -/

/-- A Q-node with its parent, its row, and the number of sections that were created for it. -/
structure Line where
  q : NodeId
  parent : Option NodeId
  row : Row (Part NodeId)
  budget : Nat

namespace Line

/-- The sections of the Q-node from left to right. -/
def ids (l : Line) : List NodeId := Entries.ids l.row.keyed

/-- The cells of the Q-node and of its sections. -/
def cells (l : Line) : Cells := l.row.cellsAt l.q l.parent

/-- The Q-node after a node got a new parent. -/
def reparent (son s : NodeId) (l : Line) : Line :=
  if l.q = son then { l with parent := some s } else l

@[simp]
theorem q_reparent (son s : NodeId) (l : Line) : (l.reparent son s).q = l.q := by
  rw [reparent]
  split <;> rfl

@[simp]
theorem row_reparent (son s : NodeId) (l : Line) : (l.reparent son s).row = l.row := by
  rw [reparent]
  split <;> rfl

end Line

/-- The cells of several Q-nodes. -/
def cellsOf (ls : List Line) : Cells := (ls.map Line.cells).sum

variable {as bs ls : List Line} {l : Line} {M m : Cells} {r : Option NodeId} {son : NodeId}
  {held : List Vertex} {ps : List (Part NodeId)}

theorem cellsOf_cons : cellsOf (l :: ls) = l.cells + cellsOf ls := List.sum_cons

theorem cellsOf_middle : cellsOf (as ++ l :: bs) = l.cells + cellsOf (as ++ bs) := by
  simp only [cellsOf, List.map_append, List.map_cons, List.sum_append, List.sum_cons]
  abel

theorem mem_places_cells : id ∈ l.cells.map Prod.fst ↔ id = l.q ∨ id ∈ l.ids := by
  rw [Line.cells, Cells.mem_ids_cellsAt, Line.ids, Cells.mem_entries_ids]

theorem mem_places_cellsOf :
    id ∈ (cellsOf ls).map Prod.fst ↔ ∃ l ∈ ls, id = l.q ∨ id ∈ l.ids := by
  induction ls with
  | nil => simp [cellsOf]
  | cons l rest ih =>
      rw [cellsOf_cons, Multiset.map_add, Multiset.mem_add, ih, mem_places_cells, List.exists_mem_cons_iff]

/-- A cell that exists and is not owned yet can be owned as well. -/
theorem Owns.add {c : Cell} (o : a.Owns r M) (hid : id ∉ M.map Prod.fst)
    (hc : a.cells[id]? = some c) : a.Owns r (one id c + M) where
  root_eq := o.root_eq
  nodup := by
    rw [Multiset.map_add, Cells.map_fst_one, Multiset.singleton_add, Multiset.nodup_cons]
    exact ⟨hid, o.nodup⟩
  cells e he := by
    rcases Multiset.mem_add.1 he with he | he
    · rw [Cells.mem_one.1 he]
      exact hc
    · exact o.cells e he

/-- The Q-nodes that are followed stand at different places. -/
theorem Owns.q_ne (o : a.Owns r (m + cellsOf (as ++ l :: bs))) {l' : Line} (hl' : l' ∈ as ++ bs) :
    l'.q ≠ l.q := by
  intro heq
  have hnodup := o.nodup
  rw [cellsOf_middle, Multiset.map_add, Multiset.map_add, Multiset.nodup_add] at hnodup
  have hdisj := (Multiset.nodup_add.1 hnodup.2.1).2.2
  exact Multiset.disjoint_left.1 hdisj (mem_places_cells.2 (Or.inl rfl))
    (mem_places_cellsOf.2 ⟨l', hl', Or.inl heq.symm⟩)

theorem map_reparent_of_ne {s : NodeId} (h : ∀ l ∈ ls, l.q ≠ son) :
    ls.map (Line.reparent son s) = ls := by
  conv_rhs => rw [← List.map_id ls]
  exact List.map_congr_left fun l hl => if_neg (h l hl)

/-- A new section above a node that is no listed section. -/
theorem Owns.newSlice_lines (o : a.Owns r (m + cellsOf ls)) (hson : son < a.cells.size)
    (hfree : ∀ l ∈ ls, son ∉ l.ids) (hm : son ∉ m.map Prod.fst) (held : List Vertex) :
    ∃ a', a.newSlice son held = .ok (a', a.cells.size) ∧
      a'.Owns r (one a.cells.size { kind := .slice son none none 0, held } +
        (m + cellsOf (ls.map (Line.reparent son a.cells.size)))) := by
  by_cases hin : ∃ l ∈ ls, l.q = son
  · -- The son is a Q-node that is followed.
    obtain ⟨l, hl, rfl⟩ := hin
    obtain ⟨as, bs, rfl⟩ := List.append_of_mem hl
    have hsplit : m + cellsOf (as ++ l :: bs) =
        one l.q (rowCell l.parent l.row.flipped l.row.firstPart l.row.lastPart) +
          (Loose.cells l.q l.row.flipped (Entries.linked none none l.row.keyed) +
            (m + cellsOf (as ++ bs))) := by
      rw [cellsOf_middle, Line.cells, Row.cellsAt]
      abel
    obtain ⟨a', s, h, o'⟩ := o.newSlice hsplit held
    obtain ⟨rfl, -⟩ := newSlice_place h
    refine ⟨a', h, o'.congr ?_⟩
    have has := map_reparent_of_ne (s := a.cells.size) fun l' hl' =>
      o.q_ne (List.mem_append_left bs hl')
    have hbs := map_reparent_of_ne (s := a.cells.size) fun l' hl' =>
      o.q_ne (List.mem_append_right as hl')
    have hl' : Line.reparent l.q a.cells.size l = { l with parent := some a.cells.size } := if_pos rfl
    rw [List.map_append, List.map_cons, has, hbs, hl', cellsOf_middle, Line.cells, Row.cellsAt]
    simp only [rowCell]
    abel
  · -- Otherwise its cell is owned for the moment only.
    have hne : ∀ l ∈ ls, l.q ≠ son := fun l hl heq => hin ⟨l, hl, heq⟩
    have hout : son ∉ (m + cellsOf ls).map Prod.fst := by
      rw [Multiset.map_add, Multiset.mem_add, mem_places_cellsOf]
      rintro (hmem | ⟨l, hl, rfl | hmem⟩)
      · exact hm hmem
      · exact hne l hl rfl
      · exact hfree l hl hmem
    obtain ⟨a', s, h, o'⟩ := (o.add hout (Array.getElem?_eq_getElem hson)).newSlice rfl held
    obtain ⟨rfl, -⟩ := newSlice_place h
    refine ⟨a', h, ?_⟩
    rw [map_reparent_of_ne hne]
    exact (o'.congr (add_left_comm _ _ _ |>.trans (add_comm _ _))).left

/-! ## A new row -/

/-- The Q-node and its row, whatever its parent is. -/
def Line.bare (l : Line) : NodeId × Row (Part NodeId) × Nat := (l.q, l.row, l.budget)

theorem map_budget_of_bare {ls' : List Line} (h : ls'.map Line.bare = ls.map Line.bare) :
    ls'.map Line.budget = ls.map Line.budget := by
  have hsnd := congrArg (List.map fun b : NodeId × Row (Part NodeId) × Nat => b.2.2) h
  rwa [List.map_map, List.map_map] at hsnd

theorem map_bare_reparent (son s : NodeId) :
    (ls.map (Line.reparent son s)).map Line.bare = ls.map Line.bare := by
  rw [List.map_map]
  refine List.map_congr_left fun l _ => ?_
  rw [Function.comp_apply, Line.reparent]
  split <;> rfl

theorem exists_of_map_bare {ls' : List Line} (h : ls'.map Line.bare = ls.map Line.bare) {l : Line}
    (hl : l ∈ ls') : ∃ l₀ ∈ ls, l₀.q = l.q ∧ l₀.row = l.row ∧ l₀.budget = l.budget := by
  have hmem : l.bare ∈ ls.map Line.bare := h ▸ List.mem_map_of_mem hl
  obtain ⟨l₀, hl₀, heq⟩ := List.mem_map.1 hmem
  obtain ⟨hq, hrow, hbudget⟩ : l₀.q = l.q ∧ l₀.row = l.row ∧ l₀.budget = l.budget := by
    simpa only [Line.bare, Prod.mk.injEq] using heq
  exact ⟨l₀, hl₀, hq, hrow, hbudget⟩

/-- New sections at the places from the given one on. -/
def newParts (s : NodeId) : List (List Vertex × NodeId) → List (Part NodeId)
  | [] => []
  | (held, son) :: rest => ⟨s, held, son⟩ :: newParts (s + 1) rest

theorem map_id_newParts (s : NodeId) (parts : List (List Vertex × NodeId)) :
    (newParts s parts).map Part.id = List.range' s parts.length := by
  induction parts generalizing s with
  | nil => rfl
  | cons p rest ih => rw [newParts, List.map_cons, ih, List.length_cons, List.range'_succ]

/-- The cells of new sections. -/
def freshCells (ps : List (Part NodeId)) : List (NodeId × Cell) :=
  ps.map fun p => (p.id, { kind := .slice p.son none none 0, held := p.held })

theorem coe_freshCells_cons (p : Part NodeId) (ps : List (Part NodeId)) :
    (freshCells (p :: ps) : Cells) =
      one p.id { kind := .slice p.son none none 0, held := p.held } + freshCells ps := by
  rw [freshCells, List.map_cons, ← Multiset.cons_coe, ← Multiset.singleton_add]
  rfl

/-- New sections get their places in order. -/
theorem Owns.newSlices_lines {parts : List (List Vertex × NodeId)} (o : a.Owns r (m + cellsOf ls))
    (hparts : ∀ p ∈ parts, p.2 < a.cells.size ∧ (∀ l ∈ ls, p.2 ∉ l.ids) ∧ p.2 ∉ m.map Prod.fst) :
    ∃ a' ls', a.newSlices parts = .ok (a', List.range' a.cells.size parts.length) ∧
      a'.cells.size = a.cells.size + parts.length ∧ ls'.map Line.bare = ls.map Line.bare ∧
      a'.Owns r ((freshCells (newParts a.cells.size parts) : Cells) + (m + cellsOf ls')) := by
  induction parts generalizing a m ls with
  | nil => exact ⟨a, ls, rfl, rfl, rfl, o.congr (zero_add _).symm⟩
  | cons p rest ih =>
      obtain ⟨hlt, hfree, hm⟩ := hparts p List.mem_cons_self
      obtain ⟨a₁, h₁, o₁⟩ := o.newSlice_lines hlt hfree hm p.1
      have hsize := (newSlice_place h₁).2
      obtain ⟨a', ls', h', hsize', hbare, o'⟩ := ih (o₁.congr (add_assoc _ _ _).symm) fun p' hp' => by
        obtain ⟨hlt', hfree', hm'⟩ := hparts p' (List.mem_cons_of_mem _ hp')
        refine ⟨hsize ▸ Nat.lt_succ_of_lt hlt', fun l hl hin => ?_, ?_⟩
        · -- the new section took over a node, which changes the parents of the lines but not their rows
          obtain ⟨l₀, hl₀, -, hrow, -⟩ := exists_of_map_bare (map_bare_reparent _ _) hl
          exact hfree' l₀ hl₀ (by rwa [Line.ids, hrow])
        · rw [Multiset.map_add, Multiset.mem_add, Cells.map_fst_one, Multiset.mem_singleton]
          rintro (heq | hin)
          · exact Nat.lt_irrefl _ (heq ▸ hlt')
          · exact hm' hin
      refine ⟨a', ls', ?_, ?_, hbare.trans (map_bare_reparent _ _), o'.congr ?_⟩
      · rw [newSlices, h₁, ok_bind]
        simp only [h', hsize, ok_bind, List.length_cons, List.range'_succ]
        rfl
      · rw [hsize', hsize, List.length_cons]
        omega
      · rw [hsize, newParts, coe_freshCells_cons]
        abel

theorem ids_keyed_ofList (ps : List (Part NodeId)) :
    Entries.ids (Row.ofList ps).keyed = ps.map Part.id := by
  conv_rhs => rw [← Row.toList_ofList ps, Row.toList, List.map_map]
  rfl

/-- A new Q-node above new sections, its row spread evenly. -/
theorem Owns.linkNew (o : a.Owns r ((freshCells ps : Cells) + m)) (hne : ps ≠ []) :
    ∃ first last a₁ a₂ a₃ q, (ps.map Part.id).head? = some first ∧
      (ps.map Part.id).getLast? = some last ∧ q = a.cells.size ∧
      (a.alloc (.qnode first last false) []).1.setParents (ps.map Part.id) q = .ok a₁ ∧
      a₁.chain none (ps.map Part.id) none = .ok a₂ ∧
      a₂.rankFrom 0 Row.keyGap (ps.map Part.id) = .ok a₃ ∧
      a₃.Owns r ((Row.ofList ps).cellsAt q none + m) := by
  have hkeyed : (Row.ofList ps).keyed ≠ [] := fun hnil => by
    have := congrArg List.length (ids_keyed_ofList ps)
    rw [hnil, List.length_map] at this
    exact hne (List.eq_nil_of_length_eq_zero this.symm)
  have hfirst : (ps.map Part.id).head? = some (Row.ofList ps).firstPart := by
    rw [← ids_keyed_ofList, Entries.head?_ids, Row.firstId_eq_some hkeyed]
  have hlast : (ps.map Part.id).getLast? = some (Row.ofList ps).lastPart := by
    rw [← ids_keyed_ofList, Entries.getLast?_ids, Row.lastId_eq_some hkeyed]
  have o₀ := o.alloc (.qnode (Row.ofList ps).firstPart (Row.ofList ps).lastPart false) []
  have hq : (a.alloc (.qnode (Row.ofList ps).firstPart (Row.ofList ps).lastPart false) []).2 =
      a.cells.size := rfl
  rw [hq] at o₀
  obtain ⟨a₁, h₁, o₁⟩ := o₀.setParents (freshCells ps)
    (m := one a.cells.size (rowCell none false (Row.ofList ps).firstPart (Row.ofList ps).lastPart) + m)
    (by rw [rowCell]; simp only [Bool.false_eq_true, if_false]; abel) a.cells.size
  have hfresh : (freshCells ps).map Prod.fst = ps.map Part.id := by simp [freshCells]
  -- with the Q-node as their parent the new cells are sections of it that are not linked yet
  have hcells : (((freshCells ps).map fun e => (e.1, { e.2 with parent := some a.cells.size }) :
      List (NodeId × Cell)) : Cells) =
        Loose.cells a.cells.size false (ps.map fun p => ⟨p, 0, none, none⟩) := by
    rw [Loose.cells_eq_coe, freshCells, List.map_map, List.map_map]
    rfl
  have hids : (ps.map fun p => (⟨p, 0, none, none⟩ : Loose)).map (fun v => v.part.id) =
      ps.map Part.id := by simp
  have hrow : (a.cells.size, rowCell none false (Row.ofList ps).firstPart (Row.ofList ps).lastPart) ∈
      one a.cells.size (rowCell none false (Row.ofList ps).firstPart (Row.ofList ps).lastPart) + m :=
    Multiset.mem_add.2 (Or.inl (Cells.mem_one.2 rfl))
  obtain ⟨a₂, h₂, o₂⟩ := (o₁.congr (congrArg (· + _) hcells)).chain _ rfl hrow none none
  obtain ⟨a₃, h₃, o₃⟩ := o₂.rankFrom _ rfl hrow 0 Row.keyGap
  refine ⟨_, _, a₁, a₂, a₃, _, hfirst, hlast, rfl, hfresh ▸ h₁, hids ▸ h₂, ?_, o₃.congr ?_⟩
  · rw [Entries.map_id_linked] at h₃
    simpa [Entries.ids, Loose.entry, Function.comp_def] using h₃
  · rw [Entries.respace_linked, Row.cellsAt]
    simp only [List.map_map, Function.comp_def, Loose.entry, List.map_id']
    have hflip : (Row.ofList ps).flipped = false := rfl
    have hspaced : (Row.ofList ps).keyed = Row.spaced 0 Row.keyGap ps := by
      simp [Row.keyed, Row.ofList]
    rw [hflip, hspaced]
    abel

/-- A new row above nodes that are no listed sections. -/
theorem Owns.newQNode_lines {parts : List (List Vertex × NodeId)} (o : a.Owns r (cellsOf ls))
    (hne : parts ≠ []) (hparts : ∀ p ∈ parts, p.2 < a.cells.size ∧ ∀ l ∈ ls, p.2 ∉ l.ids) :
    ∃ a' ls', a.newQNode parts = .ok (a', a.cells.size + parts.length) ∧
      a'.cells.size = a.cells.size + parts.length + 1 ∧ ls'.map Line.bare = ls.map Line.bare ∧
      a'.Owns r (cellsOf (⟨a.cells.size + parts.length, none,
        Row.ofList (newParts a.cells.size parts), parts.length⟩ :: ls')) := by
  obtain ⟨b, ls', hb, hsize, hbare, ob⟩ := Owns.newSlices_lines (o.congr (zero_add _).symm)
    (fun p hp => ⟨(hparts p hp).1, (hparts p hp).2, Multiset.notMem_zero _⟩)
  have hps : newParts a.cells.size parts ≠ [] := by
    cases parts with
    | nil => exact absurd rfl hne
    | cons p rest => exact List.cons_ne_nil _ _
  obtain ⟨first, last, a₁, a₂, a₃, q, hfirst, hlast, rfl, h₁, h₂, h₃, o₃⟩ := ob.linkNew hps
  rw [map_id_newParts] at hfirst hlast h₁ h₂ h₃
  have hq : (b.alloc (.qnode first last false) []).2 = b.cells.size := rfl
  rw [← hsize]
  refine ⟨a₃, ls', ?_, ?_, hbare, o₃.congr ?_⟩
  · simp only [newQNode, hb, ok_bind, hfirst, hlast, hq, h₁, h₂, h₃, pure_eq_ok]
  · -- linking changes no size, so that the Q-node is the only further cell
    have hlife := life_alloc b (.qnode first last false) []
    rw [size_of_life (Lives.rankFrom (Lives.chain (Lives.setParents hlife _ _ _ h₁) _ _ _ _ h₂) _ _ _ _ h₃),
      Array.size_push, size_life]
  · rw [zero_add]
    rfl

end Arena

end CliquePath
