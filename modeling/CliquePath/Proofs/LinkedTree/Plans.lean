import CliquePath.CliqueTree.Node
import CliquePath.Proofs.LinkedTree.Focus
import CliquePath.Proofs.Renaming.Row

set_option autoImplicit false

/-!
# Plans of linked trees

This module defines plans. A plan is a nested tree whose nodes and sections carry their places in an
arena, so it says both which cells stand for a tree and which node of a clique tree it shows. A
`Bough` is a node above another one without the subtree of that one. A plan can be taken apart around
each of its nodes, and the cells around that node are those of a context.
-/

namespace CliquePath

open Cells (one)

/-- A tree of nodes with their places. -/
inductive Plan where
  | leaf (id : NodeId) (held : List Vertex)
  | pnode (id : NodeId) (held : List Vertex) (children : List Plan)
  | qnode (id : NodeId) (row : Row (Part Plan))

theorem Part.sizeOf_son_lt {row : Row (Part Plan)} {s : Part Plan} (h : s ∈ row.toList) :
    sizeOf s.son < sizeOf row := by
  obtain ⟨key, hmem⟩ := Row.mem_toList.1 h
  have hlt := List.sizeOf_lt_of_mem hmem
  cases row with
  | mk cells flipped =>
      cases s with
      | mk id held son =>
          simp at hlt ⊢
          omega

namespace Plan

/-- The place of the node. -/
def id : Plan → NodeId
  | .leaf id _ => id
  | .pnode id _ _ => id
  | .qnode id _ => id

@[simp]
theorem id_leaf (x : NodeId) (held : List Vertex) : (leaf x held).id = x := rfl

@[simp]
theorem id_pnode (x : NodeId) (held : List Vertex) (children : List Plan) :
    (pnode x held children).id = x := rfl

@[simp]
theorem id_qnode (q : NodeId) (row : Row (Part Plan)) : (qnode q row).id = q := rfl

/-- The nodes below the sections of a row, each with the place of its section. -/
def sons (row : Row (Part Plan)) : List (NodeId × Plan) := row.toList.map fun s => (s.id, s.son)

/-- The nodes directly below, each with the place to which it refers as its parent. -/
def limbs : Plan → List (NodeId × Plan)
  | .leaf _ _ => []
  | .pnode id _ children => children.map fun c => (id, c)
  | .qnode _ row => sons row

theorem sizeOf_lt_of_limb {T : Plan} {l : NodeId × Plan} (h : l ∈ T.limbs) :
    sizeOf l.2 < sizeOf T := by
  cases T with
  | leaf id held => simp [limbs] at h
  | pnode id held children =>
      obtain ⟨c, hc, rfl⟩ := List.mem_map.1 h
      have := List.sizeOf_lt_of_mem hc
      simp
      omega
  | qnode id row =>
      obtain ⟨s, hs, rfl⟩ := List.mem_map.1 h
      have := Part.sizeOf_son_lt hs
      simp
      omega

/-- What passes from the nodes directly below to a node holds of every node. -/
@[elab_as_elim]
theorem induction {P : Plan → Prop} (step : ∀ T : Plan, (∀ l ∈ T.limbs, P l.2) → P T) (T : Plan) :
    P T :=
  step T fun l _ => induction step l.2
termination_by sizeOf T
decreasing_by exact sizeOf_lt_of_limb ‹l ∈ T.limbs›

end Plan

/-- The section with the place of what stands below it. -/
def Part.top (s : Part Plan) : Part NodeId := ⟨s.id, s.held, s.son.id⟩

namespace Plan

/-- The cells of the node itself, with its sections if it is a Q-node. -/
def own (parent : Option NodeId) : Plan → Cells
  | .leaf id held => one id (leafCell parent held)
  | .pnode id held children => one id (pCell parent held (children.map Plan.id))
  | .qnode id row => (row.map Part.top).cellsAt id parent

/-- The cells that stand for the plan. -/
def cells (parent : Option NodeId) (T : Plan) : Cells :=
  T.own parent + (T.limbs.attach.map fun ⟨l, _⟩ => l.2.cells (some l.1)).sum
termination_by sizeOf T
decreasing_by exact sizeOf_lt_of_limb ‹l ∈ T.limbs›

/-- The plan and all plans below it. -/
def parts (T : Plan) : List Plan := T :: T.limbs.attach.flatMap fun ⟨l, _⟩ => l.2.parts
termination_by sizeOf T
decreasing_by exact sizeOf_lt_of_limb ‹l ∈ T.limbs›

/-- The node that the plan shows. A P-node without vertices above an only child does not show. -/
def node : Plan → Node
  | .leaf _ held => .leaf held
  | .pnode _ held children => .bundle held (children.attach.map fun ⟨c, _⟩ => c.node)
  | .qnode _ row => .qnode
      ⟨row.cells.attach.map fun ⟨c, _⟩ => (c.1, ⟨c.2.held, c.2.son.node⟩), row.flipped⟩
termination_by T => sizeOf T
decreasing_by
  · have := List.sizeOf_lt_of_mem ‹c ∈ children›
    simp_wf
    omega
  · have := Part.sizeOf_son_lt (Row.mem_toList.2 ⟨c.1, ‹c ∈ row.cells›⟩)
    simp_wf
    omega

/-- The cells of several plans below the given places. -/
def limbCells (ls : List (NodeId × Plan)) : Cells := (ls.map fun l => l.2.cells (some l.1)).sum

variable {T U : Plan} {parent : Option NodeId} {l : NodeId × Plan} {ls ks : List (NodeId × Plan)}

theorem cells_eq (T : Plan) (parent : Option NodeId) :
    T.cells parent = T.own parent + limbCells T.limbs := by
  rw [cells, limbCells]
  conv_rhs => rw [← List.attach_map_subtype_val T.limbs, List.map_map]
  rfl

theorem parts_eq (T : Plan) : T.parts = T :: T.limbs.flatMap fun l => l.2.parts := by
  rw [parts]
  conv_rhs => rw [← List.attach_map_subtype_val T.limbs, List.flatMap_map]

@[simp]
theorem limbCells_nil : limbCells [] = 0 := rfl

theorem limbCells_cons : limbCells (l :: ls) = l.2.cells (some l.1) + limbCells ls := by
  simp [limbCells]

theorem limbCells_append : limbCells (ls ++ ks) = limbCells ls + limbCells ks := by
  simp [limbCells]

theorem limbCells_perm (h : ls.Perm ks) : limbCells ls = limbCells ks := (h.map _).sum_eq

theorem mem_limbCells {ls : List (NodeId × Plan)} {e : NodeId × Cell} :
    e ∈ limbCells ls ↔ ∃ l ∈ ls, e ∈ l.2.cells (some l.1) := by
  induction ls with
  | nil => simp
  | cons l rest ih => rw [limbCells_cons, Multiset.mem_add, ih]; simp

theorem limbCells_middle :
    limbCells (ls ++ l :: ks) = l.2.cells (some l.1) + limbCells (ls ++ ks) := by
  rw [limbCells_append, limbCells_cons, limbCells_append]
  exact add_left_comm _ _ _

end Plan

/-- The section that a section of a plan shows. -/
def Part.shown (s : Part Plan) : Section Node := ⟨s.held, s.son.node⟩

namespace Plan

variable {T U : Plan} {parent : Option NodeId} {l : NodeId × Plan} {id : NodeId} {c : Cell}

@[simp]
theorem node_leaf (id : NodeId) (held : List Vertex) : (leaf id held).node = .leaf held := by
  rw [node]

@[simp]
theorem node_pnode (id : NodeId) (held : List Vertex) (children : List Plan) :
    (pnode id held children).node = .bundle held (children.map node) := by
  rw [node]
  simp [List.map_subtype]

@[simp]
theorem node_qnode (id : NodeId) (row : Row (Part Plan)) :
    (qnode id row).node = .qnode (row.map Part.shown) := by
  rw [node, Row.map_eq]
  simp only [List.map_subtype, List.unattach_attach]
  rfl

@[simp]
theorem cells_leaf (id : NodeId) (held : List Vertex) :
    (leaf id held).cells parent = one id (leafCell parent held) := by
  rw [cells_eq]
  exact add_zero _

theorem cells_pnode (id : NodeId) (held : List Vertex) (children : List Plan) :
    (pnode id held children).cells parent =
      one id (pCell parent held (children.map Plan.id)) +
        limbCells (children.map fun c => (id, c)) :=
  cells_eq _ _

theorem cells_qnode (q : NodeId) (row : Row (Part Plan)) :
    (qnode q row).cells parent = (row.map Part.top).cellsAt q parent + limbCells (sons row) :=
  cells_eq _ _

theorem self_mem_parts (T : Plan) : T ∈ T.parts := by
  rw [parts_eq]
  exact List.mem_cons_self

theorem mem_parts_iff : U ∈ T.parts ↔ U = T ∨ ∃ l ∈ T.limbs, U ∈ l.2.parts := by
  rw [parts_eq, List.mem_cons, List.mem_flatMap]

/-- The plans below a plan are below all plans above that one. -/
theorem mem_parts_trans {V : Plan} (hV : V ∈ U.parts) (hU : U ∈ T.parts) : V ∈ T.parts := by
  induction T using Plan.induction with
  | step T ih =>
      rcases mem_parts_iff.1 hU with rfl | ⟨l, hl, hU⟩
      · exact hV
      · exact mem_parts_iff.2 (Or.inr ⟨l, hl, ih l hl hU⟩)

/-! ## The cells of one node -/

/-- The cells of a node itself: its own and, if it is a Q-node, those of its sections. -/
inductive Stores (parent : Option NodeId) : Plan → NodeId → Cell → Prop
  | leaf (x : NodeId) (held : List Vertex) : Stores parent (leaf x held) x (leafCell parent held)
  | pnode (x : NodeId) (held : List Vertex) (children : List Plan) :
      Stores parent (pnode x held children) x (pCell parent held (children.map Plan.id))
  | qnode (q : NodeId) (row : Row (Part Plan)) (first last : NodeId) (flipped : Bool) :
      Stores parent (qnode q row) q ⟨.qnode first last flipped, parent, [], true⟩
  | part (q : NodeId) (row : Row (Part Plan)) (s : Part Plan) (hs : s ∈ row.toList)
      (left right : Option NodeId) (rank : Int) :
      Stores parent (qnode q row) s.id ⟨.slice s.son.id left right rank, some q, s.held, true⟩

/-- The cell of a section refers to the Q-node and to what stands below the section. -/
theorem cell_of_top {q : NodeId} {s : Part Plan} {v : Loose} (hv : v.part = s.top) (flipped : Bool) :
    ∃ left right rank, v.cell q flipped = ⟨.slice s.son.id left right rank, some q, s.held, true⟩ := by
  obtain ⟨left, right, rank, hkind⟩ := Loose.kind_cell q flipped v
  refine ⟨left, right, rank, ?_⟩
  rw [← show v.part.son = s.son.id by rw [hv]; rfl, ← show v.part.held = s.held by rw [hv]; rfl, ← hkind]
  rfl

/-- Every section of a Q-node has a cell. -/
theorem exists_part_cell {q : NodeId} {row : Row (Part Plan)} {s : Part Plan} (hs : s ∈ row.toList)
    (parent : Option NodeId) : ∃ left right rank,
      (s.id, ⟨.slice s.son.id left right rank, some q, s.held, true⟩) ∈ (qnode q row).own parent := by
  have htop : s.top ∈ (row.map Part.top).toList := by
    rw [Row.toList_map]
    exact List.mem_map_of_mem hs
  obtain ⟨e, he, heq⟩ := List.mem_map.1 htop
  rw [← @Entries.map_entry_linked (row.map Part.top).keyed none none] at he
  obtain ⟨v, hv, rfl⟩ := List.mem_map.1 he
  obtain ⟨left, right, rank, hcell⟩ := cell_of_top (q := q) heq (row.map Part.top).flipped
  have hmem : (v.part.id, v.cell q (row.map Part.top).flipped) ∈ (row.map Part.top).cellsAt q parent :=
    Multiset.mem_add.2 (Or.inr (Loose.mem_cells hv))
  rw [hcell, show v.part = s.top from heq] at hmem
  exact ⟨left, right, rank, hmem⟩

/-- These are all cells of a node. -/
theorem stores_of_own (h : (id, c) ∈ T.own parent) : Stores parent T id c := by
  cases T with
  | leaf x held =>
      cases Cells.mem_one.1 h
      exact .leaf _ held
  | pnode x held children =>
      cases Cells.mem_one.1 h
      exact .pnode _ held children
  | qnode q row =>
      rcases Multiset.mem_add.1 h with h | h
      · cases Cells.mem_one.1 h
        -- a flipped row has its ends the other way round
        cases (row.map Part.top).flipped
        · exact .qnode _ row _ _ false
        · exact .qnode _ row _ _ true
      · rw [Loose.cells_eq_coe, Multiset.mem_coe] at h
        obtain ⟨v, hv, heq⟩ := List.mem_map.1 h
        cases heq
        have hpart : v.part ∈ (row.map Part.top).toList := by
          have hentry := List.mem_map_of_mem (f := Loose.entry) hv
          rw [Entries.map_entry_linked] at hentry
          exact List.mem_map_of_mem (f := Prod.snd) hentry
        rw [Row.toList_map] at hpart
        obtain ⟨s, hs, hsv⟩ := List.mem_map.1 hpart
        obtain ⟨left, right, rank, hcell⟩ := cell_of_top (q := q) hsv.symm (row.map Part.top).flipped
        rw [hcell, ← hsv]
        exact .part q row s hs left right rank

/-! ## Plans that stand -/

/-- A P-node has children; a Q-node has sections with ascending ranks. -/
def Stable : Plan → Prop
  | .leaf _ _ => True
  | .pnode _ _ children => children ≠ []
  | .qnode _ row => row.keyed ≠ [] ∧ row.Ascending

/-- All nodes of the plan are in order. -/
def Formed (T : Plan) : Prop := ∀ U ∈ T.parts, U.Stable

theorem formed_iff : T.Formed ↔ T.Stable ∧ ∀ l ∈ T.limbs, l.2.Formed := by
  unfold Formed
  rw [parts_eq]
  simp only [List.forall_mem_cons, List.mem_flatMap]
  exact and_congr_right fun _ => ⟨fun h l hl U hU => h U ⟨l, hl, hU⟩,
    fun h U ⟨l, hl, hU⟩ => h l hl U hU⟩

theorem formed_leaf {id : NodeId} {held : List Vertex} : (leaf id held).Formed :=
  formed_iff.2 ⟨trivial, by simp [limbs]⟩

theorem formed_pnode {id : NodeId} {held : List Vertex} {children : List Plan} (hne : children ≠ [])
    (h : ∀ c ∈ children, c.Formed) : (pnode id held children).Formed :=
  formed_iff.2 ⟨hne, by simpa [limbs] using h⟩

theorem Formed.of_mem (h : T.Formed) (hU : U ∈ T.parts) : U.Formed :=
  fun _ hV => h _ (mem_parts_trans hV hU)

theorem Formed.limb (h : T.Formed) (hl : l ∈ T.limbs) : l.2.Formed := (formed_iff.1 h).2 l hl

/-- The links of several plans below the given places. -/
def limbLinks (ls : List (NodeId × Plan)) : Multiset Link :=
  (ls.map fun l => (some l.1, l.2.id) : List Link)

theorem limbLinks_children (id : NodeId) (children : List Plan) :
    limbLinks (children.map fun c => (id, c)) = childLinks id (children.map Plan.id) := by
  simp [limbLinks, childLinks, Function.comp_def]

theorem limbLinks_entries (es : List (Int × Part Plan)) :
    limbLinks (es.map fun e => (e.2.id, e.2.son)) = sonLinks (es.map (Row.entry Part.top)) := by
  simp [limbLinks, sonLinks, Part.top, Function.comp_def]

/-- Sections keep their identities when the plans below them are left out. -/
theorem ids_entries (es : List (Int × Part Plan)) :
    Entries.ids (es.map (Row.entry Part.top)) = es.map fun e => e.2.id := by
  simp [Entries.ids, Part.top, Function.comp_def]

/-- Trees below the given places, if each plan stands for one. -/
theorem trees_limbs {ls : List (NodeId × Plan)}
    (h : ∀ l ∈ ls, Trees {(some l.1, l.2.id)} (l.2.cells (some l.1))) :
    Trees (limbLinks ls) (limbCells ls) := by
  induction ls with
  | nil => exact .nil
  | cons l rest ih =>
      rw [limbCells_cons]
      exact (h l List.mem_cons_self).add (ih fun k hk => h k (List.mem_cons_of_mem _ hk))

/-- The cells of a plan form a tree. -/
theorem Formed.trees (h : T.Formed) (parent : Option NodeId) :
    Trees {(parent, T.id)} (T.cells parent) := by
  induction T using Plan.induction generalizing parent with
  | step T ih =>
      obtain ⟨hstable, hlimbs⟩ := formed_iff.1 h
      have hrest := trees_limbs fun l hl => ih l hl (hlimbs l hl) (some l.1)
      rw [cells_eq]
      cases T with
      | leaf id held =>
          rw [limbs, limbCells_nil, add_zero]
          exact .of_shape (.leaf held)
      | pnode id held children =>
          rw [limbs, limbLinks_children] at hrest
          exact .of_shape (.pnode held (by simpa [Stable] using hstable) hrest)
      | qnode id row =>
          have hson : limbLinks (limbs (qnode id row)) = sonLinks (row.map Part.top).keyed := by
            rw [Row.keyed_map, ← limbLinks_entries, limbs, sons, Row.toList, List.map_map]
            rfl
          rw [hson] at hrest
          exact .of_shape (.qnode (by simpa using hstable.1) (hstable.2.map _) hrest)

end Plan

/-! ## Boughs -/

/-- A node above the one in focus, with the plans of the other subtrees. -/
inductive Bough where
  | branch (id : NodeId) (held : List Vertex) (before after : List Plan)
  | inRow (q : NodeId) (flipped : Bool) (xs : List (Int × Part Plan)) (key : Int) (id : NodeId)
      (held : List Vertex) (ys : List (Int × Part Plan))

namespace Bough

/-- The plan with a node in focus. -/
def fill (T : Plan) : Bough → Plan
  | branch id held before after => .pnode id held (before ++ T :: after)
  | inRow q flipped xs key id held ys =>
      .qnode q (Row.ofKeyed flipped (xs ++ (key, ⟨id, held, T⟩) :: ys))

/-- The place to which the node in focus refers as its parent. -/
def holder : Bough → NodeId
  | branch id _ _ _ => id
  | inRow _ _ _ _ id _ _ => id

/-- The nodes directly below besides the one in focus. -/
def others : Bough → List (NodeId × Plan)
  | branch id _ before after => (before ++ after).map fun c => (id, c)
  | inRow _ _ xs _ _ _ ys => (xs ++ ys).map fun e => (e.2.id, e.2.son)

/-- The frame that the bough stands for. -/
def frame : Bough → Frame
  | branch id held before after => .branch id held (before.map Plan.id) (after.map Plan.id)
      (Plan.limbCells (others (.branch id held before after)))
  | inRow q flipped xs key id held ys =>
      .inRow q flipped (xs.map (Row.entry Part.top)) key id held (ys.map (Row.entry Part.top))
        (Plan.limbCells (others (.inRow q flipped xs key id held ys)))

variable {b : Bough} {T U : Plan} {parent : Option NodeId}

@[simp]
theorem holder_frame (b : Bough) : b.frame.holder = b.holder := by
  cases b <;> rfl

@[simp]
theorem id_fill (b : Bough) (T : Plan) : (b.fill T).id = b.frame.node := by
  cases b <;> rfl

/-- What stands directly below a bough is the node in focus and the other ones. -/
theorem limbs_fill (b : Bough) (T : Plan) :
    ∃ before after, (b.fill T).limbs = before ++ (b.holder, T) :: after ∧
      b.others = before ++ after := by
  cases b with
  | branch id held before after =>
      exact ⟨before.map fun c => (id, c), after.map fun c => (id, c), by simp [fill, Plan.limbs, holder],
        by simp [others]⟩
  | inRow q flipped xs key id held ys =>
      exact ⟨xs.map fun e => (e.2.id, e.2.son), ys.map fun e => (e.2.id, e.2.son),
        by
          simp [fill, Plan.limbs, Plan.sons, holder, Row.toList, Function.comp_def], by simp [others]⟩

theorem mem_limbs_fill {l : NodeId × Plan} :
    l ∈ (b.fill T).limbs ↔ l = (b.holder, T) ∨ l ∈ b.others := by
  obtain ⟨before, after, hlimbs, hothers⟩ := limbs_fill b T
  rw [hlimbs, hothers, List.mem_append, List.mem_cons, List.mem_append]
  tauto

theorem mem_parts_fill :
    U ∈ (b.fill T).parts ↔ U = b.fill T ∨ U ∈ T.parts ∨ ∃ l ∈ b.others, U ∈ l.2.parts := by
  rw [Plan.mem_parts_iff]
  refine or_congr Iff.rfl ?_
  simp only [mem_limbs_fill]
  constructor
  · rintro ⟨l, rfl | hl, hU⟩
    · exact Or.inl hU
    · exact Or.inr ⟨l, hl, hU⟩
  · rintro (hU | ⟨l, hl, hU⟩)
    · exact ⟨_, Or.inl rfl, hU⟩
    · exact ⟨l, Or.inr hl, hU⟩

/-- The cells of a bough and the node in focus. -/
theorem cells_fill (b : Bough) (T : Plan) (parent : Option NodeId) :
    (b.fill T).cells parent = T.cells (some b.holder) + b.frame.cells parent T.id := by
  obtain ⟨before, after, hlimbs, hothers⟩ := limbs_fill b T
  rw [Plan.cells_eq, hlimbs, Plan.limbCells_middle, ← hothers]
  -- the frame has the cells around the node in focus, and the bough those of the other limbs
  cases b with
  | branch id held before after =>
      simp only [fill, Plan.own, frame, Frame.cells, holder, List.map_append, List.map_cons]
      abel
  | inRow q flipped xs key id held ys =>
      have hrow : (Row.ofKeyed flipped (xs ++ (key, ⟨id, held, T⟩) :: ys)).map Part.top =
          Row.ofKeyed flipped (xs.map (Row.entry Part.top) ++ (key, ⟨id, held, T.id⟩) ::
            ys.map (Row.entry Part.top)) := by
        rw [← Row.ofKeyed_keyed (Row.map _ _)]
        simp [Row.entry, Part.top]
      simp only [fill, Plan.own, frame, Frame.cells, holder, hrow]
      abel

theorem Stable.refill (h : (b.fill T).Stable) (U : Plan) : (b.fill U).Stable := by
  cases b with
  | branch id held before after => simp [fill, Plan.Stable]
  | inRow q flipped xs key id held ys =>
      simp only [fill, Plan.Stable, Row.Ascending, Row.keyed_ofKeyed, ne_eq,
        List.append_eq_nil_iff, reduceCtorEq, and_false, not_false_eq_true, true_and] at h ⊢
      simpa [← List.pairwise_map] using h

theorem others_mem_limbs {l : NodeId × Plan} (h : l ∈ b.others) : l ∈ (b.fill T).limbs :=
  mem_limbs_fill.2 (Or.inr h)

/-- Other subtrees that are in order make the frame one in order. -/
theorem ok_frame (h : (b.fill T).Formed) : b.frame.Ok := by
  have hothers : Trees (Plan.limbLinks b.others) (Plan.limbCells b.others) :=
    Plan.trees_limbs fun l hl => (h.limb (others_mem_limbs hl)).trees _
  cases b with
  | branch id held before after =>
      rw [others, Plan.limbLinks_children, List.map_append] at hothers
      exact hothers
  | inRow q flipped xs key id held ys =>
      have hasc := (Plan.formed_iff.1 h).1.2
      rw [Row.Ascending, Row.keyed_ofKeyed, ← List.pairwise_map] at hasc
      rw [others, Plan.limbLinks_entries, List.map_append] at hothers
      exact ⟨hothers, by simpa [Function.comp_def] using hasc⟩

end Bough

/-! ## Plans taken apart -/

namespace Plan

/-- The plan below some boughs, the lowest first. -/
def under (T : Plan) : List Bough → Plan
  | [] => T
  | b :: bs => (b.fill T).under bs

/-- The context that some boughs stand for. -/
abbrev ctx (bs : List Bough) : Ctx := bs.map Bough.frame

variable {T U V : Plan} {bs cs : List Bough} {b : Bough} {l : NodeId × Plan} {id : NodeId} {c : Cell}

theorem under_append (T : Plan) (bs cs : List Bough) : T.under (bs ++ cs) = (T.under bs).under cs := by
  induction bs generalizing T with
  | nil => rfl
  | cons b bs ih => exact ih _

theorem id_under (T : Plan) (bs : List Bough) : (T.under bs).id = (ctx bs).top T.id := by
  induction bs generalizing T with
  | nil => rfl
  | cons b bs ih => rw [under, ih, Bough.id_fill]; rfl

/-- The cells of a plan taken apart. -/
theorem cells_under (T : Plan) (bs : List Bough) :
    (T.under bs).cells none = T.cells (ctx bs).parent + (ctx bs).cells T.id := by
  induction bs generalizing T with
  | nil => exact (add_zero _).symm
  | cons b bs ih =>
      rw [under, ih, Bough.cells_fill, Bough.id_fill, add_assoc, ← Bough.holder_frame]
      rfl

/-- The cells of a plan with a Q-node in focus. -/
theorem cells_under_row (q : NodeId) (row : Row (Part Plan)) (bs : List Bough) :
    ((qnode q row).under bs).cells none = (row.map Part.top).cellsAt q (ctx bs).parent +
      (limbCells (sons row) + (ctx bs).cells q) := by
  rw [cells_under, cells_qnode, add_assoc, id_qnode]

theorem mem_parts_under (T : Plan) (bs : List Bough) : T ∈ (T.under bs).parts := by
  induction bs generalizing T with
  | nil => exact T.self_mem_parts
  | cons b bs ih =>
      exact mem_parts_trans (Bough.mem_parts_fill.2 (Or.inr (Or.inl T.self_mem_parts))) (ih _)

/-- What stands below a section of a row has the row above it. -/
theorem exists_fill_part {row : Row (Part Plan)} {s : Part Plan} (q : NodeId) (hs : s ∈ row.toList) :
    ∃ xs key ys, qnode q row = (Bough.inRow q row.flipped xs key s.id s.held ys).fill s.son := by
  obtain ⟨e, he, rfl⟩ := List.mem_map.1 hs
  obtain ⟨xs, ys, hrow⟩ := List.append_of_mem he
  refine ⟨xs, e.1, ys, ?_⟩
  rw [Bough.fill, ← Row.ofKeyed_keyed row, hrow, Row.flipped_ofKeyed]

/-- Every node directly below another one has a bough above it. -/
theorem exists_fill (hl : l ∈ T.limbs) : ∃ b : Bough, T = b.fill l.2 ∧ b.holder = l.1 := by
  cases T with
  | leaf id held => simp [limbs] at hl
  | pnode id held children =>
      obtain ⟨c, hc, rfl⟩ := List.mem_map.1 hl
      obtain ⟨before, after, rfl⟩ := List.append_of_mem hc
      exact ⟨.branch id held before after, rfl, rfl⟩
  | qnode id row =>
      obtain ⟨s, hs, rfl⟩ := List.mem_map.1 hl
      obtain ⟨xs, key, ys, hfill⟩ := exists_fill_part id hs
      exact ⟨_, hfill, rfl⟩

/-- A plan can be taken apart around each of its nodes. -/
theorem exists_under (hU : U ∈ T.parts) : ∃ bs, T = U.under bs := by
  induction T using Plan.induction with
  | step T ih =>
      rcases mem_parts_iff.1 hU with rfl | ⟨l, hl, hU⟩
      · exact ⟨[], rfl⟩
      obtain ⟨bs, hbs⟩ := ih l hl hU
      obtain ⟨b, hb, -⟩ := exists_fill hl
      exact ⟨bs ++ [b], by rw [under_append, ← hbs, hb]; rfl⟩

/-- Every cell of a plan is one of a part itself. -/
theorem exists_own {bs : List Bough} (h : (id, c) ∈ T.cells (ctx bs).parent) :
    ∃ (cs : List Bough) (U : Plan), T = U.under cs ∧ (id, c) ∈ U.own (ctx (cs ++ bs)).parent := by
  induction T using Plan.induction generalizing bs with
  | step T ih =>
      rw [cells_eq, Multiset.mem_add] at h
      rcases h with h | h
      · exact ⟨[], T, rfl, h⟩
      · obtain ⟨l, hl, h⟩ := mem_limbCells.1 h
        obtain ⟨b, rfl, hb⟩ := exists_fill hl
        -- the cells above a limb are those of the plan without it
        have hparent : some l.1 = (ctx (b :: bs)).parent := by
          rw [← hb, ← Bough.holder_frame]
          rfl
        obtain ⟨cs, U, hU, hown⟩ := @ih l hl (b :: bs) (by rwa [← hparent])
        exact ⟨cs ++ [b], U, by rw [under_append, ← hU]; rfl, by simpa using hown⟩

theorem Formed.focus (h : (T.under bs).Formed) : T.Formed := h.of_mem (mem_parts_under T bs)

theorem Formed.ok (h : (T.under bs).Formed) : (ctx bs).Ok := by
  induction bs generalizing T with
  | nil => exact fun f hf => by cases hf
  | cons b bs ih =>
      have hfocus : (b.fill T).Formed := @Formed.focus _ bs h
      exact List.forall_mem_cons.2 ⟨Bough.ok_frame hfocus, ih h⟩

/-- What holds of every node of a plan, whatever stands below the node, still holds after a plan was
put into the place of a part. -/
theorem forall_parts_refill {P Q : Plan → Prop}
    (hshape : ∀ (b : Bough) (T U : Plan), P (b.fill T) → Q (b.fill U)) (hPQ : ∀ V, P V → Q V)
    (h : ∀ V ∈ (T.under bs).parts, P V) (hU : ∀ V ∈ U.parts, Q V) :
    ∀ V ∈ (U.under bs).parts, Q V := by
  induction bs generalizing T U with
  | nil => exact hU
  | cons b bs ih =>
      refine ih h fun V hV => ?_
      have hold : ∀ V ∈ (b.fill T).parts, P V := fun V hV => h V (mem_parts_trans hV (mem_parts_under _ bs))
      -- only the node of the bough itself has a new plan below it
      rcases Bough.mem_parts_fill.1 hV with rfl | hV | ⟨l, hl, hV⟩
      · exact hshape b T U (hold _ (b.fill T).self_mem_parts)
      · exact hU V hV
      · exact hPQ V (hold V (Bough.mem_parts_fill.2 (Or.inr (Or.inr ⟨l, hl, hV⟩))))

theorem Formed.refill (h : (T.under bs).Formed) (hU : U.Formed) : (U.under bs).Formed :=
  forall_parts_refill (fun _ _ U hT => Bough.Stable.refill hT U) (fun _ hV => hV) h hU

end Plan

/-! ## The number of cells -/

theorem Row.card_cellsAt (R : Row (Part NodeId)) (q : NodeId) (parent : Option NodeId) :
    (R.cellsAt q parent).card = R.keyed.length + 1 := by
  have hlen : (Entries.linked none none R.keyed).length = R.keyed.length := by
    conv_rhs => rw [← @Entries.map_entry_linked R.keyed none none, List.length_map]
  rw [Row.cellsAt, Loose.cells_eq_coe, Multiset.card_add, Multiset.coe_card, List.length_map, hlen,
    add_comm]
  rfl

namespace Plan

variable {T U : Plan} {bs : List Bough} {b : Bough} {parent : Option NodeId}

/-- The number of cells that stand for the plan. -/
def count (T : Plan) : Nat := (T.cells none).card

/-- The number of cells that stand for several plans. -/
def limbCount (ls : List (NodeId × Plan)) : Nat := (ls.map fun l => l.2.count).sum

theorem alive_own {e : NodeId × Cell} (h : e ∈ T.own parent) : e.2.alive = true := by
  obtain ⟨id, c⟩ := e
  cases stores_of_own h <;> rfl

/-- All cells that stand for a plan are alive. -/
theorem alive_cells {e : NodeId × Cell} (h : e ∈ T.cells parent) : e.2.alive = true := by
  induction T using Plan.induction generalizing parent with
  | step T ih =>
      rw [cells_eq, Multiset.mem_add] at h
      rcases h with h | h
      · exact alive_own h
      · obtain ⟨l, hl, h⟩ := mem_limbCells.1 h
        exact ih l hl h

theorem card_own (T : Plan) (parent : Option NodeId) : (T.own parent).card = (T.own none).card := by
  cases T with
  | leaf id held => rfl
  | pnode id held children => rfl
  | qnode id row => rw [own, own, Row.card_cellsAt, Row.card_cellsAt]

theorem card_cells (T : Plan) (parent : Option NodeId) : (T.cells parent).card = T.count := by
  rw [count, cells_eq, cells_eq, Multiset.card_add, Multiset.card_add, card_own]

theorem card_limbCells (ls : List (NodeId × Plan)) : (limbCells ls).card = limbCount ls := by
  induction ls with
  | nil => rfl
  | cons l rest ih =>
      rw [limbCells_cons, Multiset.card_add, card_cells, ih, limbCount, limbCount, List.map_cons,
        List.sum_cons]

theorem count_eq (T : Plan) : T.count = (T.own none).card + limbCount T.limbs := by
  rw [count, cells_eq, Multiset.card_add, card_limbCells]

@[simp]
theorem count_leaf (id : NodeId) (held : List Vertex) : (leaf id held).count = 1 := by
  rw [count_eq]
  rfl

theorem count_pnode (id : NodeId) (held : List Vertex) (children : List Plan) :
    (pnode id held children).count = 1 + (children.map count).sum := by
  rw [count_eq, limbs, limbCount, List.map_map]
  rfl

theorem count_qnode (id : NodeId) (row : Row (Part Plan)) :
    (qnode id row).count = (sons row).length + 1 + limbCount (sons row) := by
  rw [count_eq, own, Row.card_cellsAt, Row.keyed_map, List.length_map, sons, Row.toList,
    List.length_map, List.length_map]
  rfl

@[simp]
theorem limbCount_nil : limbCount [] = 0 := rfl

theorem limbCount_append (ls ks : List (NodeId × Plan)) :
    limbCount (ls ++ ks) = limbCount ls + limbCount ks := by
  simp [limbCount]

theorem limbCount_cons (l : NodeId × Plan) (ls : List (NodeId × Plan)) :
    limbCount (l :: ls) = l.2.count + limbCount ls := by
  simp [limbCount]

theorem limbCount_perm {ls ks : List (NodeId × Plan)} (h : ls.Perm ks) : limbCount ls = limbCount ks :=
  (h.map _).sum_nat

/-- The number of cells around a node in focus does not depend on the node. -/
theorem count_fill (b : Bough) (T U : Plan) :
    (b.fill T).count + U.count = (b.fill U).count + T.count := by
  -- what the count has besides the limb in focus does not depend on the limb
  have hcard : ∀ V : Plan, (b.fill V).count = V.count + ((b.fill V).own none).card + limbCount b.others := by
    intro V
    obtain ⟨before, after, hlimbs, hothers⟩ := b.limbs_fill V
    rw [count_eq, hlimbs, hothers]
    rw [limbCount_append, limbCount_append, limbCount_cons]
    dsimp only
    omega
  have hown : ((b.fill T).own none).card = ((b.fill U).own none).card := by
    cases b with
    | branch id held before after => rfl
    | inRow q flipped xs key id held ys => simp [Bough.fill, own, Row.card_cellsAt]
  rw [hcard T, hcard U]
  omega

theorem count_under (T U : Plan) (bs : List Bough) :
    (T.under bs).count + U.count = (U.under bs).count + T.count := by
  induction bs generalizing T U with
  | nil => exact add_comm _ _
  | cons b bs ih =>
      have hup := ih (b.fill T) (b.fill U)
      have hfill := count_fill b T U
      rw [under, under]
      omega

end Plan

end CliquePath
