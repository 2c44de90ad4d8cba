import CliquePath.Proofs.LinkedTree.Along

set_option autoImplicit false

/-!
# Dissolving a P-node

This module shows that a P-node above an opened row can be dissolved into it. The other children go
below a new leftmost section; the vertices of the P-node are then held by all sections but the last
one, and by that one too if they are neighbours of the new vertex.
-/

namespace CliquePath

open Cells (one)

/-! ## Adding vertices to a row -/

namespace Row

/-- A row whose last section gets the vertices `link` and whose other sections get `held`. -/
def carry (flipped : Bool) (ws : Entries) (e : Int × Part NodeId) (held link : List Vertex) :
    Row (Part NodeId) :=
  ofKeyed flipped (ws.mapHeld (· ++ held) ++ [(e.1, { e.2 with held := e.2.held ++ link })])

variable {R : Row (Part NodeId)} {flipped : Bool} {ws : Entries} {e : Int × Part NodeId}
variable {held link : List Vertex}

theorem keyed_carry : (carry flipped ws e held link).keyed =
    ws.mapHeld (· ++ held) ++ [(e.1, { e.2 with held := e.2.held ++ link })] := by
  rw [carry, keyed_ofKeyed]

theorem sonLinks_carry : sonLinks (carry flipped ws e held link).keyed = sonLinks (ws ++ [e]) := by
  rw [keyed_carry, sonLinks_append, sonLinks_append]
  simp [sonLinks, Entries.mapHeld, Function.comp_def]

theorem ascending_carry (h : R.Ascending) (hR : R.keyed = ws ++ [e]) :
    (carry flipped ws e held link).Ascending := by
  rw [carry, ascending_ofKeyed]
  rw [Ascending, hR, ← List.pairwise_map] at h
  simpa [Entries.mapHeld, Function.comp_def] using h

/-- What the sections hold after vertices were added to them. -/
theorem holds_carry {q : NodeId} {parent : Option NodeId} {v : Vertex}
    {r : NodeId × Option NodeId} (hR : R.keyed = ws ++ [e]) :
    ((carry flipped ws e held link).cellsAt q parent).Holds v r ↔
      (R.cellsAt q parent).Holds v r ∨
        (v ∈ held ∧ ∃ d ∈ ws, r = (d.2.id, some q)) ∨ v ∈ link ∧ r = (e.2.id, some q) := by
  simp only [Cells.holds_cellsAt, toList, keyed_carry, hR, Entries.mapHeld, List.map_append,
    List.map_map, List.map_cons, List.map_nil, List.mem_append, List.mem_map, List.mem_singleton,
    Function.comp_apply]
  constructor
  · rintro ⟨part, ⟨d, hd, rfl⟩ | rfl, hv, rfl⟩
    · rcases List.mem_append.1 hv with hv | hv
      · exact Or.inl ⟨d.2, Or.inl ⟨d, hd, rfl⟩, hv, rfl⟩
      · exact Or.inr (Or.inl ⟨hv, d, hd, rfl⟩)
    · rcases List.mem_append.1 hv with hv | hv
      · exact Or.inl ⟨e.2, Or.inr rfl, hv, rfl⟩
      · exact Or.inr (Or.inr ⟨hv, rfl⟩)
  · rintro (⟨part, ⟨d, hd, rfl⟩ | rfl, hv, rfl⟩ | ⟨hv, d, hd, rfl⟩ | ⟨hv, rfl⟩)
    · exact ⟨_, Or.inl ⟨d, hd, rfl⟩, List.mem_append.2 (Or.inl hv), rfl⟩
    · exact ⟨_, Or.inr rfl, List.mem_append.2 (Or.inl hv), rfl⟩
    · exact ⟨_, Or.inl ⟨d, hd, rfl⟩, List.mem_append.2 (Or.inr hv), rfl⟩
    · exact ⟨_, Or.inr rfl, List.mem_append.2 (Or.inr hv), rfl⟩

end Row

namespace Arena.Owns

variable {a : Arena} {r parent : Option NodeId} {M m : Cells} {q : NodeId}
variable {R : Row (Part NodeId)} {ws : Entries} {e : Int × Part NodeId}

/-- Adding vertices to the sections of a linked row, the last one apart. -/
theorem carry_row (o : a.Owns r M) (h : M = R.cellsAt q parent + m) (hR : R.keyed = ws ++ [e])
    (held link : List Vertex) :
    ∃ a₁ a₂, a.mapHeld (· ++ held) (Entries.ids ws) = .ok a₁ ∧
      a₁.mapHeld (· ++ link) [e.2.id] = .ok a₂ ∧
      a₂.Owns r ((Row.carry R.flipped ws e held link).cellsAt q parent + m) := by
  have hM : M = (Row.ofKeyed R.flipped ([] ++ (ws ++ [e]))).cellsAt q parent + m := by
    rw [h, List.nil_append, ← hR, Row.ofKeyed_keyed]
  obtain ⟨a₁, h₁, o₁⟩ := o.mapHeld_row (· ++ held) [] ws [e] hM
  have hM₁ : (Row.ofKeyed R.flipped ([] ++ (ws.mapHeld (· ++ held) ++ [e]))).cellsAt q parent + m =
      (Row.ofKeyed R.flipped
        (ws.mapHeld (· ++ held) ++ ([e] ++ []))).cellsAt q parent + m := by
    rw [List.nil_append, List.append_nil]
  obtain ⟨a₂, h₂, o₂⟩ := o₁.mapHeld_row (· ++ link) _ [e] [] hM₁
  exact ⟨a₁, a₂, h₁, h₂, o₂⟩

/-- The sections of a linked row have different places. -/
theorem nodup_ids (o : a.Owns r M) (h : M = R.cellsAt q parent + m) :
    (Entries.ids R.keyed).Nodup := by
  have hn := o.nodup
  rw [h, Row.cellsAt, Multiset.map_add, Multiset.map_add] at hn
  have hloose := (Multiset.nodup_add.1 (Multiset.nodup_add.1 hn).1).2.1
  rw [Loose.cells_eq_coe, Multiset.map_coe, Multiset.coe_nodup, List.map_map] at hloose
  rwa [← @Entries.map_id_linked R.keyed none none]

end Arena.Owns

/-- The sections of a row besides the last one. -/
theorem Entries.filter_ids_concat {ws : Entries} {e : Int × Part NodeId} (h : (ids (ws ++ [e])).Nodup) :
    (ids (ws ++ [e])).filter (· != e.2.id) = ids ws := by
  rw [ids_append, List.nodup_append] at h
  rw [ids_append, List.filter_append, List.filter_eq_self.2, List.filter_eq_nil_iff.2, List.append_nil]
  · simp [ids]
  · exact fun y hy => bne_iff_ne.2 (h.2.2 y hy e.2.id (by simp [ids]))

/-! ## The other children -/

namespace Arena.Owns

variable {a : Arena} {r parent : Option NodeId} {M m n rest : Cells} {x q : NodeId}
variable {held : List Vertex} {cs all : List NodeId} {R : Row (Part NodeId)}

/-- A P-node gives up some of its children. -/
theorem setChildren (o : a.Owns r M) (h : M = one x (pCell parent held all) + (rest + m))
    (hrest : Trees (childLinks x cs) rest) :
    ∃ a', a.setChildren x cs = .ok a' ∧
      a'.Owns r (one x (pCell parent held cs) + (rest + m)) := by
  obtain ⟨es, n, rfl, hids, hparents, -⟩ := hrest.roots
  -- the top cells of the trees below keep their parent
  have hM : M = (es : Cells) + (one x (pCell parent held all) + (n + m)) := by
    rw [h]
    abel
  obtain ⟨a₁, h₁, o₁⟩ := o.setParents es hM x
  rw [hparents] at o₁
  rw [hids] at h₁
  have hcell := o₁.cell (add_left_comm _ _ _)
  obtain ⟨a₂, h₂, o₂⟩ := o₁.setKind (add_left_comm _ _ _) (.pnode cs)
  refine ⟨a₂, ?_, o₂.congr ?_⟩
  · simp only [Arena.setChildren, Arena.children, h₁, hcell, ok_bind, pCell, pure_eq_ok, h₂]
  · simp only [pCell]
    abel

/-- A new leftmost section that holds nothing. -/
theorem pushFront {y : NodeId} {d : Cell} (o : a.Owns r M)
    (h : M = R.cellsAt q parent + (one y d + m)) (hne : R.keyed ≠ []) :
    ∃ a' s, a.insertSlice q none (some R.firstPart) y [] = .ok (a', s) ∧
      a'.Owns r ((R.insertAt 0 ⟨s, [], y⟩).cellsAt q parent +
        (one y { d with parent := some s } + m)) := by
  obtain ⟨a', s, h', o'⟩ := o.insertSlice_row h (List.nil_append R.keyed).symm []
  rw [Row.firstId_eq_some hne] at h'
  exact ⟨a', s, h', o'⟩

end Arena.Owns

/-- A row that may have got a new leftmost section, which holds nothing, with more trees below its
sections. `m` are the cells of all these trees before. -/
structure Row.Widened (R : Row (Part NodeId)) (n m : Cells) (R' : Row (Part NodeId)) (n' : Cells) :
    Prop where
  sons : Trees (sonLinks R'.keyed) n'
  ascending : R'.Ascending
  keyed : ∃ zs, R'.keyed = zs ++ R.keyed
  holds : ∀ q parent v r,
    (R'.cellsAt q parent + n').Holds v r ↔ (R.cellsAt q parent + m).Holds v r
  ids : ∀ t ∈ n.map Prod.fst, t ∈ n'.map Prod.fst

/-- What the row and the trees below it hold after vertices were added to the sections. -/
theorem Row.Widened.holds_carry {R R' : Row (Part NodeId)} {n m n' : Cells}
    (h : R.Widened n m R' n') {ws : Entries} {e : Int × Part NodeId} (hR : R'.keyed = ws ++ [e])
    {held link : List Vertex} {q : NodeId} {parent : Option NodeId} {v : Vertex}
    {r : NodeId × Option NodeId} :
    ((Row.carry R'.flipped ws e held link).cellsAt q parent + n').Holds v r ↔
      (R.cellsAt q parent + m).Holds v r ∨
        (v ∈ held ∧ ∃ s, (∃ d ∈ ws, d.2.id = s) ∧ r = (s, some q)) ∨
          v ∈ link ∧ r = (e.2.id, some q) := by
  rw [Cells.holds_add, Row.holds_carry hR, or_right_comm, ← Cells.holds_add, h.holds]
  simp only [exists_exists_and_eq_and]

theorem Row.widened_self {R : Row (Part NodeId)} {n : Cells} (hsons : Trees (sonLinks R.keyed) n)
    (hasc : R.Ascending) : R.Widened n n R n :=
  ⟨hsons, hasc, ⟨[], rfl⟩, fun _ _ _ _ => Iff.rfl, fun _ h => h⟩

/-- A new leftmost section above a tree. -/
theorem Row.widened_insertAt {R : Row (Part NodeId)} {n m : Cells} {y s : NodeId} {d : Cell}
    (hsons : Trees (sonLinks R.keyed) n) (hasc : R.Ascending) (hne : R.keyed ≠ [])
    (hd : d.kind.isSlice = false)
    (hall : ∀ parent, Trees {(parent, y)} (one y { d with parent } + m)) :
    R.Widened n (one y d + m + n) (R.insertAt 0 ⟨s, [], y⟩)
      (one y { d with parent := some s } + m + n) := by
  obtain ⟨k, hk⟩ := Row.keyed_insertAt_zero hne ⟨s, [], y⟩
  refine ⟨?_, hasc.insertAt 0 _, ⟨[(k, ⟨s, [], y⟩)], hk⟩, fun q parent v r => ?_, fun t ht => ?_⟩
  · rw [hk, sonLinks_cons]
    exact (hall (some s)).add hsons
  · simp only [Cells.holds_add, Cells.holds_insertAt, Cells.holds_one, List.not_mem_nil, false_and,
      or_false, Cell.row?, hd, Bool.false_eq_true, if_false]
  · rw [Multiset.map_add, Multiset.mem_add]
    exact Or.inr ht

/-- What becomes of a row when the other children of a dissolved P-node, with the given cells, are set
aside: one or several of them go below a new leftmost section, several as children of the P-node. -/
inductive Row.Aside (x : NodeId) (cs : List NodeId) (rest : Cells) (R : Row (Part NodeId)) (n : Cells) :
    Row (Part NodeId) → Cells → List NodeId → Prop
  | none (hcs : cs = []) (hrest : rest = 0) : Aside x cs rest R n R n []
  | only {y s : NodeId} {d : Cell} {m : Cells} (hcs : cs = [y]) (hrest : rest = one y d + m) :
      Aside x cs rest R n (R.insertAt 0 ⟨s, [], y⟩) (one y { d with parent := some s } + m + n) []
  | several {s : NodeId} (hcs : 2 ≤ cs.length) :
      Aside x cs rest R n (R.insertAt 0 ⟨s, [], x⟩) (one x (pCell (some s) [] cs) + rest + n) [x]

namespace Arena.Owns

variable {a : Arena} {r parent : Option NodeId} {M m n rest : Cells} {x q : NodeId}
variable {held : List Vertex} {cs all : List NodeId} {R : Row (Part NodeId)}

/-- The other children of a dissolved P-node go below a new leftmost section. -/
theorem setAside (o : a.Owns r M)
    (h : M = one x (pCell none held all) + (R.cellsAt q parent + (n + (rest + m))))
    (hne : R.keyed ≠ []) (hasc : R.Ascending) (hsons : Trees (sonLinks R.keyed) n)
    (hrest : Trees (childLinks x cs) rest) :
    ∃ a' leftmost touched R' n', a.setAside x q cs = .ok (a', leftmost, touched) ∧
      a'.Owns r (R'.cellsAt q parent + (n' + m)) ∧ R.Widened n (n + rest) R' n' ∧
      Entries.firstId R'.keyed none = some leftmost ∧ (∀ t ∈ touched, t ∈ n'.map Prod.fst) ∧
      Row.Aside x cs rest R n R' n' touched := by
  have hends := o.ends_row (h.trans (add_left_comm _ _ _))
  -- without other children nothing is set aside, one is set aside alone, and several stay below the P-node
  rcases cs with _ | ⟨y, _ | ⟨z, cs⟩⟩
  · obtain ⟨a', h', o'⟩ := o.discard h
    obtain rfl := hrest.eq_zero
    refine ⟨a', R.firstPart, [], R, n, ?_, by simpa using o', ?_, Row.firstId_eq_some hne, by simp,
      .none rfl rfl⟩
    · simp only [Arena.setAside, hends, h', ok_bind, pure_eq_ok]
    · rw [add_zero]
      exact Row.widened_self hsons hasc
  · obtain ⟨a₁, h₁, o₁⟩ := o.discard h
    obtain ⟨d, n₁, rfl, hd, -, hall⟩ := hrest.shape.reparent
    have hM : R.cellsAt q parent + (n + (one y d + n₁ + m)) =
        R.cellsAt q parent + (one y d + (n₁ + n + m)) := by
      abel
    obtain ⟨a₂, s, h₂, o₂⟩ := o₁.pushFront hM hne
    obtain ⟨k, hk⟩ := Row.keyed_insertAt_zero hne ⟨s, [], y⟩
    refine ⟨a₂, s, [], _, one y { d with parent := some s } + n₁ + n, ?_, o₂.congr (by abel), ?_,
      by rw [hk]; rfl, by simp, .only rfl rfl⟩
    · simp only [Arena.setAside, hends, h₁, h₂, ok_bind, pure_eq_ok]
    · rw [add_comm n]
      exact Row.widened_insertAt hsons hasc hne hd hall
  · obtain ⟨a₁, h₁, o₁⟩ := o.setHeld h []
    have hM : one x (pCell none [] all) + (R.cellsAt q parent + (n + (rest + m))) =
        one x (pCell none [] all) + (rest + (R.cellsAt q parent + (n + m))) := by
      abel
    obtain ⟨a₂, h₂, o₂⟩ := Arena.Owns.setChildren o₁ hM hrest
    have hM' : one x (pCell none [] (y :: z :: cs)) + (rest + (R.cellsAt q parent + (n + m))) =
        R.cellsAt q parent + (one x (pCell none [] (y :: z :: cs)) + (rest + n + m)) := by
      abel
    obtain ⟨a₃, s, h₃, o₃⟩ := o₂.pushFront hM' hne
    obtain ⟨k, hk⟩ := Row.keyed_insertAt_zero hne ⟨s, [], x⟩
    have hwide := Row.widened_insertAt (s := s) hsons hasc hne (d := pCell none [] (y :: z :: cs))
      rfl fun parent => .of_shape (.pnode [] (by simp) hrest)
    refine ⟨a₃, s, [x], _, _, ?_, o₃.congr ?_, ⟨hwide.sons, hwide.ascending, hwide.keyed, ?_,
      hwide.ids⟩, by rw [hk]; rfl, by simp, .several (by simp)⟩
    · simp only [Arena.setAside, hends, h₁, h₂, h₃, ok_bind, pure_eq_ok]
    · abel
    · intro q parent v r
      rw [hwide.holds]
      simp only [Cells.holds_add, Cells.holds_one, held_pCell, List.not_mem_nil, false_and, false_or]
      tauto

end Arena.Owns

/-! ## The P-node -/

/-- The slots after vertices went to one place, the neighbours among them to another one. -/
theorem Slots.get_parted {slots : Slots} {nbrs held : List Vertex} {a b : Slot} {v : Vertex} :
    ((slots.putAll (missed nbrs held) a).putAll (reached nbrs held) b).get v =
      if v ∈ held then if v ∈ nbrs then b else a else slots.get v := by
  rw [get_putAll, get_putAll]
  by_cases hv : v ∈ held <;> by_cases hn : v ∈ nbrs <;> simp [mem_reached, mem_missed, hv, hn]

/-- The vertices of a P-node move into the sections of a row from `far` to `near`, those that are
neighbours into the section `k` as well. -/
theorem Slots.Agree.intoRow {slots : Slots} {S : Set Vertex} {N M : Cells} {x q far near k : NodeId}
    {d : Cell} (h : slots.Agree S (one x d + N)) (hx : x ∉ N.map Prod.fst) (hd : d.row? = none)
    {P : NodeId → Prop} (nbrs : List Vertex)
    (hM : ∀ v r, M.Holds v r ↔ N.Holds v r ∨ (v ∈ d.held ∧ ∃ s, P s ∧ r = (s, some q)) ∨
      v ∈ reached nbrs d.held ∧ r = (k, some q))
    (hfar : P far) (hnear : P near) :
    ((slots.putAll (missed nbrs d.held) (.span far near)).putAll (reached nbrs d.held)
      (.span far k)).Agree S M := by
  refine h.update fun v => ?_
  rw [get_parted]
  -- the P-node was the only holder of its vertices
  by_cases hv : v ∈ d.held
  · have hout := (h.fit.of_node hx hd hv).2
    have hall : ∀ r, M.Holds v r → r.2 = some q := by
      intro r hr
      rcases (hM v r).1 hr with hr | ⟨-, s, -, rfl⟩ | ⟨-, rfl⟩
      · exact absurd hr (hout r)
      · rfl
      · rfl
    have hin : ∀ s, P s → M.Holds v (s, some q) :=
      fun s hs => (hM v _).2 (Or.inr (Or.inl ⟨hv, s, hs, rfl⟩))
    refine Or.inr ⟨h.mem_of_holds (p := (x, none)) (by simp [hv, hd]), ?_⟩
    rw [if_pos hv]
    -- a neighbour is in the section of the new vertex as well
    by_cases hn : v ∈ nbrs
    · rw [if_pos hn]
      have hr := mem_reached.2 ⟨hv, hn⟩
      exact ⟨by simp, q, hin far hfar, (hM v _).2 (Or.inr (Or.inr ⟨hr, rfl⟩)), hall⟩
    · rw [if_neg hn]
      exact ⟨by simp, q, hin far hfar, hin near hnear, hall⟩
  · refine Or.inl ⟨if_neg hv, fun r => ?_⟩
    simp [hM, hv, mem_reached]

namespace Work

variable {w : Work} {S : Set Vertex} {c : Ctx} {x q k : NodeId} {rest : Cells} {p : Pass}
variable {held : List Vertex} {before after : List NodeId}

/-- The node in focus is one child of the P-node above it. -/
theorem RowStands.filter_children {R : Row (Part NodeId)} {n : Cells}
    (h : w.RowStands S (.branch x held before after rest :: c) q R n)
    (hc : Ctx.Ok (.branch x held before after rest :: c)) :
    (before ++ q :: after).filter (· != q) = before ++ after := by
  have hnot := h.stands.owns.not_sibling hc (m := R.cellsAt q (some x) + n) rfl (by
    rw [Multiset.map_add, Multiset.mem_add]
    exact Or.inl (Cells.mem_ids_cellsAt.2 (Or.inl rfl)))
  rw [List.mem_append, not_or] at hnot
  rw [List.filter_append, List.filter_cons_of_neg (by simp),
    List.filter_eq_self.2 fun y hy => bne_iff_ne.2 (ne_of_mem_of_not_mem hy hnot.1),
    List.filter_eq_self.2 fun y hy => bne_iff_ne.2 (ne_of_mem_of_not_mem hy hnot.2)]

/-- The slots after the vertices of the P-node above the row in focus went into the row. -/
theorem RowStands.agree_carry {R R' : Row (Part NodeId)} {n n' : Cells} {ws : Entries}
    {e : Int × Part NodeId} {far near : NodeId}
    (h : w.RowStands S (.branch x held before after rest :: c) q R n)
    (hwide : R.Widened n (n + rest) R' n') (hR' : R'.keyed = ws ++ [e])
    (hfar : ∃ d ∈ ws, d.2.id = far) (hnear : ∃ d ∈ ws, d.2.id = near) (nbrs : List Vertex) :
    ((w.slots.putAll (missed nbrs held) (.span far near)).putAll (reached nbrs held)
      (.span far e.2.id)).Agree S
        ((Row.carry R'.flipped ws e held (reached nbrs held)).cellsAt q c.parent + n' + c.cells q) := by
  have hx : R.cellsAt q (some x) + n + Ctx.cells (.branch x held before after rest :: c) q =
      one x (pCell c.parent held (before ++ q :: after)) +
        (R.cellsAt q (some x) + (n + rest) + c.cells x) := by
    rw [Ctx.cells, Frame.cells, Frame.node]
    abel
  have o : w.arena.Owns (some (c.top x)) _ := h.stands.owns
  have hagree := h.stands.agree
  rw [show R.cellsAt q (Ctx.parent (.branch x held before after rest :: c)) + n +
    Ctx.cells (.branch x held before after rest :: c) q = _ from hx] at hagree
  refine hagree.intoRow (q := q) (P := fun s => ∃ d ∈ ws, d.2.id = s) (o.not_mem_map hx) rfl nbrs
    (fun v r => ?_) hfar hnear
  rw [Cells.holds_add, hwide.holds_carry hR', or_right_comm, Ctx.holds_cells c q x]
  simp only [Cells.holds_add, Cells.holds_cellsAt]
  rfl

/-- A P-node above an opened row is dissolved into it. -/
theorem RowStands.absorbChildren {R : Row (Part NodeId)} {n : Cells} {xs : Entries}
    {e : Int × Part NodeId} (hrow : w.RowStands S (.branch x held before after rest :: c) q R n)
    (hc : Ctx.Ok (.branch x held before after rest :: c)) (hR : R.keyed = xs ++ [e]) (hxs : xs ≠ [])
    (p : Pass) :
    ∃ w' R' n' ws far near touched, w.absorbChildren p x q e.2.id = .ok w' ∧
      Row.Aside x (before ++ after) rest R n R' n' touched ∧ R'.keyed = ws ++ [e] ∧ ws ≠ [] ∧
      Entries.firstId ws none = some far ∧ Entries.lastId ws none = some near ∧
      w'.slots = (w.slots.putAll (missed p.nbrs held) (.span far near)).putAll (reached p.nbrs held)
        (.span far e.2.id) ∧
      w'.touched = touched ++ w.touched ∧
      w'.RowStands S c q (Row.carry R'.flipped ws e held (reached p.nbrs held)) n' := by
  have hok : Trees (childLinks x (before ++ after)) rest := hc _ List.mem_cons_self
  have hc' : c.Ok := fun f hf => hc f (List.mem_cons_of_mem _ hf)
  have hfilter := hrow.filter_children hc
  have hx : R.cellsAt q (some x) + n + Ctx.cells (.branch x held before after rest :: c) q =
      one x (pCell c.parent held (before ++ q :: after)) +
        (one q (rowCell (some x) R.flipped R.firstPart R.lastPart) +
          (Loose.cells q R.flipped (Entries.linked none none R.keyed) + n + rest + c.cells x)) := by
    rw [Ctx.cells, Frame.cells, Frame.node, Row.cellsAt]
    abel
  have o : w.arena.Owns (some (c.top x)) _ := hrow.stands.owns
  have hcell := o.cell hx
  obtain ⟨a₁, h₁, o₁⟩ := o.replace hc' hx rfl (by cases R.flipped <;> rfl)
  have hM₁ : one x (pCell none held (before ++ q :: after)) +
      (one q (rowCell c.parent R.flipped R.firstPart R.lastPart) +
        (Loose.cells q R.flipped (Entries.linked none none R.keyed) + n + rest + c.cells q)) =
      one x (pCell none held (before ++ q :: after)) +
        (R.cellsAt q c.parent + (n + (rest + c.cells q))) := by
    rw [Row.cellsAt]
    abel
  obtain ⟨a₂, leftmost, touched, R', n', h₂, o₂, hwide, hleft, htouched, haside⟩ :=
    o₁.setAside hM₁ hrow.keyed_ne hrow.ascending hrow.sons hok
  obtain ⟨zs, hzs⟩ := hwide.keyed
  -- The sections before the one of the new vertex: `leftmost` is the first one, `b` the last one.
  obtain ⟨ini, b, hb⟩ := (List.eq_nil_or_concat xs).resolve_left hxs
  rw [List.concat_eq_append] at hb
  obtain ⟨ws, hws⟩ : ∃ ws, ws = zs ++ (ini ++ [b]) := ⟨_, rfl⟩
  have hws' : ws ≠ [] := by simp [hws]
  have hR' : R'.keyed = ws ++ [e] := by
    simp [hzs, hR, hb, hws]
  have hlast : Entries.lastId ws none = some b.2.id := by
    rw [hws, ← List.append_assoc, Entries.lastId_concat]
  obtain ⟨d, ds, hds⟩ := List.exists_cons_of_ne_nil hws'
  have hfirst : Entries.firstId ws none = some leftmost := by
    rw [hR', hds] at hleft
    rw [hds]
    exact hleft
  have hfar : ∃ d ∈ ws, d.2.id = leftmost := by
    rw [hds] at hfirst ⊢
    exact ⟨d, List.mem_cons_self, Option.some.inj hfirst⟩
  have hlinks := o₂.links_row rfl hR'
  have hslices := o₂.slices_row rfl (show R'.keyed ≠ [] by simp [hR'])
  have hids : (Entries.ids R'.keyed).filter (· != e.2.id) = Entries.ids ws := by
    have hnodup := o₂.nodup_ids rfl
    rw [hR'] at hnodup ⊢
    exact Entries.filter_ids_concat hnodup
  obtain ⟨a₃, a₄, h₃, h₄, o₄⟩ := o₂.carry_row rfl hR' held (reached p.nbrs held)
  refine ⟨Work.touch ⟨a₄, (w.slots.putAll (missed p.nbrs held) (.span leftmost b.2.id)).putAll
    (reached p.nbrs held) (.span leftmost e.2.id), w.touched⟩ touched, R', n', ws, leftmost, b.2.id,
    touched, ?_, haside, hR', hws', hfirst, hlast, rfl, rfl,
    ⟨o₄.congr (add_assoc _ _ _).symm, ?_, ?_, ?_, Row.ascending_carry hwide.ascending hR', ?_⟩⟩
  · have hlen : (before ++ after).length + 1 = (before ++ q :: after).length := by
      simp
      omega
    simp only [Work.absorbChildren, hcell, Arena.children, pCell, ok_bind, pure_eq_ok,
      hfilter, hlen, ne_eq, not_true, if_false, h₁, h₂, hlinks, hlast, hslices, hids, h₃, h₄]
  · exact hrow.agree_carry hwide hR' hfar ⟨b, by simp [hws], rfl⟩ p.nbrs
  · intro t ht
    rcases List.mem_append.1 ht with ht | ht
    · exact htouched t ht
    · exact hwide.ids t (hrow.touched t ht)
  · rw [Row.sonLinks_carry, ← hR']
    exact hwide.sons
  · rw [Row.keyed_carry]
    simp

/-- A row into which a P-node was dissolved is still open. -/
theorem Opened.absorbChildren (h : w.Opened S (.branch x held before after rest :: c) q k)
    (hc : Ctx.Ok (.branch x held before after rest :: c)) (p : Pass) :
    ∃ w', w.absorbChildren p x q k = .ok w' ∧ w'.Opened S c q k := by
  obtain ⟨R, n, xs, e, hrow, hR, hxs, rfl⟩ := h
  obtain ⟨w', R', n', ws, far, near, touched, h', -, -, hws, -, -, -, -, hrow'⟩ :=
    hrow.absorbChildren hc hR hxs p
  exact ⟨w', h', _, n', _, _, hrow', Row.keyed_carry, by simpa [Entries.mapHeld] using hws, rfl⟩

end Work

end CliquePath
