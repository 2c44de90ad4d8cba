import CliquePath.Proofs.LinkedTree.Runs

set_option autoImplicit false

/-!
# What a plan shows

This module relates a plan to the node that it shows. Both hold the same vertices, and every part of a
plan that shows a node in normal form shows one, too. In a trim plan no P-node without vertices has an
only child; every node of a trim plan shows.
-/

namespace CliquePath

open Cells (one)

namespace Node

theorem vertices_bundle (held : List Vertex) (children : List Node) :
    (bundle held children).vertices = held ++ children.flatMap vertices := by
  unfold bundle
  split
  · simp
  · simp

theorem bundle_of_ne_nil {held : List Vertex} (h : held ≠ []) (children : List Node) :
    bundle held children = .pnode held children := by
  cases held with
  | nil => exact absurd rfl h
  | cons v rest => rfl

theorem bundle_of_length {children : List Node} (h : children.length ≠ 1) (held : List Vertex) :
    bundle held children = .pnode held children := by
  match held, children with
  | _ :: _, _ => rfl
  | [], [] => rfl
  | [], [c] => simp at h
  | [], _ :: _ :: _ => rfl

end Node

namespace Plan

variable {T U V : Plan} {bs : List Bough} {b : Bough} {parent : Option NodeId} {v : Vertex}
variable {q id : NodeId} {row : Row (Part Plan)} {held : List Vertex} {children : List Plan}

/-! ## Vertices -/

/-- The cells of a plan hold the vertices of the node that it shows. -/
theorem exists_holds_iff (T : Plan) (parent : Option NodeId) (v : Vertex) :
    (∃ p, (T.cells parent).Holds v p) ↔ v ∈ T.node.vertices := by
  induction T using Plan.induction generalizing parent with
  | step T ih =>
      have hlimbs : (∃ p, (T.cells parent).Holds v p) ↔
          (∃ p, (T.own parent).Holds v p) ∨ ∃ l ∈ T.limbs, v ∈ l.2.node.vertices := by
        constructor
        · rintro ⟨p, hp⟩
          rcases holds_cells.1 hp with hp | ⟨l, hl, hp⟩
          · exact Or.inl ⟨p, hp⟩
          · exact Or.inr ⟨l, hl, (ih l hl _).1 ⟨p, hp⟩⟩
        · rintro (⟨p, hp⟩ | ⟨l, hl, hv⟩)
          · exact ⟨p, holds_cells.2 (Or.inl hp)⟩
          · obtain ⟨p, hp⟩ := (ih l hl (some l.1)).2 hv
            exact ⟨p, holds_cells.2 (Or.inr ⟨l, hl, hp⟩)⟩
      rw [hlimbs]
      -- what the node holds itself is the same in both
      cases T with
      | leaf id held => simp [own, limbs]
      | pnode id held children =>
          simp [own, limbs, Node.vertices_bundle, List.mem_flatMap]
      | qnode q row =>
          simp only [holds_own_qnode, limbs, sons, node_qnode, Node.vertices_qnode, Row.toList_map,
            List.mem_flatMap, List.mem_map, List.mem_append, exists_exists_and_eq_and, Part.shown,
            and_or_left, exists_or]
          refine or_congr ⟨?_, ?_⟩ Iff.rfl
          · rintro ⟨p, s, hs, hv, -⟩
            exact ⟨s, hs, hv⟩
          · rintro ⟨s, hs, hv⟩
            exact ⟨_, s, hs, hv, rfl⟩

/-! ## Normal forms -/

/-- What stands below a node shows a node in normal form if that one does. -/
theorem proper_limb {l : NodeId × Plan} (h : T.node.Proper) (hl : l ∈ T.limbs) :
    l.2.node.Proper := by
  cases T with
  | leaf id held => simp [limbs] at hl
  | pnode id held children =>
      obtain ⟨c, hc, rfl⟩ := List.mem_map.1 hl
      rw [node_pnode] at h
      -- a hidden P-node shows its only child
      by_cases hone : held = [] ∧ children.length = 1
      · obtain ⟨rfl, hlen⟩ := hone
        obtain ⟨only, rfl⟩ := List.length_eq_one_iff.1 hlen
        rw [List.mem_singleton.1 hc]
        exact h
      · have hb : Node.bundle held (children.map node) = .pnode held (children.map node) := by
          by_cases hheld : held = []
          · exact Node.bundle_of_length (by simpa using fun h1 => hone ⟨hheld, h1⟩) _
          · exact Node.bundle_of_ne_nil hheld _
        rw [hb] at h
        cases h with
        | pnode nodup apart sons firm arity proper => exact proper _ (List.mem_map_of_mem hc)
  | qnode q row =>
      obtain ⟨s, hs, rfl⟩ := List.mem_map.1 hl
      rw [node_qnode] at h
      cases h with
      | qnode standing proper =>
          exact proper s.shown (by rw [Row.toList_map]; exact List.mem_map_of_mem hs)

/-- Every part of a plan that shows a node in normal form shows one. -/
theorem proper_part (h : T.node.Proper) (hV : V ∈ T.parts) : V.node.Proper := by
  induction T using Plan.induction with
  | step T ih =>
      rcases mem_parts_iff.1 hV with rfl | ⟨l, hl, hV⟩
      · exact h
      · exact ih l hl (proper_limb h hl) hV

theorem proper_focus (h : (T.under bs).node.Proper) : T.node.Proper :=
  proper_part h (mem_parts_under T bs)

/-- The row of a Q-node in normal form stands. -/
theorem standing (h : (qnode q row).node.Proper) : (row.map Part.shown).Standing := by
  rw [node_qnode] at h
  cases h with
  | qnode standing proper => exact standing

/-! ## Trim plans -/

/-- A P-node has vertices or several children. -/
def Visible : Plan → Prop
  | .pnode _ held children => held ≠ [] ∨ children.length ≠ 1
  | _ => True

/-- Every node of the plan shows. -/
def Trim (T : Plan) : Prop := ∀ V ∈ T.parts, V.Visible

theorem visible_fill (b : Bough) (T U : Plan) (h : (b.fill T).Visible) : (b.fill U).Visible := by
  cases b with
  | branch id held before after => simpa [Bough.fill, Visible] using h
  | inRow q flipped xs key id held ys => trivial

theorem Trim.of_mem (h : T.Trim) (hV : V ∈ T.parts) : V.Trim :=
  fun _ hU => h _ (mem_parts_trans hU hV)

theorem Trim.focus (h : (T.under bs).Trim) : T.Trim := h.of_mem (mem_parts_under T bs)

theorem trim_iff : T.Trim ↔ T.Visible ∧ ∀ l ∈ T.limbs, l.2.Trim := by
  unfold Trim
  rw [parts_eq]
  simp only [List.forall_mem_cons, List.mem_flatMap]
  exact and_congr_right fun _ => ⟨fun h l hl U hU => h U ⟨l, hl, hU⟩,
    fun h U ⟨l, hl, hU⟩ => h l hl U hU⟩

/-- A visible P-node is shown as one. -/
theorem node_of_visible (h : (pnode id held children).Visible) :
    (pnode id held children).node = .pnode held (children.map node) := by
  rw [node_pnode]
  rcases h with hheld | hlen
  · exact Node.bundle_of_ne_nil hheld _
  · exact Node.bundle_of_length (by simpa using hlen) _

/-! ## Blocks of sections -/

end Plan

namespace Row

variable {ν μ : Type} {R : Row (Part ν)} {v : Vertex}

/-- The sections that hold a vertex are several and stand next to one another. -/
structure Block (R : Row (Part ν)) (v : Vertex) (as m bs : List (Int × Part ν)) : Prop where
  keyed : R.keyed = as ++ (m ++ bs)
  several : 2 ≤ m.length
  inside : ∀ e ∈ m, v ∈ e.2.held
  outside : ∀ e ∈ as ++ bs, v ∉ e.2.held

/-- Every vertex of a lined row has a block. -/
theorem exists_block {row : Row (Part Plan)} (h : (row.map Part.shown).pattern.Lined row.size)
    (hv : ∃ s ∈ row.toList, v ∈ s.held) : ∃ as m bs, row.Block v as m bs := by
  have hheld : ∀ i, (row.map Part.shown).pattern i v ↔ ∃ e, row.keyed[i]? = some e ∧ v ∈ e.2.held := by
    intro i
    rw [pattern_iff, toList_map, toList, List.map_map]
    simp [Part.shown]
  obtain ⟨s, hs, hvs⟩ := hv
  obtain ⟨e, he, rfl⟩ := List.mem_map.1 hs
  obtain ⟨j, hj⟩ := List.mem_iff_getElem?.1 he
  obtain ⟨first, last, hlt, hsize, hspans⟩ := h j v ((hheld j).2 ⟨e, hj, hvs⟩)
  have hlen : row.keyed.length = row.size := length_keyed row
  -- the run of the vertex, by the numbers of the sections
  have hget : ∀ i (hi : i < row.keyed.length), v ∈ row.keyed[i].2.held ↔ first ≤ i ∧ i ≤ last := by
    intro i hi
    rw [← hspans i, hheld, List.getElem?_eq_getElem hi]
    simp
  refine ⟨row.keyed.take first, (row.keyed.drop first).take (last + 1 - first),
    row.keyed.drop (last + 1), ?_, ?_, fun d hd => ?_, fun d hd => ?_⟩
  · have hdrop : row.keyed.drop (last + 1) = (row.keyed.drop first).drop (last + 1 - first) := by
      rw [List.drop_drop]
      congr 1
      omega
    rw [hdrop, List.take_append_drop, List.take_append_drop]
  · rw [List.length_take, List.length_drop]
    omega
  · obtain ⟨i, hi, rfl⟩ := List.mem_iff_getElem.1 hd
    rw [List.getElem_take, List.getElem_drop, hget]
    rw [List.length_take, List.length_drop] at hi
    omega
  · rcases List.mem_append.1 hd with hd | hd
    · obtain ⟨i, hi, rfl⟩ := List.mem_iff_getElem.1 hd
      rw [List.getElem_take, hget]
      rw [List.length_take] at hi
      omega
    · obtain ⟨i, hi, rfl⟩ := List.mem_iff_getElem.1 hd
      rw [List.getElem_drop, hget]
      rw [List.length_drop] at hi
      omega

namespace Block

variable {as m bs : List (Int × Part ν)} {f : ν → μ}

theorem ne_nil (h : R.Block v as m bs) : m ≠ [] :=
  List.ne_nil_of_length_pos (Nat.lt_of_lt_of_le Nat.zero_lt_two h.several)

theorem hits (h : R.Block v as m bs) :
    CliquePath.hits v (R.toList.map Part.span) = m.map fun e => e.2.id := by
  -- outside the block nothing is hit, and inside it everything
  have hnone : ∀ es : List (Int × Part ν), (∀ e ∈ es, v ∉ e.2.held) →
      CliquePath.hits v (es.map fun e => e.2.span) = [] := by
    intro es hes
    rw [hits_eq_nil]
    intro s hs
    obtain ⟨e, he, rfl⟩ := List.mem_map.1 hs
    exact hes e he
  have hall : CliquePath.hits v (m.map fun e => e.2.span) = m.map fun e => e.2.id := by
    rw [hits_of_all, List.map_map]
    · rfl
    · intro s hs
      obtain ⟨e, he, rfl⟩ := List.mem_map.1 hs
      exact h.inside e he
  have hlist : R.toList.map Part.span = as.map (fun e => e.2.span) ++
      (m.map (fun e => e.2.span) ++ bs.map fun e => e.2.span) := by
    rw [Row.toList, h.keyed]
    simp [Function.comp_def]
  rw [hlist, hits_append, hits_append, hall,
    hnone as fun e he => h.outside e (List.mem_append.2 (Or.inl he)),
    hnone bs fun e he => h.outside e (List.mem_append.2 (Or.inr he)), List.nil_append,
    List.append_nil]

theorem mem_iff (h : R.Block v as m bs) {e : Int × Part ν} (he : e ∈ R.keyed) :
    v ∈ e.2.held ↔ e ∈ m := by
  rw [h.keyed, List.mem_append, List.mem_append] at he
  constructor
  · intro hv
    rcases he with he | he | he
    · exact absurd hv (h.outside e (List.mem_append.2 (Or.inl he)))
    · exact he
    · exact absurd hv (h.outside e (List.mem_append.2 (Or.inr he)))
  · exact h.inside e

end Block

end Row

end CliquePath
