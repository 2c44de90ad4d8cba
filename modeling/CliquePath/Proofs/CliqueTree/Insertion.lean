import CliquePath.CliqueTree.Basic
import CliquePath.Proofs.CliqueTree.Rejection

set_option autoImplicit false

/-!
# Putting a vertex into a clique tree

This module says what one insertion does to a tree in normal form. A vertex that is placed adds one
bag, its own. A vertex that finds no room, although its neighbours in the tree are pairwise in one
bag, leaves a fork whose ends are joined around its neighbours.
-/

namespace CliquePath

open Node

namespace CliqueTree

variable {t t' : CliqueTree} {g : Graph} {u v : Vertex}

/-- The root; a tree without vertices counts as one empty clique. -/
def node (t : CliqueTree) : Node := t.root.getD (.leaf [])

/-- The vertices of the cliques. -/
def bags (t : CliqueTree) : Set (Set Vertex) := {B | B ∈ t.node.bags}

/-- The tree is in normal form and has the vertices that were placed. -/
structure Sound (t : CliqueTree) : Prop where
  proper : t.node.Proper
  nodup : t.placed.Nodup
  placed : ∀ v, v ∈ t.node.vertices ↔ v ∈ t.placed

theorem sound_empty : empty.Sound :=
  ⟨.leaf List.nodup_nil, List.nodup_nil, fun v => by simp [node, empty]⟩

theorem Sound.mem_placed (h : t.Sound) : v ∈ t.placed ↔ ∃ B ∈ t.bags, v ∈ B := by
  rw [← h.placed, h.proper.mem_vertices]
  rfl

/-- The neighbours of a vertex that are in the tree. -/
def placedNeighbors (t : CliqueTree) (g : Graph) (u : Vertex) : List Vertex :=
  (g.neighbors u).filter t.contains

theorem nodup_placedNeighbors (h : (g.neighbors u).Nodup) : (t.placedNeighbors g u).Nodup :=
  h.filter _

theorem mem_placedNeighbors :
    v ∈ t.placedNeighbors g u ↔ v ∈ g.neighbors u ∧ v ∈ t.placed := by
  simp [placedNeighbors, contains]

theorem isolated_eq (root : Option Node) (u : Vertex) :
    isolated root u = (root.getD (.leaf [])).beside u := by
  cases root with
  | none => rfl
  | some node => rfl

/-- What an insertion that is not refused as an edit comes to. -/
theorem insert_eq (hg : g.contains u = true) (hu : u ∉ t.placed) :
    t.insert g u = .ok (match attach? t.root u (t.placedNeighbors g u) with
      | none => .noRoom
      | some root => .placed ⟨some root, u :: t.placed⟩) := by
  have hc : t.contains u = false := by simpa [contains] using hu
  unfold insert
  rw [hg, hc]
  simp only [Bool.not_true, Bool.false_eq_true, if_false]
  rw [show (g.neighbors u).filter t.contains = t.placedNeighbors g u from rfl]
  cases attach? t.root u (t.placedNeighbors g u) with
  | none => rfl
  | some root => rfl

theorem insert_ok {p : Placement} (h : t.insert g u = .ok p) :
    g.contains u = true ∧ u ∉ t.placed := by
  unfold insert at h
  split at h
  next => cases h
  next hg =>
    split at h
    next => cases h
    next hc =>
      refine ⟨by simpa using hg, ?_⟩
      simpa [contains] using hc

/-- The root of a tree with a placed neighbour, and how it grows. -/
theorem Sound.attach?_eq (h : t.Sound) {nbrs : List Vertex} (hsub : ∀ v ∈ nbrs, v ∈ t.placed)
    (hne : nbrs ≠ []) :
    attach? t.root u nbrs = (t.node.grow? u nbrs).map Grown.settle ∧
      t.node.meets nbrs = true := by
  obtain ⟨v, hv⟩ := List.exists_mem_of_ne_nil _ hne
  have hvt : v ∈ t.node.vertices := (h.placed v).2 (hsub v hv)
  refine ⟨?_, meets_iff.2 ⟨v, hv, hvt⟩⟩
  unfold attach?
  rw [if_neg (by simpa [List.isEmpty_iff] using hne)]
  cases hroot : t.root with
  | none =>
      rw [node, hroot] at hvt
      simp at hvt
  | some node => simp [CliqueTree.node, hroot]

/-- A vertex that is placed adds its own bag to a tree in normal form. -/
theorem Sound.insert_placed (h : t.Sound) (hnodup : (g.neighbors u).Nodup)
    (hins : t.insert g u = .ok (.placed t')) :
    t'.Sound ∧ t'.placed = u :: t.placed ∧
      Extends t.bags t'.bags {v | v ∈ g.neighbors u ∧ v ∈ t.placed} u := by
  obtain ⟨hg, hu⟩ := insert_ok hins
  have hun : u ∉ t.node.vertices := fun hm => hu ((h.placed u).1 hm)
  rw [insert_eq hg hu] at hins
  have hA : {v | v ∈ g.neighbors u ∧ v ∈ t.placed} = {v | v ∈ t.placedNeighbors g u} := by
    ext v
    exact mem_placedNeighbors.symm
  -- Either way the new root is in normal form and has one more bag.
  have hroot : ∀ root, attach? t.root u (t.placedNeighbors g u) = some root → root.Proper ∧
      Extends t.bags {B | B ∈ root.bags} {v | v ∈ g.neighbors u ∧ v ∈ t.placed} u := by
    intro root hat
    by_cases hnil : t.placedNeighbors g u = []
    · rw [hnil, attach?, if_pos (by rfl), Option.some.injEq, isolated_eq] at hat
      subst hat
      refine ⟨h.proper.beside hun, ?_⟩
      rw [hA, hnil, show {v | v ∈ ([] : List Vertex)} = ∅ by simp]
      exact h.proper.extends_beside u
    · obtain ⟨hat', hmeet⟩ := h.attach?_eq (u := u) (fun v hv => (mem_placedNeighbors.1 hv).2) hnil
      rw [hat'] at hat
      obtain ⟨grown, hgrown, rfl⟩ := Option.map_eq_some_iff.1 hat
      have hgrows := h.proper.grows (nodup_placedNeighbors hnodup) hmeet hun hgrown
      have hset : {v | v ∈ t.placedNeighbors g u ∧ v ∈ t.node.vertices} =
          {v | v ∈ g.neighbors u ∧ v ∈ t.placed} := by
        ext v
        rw [Set.mem_ofPred_eq, mem_placedNeighbors, h.placed]
        exact ⟨fun hv => hv.1, fun hv => ⟨hv, hv.2⟩⟩
      have hext := hgrows.bags
      rw [hset] at hext
      exact ⟨hgrows.sound.settle, hext⟩
  cases hat : attach? t.root u (t.placedNeighbors g u) with
  | none =>
      rw [hat] at hins
      cases hins
  | some root =>
      rw [hat] at hins
      cases hins
      obtain ⟨hproper, hext⟩ := hroot root hat
      refine ⟨⟨hproper, List.nodup_cons.2 ⟨hu, h.nodup⟩, fun v => ?_⟩, rfl, hext⟩
      have hv := mem_vertices_of_extends (v := v) h.proper hproper hext
      rw [h.placed] at hv
      exact hv.trans List.mem_cons.symm

/-- A vertex whose neighbours are pairwise in one bag finds no room only if there is a fork. -/
theorem Sound.forked_of_noRoom (h : t.Sound)
    (hclique : ∀ v ∈ t.placedNeighbors g u, ∀ w ∈ t.placedNeighbors g u, Shares t.bags v w)
    (hins : t.insert g u = .ok .noRoom) :
    ∃ l r, Forked t.bags (t.placedNeighbors g u) l r ∧
      Detached t.bags (t.placedNeighbors g u) l r := by
  obtain ⟨hg, hu⟩ := insert_ok hins
  rw [insert_eq hg hu] at hins
  cases hat : attach? t.root u (t.placedNeighbors g u) with
  | some root =>
      rw [hat] at hins
      cases hins
  | none =>
      by_cases hnil : t.placedNeighbors g u = []
      · rw [hnil, attach?, if_pos (by rfl)] at hat
        cases hat
      · obtain ⟨hat', hmeet⟩ := h.attach?_eq (u := u)
          (fun v hv => (mem_placedNeighbors.1 hv).2) hnil
        rw [hat'] at hat
        exact h.proper.forked_of_grow (fun v hv w hw _ _ => hclique v hv w hw) hmeet
          (Option.map_eq_none_iff.1 hat)

end CliqueTree

end CliquePath
