import CliquePath.Proofs.LinkedTree.RowChanges

set_option autoImplicit false

/-!
# Cells that form trees

This module states when cells form the trees below some links. `Trees` follows the links down:
every node is a leaf, a P-node above at least one child, or a Q-node with an ascending row, and
refers to its parent. Cells that form several trees can be split into those of each tree.
-/

namespace CliquePath

open Cells (one)

/-- A node with the parent to which it refers. -/
abbrev Link := Option NodeId × NodeId

/-- The cell of a leaf. -/
def leafCell (parent : Option NodeId) (held : List Vertex) : Cell := ⟨.leaf, parent, held, true⟩

/-- The cell of a P-node. -/
def pCell (parent : Option NodeId) (held : List Vertex) (children : List NodeId) : Cell :=
  ⟨.pnode children, parent, held, true⟩

/-- The links from a P-node to its children. -/
def childLinks (p : NodeId) (children : List NodeId) : Multiset Link :=
  (children.map fun c => (some p, c) : List Link)

/-- The links from sections to what stands below them. -/
def sonLinks (es : Entries) : Multiset Link :=
  (es.map fun e => (some e.2.id, e.2.son) : List Link)

section Links

variable {p x : NodeId} {xs ys : List NodeId} {es fs : Entries} {e : Int × Part NodeId}

theorem childLinks_append : childLinks p (xs ++ ys) = childLinks p xs + childLinks p ys := by
  simp [childLinks]

theorem childLinks_cons : childLinks p (x :: xs) = {(some p, x)} + childLinks p xs := rfl

theorem childLinks_split :
    childLinks p (xs ++ x :: ys) = {(some p, x)} + childLinks p (xs ++ ys) := by
  rw [childLinks_append, childLinks_cons, childLinks_append]
  exact add_left_comm _ _ _

theorem sonLinks_append : sonLinks (es ++ fs) = sonLinks es + sonLinks fs := by
  simp [sonLinks]

theorem sonLinks_cons : sonLinks (e :: es) = {(some e.2.id, e.2.son)} + sonLinks es := rfl

theorem sonLinks_split :
    sonLinks (es ++ e :: fs) = {(some e.2.id, e.2.son)} + sonLinks (es ++ fs) := by
  rw [sonLinks_append, sonLinks_cons, sonLinks_append]
  exact add_left_comm _ _ _

theorem sonLinks_reflect (es : Entries) : sonLinks (Row.reflect es) = sonLinks es := by
  simp [sonLinks, Row.reflect, Function.comp_def]

/-- The links below sections do not depend on their ranks. -/
theorem sonLinks_congr {es fs : Entries} (h : es.map Prod.snd = fs.map Prod.snd) :
    sonLinks es = sonLinks fs := by
  have hmap := congrArg (List.map fun part : Part NodeId => (some part.id, part.son)) h
  simpa [sonLinks, Function.comp_def] using congrArg (fun l : List Link => (l : Multiset Link)) hmap

end Links

/-- The cells of the trees below some links. -/
inductive Trees : Multiset Link → Cells → Prop where
  | nil : Trees 0 0
  | leaf (parent : Option NodeId) (id : NodeId) (held : List Vertex) {L : Multiset Link}
      {m : Cells} (rest : Trees L m) : Trees ({(parent, id)} + L) (one id (leafCell parent held) + m)
  | pnode (parent : Option NodeId) (id : NodeId) (held : List Vertex) {children : List NodeId}
      {L : Multiset Link} {m : Cells} (hne : children ≠ [])
      (rest : Trees (childLinks id children + L) m) :
      Trees ({(parent, id)} + L) (one id (pCell parent held children) + m)
  | qnode (parent : Option NodeId) (q : NodeId) {R : Row (Part NodeId)} {L : Multiset Link}
      {m : Cells} (hne : R.keyed ≠ []) (hasc : R.Ascending)
      (rest : Trees (sonLinks R.keyed + L) m) :
      Trees ({(parent, q)} + L) (R.cellsAt q parent + m)

namespace Trees

variable {L K : Multiset Link} {M m n : Cells} {parent : Option NodeId} {x : NodeId} {l : Link}

/-- Trees side by side. -/
theorem add (h : Trees L m) (k : Trees K n) : Trees (L + K) (m + n) := by
  induction h with
  | nil => simpa using k
  | leaf parent id held _ ih =>
      rw [add_assoc, add_assoc]
      exact .leaf parent id held ih
  | pnode parent id held hne _ ih =>
      rw [add_assoc, add_assoc]
      exact .pnode parent id held hne (by rwa [add_assoc] at ih)
  | qnode parent q hne hasc _ ih =>
      rw [add_assoc, add_assoc]
      exact .qnode parent q hne hasc (by rwa [add_assoc] at ih)

/-- A link that stands first in one of two multisets with the same sum. -/
private theorem links_split {J : Multiset Link} (h : L + K = {l} + J) :
    (∃ L', L = {l} + L' ∧ J = L' + K) ∨ (∃ K', K = {l} + K' ∧ J = L + K') := by
  have hmem : l ∈ L + K := by simp [h]
  rcases Multiset.mem_add.1 hmem with hl | hl
  · obtain ⟨L', rfl⟩ := Multiset.exists_cons_of_mem hl
    refine Or.inl ⟨L', rfl, ?_⟩
    rw [← Multiset.singleton_add, add_assoc] at h
    exact (add_left_cancel h).symm
  · obtain ⟨K', rfl⟩ := Multiset.exists_cons_of_mem hl
    refine Or.inr ⟨K', rfl, ?_⟩
    rw [← Multiset.singleton_add, add_left_comm] at h
    exact (add_left_cancel h).symm

/-- The cells of trees can be split. -/
theorem split (h : Trees (L + K) M) : ∃ m n, M = m + n ∧ Trees L m ∧ Trees K n := by
  generalize hJ : L + K = J at h
  induction h generalizing L K with
  | nil =>
      obtain ⟨rfl, rfl⟩ := add_eq_zero.1 hJ
      exact ⟨0, 0, rfl, .nil, .nil⟩
  | leaf parent id held _ ih =>
      -- the first tree belongs to one side, which keeps its cells
      rcases links_split hJ with ⟨L', rfl, rfl⟩ | ⟨K', rfl, rfl⟩
      · obtain ⟨m, n, rfl, hm, hn⟩ := ih rfl
        exact ⟨_, n, (add_assoc _ _ _).symm, .leaf parent id held hm, hn⟩
      · obtain ⟨m, n, rfl, hm, hn⟩ := ih rfl
        exact ⟨m, _, add_left_comm _ _ _, hm, .leaf parent id held hn⟩
  | pnode parent id held hne _ ih =>
      rcases links_split hJ with ⟨L', rfl, rfl⟩ | ⟨K', rfl, rfl⟩
      · obtain ⟨m, n, rfl, hm, hn⟩ := ih (add_assoc _ _ _)
        exact ⟨_, n, (add_assoc _ _ _).symm, .pnode parent id held hne hm, hn⟩
      · obtain ⟨m, n, rfl, hm, hn⟩ := ih (add_left_comm _ _ _)
        exact ⟨m, _, add_left_comm _ _ _, hm, .pnode parent id held hne hn⟩
  | qnode parent q hne hasc _ ih =>
      rcases links_split hJ with ⟨L', rfl, rfl⟩ | ⟨K', rfl, rfl⟩
      · obtain ⟨m, n, rfl, hm, hn⟩ := ih (add_assoc _ _ _)
        exact ⟨_, n, (add_assoc _ _ _).symm, .qnode parent q hne hasc hm, hn⟩
      · obtain ⟨m, n, rfl, hm, hn⟩ := ih (add_left_comm _ _ _)
        exact ⟨m, _, add_left_comm _ _ _, hm, .qnode parent q hne hasc hn⟩

/-- What can stand below one link. -/
inductive Shape (parent : Option NodeId) (x : NodeId) : Cells → Prop where
  | leaf (held : List Vertex) : Shape parent x (one x (leafCell parent held))
  | pnode (held : List Vertex) {children : List NodeId} {n : Cells} (hne : children ≠ [])
      (rest : Trees (childLinks x children) n) :
      Shape parent x (one x (pCell parent held children) + n)
  | qnode {R : Row (Part NodeId)} {n : Cells} (hne : R.keyed ≠ []) (hasc : R.Ascending)
      (rest : Trees (sonLinks R.keyed) n) : Shape parent x (R.cellsAt x parent + n)

theorem eq_zero (h : Trees 0 m) : m = 0 := by
  generalize hJ : (0 : Multiset Link) = J at h
  cases h with
  | nil => rfl
  | leaf => simp at hJ
  | pnode => simp at hJ
  | qnode => simp at hJ

theorem shape (h : Trees {(parent, x)} m) : Shape parent x m := by
  generalize hJ : ({(parent, x)} : Multiset Link) = J at h
  cases h with
  | nil => simp at hJ
  | leaf parent' id held rest =>
      obtain ⟨heq, rfl⟩ := (Multiset.singleton_eq_cons_iff _).1 hJ
      cases heq
      rw [rest.eq_zero, add_zero]
      exact .leaf held
  | pnode parent' id held hne rest =>
      obtain ⟨heq, rfl⟩ := (Multiset.singleton_eq_cons_iff _).1 hJ
      cases heq
      exact .pnode held hne (by simpa using rest)
  | qnode parent' q hne hasc rest =>
      obtain ⟨heq, rfl⟩ := (Multiset.singleton_eq_cons_iff _).1 hJ
      cases heq
      exact .qnode hne hasc (by simpa using rest)

theorem of_shape (h : Shape parent x m) : Trees {(parent, x)} m := by
  cases h with
  | leaf held => simpa using Trees.leaf parent x held .nil
  | pnode held hne rest =>
      simpa using Trees.pnode (L := 0) parent x held hne (by simpa using rest)
  | qnode hne hasc rest =>
      simpa using Trees.qnode (L := 0) parent x hne hasc (by simpa using rest)

/-- A tree below one parent becomes a tree below another one if its top cell refers to that one. -/
theorem Shape.reparent (h : Shape parent x m) :
    ∃ c n, m = one x c + n ∧ c.kind.isSlice = false ∧ c.parent = parent ∧
      ∀ parent', Trees {(parent', x)} (one x { c with parent := parent' } + n) := by
  cases h with
  | leaf held =>
      refine ⟨_, 0, (add_zero _).symm, rfl, rfl, fun parent' => ?_⟩
      rw [add_zero]
      exact .of_shape (.leaf held)
  | pnode held hne rest => exact ⟨_, _, rfl, rfl, rfl, fun parent' => .of_shape (.pnode held hne rest)⟩
  | @qnode R n hne hasc rest =>
      refine ⟨_, _, add_assoc _ _ _, ?_, rfl, fun parent' => ?_⟩
      · cases R.flipped <;> rfl
      · rw [← add_assoc]
        exact .of_shape (.qnode hne hasc rest)

/-- The top cells of the trees below a P-node. They refer to it, and they are trees below another
P-node if they refer to that one. -/
theorem roots {p : NodeId} {cs : List NodeId} (h : Trees (childLinks p cs) m) :
    ∃ (es : List (NodeId × Cell)) (n : Cells), m = (es : Cells) + n ∧ es.map Prod.fst = cs ∧
      (es.map fun e => (e.1, { e.2 with parent := some p })) = es ∧
      (∀ e ∈ es, e.2.kind.isSlice = false) ∧ ∀ p', Trees (childLinks p' cs)
        (((es.map fun e => (e.1, { e.2 with parent := some p' }) : List _) : Cells) + n) := by
  induction cs generalizing m with
  | nil =>
      obtain rfl := h.eq_zero
      exact ⟨[], 0, rfl, rfl, rfl, by simp, fun _ => .nil⟩
  | cons x rest ih =>
      rw [childLinks_cons] at h
      obtain ⟨m₁, m₂, rfl, h₁, h₂⟩ := h.split
      obtain ⟨es, n₂, rfl, hids, hparents, hslices, hall⟩ := ih h₂
      -- the top cell of each tree is the only one that refers to the P-node
      obtain ⟨d, n₁, rfl, hs, hd, hall₁⟩ := h₁.shape.reparent
      refine ⟨(x, d) :: es, n₁ + n₂, ?_, by rw [List.map_cons, hids], ?_,
        List.forall_mem_cons.2 ⟨hs, hslices⟩, fun p' => ?_⟩
      · rw [← Multiset.cons_coe, ← Multiset.singleton_add, one]
        abel
      · rw [List.map_cons, hparents]
        congr 2
        rw [← hd]
      · have hcells : ((((x, d) :: es).map fun e => (e.1, { e.2 with parent := some p' }) :
            List (NodeId × Cell)) : Cells) + (n₁ + n₂) = one x { d with parent := some p' } + n₁ +
              (((es.map fun e => (e.1, { e.2 with parent := some p' }) : List _) : Cells) + n₂) := by
          rw [List.map_cons, ← Multiset.cons_coe, ← Multiset.singleton_add, one]
          abel
        rw [childLinks_cons, hcells]
        exact (hall₁ (some p')).add (hall p')

/-- A cell of some trees belongs to one of them. -/
theorem split_mem (h : Trees L M) {e : NodeId × Cell} (he : e ∈ M) :
    ∃ l K m n, L = {l} + K ∧ M = m + n ∧ Trees {l} m ∧ Trees K n ∧ e ∈ m := by
  induction L using Multiset.induction generalizing M with
  | empty =>
      rw [h.eq_zero] at he
      simp at he
  | cons l L ih =>
      rw [← Multiset.singleton_add] at h ⊢
      obtain ⟨m, n, rfl, hm, hn⟩ := h.split
      -- the cell is in the first tree or in one of the others
      rcases Multiset.mem_add.1 he with he | he
      · exact ⟨l, L, m, n, rfl, rfl, hm, hn, he⟩
      · obtain ⟨l', K, m', n', rfl, rfl, hm', hn', he'⟩ := ih hn he
        exact ⟨l', {l} + K, m', m + n', add_left_comm _ _ _, add_left_comm _ _ _, hm',
          hm.add hn', he'⟩

/-- The end of every link has a cell. -/
theorem mem_ids (h : Trees L m) (hl : l ∈ L) : l.2 ∈ m.map Prod.fst := by
  obtain ⟨K, rfl⟩ := Multiset.exists_cons_of_mem hl
  rw [← Multiset.singleton_add] at h
  obtain ⟨m', n', rfl, hm', -⟩ := h.split
  obtain ⟨c, n, rfl, -⟩ := hm'.shape.reparent
  simp

end Trees

end CliquePath
