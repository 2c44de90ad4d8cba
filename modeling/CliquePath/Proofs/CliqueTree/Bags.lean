import CliquePath.CliqueTree.Growth
import Mathlib.Data.List.TakeWhile
import Mathlib.Data.Set.Basic
import Mathlib.Tactic

set_option autoImplicit false

/-!
# The bags of a clique tree

This module reads the maximal cliques of a tree as a list of sets, the bags, from left to right. The
bags are what all later statements about a tree speak of; a node below a place adds the vertices
that the place holds to each bag.
-/

namespace CliquePath

/-! ## The sole entry -/

namespace Sole

variable {α : Type} {test : α → Bool} {entries : List α}

theorem find_eq_absent (h : find test entries = .absent) : ∀ x ∈ entries, test x = false := by
  unfold find at h
  split at h
  next hd =>
    intro x hx
    have := List.dropWhile_eq_nil_iff.1 hd x hx
    simpa using this
  next => split at h <;> cases h

theorem find_eq_one {before after : List α} {x : α} (h : find test entries = .one before x after) :
    test x = true ∧ ∀ y ∈ before ++ after, test y = false := by
  unfold find at h
  split at h
  next => cases h
  next y rest hd =>
    split at h
    next => cases h
    next hany =>
      cases h
      refine ⟨?_, List.forall_mem_append.2 ⟨?_, ?_⟩⟩
      · have := List.head?_dropWhile_not (fun x => !test x) entries
        rw [hd] at this
        simpa using this
      · intro z hz
        have := List.mem_takeWhile_imp hz
        simpa using this
      · intro z hz
        simpa using (List.any_eq_false.1 (by simpa using hany)) z hz

theorem find_eq_several (h : find test entries = .several) :
    ∃ before x mid y after, entries = before ++ x :: (mid ++ y :: after) ∧ test x = true ∧
      test y = true := by
  unfold find at h
  split at h
  next => cases h
  next x rest hd =>
    split at h
    next hany =>
      obtain ⟨y, hy, hty⟩ := List.any_eq_true.1 hany
      obtain ⟨mid, after, rfl⟩ := List.append_of_mem hy
      refine ⟨entries.takeWhile fun x => !test x, x, mid, y, after, ?_, ?_, hty⟩
      · rw [← hd]
        exact List.takeWhile_append_dropWhile.symm
      · have := List.head?_dropWhile_not (fun x => !test x) entries
        rw [hd] at this
        simpa using this
    next => cases h

end Sole

/-! ## One entry and the others -/

section Entries

variable {α : Type} {f : α → List Vertex} {entries left right : List α} {x y : α} {v : Vertex}

theorem mem_middle_iff : y ∈ left ++ x :: right ↔ y = x ∨ y ∈ left ++ right :=
  List.perm_middle.mem_iff.trans List.mem_cons

theorem forall_mem_middle {P : α → Prop} :
    (∀ y ∈ left ++ x :: right, P y) ↔ P x ∧ ∀ y ∈ left ++ right, P y := by
  simp only [mem_middle_iff, forall_eq_or_imp]

/-- One of several entries has no vertices in common with the others. -/
theorem disjoint_middle_iff :
    ((left ++ x :: right).Pairwise fun x y => ∀ v ∈ f x, v ∉ f y) ↔
      (∀ y ∈ left ++ right, ∀ v ∈ f x, v ∉ f y) ∧
        (left ++ right).Pairwise fun x y => ∀ v ∈ f x, v ∉ f y := by
  rw [List.pairwise_middle fun h v hy hx => h v hx hy, List.pairwise_cons]

/-- A vertex belongs to one of several entries only. -/
theorem eq_of_disjoint (h : entries.Pairwise fun x y => ∀ v ∈ f x, v ∉ f y) (hx : x ∈ entries)
    (hy : y ∈ entries) (hvx : v ∈ f x) (hvy : v ∈ f y) : x = y := by
  by_contra hne
  have : Std.Symm fun x y => ∀ v ∈ f x, v ∉ f y := ⟨fun x y hxy v hy hx => hxy v hx hy⟩
  exact h.forall hx hy hne v hvx hvy

end Entries

namespace Node

/-- The vertices of the cliques below a node, from left to right. -/
def bags : Node → List (Set Vertex)
  | .leaf held => [{v | v ∈ held}]
  | .pnode held children =>
      children.attach.flatMap fun ⟨c, _⟩ => c.bags.map ({v | v ∈ held} ∪ ·)
  | .qnode row =>
      row.toList.attach.flatMap fun ⟨s, _⟩ => s.son.bags.map ({v | v ∈ s.held} ∪ ·)
termination_by node => sizeOf node
decreasing_by
  · have := List.sizeOf_lt_of_mem ‹c ∈ children›
    simp_wf
    omega
  · have := Section.sizeOf_son_lt ‹s ∈ row.toList›
    simp_wf
    omega

/-- The bags of a node below a place. -/
def bagsUnder (held : List Vertex) (node : Node) : List (Set Vertex) :=
  node.bags.map ({v | v ∈ held} ∪ ·)

@[simp]
theorem bags_leaf (held : List Vertex) : (leaf held).bags = [{v | v ∈ held}] := by
  rw [bags]

theorem bags_pnode (held : List Vertex) (children : List Node) :
    (pnode held children).bags = children.flatMap (bagsUnder held) := by
  rw [bags]
  simp only [List.flatMap_subtype, List.unattach_attach]
  rfl

theorem bags_qnode (row : Row (Section Node)) :
    (qnode row).bags = row.toList.flatMap fun s => s.son.bagsUnder s.held := by
  rw [bags]
  simp only [List.flatMap_subtype, List.unattach_attach]
  rfl

theorem mem_bagsUnder {held : List Vertex} {node : Node} {B : Set Vertex} :
    B ∈ node.bagsUnder held ↔ ∃ C ∈ node.bags, {v | v ∈ held} ∪ C = B := by
  simp [bagsUnder]

/-- The bag of a new vertex below a place. -/
theorem mem_bagsUnder_new {held : List Vertex} {u : Vertex} {B : Set Vertex} :
    B ∈ (leaf [u]).bagsUnder held ↔ B = insert u {v | v ∈ held} := by
  simp only [mem_bagsUnder, bags_leaf, List.mem_singleton, exists_eq_left]
  rw [show {v | v = u} = ({u} : Set Vertex) from rfl, Set.union_singleton, eq_comm]

end Node

end CliquePath
