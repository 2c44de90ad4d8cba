import CliquePath.Proofs.Graph.Anchors

set_option autoImplicit false

/-!
# Collecting numbers by their roots

This module follows the collection of ascending numbers by the ends of their ways. After some
numbers every root among them has a place, and the list at this place has the numbers of its class
(`Collected`). A root begins a list. A number that is no root comes after its root, which is lower,
so it finds the place taken.
-/

namespace CliquePath

variable {f : Forest} {vs : List Vertex} {c : Collection} {v : Vertex}

/-- A list that ends in `x` has `x` at its last place and keeps its other places. -/
theorem getElem?_concat_eq_some_iff {xs : List Nat} {x y i : Nat} :
    (xs ++ [x])[i]? = some y ↔ xs[i]? = some y ∨ i = xs.length ∧ x = y := by
  rcases Nat.lt_trichotomy i xs.length with hi | rfl | hi
  · rw [List.getElem?_append_left hi]
    simp [Nat.ne_of_lt hi]
  · simp
  · rw [List.getElem?_eq_none (by simpa using hi), List.getElem?_eq_none (Nat.le_of_lt hi)]
    simp [Nat.ne_of_gt hi]

/-! ## Classes among some numbers -/

namespace Forest

/-- The roots among some numbers. -/
def rootsOf (f : Forest) (vs : List Nat) : List Nat := vs.filter fun v => f.root v == v

/-- The members of a class among some numbers. -/
def classOf (f : Forest) (vs : List Nat) (root : Nat) : List Nat :=
  vs.filter fun v => f.root v == root

/-- The classes of the roots among some numbers. -/
def classes (f : Forest) (vs : List Nat) : List (List Nat) := (f.rootsOf vs).map (f.classOf vs)

theorem mem_rootsOf {r : Nat} : r ∈ f.rootsOf vs ↔ r ∈ vs ∧ f.root r = r := by
  rw [rootsOf, List.mem_filter, beq_iff_eq]

theorem rootsOf_concat (f : Forest) (vs : List Nat) (v : Nat) :
    f.rootsOf (vs ++ [v]) = if f.root v = v then f.rootsOf vs ++ [v] else f.rootsOf vs := by
  rw [rootsOf, List.filter_append]
  split
  next h => simp [h, rootsOf]
  next h => simp [h, rootsOf]

theorem classOf_concat (f : Forest) (vs : List Nat) (v r : Nat) :
    f.classOf (vs ++ [v]) r = if f.root v = r then f.classOf vs r ++ [v] else f.classOf vs r := by
  rw [classOf, List.filter_append]
  split
  next h => simp [h, classOf]
  next h => simp [h, classOf]

/-- A root above all numbers so far begins a class of its own. -/
theorem classes_concat_of_root (hlow : ∀ x ∈ vs, x < v) (hroot : f.root v = v) :
    f.classes (vs ++ [v]) = f.classes vs ++ [[v]] := by
  have hnone : f.classOf vs v = [] := by
    refine List.filter_eq_nil_iff.2 fun x hx => ?_
    have hlt : f.root x < v := Nat.lt_of_le_of_lt (f.root_le_self x) (hlow x hx)
    simpa using Nat.ne_of_lt hlt
  have hold : ∀ r ∈ f.rootsOf vs, f.classOf (vs ++ [v]) r = f.classOf vs r := by
    intro r hr
    have hne : f.root v ≠ r := by
      rw [hroot]
      exact Nat.ne_of_gt (hlow r (mem_rootsOf.1 hr).1)
    rw [classOf_concat, if_neg hne]
  rw [classes, rootsOf_concat, if_pos hroot, List.map_append, List.map_congr_left hold]
  simp [classOf_concat, hroot, hnone, classes]

/-- A number that is no root comes last in the class of its root. -/
theorem classes_concat_of_not_root {i : Nat} (hvs : vs.Nodup) (hroot : f.root v ≠ v)
    (hi : (f.rootsOf vs)[i]? = some (f.root v)) :
    f.classes (vs ++ [v]) = (f.classes vs).set i (f.classOf vs (f.root v) ++ [v]) := by
  have hnodup : (f.rootsOf vs).Nodup := hvs.filter _
  obtain ⟨hlt, hget⟩ := List.getElem?_eq_some_iff.1 hi
  rw [classes, rootsOf_concat, if_neg hroot, classes]
  refine List.ext_getElem (by simp) fun j hj _ => ?_
  rw [List.length_map] at hj
  rw [List.getElem_map, List.getElem_set, classOf_concat]
  by_cases hij : i = j
  · subst hij
    rw [if_pos rfl, hget, if_pos rfl]
  · have hne : f.root v ≠ (f.rootsOf vs)[j] := by
      rw [← hget]
      exact fun heq => hij ((hnodup.getElem_inj_iff).1 heq)
    rw [if_neg hij, if_neg hne, List.getElem_map]

end Forest

/-! ## The collection of the vertices -/

namespace Collection

variable {anchors : Anchors} {root : Nat}

theorem add?_of_free (hfind : c.anchors.find? v = some (root, anchors))
    (hplace : c.places[root]? = some none) :
    c.add? v = some { anchors, places := c.places.setIfInBounds root (some c.lists.length),
                      lists := c.lists ++ [[v]] } := by
  simp only [add?, hfind, hplace, Option.bind_eq_bind, Option.bind_some]
  rfl

theorem add?_of_taken {i : Nat} {members : List Vertex}
    (hfind : c.anchors.find? v = some (root, anchors)) (hplace : c.places[root]? = some (some i))
    (hlist : c.lists[i]? = some members) :
    c.add? v = some { c with anchors, lists := c.lists.set i (members ++ [v]) } := by
  simp only [add?, hfind, hplace, hlist, Option.bind_eq_bind, Option.bind_some]
  rfl

end Collection

/-- What was collected of some vertices by the classes of a forest. -/
structure Collected (f : Forest) (vs : List Vertex) (c : Collection) : Prop where
  /-- The ways may have become shorter, but they end where they ended. -/
  anchors : ∃ h : Forest, h.parents = c.anchors ∧ h.parents.size = f.parents.size ∧
    ∀ v, h.root v = f.root v
  size : c.places.size = f.parents.size
  places : ∀ r i : Nat, c.places[r]? = some (some i) ↔ (f.rootsOf vs)[i]? = some r
  lists : c.lists = f.classes vs

namespace Collected

theorem start (f : Forest) : Collected f [] (.start f.parents f.parents.size) := by
  refine ⟨⟨f, rfl, rfl, fun _ => rfl⟩, by simp [Collection.start], fun r i => ?_, rfl⟩
  simp [Collection.start, Forest.rootsOf, Array.getElem?_replicate]

variable (h : Collected f vs c)

include h

theorem length_lists : c.lists.length = (f.rootsOf vs).length := by
  rw [h.lists, Forest.classes, List.length_map]

/-- Looking up a vertex tells its root and keeps all roots. -/
theorem find? (hv : v < f.parents.size) : ∃ k : Forest,
    c.anchors.find? v = some (f.root v, k.parents) ∧ k.parents.size = f.parents.size ∧
      ∀ x, k.root x = f.root x := by
  obtain ⟨k, hparents, hsize, hroots⟩ := h.anchors
  refine ⟨(k.find v).2, ?_, (Forest.size_compress k v _).trans hsize, fun x => ?_⟩
  · rw [← hparents, Anchors.find?_parents (hsize ▸ hv), ← hroots v]
    rfl
  · exact (Forest.root_compress k (k.root_root v) x).trans (hroots x)

/-- A number above those collected has no place. -/
theorem place_free (hv : v < f.parents.size) (hlow : ∀ x ∈ vs, x < v) :
    c.places[v]? = some none := by
  cases hplace : c.places[v]? with
  | none =>
      have hsize := Array.getElem?_eq_none_iff.1 hplace
      rw [h.size] at hsize
      exact absurd hv (Nat.not_lt_of_le hsize)
  | some place =>
      cases place with
      | none => rfl
      | some i =>
          have hmem := List.mem_of_getElem? ((h.places v i).1 hplace)
          exact absurd (hlow v (Forest.mem_rootsOf.1 hmem).1) (Nat.lt_irrefl v)

/-- A root begins a list. -/
theorem add?_of_root (hv : v < f.parents.size) (hlow : ∀ x ∈ vs, x < v) (hroot : f.root v = v) :
    ∃ d, c.add? v = some d ∧ Collected f (vs ++ [v]) d := by
  obtain ⟨k, hfind, hsize, hroots⟩ := h.find? hv
  rw [hroot] at hfind
  refine ⟨_, Collection.add?_of_free hfind (h.place_free hv hlow), ⟨k, rfl, hsize, hroots⟩, ?_, ?_, ?_⟩
  · rw [Array.size_setIfInBounds, h.size]
  · intro r i
    have hnew : ∀ j, (f.rootsOf vs)[j]? ≠ some v := fun j hj =>
      Nat.lt_irrefl v (hlow v (Forest.mem_rootsOf.1 (List.mem_of_getElem? hj)).1)
    rw [Forest.rootsOf_concat, if_pos hroot, getElem?_concat_eq_some_iff,
      Array.getElem?_setIfInBounds, h.size, h.length_lists]
    by_cases hr : v = r
    · subst hr
      simp [hv, hnew, eq_comm]
    · simp [hr, h.places]
  · rw [h.lists, Forest.classes_concat_of_root hlow hroot]

/-- A vertex that is no root goes to the list of its root. -/
theorem add?_of_not_root (hv : v < f.parents.size) (hvs : vs.Nodup) (hroot : f.root v ≠ v)
    (hmem : f.root v ∈ vs) : ∃ d, c.add? v = some d ∧ Collected f (vs ++ [v]) d := by
  obtain ⟨k, hfind, hsize, hroots⟩ := h.find? hv
  obtain ⟨i, hi⟩ : ∃ i, (f.rootsOf vs)[i]? = some (f.root v) :=
    List.mem_iff_getElem?.1 (Forest.mem_rootsOf.2 ⟨hmem, f.root_root v⟩)
  have hlist : c.lists[i]? = some (f.classOf vs (f.root v)) := by
    rw [h.lists, Forest.classes, List.getElem?_map, hi]
    rfl
  refine ⟨_, Collection.add?_of_taken hfind ((h.places _ _).2 hi) hlist,
    ⟨k, rfl, hsize, hroots⟩, h.size, fun r j => ?_, ?_⟩
  · rw [Forest.rootsOf_concat, if_neg hroot]
    exact h.places r j
  · rw [Forest.classes_concat_of_not_root hvs hroot hi, ← h.lists]

end Collected

end CliquePath
