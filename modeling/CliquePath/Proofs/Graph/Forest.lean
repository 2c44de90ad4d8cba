import CliquePath.Graph.Forest
import Mathlib.Logic.Relation
import Mathlib.Tactic

set_option autoImplicit false

/-!
# Classes of a descending forest

This module says what the operations on a forest do to the roots. Shortening a way changes none;
joining two classes gives all their members the smaller of the two roots. So after joining along a
list of pairs two numbers have one root exactly when a chain of pairs leads from one to the other.
-/

namespace CliquePath

namespace Forest

variable {f : Forest} {u v w x y target : Nat}

@[simp]
theorem root_parent (f : Forest) (v : Nat) : f.root (f.parent v) = f.root v := by
  conv_rhs => rw [root]
  split
  next h => rw [h, root, if_pos h]
  next => rfl

theorem root_of_parent (h : f.parent v = v) : f.root v = v := by
  rw [root, if_pos h]

@[simp]
theorem root_root (f : Forest) (v : Nat) : f.root (f.root v) = f.root v :=
  root_of_parent (f.parent_root v)

/-- The roots are determined by the parents. -/
theorem root_eq_of (ρ : Nat → Nat) (hparent : ∀ v, ρ (f.parent v) = ρ v)
    (hroot : ∀ v, f.parent v = v → ρ v = v) (v : Nat) : f.root v = ρ v := by
  fun_induction root f v with
  | case1 v h => exact (hroot v h).symm
  | case2 v h ih => rw [ih, hparent]

/-! ## Single operations -/

@[simp]
theorem size_point (h : target ≤ v) : (f.point v target h).parents.size = f.parents.size := by
  simp [point]

theorem parent_point (h : target ≤ v) (w : Nat) :
    (f.point v target h).parent w =
      if w = v ∧ v < f.parents.size then target else f.parent w := by
  simp only [parent, point, Array.getElem?_setIfInBounds]
  by_cases hwv : w = v
  · subst hwv
    by_cases hsize : w < f.parents.size <;> simp [hsize]
  · simp [hwv, Ne.symm hwv]

/-- Pointing a number at another one of its class changes no root. -/
theorem root_point_of_root_eq (hlt : target < v) (hroot : f.root target = f.root v) (w : Nat) :
    (f.point v target (Nat.le_of_lt hlt)).root w = f.root w := by
  refine root_eq_of f.root (fun w => ?_) (fun w hw => ?_) w
  · rw [parent_point]
    split
    next h => rw [hroot, h.1]
    next => exact f.root_parent w
  · rw [parent_point] at hw
    split at hw
    next h => omega
    next => exact root_of_parent hw

/-- Shortening a way changes no root. -/
theorem root_compress (f : Forest) (hroot : f.root target = f.root v) (w : Nat) :
    (f.compress v target).root w = f.root w := by
  fun_induction compress f v target with
  | case1 f v h ih =>
      have hpoint := root_point_of_root_eq (f := f) (Nat.lt_trans h.1 h.2) hroot
      rw [ih (by rw [hpoint, hpoint, hroot, root_parent]), hpoint]
  | case2 => rfl

@[simp]
theorem size_compress (f : Forest) (v target : Nat) :
    (f.compress v target).parents.size = f.parents.size := by
  fun_induction compress f v target with
  | case1 f v h ih => rw [ih, size_point]
  | case2 => rfl

/-- Pointing a root at a smaller one gives that root to its whole class. -/
theorem root_point_of_lt (hsize : v < f.parents.size) (hlt : target < v)
    (htarget : f.root target = target) (hv : f.root v = v) (w : Nat) :
    (f.point v target (Nat.le_of_lt hlt)).root w = if f.root w = v then target else f.root w := by
  refine root_eq_of (fun w => if f.root w = v then target else f.root w) (fun w => ?_)
    (fun w hw => ?_) w
  · rw [parent_point]
    by_cases hwv : w = v
    · subst hwv
      simp only [hsize, and_self, if_true, htarget, hv]
      rw [if_neg (Nat.ne_of_lt hlt)]
    · simp only [hwv, false_and, if_false, root_parent]
  · rw [parent_point] at hw
    split at hw
    next h => omega
    next h =>
      have hwv : w ≠ v := fun heq => h ⟨heq, hsize⟩
      simp [root_of_parent hw, hwv]

/-! ## Joining -/

/-- The forest in which the ways to both roots are shortened. -/
def shortened (f : Forest) (u v : Nat) : Forest :=
  (f.compress u (f.root u)).compress v ((f.compress u (f.root u)).root v)

@[simp]
theorem root_shortened (f : Forest) (u v w : Nat) : (f.shortened u v).root w = f.root w := by
  have hfirst : ∀ w, (f.compress u (f.root u)).root w = f.root w :=
    root_compress f (f.root_root u)
  rw [shortened, root_compress _ (by rw [root_root]), hfirst]

@[simp]
theorem size_shortened (f : Forest) (u v : Nat) :
    (f.shortened u v).parents.size = f.parents.size := by
  simp [shortened]

/-- The smaller of two roots becomes the parent of the other one. -/
theorem join_eq (f : Forest) (u v : Nat) : f.join u v =
    if h : f.root u < f.root v then (f.shortened u v).point (f.root v) (f.root u) (Nat.le_of_lt h)
    else if h : f.root v < f.root u then
      (f.shortened u v).point (f.root u) (f.root v) (Nat.le_of_lt h)
    else f.shortened u v := by
  have hsecond : (f.compress u (f.root u)).root v = f.root v := root_compress f (f.root_root u) v
  simp only [join, find, shortened, hsecond]

/-- Joining gives the members of both classes the smaller of their roots. -/
theorem root_join (hu : u < f.parents.size) (hv : v < f.parents.size) (w : Nat) :
    (f.join u v).root w =
      if f.root w = max (f.root u) (f.root v) then min (f.root u) (f.root v) else f.root w := by
  have hru := Nat.lt_of_le_of_lt (f.root_le_self u) hu
  have hrv := Nat.lt_of_le_of_lt (f.root_le_self v) hv
  rw [join_eq]
  rcases Nat.lt_trichotomy (f.root u) (f.root v) with hlt | heq | hlt
  · rw [dif_pos hlt, root_point_of_lt (by simpa using hrv) hlt (by simp)
      (by simp), root_shortened, Nat.max_eq_right (Nat.le_of_lt hlt),
      Nat.min_eq_left (Nat.le_of_lt hlt)]
  · rw [dif_neg (by omega), dif_neg (by omega), root_shortened, heq, Nat.max_self, Nat.min_self]
    split
    next h => exact h
    next => rfl
  · rw [dif_neg (Nat.lt_asymm hlt), dif_pos hlt, root_point_of_lt (by simpa using hru) hlt
      (by simp) (by simp), root_shortened, Nat.max_eq_left (Nat.le_of_lt hlt),
      Nat.min_eq_right (Nat.le_of_lt hlt)]

@[simp]
theorem size_join (f : Forest) (u v : Nat) : (f.join u v).parents.size = f.parents.size := by
  rw [join_eq]
  split_ifs <;> simp

/-- After joining two classes, numbers of either have one root. -/
theorem root_join_eq_iff (hu : u < f.parents.size) (hv : v < f.parents.size) :
    (f.join u v).root x = (f.join u v).root y ↔ f.root x = f.root y ∨
      (f.root x = f.root u ∧ f.root y = f.root v) ∨
        (f.root x = f.root v ∧ f.root y = f.root u) := by
  rw [root_join hu hv, root_join hu hv]
  split <;> split <;> omega

/-- Two numbers have one root after joining along a list of pairs exactly when a chain of pairs, and
of numbers that had one root before, leads from one to the other. -/
theorem root_joinAll_eq_iff (pairs : List (Nat × Nat))
    (hpairs : ∀ e ∈ pairs, e.1 < f.parents.size ∧ e.2 < f.parents.size) :
    (f.joinAll pairs).root x = (f.joinAll pairs).root y ↔
      Relation.EqvGen (fun a b => f.root a = f.root b ∨ (a, b) ∈ pairs) x y := by
  induction pairs generalizing f with
  | nil =>
      have hequiv : Equivalence fun a b => f.root a = f.root b ∨ (a, b) ∈ ([] : List (Nat × Nat)) := by
        simpa using (⟨fun _ => rfl, fun h => h.symm, fun h h' => h.trans h'⟩ :
          Equivalence fun a b => f.root a = f.root b)
      rw [hequiv.eqvGen_iff]
      simp [joinAll]
  | cons e rest ih =>
      obtain ⟨u, v⟩ := e
      obtain ⟨hu, hv⟩ := hpairs (u, v) List.mem_cons_self
      have hrest := ih (f := f.join u v) fun e he => by
        simpa using hpairs e (List.mem_cons_of_mem _ he)
      rw [joinAll, List.foldl_cons, ← joinAll, hrest]
      -- Each single link of one chain is a chain of the other kind.
      constructor
      · intro hxy
        refine Relation.EqvGen.eqvGen_le (fun a b hab => ?_) x y hxy
        have hold : ∀ {a b}, f.root a = f.root b → Relation.EqvGen
            (fun a b => f.root a = f.root b ∨ (a, b) ∈ (u, v) :: rest) a b :=
          fun h => .rel _ _ (Or.inl h)
        have hjoin : Relation.EqvGen
            (fun a b => f.root a = f.root b ∨ (a, b) ∈ (u, v) :: rest) u v :=
          .rel _ _ (Or.inr List.mem_cons_self)
        rcases hab with hab | hab
        · rcases (root_join_eq_iff hu hv).1 hab with h | ⟨ha, hb⟩ | ⟨ha, hb⟩
          · exact hold h
          · exact (hold ha).trans _ _ _ (hjoin.trans _ _ _ (hold hb.symm))
          · exact (hold ha).trans _ _ _ ((hjoin.symm _ _).trans _ _ _ (hold hb.symm))
        · exact .rel _ _ (Or.inr (List.mem_cons_of_mem _ hab))
      · intro hxy
        refine Relation.EqvGen.eqvGen_le (fun a b hab => .rel _ _ ?_) x y hxy
        rcases hab with hab | hab
        · exact Or.inl ((root_join_eq_iff hu hv).2 (Or.inl hab))
        · rcases List.mem_cons.1 hab with heq | hab
          · cases heq
            exact Or.inl ((root_join_eq_iff hu hv).2 (Or.inr (Or.inl ⟨rfl, rfl⟩)))
          · exact Or.inr hab

theorem size_roots (n : Nat) : (roots n).parents.size = n := by
  simp [roots]

theorem root_roots (n v : Nat) : (roots n).root v = v := by
  refine root_of_parent ?_
  simp only [parent, roots]
  by_cases hv : v < n
  · simp [hv]
  · simp [hv]

/-- The classes of a forest that was joined along a list of pairs. -/
theorem root_joinAll_roots_eq_iff {n : Nat} (pairs : List (Nat × Nat))
    (hpairs : ∀ e ∈ pairs, e.1 < n ∧ e.2 < n) :
    ((roots n).joinAll pairs).root x = ((roots n).joinAll pairs).root y ↔
      Relation.EqvGen (fun a b => (a, b) ∈ pairs) x y := by
  rw [root_joinAll_eq_iff pairs (by simpa [size_roots] using hpairs)]
  simp only [root_roots]
  constructor
  · intro hxy
    refine Relation.EqvGen.eqvGen_le (fun a b hab => ?_) x y hxy
    rcases hab with rfl | hab
    · exact .refl a
    · exact .rel _ _ hab
  · intro hxy
    exact Relation.EqvGen.eqvGen_le (fun a b hab => .rel _ _ (Or.inr hab)) x y hxy

end Forest

end CliquePath
