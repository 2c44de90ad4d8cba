import CliquePath.Failure
import Mathlib.Logic.Relation
import Mathlib.Tactic

set_option autoImplicit false

/-!
# Joined within a part

Two vertices are joined within a part when steps of a relation lead from one to the other and all
vertices on the way, the two included, belong to the part. With adjacency as the relation this is
connectedness in an induced subgraph; the vertices that avoid the closed neighbourhood of a third
one are the part that matters most.
-/

namespace CliquePath

open Relation

/-- Steps of `R` lead from `a` to `b` through vertices of `P` only, `a` and `b` included. -/
structure Joined (R : Vertex → Vertex → Prop) (P : Vertex → Prop) (a b : Vertex) : Prop where
  left : P a
  right : P b
  steps : ReflTransGen (fun v w => R v w ∧ P v ∧ P w) a b

namespace Joined

variable {R R' : Vertex → Vertex → Prop} {P P' : Vertex → Prop} {a b c : Vertex}

theorem refl (ha : P a) : Joined R P a a := ⟨ha, ha, .refl⟩

theorem step (hab : R a b) (ha : P a) (hb : P b) : Joined R P a b :=
  ⟨ha, hb, .single ⟨hab, ha, hb⟩⟩

theorem trans (h : Joined R P a b) (h' : Joined R P b c) : Joined R P a c :=
  ⟨h.left, h'.right, h.steps.trans h'.steps⟩

theorem symm (hR : ∀ v w, v ≠ w → R v w → P v → P w → R w v) (h : Joined R P a b) :
    Joined R P b a := by
  refine ⟨h.right, h.left, ?_⟩
  induction h.steps with
  | refl => exact .refl
  | @tail v w hav hvw ih =>
      have hback : R w v := by
        by_cases heq : v = w
        · exact heq ▸ hvw.1
        · exact hR v w heq hvw.1 hvw.2.1 hvw.2.2
      exact .head ⟨hback, hvw.2.2, hvw.2.1⟩ (ih ⟨h.left, hvw.2.1, hav⟩)

/-- A property that the steps keep holds at the end if it holds at the start. -/
theorem induct {Q : Vertex → Prop} (h : Joined R P a b) (ha : Q a)
    (hstep : ∀ v w, R v w → P v → P w → Q v → Q w) : Q b := by
  induction h.steps with
  | refl => exact ha
  | tail _ hvw ih => exact hstep _ _ hvw.1 hvw.2.1 hvw.2.2 (ih ⟨h.left, hvw.2.1, ‹_›⟩)

/-- On the way from a vertex with a property to one without it, a step leaves the property. -/
theorem exists_step {Q : Vertex → Prop} (h : Joined R P a b) (ha : Q a) (hb : ¬ Q b) :
    ∃ v w, Joined R P a v ∧ R v w ∧ P w ∧ Q v ∧ ¬ Q w := by
  induction h.steps with
  | refl => exact absurd ha hb
  | @tail v w hav hvw ih =>
      have hj : Joined R P a v := ⟨h.left, hvw.2.1, hav⟩
      by_cases hv : Q v
      · exact ⟨v, w, hj, hvw.1, hvw.2.2, hv, hb⟩
      · exact ih hj hv

/-- Steps within a part that stay in a smaller one. A step from a vertex to itself may be left
out. -/
theorem restrict {Q : Vertex → Prop} (h : Joined R P a b) (ha : Q a)
    (hstep : ∀ v w, R v w → P v → P w → Q v → Q w)
    (hR : ∀ v w, v ≠ w → R v w → P v → P w → Q v → Q w → R' v w) (hP : ∀ v, P v → Q v → P' v) :
    Joined R' P' a b := by
  induction h.steps with
  | refl => exact refl (hP a h.left ha)
  | @tail v w hav hvw ih =>
      have hj : Joined R P a v := ⟨h.left, hvw.2.1, hav⟩
      have hv : Q v := hj.induct ha hstep
      have hw : Q w := hstep v w hvw.1 hvw.2.1 hvw.2.2 hv
      by_cases heq : v = w
      · exact heq ▸ ih hj
      · exact (ih hj).trans (step (hR v w heq hvw.1 hvw.2.1 hvw.2.2 hv hw) (hP v hvw.2.1 hv)
          (hP w hvw.2.2 hw))

theorem mono (hR : ∀ v w, v ≠ w → R v w → P v → P w → R' v w) (hP : ∀ v, P v → P' v)
    (h : Joined R P a b) : Joined R' P' a b :=
  h.restrict (Q := fun _ => True) trivial (fun _ _ _ _ _ _ => trivial)
    (fun v w hne hvw hv hw _ _ => hR v w hne hvw hv hw) fun v hv _ => hP v hv

end Joined

end CliquePath
