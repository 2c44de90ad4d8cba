import CliquePath.Proofs.CliqueTree.Proper
import CliquePath.Proofs.Joined

set_option autoImplicit false

/-!
# Forks

This module says what stands against a new vertex with given neighbours: two vertices `l` and `r`
that are no neighbours, each reached from a neighbour around the closed neighbourhood of the other.
If `l` and `r` are joined without neighbours as well, the new vertex completes an asteroidal triple.
Vertices count as adjacent when they share a bag. Both facts pass from a part of the tree to the
whole.
-/

namespace CliquePath

/-- Two vertices are in one bag. -/
def Shares (bags : Set (Set Vertex)) (v w : Vertex) : Prop := ∃ B ∈ bags, v ∈ B ∧ w ∈ B

theorem Shares.symm {bags : Set (Set Vertex)} {v w : Vertex} (h : Shares bags v w) :
    Shares bags w v := by
  obtain ⟨B, hB, hv, hw⟩ := h
  exact ⟨B, hB, hw, hv⟩

/-- The neighbours reach `l` around `r` and `r` around `l`. -/
structure Forked (bags : Set (Set Vertex)) (nbrs : List Vertex) (l r : Vertex) : Prop where
  left : l ∉ nbrs
  right : r ∉ nbrs
  toLeft : ∃ a ∈ nbrs, Joined (Shares bags) (fun v => ¬ Shares bags v r) a l
  toRight : ∃ a ∈ nbrs, Joined (Shares bags) (fun v => ¬ Shares bags v l) a r

/-- Two vertices are joined around the neighbours. -/
def Detached (bags : Set (Set Vertex)) (nbrs : List Vertex) (l r : Vertex) : Prop :=
  Joined (Shares bags) (fun v => v ∉ nbrs) l r

/-- Some bags lie within others, without two of their vertices sharing a bag only there. -/
structure Within (bags above : Set (Set Vertex)) : Prop where
  covers : ∀ B ∈ bags, ∃ C ∈ above, B ⊆ C
  shares : ∀ v w, (∃ B ∈ bags, v ∈ B) → (∃ B ∈ bags, w ∈ B) → Shares above v w → Shares bags v w

namespace Within

variable {bags above : Set (Set Vertex)} {nbrs : List Vertex} {P : Vertex → Prop} {v w l r : Vertex}

theorem lift_shares (h : Within bags above) (hs : Shares bags v w) : Shares above v w := by
  obtain ⟨B, hB, hv, hw⟩ := hs
  obtain ⟨C, hC, hBC⟩ := h.covers B hB
  exact ⟨C, hC, hBC hv, hBC hw⟩

theorem lift_detached (h : Within bags above) (hd : Detached bags nbrs l r) :
    Detached above nbrs l r :=
  hd.mono (fun _ _ _ hs _ _ => h.lift_shares hs) fun _ hv => hv

/-- A vertex joined to another one, which is not the same, is in a bag. -/
theorem mem_of_joined (hj : Joined (Shares bags) P v w) (hne : v ≠ w) :
    (∃ B ∈ bags, v ∈ B) ∧ ∃ B ∈ bags, w ∈ B := by
  constructor
  · rcases Relation.ReflTransGen.cases_head hj.steps with rfl | ⟨x, ⟨hs, -⟩, -⟩
    · exact absurd rfl hne
    · obtain ⟨B, hB, hv, -⟩ := hs
      exact ⟨B, hB, hv⟩
  · rcases Relation.ReflTransGen.cases_tail hj.steps with rfl | ⟨x, -, hs, -⟩
    · exact absurd rfl hne
    · obtain ⟨B, hB, -, hw⟩ := hs
      exact ⟨B, hB, hw⟩

theorem lift_around {x : Vertex} (h : Within bags above) (hx : ∃ B ∈ bags, x ∈ B)
    (hv : ∃ B ∈ bags, v ∈ B) (hj : Joined (Shares bags) (fun y => ¬ Shares bags y x) v w) :
    Joined (Shares above) (fun y => ¬ Shares above y x) v w := by
  refine hj.restrict (Q := fun y => ∃ B ∈ bags, y ∈ B) hv ?_ ?_ ?_
  · rintro a b ⟨B, hB, -, hb⟩ - - -
    exact ⟨B, hB, hb⟩
  · intro a b _ hs _ _ _ _
    exact h.lift_shares hs
  · intro y hy hym hs
    exact hy (h.shares y x hym hx hs)

theorem lift_forked (h : Within bags above) (hf : Forked bags nbrs l r) :
    Forked above nbrs l r := by
  obtain ⟨a, ha, hal⟩ := hf.toLeft
  obtain ⟨b, hb, hbr⟩ := hf.toRight
  obtain ⟨hab, hlb⟩ := mem_of_joined hal fun heq => hf.left (heq ▸ ha)
  obtain ⟨hbb, hrb⟩ := mem_of_joined hbr fun heq => hf.right (heq ▸ hb)
  exact ⟨hf.left, hf.right, ⟨a, ha, h.lift_around hrb hab hal⟩, b, hb, h.lift_around hlb hbb hbr⟩

end Within

/-- The ends of a fork are in bags. -/
theorem Forked.mem {bags : Set (Set Vertex)} {nbrs : List Vertex} {l r : Vertex}
    (h : Forked bags nbrs l r) : (∃ B ∈ bags, l ∈ B) ∧ ∃ B ∈ bags, r ∈ B := by
  obtain ⟨a, ha, hal⟩ := h.toLeft
  obtain ⟨b, hb, hbr⟩ := h.toRight
  exact ⟨(Within.mem_of_joined hal fun heq => h.left (heq ▸ ha)).2,
    (Within.mem_of_joined hbr fun heq => h.right (heq ▸ hb)).2⟩

/-- A vertex above all bags that is not a neighbour joins the ends of a fork. -/
theorem Forked.detached_of_above {bags above : Set (Set Vertex)} {nbrs : List Vertex}
    {l r x : Vertex} (h : Forked bags nbrs l r) (hx : x ∉ nbrs)
    (habove : ∀ v, (∃ B ∈ bags, v ∈ B) → Shares above v x) : Detached above nbrs l r := by
  obtain ⟨hl, hr⟩ := h.mem
  exact (Joined.step (habove l hl) h.left hx).trans (Joined.step (habove r hr).symm hx h.right)

/-! ## Parts of a tree -/

namespace Node

variable {held : List Vertex} {children : List Node} {c : Node}

theorem exists_bags_iff {N : Node} (h : N.Proper) {v : Vertex} :
    (∃ B ∈ {B | B ∈ N.bags}, v ∈ B) ↔ v ∈ N.vertices :=
  h.mem_vertices.symm

/-- The bags of a child of a P-node. -/
theorem Proper.within_child (h : (Node.pnode held children).Proper) (hc : c ∈ children) :
    Within {B | B ∈ c.bags} {B | B ∈ (Node.pnode held children).bags} := by
  cases h with
  | pnode nodup apart sons firm arity proper =>
      refine ⟨fun B hB => ?_, fun v w hv hw hs => ?_⟩
      · refine ⟨{v | v ∈ held} ∪ B, ?_, Set.subset_union_right⟩
        rw [Set.mem_ofPred_eq, bags_pnode, List.mem_flatMap]
        exact ⟨c, hc, mem_bagsUnder.2 ⟨B, hB, rfl⟩⟩
      · rw [exists_bags_iff (proper c hc)] at hv hw
        obtain ⟨B, hB, hvB, hwB⟩ := hs
        rw [Set.mem_ofPred_eq, bags_pnode, List.mem_flatMap] at hB
        obtain ⟨d, hd, hB⟩ := hB
        obtain ⟨C, hC, rfl⟩ := mem_bagsUnder.1 hB
        have hvC : v ∈ C := hvB.resolve_left fun h => apart c hc v h hv
        have hwC : w ∈ C := hwB.resolve_left fun h => apart c hc w h hw
        obtain rfl : d = c :=
          eq_of_disjoint sons hd hc ((proper d hd).mem_vertices.2 ⟨C, hC, hvC⟩) hv
        exact ⟨C, hC, hvC, hwC⟩

/-- The bags below a section of a Q-node. -/
theorem Proper.within_section {row : Row (Section Node)} {s : Section Node}
    (h : (Node.qnode row).Proper) (hs : s ∈ row.toList) :
    Within {B | B ∈ s.son.bags} {B | B ∈ (Node.qnode row).bags} := by
  cases h with
  | qnode standing proper =>
      refine ⟨fun B hB => ?_, fun v w hv hw hshare => ?_⟩
      · refine ⟨{v | v ∈ s.held} ∪ B, ?_, Set.subset_union_right⟩
        rw [Set.mem_ofPred_eq, bags_qnode, List.mem_flatMap]
        exact ⟨s, hs, mem_bagsUnder.2 ⟨B, hB, rfl⟩⟩
      · rw [exists_bags_iff (proper s hs)] at hv hw
        obtain ⟨B, hB, hvB, hwB⟩ := hshare
        rw [Set.mem_ofPred_eq, bags_qnode, List.mem_flatMap] at hB
        obtain ⟨t, ht, hB⟩ := hB
        obtain ⟨C, hC, rfl⟩ := mem_bagsUnder.1 hB
        have hvC : v ∈ C := hvB.resolve_left fun h => standing.apart.held t ht s hs v h hv
        have hwC : w ∈ C := hwB.resolve_left fun h => standing.apart.held t ht s hs w h hw
        obtain rfl : t = s := eq_of_disjoint standing.apart.sons ht hs
          ((proper t ht).mem_vertices.2 ⟨C, hC, hvC⟩) hv
        exact ⟨C, hC, hvC, hwC⟩

end Node

end CliquePath
