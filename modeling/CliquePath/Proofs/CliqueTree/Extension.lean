import CliquePath.Proofs.CliqueTree.Lifting

set_option autoImplicit false

/-!
# One more bag

This module says when a collection of bags arises from another one by a new vertex `u` whose
neighbours are `A`: some old bag contains `A`, and the new bag `A ∪ {u}` is added, in the place of
the bag `A` if there is one. The relation is kept when vertices are added to all bags and when
further bags stand beside.
-/

namespace CliquePath

/-- The new bags are the old ones with a bag for the new vertex `u`, whose neighbours are `A`. -/
structure Extends (old new : Set (Set Vertex)) (A : Set Vertex) (u : Vertex) : Prop where
  fits : ∃ B ∈ old, A ⊆ B
  kept : ∀ B ∈ old, B ∈ new ∨ B = A
  fresh : ∀ B ∈ new, B ∈ old ∨ B = insert u A
  added : insert u A ∈ new

namespace Extends

variable {old new rest : Set (Set Vertex)} {A D : Set Vertex} {u v w : Vertex}

/-- Vertices held above all bags. -/
theorem image (h : Extends old new A u) (D : Set Vertex) :
    Extends ((fun B => D ∪ B) '' old) ((fun B => D ∪ B) '' new) (D ∪ A) u where
  fits := by
    obtain ⟨B, hB, hAB⟩ := h.fits
    exact ⟨_, ⟨B, hB, rfl⟩, Set.union_subset_union_right D hAB⟩
  kept := by
    rintro - ⟨B, hB, rfl⟩
    rcases h.kept B hB with hn | rfl
    · exact Or.inl ⟨B, hn, rfl⟩
    · exact Or.inr rfl
  fresh := by
    rintro - ⟨B, hB, rfl⟩
    rcases h.fresh B hB with ho | rfl
    · exact Or.inl ⟨B, ho, rfl⟩
    · exact Or.inr Set.union_insert
  added := ⟨_, h.added, Set.union_insert⟩

/-- Further bags. -/
theorem union (h : Extends old new A u) (rest : Set (Set Vertex)) :
    Extends (old ∪ rest) (new ∪ rest) A u where
  fits := by
    obtain ⟨B, hB, hAB⟩ := h.fits
    exact ⟨B, Or.inl hB, hAB⟩
  kept := by
    rintro B (hB | hB)
    · exact (h.kept B hB).imp_left Or.inl
    · exact Or.inl (Or.inr hB)
  fresh := by
    rintro B (hB | hB)
    · exact (h.fresh B hB).imp_left Or.inl
    · exact Or.inl (Or.inr hB)
  added := Or.inl h.added

/-- A bag that is only added. -/
theorem of_added (hfits : ∃ B ∈ old, A ⊆ B) (h : ∀ B, B ∈ new ↔ B ∈ old ∨ B = insert u A) :
    Extends old new A u where
  fits := hfits
  kept B hB := Or.inl ((h B).2 (Or.inl hB))
  fresh B hB := (h B).1 hB
  added := (h _).2 (Or.inr rfl)

/-- Two old vertices share a bag after the change if they did before. -/
theorem share_iff (h : Extends old new A u) (hv : v ≠ u) (hw : w ≠ u) :
    (∃ B ∈ new, v ∈ B ∧ w ∈ B) ↔ ∃ B ∈ old, v ∈ B ∧ w ∈ B := by
  obtain ⟨C, hC, hAC⟩ := h.fits
  constructor
  · rintro ⟨B, hB, hvB, hwB⟩
    rcases h.fresh B hB with ho | rfl
    · exact ⟨B, ho, hvB, hwB⟩
    · exact ⟨C, hC, hAC (hvB.resolve_left hv), hAC (hwB.resolve_left hw)⟩
  · rintro ⟨B, hB, hvB, hwB⟩
    rcases h.kept B hB with hn | rfl
    · exact ⟨B, hn, hvB, hwB⟩
    · exact ⟨_, h.added, Or.inr hvB, Or.inr hwB⟩

/-- The new vertex shares a bag with its neighbours and no other old vertex. -/
theorem share_new_iff (h : Extends old new A u) (hu : ∀ B ∈ old, u ∉ B) (hv : v ≠ u) :
    (∃ B ∈ new, u ∈ B ∧ v ∈ B) ↔ v ∈ A := by
  constructor
  · rintro ⟨B, hB, huB, hvB⟩
    rcases h.fresh B hB with ho | rfl
    · exact absurd huB (hu B ho)
    · exact hvB.resolve_left hv
  · intro hvA
    exact ⟨_, h.added, Or.inl rfl, Or.inr hvA⟩

/-- The vertices of the new bags. -/
theorem covers_iff (h : Extends old new A u) :
    (∃ B ∈ new, v ∈ B) ↔ v = u ∨ ∃ B ∈ old, v ∈ B := by
  obtain ⟨C, hC, hAC⟩ := h.fits
  constructor
  · rintro ⟨B, hB, hvB⟩
    rcases h.fresh B hB with ho | rfl
    · exact Or.inr ⟨B, ho, hvB⟩
    · exact hvB.imp_right fun hvA => ⟨C, hC, hAC hvA⟩
  · rintro (rfl | ⟨B, hB, hvB⟩)
    · exact ⟨_, h.added, Or.inl rfl⟩
    · rcases h.kept B hB with hn | rfl
      · exact ⟨B, hn, hvB⟩
      · exact ⟨_, h.added, Or.inr hvB⟩

end Extends

end CliquePath
