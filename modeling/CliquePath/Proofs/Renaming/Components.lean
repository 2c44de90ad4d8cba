import CliquePath.Proofs.AsteroidalTriple
import CliquePath.Proofs.Renaming.Search

set_option autoImplicit false

/-!
# Components and asteroidal triples of a renamed graph

This module shows that two graphs whose edges correspond have corresponding components. A component
is found at its least member, and an increasing renaming keeps the least one, so the components
correspond with their order. Being joined around a vertex corresponds too, so the search for an
asteroidal triple passes the same test at every step.
-/

namespace CliquePath

variable {ι : Vertex → Vertex} {c g : Graph}

/-! ## Components -/

namespace Graph.Embeds

variable {v w y : Vertex} (h : Embeds ι c g)

include h

theorem reaches_image (hvw : c.Reaches v w) : g.Reaches (ι v) (ι w) :=
  hvw.lift ι fun a b hab => (h.linked_iff a b).2 hab

/-- A path that starts at a renamed vertex is the image of a path. -/
theorem reaches_preimage (hg : g.Consistent) (hvy : g.Reaches (ι v) y) :
    ∃ w, y = ι w ∧ c.Reaches v w := by
  induction hvy with
  | refl => exact ⟨v, rfl, .refl⟩
  | @tail x y _ hxy ih =>
      obtain ⟨a, rfl, hva⟩ := ih
      have hy := (hg.mem_vertices_of_linked hxy).2
      rw [h.vertices] at hy
      obtain ⟨b, -, rfl⟩ := List.mem_map.1 hy
      exact ⟨b, rfl, hva.tail ((h.linked_iff a b).1 hxy)⟩

/-- The least vertex that a path leads to is renamed with the others. -/
theorem anchor (hc : c.Consistent) (hg : g.Consistent) (v : Vertex) :
    g.anchor (ι v) = ι (c.anchor v) := by
  apply Nat.le_antisymm
  · exact hg.anchor_le (h.reaches_image (hc.reaches_anchor v))
  · obtain ⟨w, hw, hvw⟩ := h.reaches_preimage hg (hg.reaches_anchor (ι v))
    rw [hw]
    exact h.mono.monotone (hc.anchor_le hvw)

/-- Two graphs that correspond have corresponding components. -/
theorem components (hc : c.Consistent) (hg : g.Consistent) :
    g.components = c.components.map (List.map ι) := by
  simp only [components_eq, h.vertices, List.filter_map, List.map_map, Function.comp_def,
    h.anchor hc hg, beq_map h.mono.injective]

end Graph.Embeds

namespace Graph.Carries

variable (h : Carries ι c g)

include h

theorem components (hc : c.Consistent) (hg : g.Consistent) :
    g.components = c.components.map (List.map ι) :=
  h.embeds.components hc hg

/-! ## Asteroidal triples -/

theorem around_iff (p q r : Vertex) : Around g.vertices g.Linked (ι p) (ι q) (ι r) ↔
    Around c.vertices c.Linked p q r := by
  have hclear : ∀ v, (ι v ∈ g.vertices ∧ ι v ≠ ι p ∧ ¬ g.Linked (ι p) (ι v)) ↔
      v ∈ c.vertices ∧ v ≠ p ∧ ¬ c.Linked p v := by
    intro v
    rw [h.linked_iff, h.vertices, List.mem_map_of_injective h.injective, h.injective.ne_iff]
  constructor
  · intro hj
    have hq := (hclear q).1 hj.left
    -- every vertex on the way is the image of one, since it is a vertex of the graph
    have himage : ∃ x, ι r = ι x ∧ Around c.vertices c.Linked p q x := by
      refine hj.induct (Q := fun y => ∃ x, y = ι x ∧ Around c.vertices c.Linked p q x)
        ⟨q, rfl, Joined.refl hq⟩ ?_
      rintro _ z hyz hy hz ⟨x, rfl, hqx⟩
      obtain ⟨w, -, rfl⟩ := List.mem_map.1 (h.vertices ▸ hz.1)
      exact ⟨w, rfl, hqx.trans
        (Joined.step ((h.linked_iff x w).1 hyz) hqx.right ((hclear w).1 hz))⟩
    obtain ⟨x, hx, hqx⟩ := himage
    exact h.injective hx ▸ hqx
  · intro hj
    refine ⟨(hclear q).2 hj.left, (hclear r).2 hj.right, ?_⟩
    exact hj.steps.lift ι fun v w hvw =>
      ⟨(h.linked_iff v w).2 hvw.1, (hclear v).2 hvw.2.1, (hclear w).2 hvw.2.2⟩

theorem testAsteroidal (x y z : Vertex) :
    g.testAsteroidal (ι x) (ι y) (ι z) = c.testAsteroidal x y z := by
  rw [Bool.eq_iff_iff, testAsteroidal_iff, testAsteroidal_iff]
  constructor
  · intro hast
    exact ⟨(h.around_iff x y z).1 hast.first, (h.around_iff y x z).1 hast.second,
      (h.around_iff z x y).1 hast.third⟩
  · intro hast
    exact ⟨(h.around_iff x y z).2 hast.first, (h.around_iff y x z).2 hast.second,
      (h.around_iff z x y).2 hast.third⟩

end Graph.Carries

/-- The triple and the paths of the renamed vertices. -/
def AsteroidalTriple.rename (ι : Vertex → Vertex) (t : AsteroidalTriple) : AsteroidalTriple :=
  ⟨ι t.first, ι t.second, ι t.third, t.paths.map (List.map ι)⟩

namespace Graph.Carries

variable (h : Carries ι c g)

include h

theorem tripleAt? (x : Vertex) :
    g.tripleAt? (ι x) = (c.tripleAt? x).map fun t => (ι t.1, ι t.2.1, ι t.2.2) := by
  have hthrough : firstPair? (g.testAsteroidal (ι x)) g.vertices =
      (firstPair? (c.testAsteroidal x) c.vertices).map (Prod.map ι ι) := by
    rw [h.vertices]
    exact firstPair?_map fun a _ b _ => h.testAsteroidal x a b
  have hanywhere : firstTriple? g.testAsteroidal g.vertices =
      (firstTriple? c.testAsteroidal c.vertices).map fun t => (ι t.1, ι t.2.1, ι t.2.2) := by
    rw [h.vertices]
    exact firstTriple?_map fun a _ b _ d _ => h.testAsteroidal a b d
  -- a vertex that is in no triple makes the search start anywhere
  rw [Graph.tripleAt?, hthrough, hanywhere, Graph.tripleAt?]
  cases firstPair? (c.testAsteroidal x) c.vertices <;> rfl

theorem triplePaths (x y z : Vertex) : SameAnswer (List.map (List.map ι))
    (c.triplePaths x y z) (g.triplePaths (ι x) (ι y) (ι z)) := by
  have hpath : ∀ a b d, SameAnswer (List.map ι) (Detour.path c ⟨a, b, d⟩)
      (Detour.path g ⟨ι a, ι b, ι d⟩) := fun a b d => Detour.path_rename h ⟨a, b, d⟩
  unfold Graph.triplePaths
  rcases (hpath z x y).cases with ⟨xy, hc, hg⟩ | ⟨d, e, hc, hg⟩
  · rcases (hpath x y z).cases with ⟨yz, hc', hg'⟩ | ⟨d, e, hc', hg'⟩
    · rcases (hpath y z x).cases with ⟨zx, hc'', hg''⟩ | ⟨d, e, hc'', hg''⟩
      · rw [hc, hg, hc', hg', hc'', hg'']
        exact .ok [xy, yz, zx]
      · rw [hc, hg, hc', hg', hc'', hg'']
        exact .error d e
    · rw [hc, hg, hc', hg']
      exact .error d e
  · rw [hc, hg]
    exact .error d e

/-- The search for an asteroidal triple at corresponding vertices gives corresponding triples. -/
theorem asteroidalTriple (hc : c.Consistent) (hg : g.Consistent) (x : Vertex) (givePaths : Bool) :
    SameAnswer (AsteroidalTriple.rename ι) (c.asteroidalTriple x givePaths)
      (g.asteroidalTriple (ι x) givePaths) := by
  rw [hc.asteroidalTriple_eq, hg.asteroidalTriple_eq, h.tripleAt?]
  cases c.tripleAt? x with
  | none => exact .error _ _
  | some t =>
      obtain ⟨first, second, third⟩ := t
      dsimp only [Option.map_some]
      split
      · rcases (h.triplePaths first second third).cases with ⟨paths, hc, hg⟩ | ⟨d, e, hc, hg⟩
        · rw [hc, hg]
          exact .ok (AsteroidalTriple.mk first second third paths)
        · rw [hc, hg]
          exact .error d e
      · exact .ok (AsteroidalTriple.mk first second third [])

end Graph.Carries

end CliquePath
