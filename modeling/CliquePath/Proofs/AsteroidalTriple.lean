import CliquePath.AsteroidalTriple
import CliquePath.Proofs.Search.Detour
import CliquePath.Proofs.Search.Reach

set_option autoImplicit false

/-!
# The search for an asteroidal triple

This module shows that the search for an asteroidal triple finds a triple through a given vertex
whenever there is one, and that a triple always has its three paths.

The search runs over positions and looks up labels. `Graph.tripleAt?` is the same search over the
vertices, and it tests what the labels stand for; `Graph.Consistent.asteroidalTriple_eq` says that the
two give the same.
-/

namespace CliquePath

variable {g : Graph} {p v w x a b c : Vertex}

/-! ## The first pair -/

section FirstPair

variable {α : Type} {test : α → α → Bool} {l : List α} {a b : α}

theorem firstPair?_some (h : firstPair? test l = some (a, b)) :
    a ∈ l ∧ b ∈ l ∧ test a b = true := by
  induction l with
  | nil => cases h
  | cons c rest ih =>
      rw [firstPair?] at h
      cases hfind : rest.find? (test c) with
      | none =>
          rw [hfind] at h
          obtain ⟨ha, hb, htest⟩ := ih h
          exact ⟨List.mem_cons_of_mem _ ha, List.mem_cons_of_mem _ hb, htest⟩
      | some d =>
          rw [hfind] at h
          cases h
          exact ⟨List.mem_cons_self, List.mem_cons_of_mem _ (List.mem_of_find?_eq_some hfind),
            List.find?_some hfind⟩

/-- A pair that passes a symmetric test is not overlooked. -/
theorem exists_firstPair? (hsymm : ∀ a ∈ l, ∀ b ∈ l, test a b = true → test b a = true)
    (ha : a ∈ l) (hb : b ∈ l) (hne : a ≠ b) (htest : test a b = true) :
    ∃ c d, firstPair? test l = some (c, d) := by
  induction l with
  | nil => exact absurd ha List.not_mem_nil
  | cons c rest ih =>
      rw [firstPair?]
      cases hfind : rest.find? (test c) with
      | some d => exact ⟨c, d, rfl⟩
      | none =>
          have hno : ∀ d ∈ rest, ¬ test c d = true := List.find?_eq_none.1 hfind
          rcases List.mem_cons.1 ha with rfl | harest
          · exact absurd htest (hno b ((List.mem_cons.1 hb).resolve_left hne.symm))
          · rcases List.mem_cons.1 hb with rfl | hbrest
            · exact absurd (hsymm a ha b hb htest) (hno a harest)
            · exact ih (fun a ha b hb => hsymm a (List.mem_cons_of_mem _ ha) b
                (List.mem_cons_of_mem _ hb)) harest hbrest

/-- The search among images of entries is the search among the entries. -/
theorem firstPair?_map {β : Type} {f : α → β} {test' : β → β → Bool}
    (htest : ∀ a ∈ l, ∀ b ∈ l, test' (f a) (f b) = test a b) :
    firstPair? test' (l.map f) = (firstPair? test l).map (Prod.map f f) := by
  induction l with
  | nil => rfl
  | cons a rest ih =>
      -- the partner of the first entry is searched among the images
      have hfind : (rest.map f).find? (test' (f a)) = (rest.find? (test a)).map f := by
        rw [List.find?_map]
        refine congrArg (Option.map f) (List.find?_congr fun b hb => ?_)
        exact htest a (by simp) b (by simp [hb])
      rw [List.map_cons, firstPair?, hfind, firstPair?]
      cases rest.find? (test a) with
      | some b => rfl
      | none => exact ih fun x hx y hy => htest x (by simp [hx]) y (by simp [hy])

end FirstPair

/-! ## The first triple -/

section FirstTriple

variable {α : Type} {test : α → α → α → Bool} {l : List α} {a b c : α}

theorem firstTriple?_map {β : Type} {f : α → β} {test' : β → β → β → Bool}
    (htest : ∀ a ∈ l, ∀ b ∈ l, ∀ d ∈ l, test' (f a) (f b) (f d) = test a b d) :
    firstTriple? test' (l.map f) =
      (firstTriple? test l).map fun t => (f t.1, f t.2.1, f t.2.2) := by
  induction l with
  | nil => rfl
  | cons a rest ih =>
      have hpair : firstPair? (test' (f a)) (rest.map f) =
          (firstPair? (test a) rest).map (Prod.map f f) :=
        firstPair?_map fun x hx y hy => htest a (by simp) x (by simp [hx]) y (by simp [hy])
      rw [List.map_cons, firstTriple?, hpair, firstTriple?]
      cases firstPair? (test a) rest with
      | some pair => rfl
      | none =>
          exact ih fun x hx y hy z hz =>
            htest x (by simp [hx]) y (by simp [hy]) z (by simp [hz])

end FirstTriple

open Reach (vertexAt)

namespace Graph

theorem Consistent.around_symm (hg : g.Consistent) (h : Around g.vertices g.Linked p v w) :
    Around g.vertices g.Linked p w v :=
  h.symm fun v w _ hvw _ _ => hg.symm v w hvw

theorem Consistent.asteroidal_turn (hg : g.Consistent)
    (h : Asteroidal g.vertices g.Linked a b c) : Asteroidal g.vertices g.Linked a c b :=
  ⟨hg.around_symm h.first, h.third, h.second⟩

open Classical in
/-- The three vertices are asteroidal. -/
noncomputable def testAsteroidal (g : Graph) (a b c : Vertex) : Bool :=
  decide (Asteroidal g.vertices g.Linked a b c)

theorem testAsteroidal_iff :
    g.testAsteroidal a b c = true ↔ Asteroidal g.vertices g.Linked a b c := by
  simp only [testAsteroidal, decide_eq_true_eq]

/-- The first asteroidal triple that begins with `x`, if there is one; otherwise the first one in
ascending order. -/
noncomputable def tripleAt? (g : Graph) (x : Vertex) : Option (Vertex × Vertex × Vertex) :=
  ((firstPair? (g.testAsteroidal x) g.vertices).map fun pair => (x, pair)).or
    (firstTriple? g.testAsteroidal g.vertices)

/-- The search finds a triple that begins with `x` whenever `x` is in one. -/
theorem Consistent.exists_firstPair? (hg : g.Consistent)
    (h : Asteroidal g.vertices g.Linked x v w) : ∃ second third,
    firstPair? (g.testAsteroidal x) g.vertices = some (second, third) ∧
      Asteroidal g.vertices g.Linked x second third := by
  -- The test does not depend on the order of the pair, so the search may meet it in either order.
  have hsymm : ∀ a ∈ g.vertices, ∀ b ∈ g.vertices, g.testAsteroidal x a b = true →
      g.testAsteroidal x b a = true := by
    intro a _ b _ hab
    rw [testAsteroidal_iff] at hab ⊢
    exact hg.asteroidal_turn hab
  have hvw : v ≠ w := fun heq => h.second.right.2.1 heq.symm
  obtain ⟨second, third, hpair⟩ := CliquePath.exists_firstPair? hsymm h.first.left.1
    h.first.right.1 hvw (testAsteroidal_iff.2 h)
  exact ⟨second, third, hpair, testAsteroidal_iff.1 (firstPair?_some hpair).2.2⟩

namespace ShownBy

variable {t : Reach} (h : g.ShownBy t)

include h

theorem numberedBy : g.NumberedBy (vertexAt t.ids) := numberedBy_vertexAt h.ids

/-- The vertices at the positions in order are the vertices of the graph. -/
theorem map_ids : (List.finRange t.size).map (vertexAt t.ids) = g.vertices := by
  have hlist : (List.finRange t.size).map (vertexAt t.ids) = t.ids.toList :=
    List.ext_getElem (by simp) fun i hi hi' => by simp [vertexAt]
  rw [hlist, h.ids]

theorem seesBoth_iff (p q r : Fin t.size) : t.seesBoth p q r = true ↔
    Around g.vertices g.Linked (vertexAt t.ids p) (vertexAt t.ids q) (vertexAt t.ids r) ∧
      g.Reaches (vertexAt t.ids p) (vertexAt t.ids q) := by
  rw [← h.label, Reach.seesBoth, Bool.and_eq_true, bne_iff_ne, beq_iff_eq]

/-- The labels tell whether three vertices are asteroidal. That each sees the others in its own
component only makes no difference, since paths join the three. -/
theorem isAsteroidal_eq (hg : g.Consistent) (a b c : Fin t.size) :
    t.isAsteroidal a b c =
      g.testAsteroidal (vertexAt t.ids a) (vertexAt t.ids b) (vertexAt t.ids c) := by
  have hpath : ∀ {p v w}, Around g.vertices g.Linked p v w → g.Reaches v w := fun hvw =>
    hvw.steps.lift id fun _ _ hstep => hstep.1
  rw [Bool.eq_iff_iff, testAsteroidal_iff, Reach.isAsteroidal, Bool.and_eq_true, Bool.and_eq_true,
    h.seesBoth_iff, h.seesBoth_iff, h.seesBoth_iff]
  constructor
  · rintro ⟨⟨hfirst, hsecond⟩, hthird⟩
    exact ⟨hfirst.1, hsecond.1, hthird.1⟩
  · intro hast
    have hab := hpath hast.third
    exact ⟨⟨⟨hast.first, hab⟩, ⟨hast.second, hg.reaches_symm hab⟩⟩, hast.third,
      hg.reaches_symm (hpath hast.second)⟩

/-- The triple through a vertex that the labels give. -/
theorem tripleThrough?_eq (hg : g.Consistent) (x : Vertex) :
    (t.tripleThrough? x).map t.verticesAt =
      (firstPair? (g.testAsteroidal x) g.vertices).map fun pair => (x, pair) := by
  by_cases hx : x ∈ g.vertices
  · obtain ⟨i, rfl⟩ := h.numberedBy.onto x hx
    -- An asteroidal triple has no vertex twice, so the search need not look out for that.
    have htest : ∀ a b : Fin t.size,
        g.testAsteroidal (vertexAt t.ids i) (vertexAt t.ids a) (vertexAt t.ids b) =
          (a != i && b != i && t.isAsteroidal i a b) := by
      intro a b
      rw [Bool.eq_iff_iff, Bool.and_eq_true, Bool.and_eq_true, bne_iff_ne, bne_iff_ne,
        h.isAsteroidal_eq hg, testAsteroidal_iff]
      refine ⟨fun hast => ⟨⟨?_, ?_⟩, hast⟩, And.right⟩
      · rintro rfl
        exact hast.first.left.2.1 rfl
      · rintro rfl
        exact hast.first.right.2.1 rfl
    rw [← h.map_ids, firstPair?_map fun a _ b _ => htest a b, Reach.tripleThrough?,
      (h.dense _ i).2 rfl, Option.bind_some, Reach.tripleFrom?, Option.map_map, Option.map_map]
    rfl
  · have hnone : firstPair? (g.testAsteroidal x) g.vertices = none := by
      refine Option.eq_none_iff_forall_ne_some.2 fun pair hpair => hx ?_
      exact (testAsteroidal_iff.1 (firstPair?_some hpair).2.2).second.left.1
    have hdense : t.dense[x]?.join = none :=
      Option.eq_none_iff_forall_ne_some.2 fun i hi => hx ((h.dense x i).1 hi ▸ h.numberedBy.mem i)
    rw [hnone, Reach.tripleThrough?, hdense]
    rfl

theorem tripleAnywhere?_eq (hg : g.Consistent) :
    t.tripleAnywhere?.map t.verticesAt = firstTriple? g.testAsteroidal g.vertices := by
  rw [← h.map_ids, firstTriple?_map fun a _ b _ c _ => (h.isAsteroidal_eq hg a b c).symm]
  rfl

/-- The search over positions gives what the search over vertices gives. -/
theorem triple?_eq (hg : g.Consistent) (x : Vertex) :
    (t.triple? x).map t.verticesAt = g.tripleAt? x := by
  rw [tripleAt?, ← h.tripleThrough?_eq hg, ← h.tripleAnywhere?_eq hg, Reach.triple?]
  cases t.tripleThrough? x <;> rfl

end ShownBy

/-- The search gives the triple that the search over vertices finds. -/
theorem Consistent.asteroidalTriple_eq (hg : g.Consistent) (x : Vertex) (givePaths : Bool) :
    g.asteroidalTriple x givePaths =
      match g.tripleAt? x with
      | none => .error .noAsteroidalTriple
      | some (a, b, c) =>
          (if givePaths then g.triplePaths a b c else .ok []).map fun paths => ⟨a, b, c, paths⟩ := by
  obtain ⟨t, hbuild, hshown⟩ := hg.exists_build
  rw [← hshown.triple?_eq hg]
  simp only [asteroidalTriple, hbuild, bind, Except.bind]
  cases t.triple? x with
  | none => rfl
  | some found =>
      rw [Option.map_some]
      dsimp only
      generalize t.verticesAt found = vertices
      obtain ⟨a, b, c⟩ := vertices
      cases givePaths with
      | false => rfl
      | true =>
          simp only [if_true]
          cases g.triplePaths a b c <;> rfl

/-! ## Paths -/

/-- Vertices joined around a third one have a path around it. -/
theorem Consistent.exists_detour (hg : g.Consistent) (h : Around g.vertices g.Linked c a b)
    (hc : c ∈ g.vertices) (hab : a ≠ b) : ∃ path, Detour.path g ⟨c, a, b⟩ = .ok path := by
  have hproper : (Detour.mk c a b).Proper g :=
    ⟨hc, h.left.1, h.right.1, h.left.2.1, h.right.2.1, hab⟩
  refine hproper.exists_path hg ((hg.around_symm h).mono (fun v w _ hvw _ _ => hvw) fun w hw => ?_)
  have havoided : w ∉ (Detour.mk c a b).avoided g := by
    rw [Detour.mem_avoided]
    rintro (heq | ⟨hlinked, -⟩)
    · exact hw.2.1 heq
    · exact hw.2.2 hlinked
  rw [Detour.mem_allowed]
  by_cases htarget : w = b
  · exact Or.inl htarget
  by_cases hstart : w = a
  · exact Or.inr (Or.inl hstart)
  · exact Or.inr (Or.inr ⟨hw.1, hstart, htarget, havoided⟩)

theorem Consistent.exists_triplePaths (hg : g.Consistent)
    (h : Asteroidal g.vertices g.Linked a b c) : ∃ paths, g.triplePaths a b c = .ok paths := by
  have hne : a ≠ b := h.first.left.2.1.symm
  have hne' : b ≠ c := h.second.right.2.1.symm
  obtain ⟨ab, hab⟩ := hg.exists_detour h.third h.first.right.1 hne
  obtain ⟨bc, hbc⟩ := hg.exists_detour h.first h.second.left.1 hne'
  obtain ⟨ca, hca⟩ := hg.exists_detour (hg.around_symm h.second) h.first.left.1
    h.first.right.2.1
  refine ⟨[ab, bc, ca], ?_⟩
  rw [triplePaths, hab, hbc, hca]
  rfl

/-- The triple given for a vertex of an asteroidal triple has that vertex in front, and the search
through that vertex found it. -/
theorem Consistent.exists_asteroidalTriple (hg : g.Consistent)
    (h : Asteroidal g.vertices g.Linked x v w) (givePaths : Bool) : ∃ triple t found,
    g.asteroidalTriple x givePaths = .ok triple ∧ triple.first = x ∧
      Reach.build g = .ok t ∧ t.tripleThrough? x = some found ∧
      t.verticesAt found = (triple.first, triple.second, triple.third) ∧
      Asteroidal g.vertices g.Linked triple.first triple.second triple.third := by
  obtain ⟨second, third, hpair, hast⟩ := hg.exists_firstPair? h
  obtain ⟨t, hbuild, hshown⟩ := hg.exists_build
  have hthrough := hshown.tripleThrough?_eq hg x
  rw [hpair] at hthrough
  obtain ⟨found, hfound, hvertices⟩ := Option.map_eq_some_iff.1 hthrough
  have htriple : g.tripleAt? x = some (x, second, third) := by
    rw [tripleAt?, hpair]
    rfl
  obtain ⟨paths, hpaths⟩ := hg.exists_triplePaths hast
  cases givePaths with
  | false =>
      refine ⟨⟨x, second, third, []⟩, t, found, ?_, rfl, hbuild, hfound, hvertices, hast⟩
      rw [hg.asteroidalTriple_eq, htriple]
      rfl
  | true =>
      refine ⟨⟨x, second, third, paths⟩, t, found, ?_, rfl, hbuild, hfound, hvertices, hast⟩
      rw [hg.asteroidalTriple_eq, htriple]
      simp only [if_true, hpaths]
      rfl

end Graph

end CliquePath
