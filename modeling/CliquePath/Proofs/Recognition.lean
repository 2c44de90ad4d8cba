import CliquePath.Proofs.CliqueTree.Positions
import CliquePath.Proofs.LinkedTree.Buildup

set_option autoImplicit false

/-!
# Correctness of the recognition

This module states what the recognition of interval graphs is for. It gives intervals exactly for
the interval graphs, and the intervals represent the graph. A graph without holes that is not an
interval graph gets an asteroidal triple through the first vertex that the clique tree refuses.
-/

namespace CliquePath

namespace Graph

variable {g : Graph} {v : Vertex} {options : Options}

/-- Building the clique tree places all vertices, or refuses a first one. -/
theorem Reachable.cliqueTree_cases (hg : g.Reachable) :
    (∃ t, g.cliqueTree = .ok (.complete t) ∧
        CliqueTree.After (CliqueTree.callsOf g g.visits.reverse) t) ∨
      ∃ pre v post t, g.visits = pre ++ v :: post ∧
        CliqueTree.empty.insertAll g pre = .ok (.complete t) ∧
        CliqueTree.After (CliqueTree.callsOf g pre.reverse) t ∧ t.insert g v = .ok .noRoom ∧
        g.cliqueTree = .ok (.stuck v) := by
  have hcons := hg.consistent
  have hstart : CliqueTree.After (CliqueTree.callsOf g []) CliqueTree.empty := .start
  rcases hstart.insertAll_cases hg (fun v => hcons.mem_visits.1) hcons.nodup_visits (by simp) with
    ⟨t, hall, hafter⟩ | ⟨pre, v, post, t, hsplit, hpre, hafter, hno, hstuck⟩
  · rw [List.append_nil] at hafter
    exact Or.inl ⟨t, hall, hafter⟩
  · rw [List.append_nil] at hafter
    exact Or.inr ⟨pre, v, post, t, hsplit, hpre, hafter, hno, hstuck⟩

variable {order : List Vertex} {intervals : Assignment} {ct : CliqueTree} {failure : Failure}

/-- The intervals of a complete tree represent the graph. -/
theorem Consistent.represents_of_after (hg : g.Consistent)
    (hafter : CliqueTree.After (CliqueTree.callsOf g g.visits.reverse) ct) :
    Represents ct.intervals g.vertices g.Linked :=
  hafter.represents_graph hg ((List.reverse_perm _).trans hg.perm_visits)

/-- Ends of 32 bits hold all positions of a complete tree if the graph is not too large. -/
theorem Consistent.toWords_of_after (hg : g.Consistent)
    (hafter : CliqueTree.After (CliqueTree.callsOf g g.visits.reverse) ct)
    (hsize : g.vertexCount + 1 < UInt32.size) : ct.intervals.toWords = ct.intervals := by
  have hplaced : ct.placed = g.visits.reverse := by
    rw [hafter.keeps.placed, CliqueTree.inserted_callsOf]
  have hcount : ct.placed.length = g.vertexCount := by
    rw [hplaced, List.length_reverse, hg.perm_visits.length_eq, hg.count]
  exact hafter.keeps.sound.toWords_intervals (hcount ▸ hsize)

/-! ## What the recognition gives -/

/-- The intervals that a recognition gives, or compares with the graph, are those of the clique tree. -/
theorem Consistent.recognizeChordal_of_complete (hg : g.Consistent)
    (hall : g.cliqueTree = .ok (.complete ct)) :
    g.recognizeChordal options order = g.represented options order ct.intervals := by
  have hends := hg.linkedTree_ends
  rw [hall] at hends
  rw [recognizeChordal]
  generalize g.linkedTree = buildup at hends
  cases hends with
  | complete mirrors proper sound =>
      simp only [bind, Except.bind, mirrors.intervals_eq proper sound]

theorem Consistent.recognizeChordal_of_stuck (hg : g.Consistent)
    (hstuck : g.cliqueTree = .ok (.stuck v)) : g.recognizeChordal options order =
      match g.asteroidalTriple v options.givePaths with
      | .error breach => .error (.internal breach)
      | .ok triple => .ok (.asteroidal triple) := by
  have hends := hg.linkedTree_ends
  rw [hstuck] at hends
  rw [recognizeChordal]
  generalize g.linkedTree = buildup at hends
  cases hends
  rfl

theorem Consistent.recognizeChordal_of_error (hg : g.Consistent)
    (herror : g.cliqueTree = .error failure) :
    g.recognizeChordal options order = .error failure := by
  have hends := hg.linkedTree_ends
  rw [herror] at hends
  rw [recognizeChordal]
  generalize g.linkedTree = buildup at hends
  cases hends
  rfl

/-- A recognition that gives intervals gives those of a complete clique tree. -/
theorem Consistent.exists_complete_of_recognize (hg : g.Consistent)
    (h : g.recognize options = .ok (.represented order intervals)) :
    ∃ ct, g.cliqueTree = .ok (.complete ct) ∧ ct.intervals = intervals := by
  rw [recognize] at h
  split at h
  next => cases h
  next => cases h
  next =>
    -- Only a complete tree gets as far as its intervals.
    cases htree : g.cliqueTree with
    | error e =>
        rw [hg.recognizeChordal_of_error htree] at h
        cases h
    | ok buildup =>
        cases buildup with
        | complete ct =>
            rw [hg.recognizeChordal_of_complete htree, represented] at h
            split at h
            next => cases h
            next =>
              cases h
              exact ⟨ct, rfl, rfl⟩
        | stuck v =>
            rw [hg.recognizeChordal_of_stuck htree] at h
            split at h
            next => cases h
            next => cases h

/-- A graph without holes whose vertices are all placed is recognized. -/
theorem Consistent.recognize_of_complete (hg : g.Consistent)
    (hchordal : Chordal g.vertices g.Linked) (hall : g.cliqueTree = .ok (.complete ct))
    (hrep : Represents ct.intervals g.vertices g.Linked) :
    g.recognize options = .ok (.represented g.visits.reverse ct.intervals) := by
  simp only [recognize, hg.elimination_eq hchordal, hg.recognizeChordal_of_complete hall, represented,
    hg.markedDisagreement?_eq_none hrep, ite_self]

/-- A graph without holes one of whose vertices is refused gets the triple through that vertex. -/
theorem Consistent.recognize_of_stuck (hg : g.Consistent)
    (hchordal : Chordal g.vertices g.Linked) (hstuck : g.cliqueTree = .ok (.stuck v))
    {triple : AsteroidalTriple} (htriple : g.asteroidalTriple v options.givePaths = .ok triple) :
    g.recognize options = .ok (.asteroidal triple) := by
  simp only [recognize, hg.elimination_eq hchordal, hg.recognizeChordal_of_stuck hstuck, htriple]

/-! ## Interval graphs -/

/-- The recognition gives intervals exactly for the interval graphs, whatever is asked for beyond
deciding, and the intervals represent the graph. Their ends have no more than 32 bits if the number of
vertices leaves one number of 32 bits to spare. -/
theorem recognize_represented_iff (hg : g.Reachable) (options : Options) :
    ((∃ order intervals, g.recognize options = .ok (.represented order intervals)) ↔
      IntervalGraph g.vertices g.Linked) ∧
    ∀ order intervals, g.recognize options = .ok (.represented order intervals) →
      Represents intervals g.vertices g.Linked ∧
        (g.vertexCount + 1 < UInt32.size → intervals.toWords = intervals) := by
  have hcons := hg.consistent
  have hrepresents : ∀ order intervals,
      g.recognize options = .ok (.represented order intervals) →
      Represents intervals g.vertices g.Linked ∧
        (g.vertexCount + 1 < UInt32.size → intervals.toWords = intervals) := by
    intro order intervals h
    obtain ⟨t, hall, rfl⟩ := hcons.exists_complete_of_recognize h
    rcases hg.cliqueTree_cases with ⟨t', hall', hafter⟩ | ⟨pre, v, post, t', -, -, -, -, hstuck⟩
    · rw [hall'] at hall
      cases hall
      exact ⟨hcons.represents_of_after hafter, hcons.toWords_of_after hafter⟩
    · rw [hstuck] at hall
      cases hall
  refine ⟨⟨?_, fun hinterval => ?_⟩, hrepresents⟩
  · rintro ⟨order, intervals, h⟩
    exact (hrepresents order intervals h).1.intervalGraph
  · have hchordal := hinterval.chordal
    rcases hg.cliqueTree_cases with ⟨t, hall, hafter⟩ | ⟨pre, v, post, t, hsplit, -, hafter, hno, -⟩
    · exact ⟨_, _, hcons.recognize_of_complete hchordal hall (hcons.represents_of_after hafter)⟩
    · -- A refused vertex would be in an asteroidal triple.
      obtain ⟨l, r, hast⟩ :=
        hafter.asteroidal_of_refused hcons (hcons.cliqueOrder hchordal) hsplit hno
      exact absurd hast hinterval.not_asteroidal

theorem recognize_represented_threePath : ∃ order intervals,
    threePath.recognize .unchecked = .ok (.represented order intervals) := by
  refine (recognize_represented_iff reachable_threePath .unchecked).1.2
    ⟨fun v => if v = 0 then ⟨0, 1⟩ else if v = 1 then ⟨0, 2⟩ else ⟨1, 2⟩, ?_, ?_⟩
  · have hvertices : threePath.vertices = [0, 1, 2] := rfl
    simp [hvertices]
  · have hvertices : threePath.vertices = [0, 1, 2] := rfl
    have h0 : threePath.neighbors 0 = [1] := rfl
    have h1 : threePath.neighbors 1 = [0, 2] := rfl
    have h2 : threePath.neighbors 2 = [1] := rfl
    simp [hvertices, Linked, h0, h1, h2, Interval.overlaps]

/-! ## Certificates -/

end Graph

end CliquePath
