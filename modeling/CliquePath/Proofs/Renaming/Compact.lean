import CliquePath.Proofs.Graph.AnchoredComponents
import CliquePath.Proofs.Graph.Positions
import CliquePath.Proofs.Renaming.Recognition
import CliquePath.Proofs.Search.LinkedSearch

set_option autoImplicit false

/-!
# Numbers without vertices

This module shows that the numbers of removed vertices never change an answer. A graph is built anew
without holes: its vertices get the numbers from 0 on, in ascending order, and its edges are added
in the order in which they came. The renaming of the new numbers to the old ones carries the new
graph to the given one, so everything that is computed from the two graphs corresponds.
-/

namespace CliquePath

namespace Graph

variable {g : Graph}

/-- The calls that build a graph anew: one for each vertex, then one for each edge, the earliest edge
first. -/
def compactCalls (g : Graph) : List Edit :=
  g.vertices.map (fun _ => .pushNumbered) ++
    g.edgeSet.reverse.map fun e => .connect (g.vertices.idxOf e.1) (g.vertices.idxOf e.2)

/-- The graph built anew without holes. -/
def compact (g : Graph) : Graph := built g.compactCalls

/-! ## Building the graph anew -/

/-- Part of the edges were added to the vertices from 0 on. -/
structure Rebuilt (g : Graph) (es : List (Vertex × Vertex)) (h : Graph) : Prop where
  bound : h.bound = g.vertices.length
  contains : ∀ i, h.contains i = true ↔ i < g.vertices.length
  edgeSet : h.edgeSet = (es.map g.position).reverse

theorem rebuilt_nil (g : Graph) :
    Rebuilt g [] (built (g.vertices.map fun _ => .pushNumbered)) := by
  have hcells : ∀ n : Nat, (built (List.replicate n .pushNumbered)).bound = n ∧
      (∀ i, (built (List.replicate n .pushNumbered)).contains i = true ↔ i < n) ∧
      (built (List.replicate n .pushNumbered)).edgeSet = [] := by
    intro n
    induction n with
    | zero => exact ⟨rfl, by simp [built, Graph.contains], rfl⟩
    | succ n ih =>
        -- a pushed vertex takes the next number and has no edges
        have hpush : ∀ g : Graph, g.edited .pushNumbered = g.push (toString (g.bound + 1)) :=
          fun g => rfl
        rw [List.replicate_succ', built_concat, hpush]
        refine ⟨by rw [bound_push, ih.1], fun i => ?_, ih.2.2⟩
        rw [contains_push, Bool.or_eq_true, beq_iff_eq, ih.1, ih.2.1, Nat.lt_succ_iff_lt_or_eq,
          or_comm]
  rw [List.map_const']
  exact ⟨(hcells _).1, (hcells _).2.1, (hcells _).2.2⟩

/-- Adding one more edge of the graph succeeds. -/
theorem Rebuilt.concat {es : List (Vertex × Vertex)} {e : Vertex × Vertex} {h : Graph}
    (hr : Rebuilt g es h) (hends : ∀ e' ∈ e :: es, e'.1 ∈ g.vertices ∧ e'.2 ∈ g.vertices)
    (hlt : e.1 < e.2) (hnew : e ∉ es) :
    h.connect (g.vertices.idxOf e.1) (g.vertices.idxOf e.2) =
        (.ok (), h.join (g.vertices.idxOf e.1) (g.vertices.idxOf e.2)) ∧
      Rebuilt g (es ++ [e]) (h.join (g.vertices.idxOf e.1) (g.vertices.idxOf e.2)) := by
  obtain ⟨hleft, hright⟩ := hends e (by simp)
  have hless : g.vertices.idxOf e.1 < g.vertices.idxOf e.2 := by
    rw [← (strictMono_nthVertex g).lt_iff_lt, nthVertex_idxOf hleft, nthVertex_idxOf hright]
    exact hlt
  have hsorted : sortedEnds (g.vertices.idxOf e.1) (g.vertices.idxOf e.2) = g.position e := by
    simp [sortedEnds, hless, position]
  have habsent : h.hasEdge (g.vertices.idxOf e.1) (g.vertices.idxOf e.2) = false := by
    rw [hasEdge, hsorted, hr.edgeSet, ← Bool.not_eq_true, List.contains_iff_mem,
      List.mem_reverse, List.mem_map]
    rintro ⟨d, hd, hpos⟩
    have hdends := hends d (List.mem_cons_of_mem e hd)
    have hfirst : d.1 = e.1 := (List.idxOf_inj hdends.1).1 (Prod.mk.inj hpos).1
    have hsecond : d.2 = e.2 := (List.idxOf_inj hdends.2).1 (Prod.mk.inj hpos).2
    exact hnew (Prod.ext hfirst hsecond ▸ hd)
  have hu := (hr.contains _).2 (List.idxOf_lt_length_iff.2 hleft)
  have hv := (hr.contains _).2 (List.idxOf_lt_length_iff.2 hright)
  constructor
  · simp [Graph.connect, Graph.insertEdge, hu, hv, Nat.ne_of_lt hless, habsent]
  · refine ⟨by rw [bound_join, hr.bound], fun i => ?_, ?_⟩
    · rw [contains_join (Nat.ne_of_lt hless), hr.contains]
    · rw [edgeSet_join habsent, hsorted, hr.edgeSet]
      simp

/-- The graph built anew has the vertices from 0 on and the edges in their order. -/
theorem Reachable.rebuilt (hg : g.Reachable) : Rebuilt g g.edgeSet.reverse g.compact := by
  have hc := hg.consistent
  have hchron := hg.chronicled
  have hrun : ∀ es : List (Vertex × Vertex), es.Nodup → (∀ e ∈ es, e ∈ g.edgeSet) →
      Rebuilt g es (built (g.vertices.map (fun _ => .pushNumbered) ++
        es.map fun e => .connect (g.vertices.idxOf e.1) (g.vertices.idxOf e.2))) := by
    intro es hnodup hsub
    induction es using List.reverseRecOn with
    | nil =>
        rw [List.map_nil, List.append_nil]
        exact rebuilt_nil g
    | append_singleton es e ih =>
        have hsplit := List.nodup_append.1 hnodup
        have hdone := ih hsplit.1 fun d hd => hsub d (by simp [hd])
        have hnew : e ∉ es := fun he => hsplit.2.2 e he e (by simp) rfl
        obtain ⟨hok, hnext⟩ := hdone.concat (e := e)
          (fun d hd => hchron.mem_vertices hc (hsub d (by
            rcases List.mem_cons.1 hd with rfl | hd
            · simp
            · simp [hd])))
          (hchron.sorted e (hsub e (by simp))) hnew
        rw [List.map_append, List.map_singleton, ← List.append_assoc, built_concat]
        simp only [Graph.edited, Edit.apply, hok]
        exact hnext
  exact hrun _ (List.nodup_reverse.2 hchron.distinct) fun e he => List.mem_reverse.1 he

theorem Rebuilt.vertices {es : List (Vertex × Vertex)} {h : Graph} (hr : Rebuilt g es h) :
    h.vertices = List.range g.vertices.length := by
  rw [← hr.bound]
  exact vertices_eq_range fun i hi => (hr.contains i).2 (hr.bound ▸ hi)

/-- The new numbers stand for the vertices at their positions. -/
theorem Reachable.carries_compact (hg : g.Reachable) : Carries g.nthVertex g.compact g := by
  have hc := hg.consistent
  have hr := hg.rebuilt
  have hcompact : g.compact.Reachable := reachable_built _
  have hι := (strictMono_nthVertex g).injective
  have hvertices : g.vertices = g.compact.vertices.map g.nthVertex := by
    rw [hr.vertices]
    exact vertices_eq_map_nthVertex g
  -- moving the ends of an edge to their positions and back changes nothing
  have hedges : (g.edgeSet.reverse.map g.position).map (Prod.map g.nthVertex g.nthVertex) =
      g.edgeSet.reverse :=
    map_nthVertex_position fun e he =>
      hg.chronicled.mem_vertices hc (List.mem_reverse.1 he)
  refine ⟨strictMono_nthVertex g, hvertices, fun v => ?_, ?_, ?_⟩
  · rw [hcompact.chronicled.listed, hr.edgeSet, List.reverse_reverse, hg.chronicled.listed]
    conv_lhs => rw [← hedges]
    rw [List.filterMap_map, List.map_filterMap]
    exact congrArg (fun f => (g.edgeSet.reverse.map g.position).filterMap f)
      (funext fun e => partner?_map hι v e)
  · rw [hc.count, hcompact.consistent.count, hvertices, List.length_map]
  · rw [edgeCount, edgeCount, hr.edgeSet]
    simp

/-- Holes in the numbers never change an answer: components, rankings, certificates for and against
chordality, asteroidal triples and outcomes of recognition are those of the graph built anew without
holes, each of its numbers replaced by the vertex at that position. -/
theorem answers_of_compact (hg : g.Reachable) :
    (∃ lists, g.compact.anchoredComponents? = some lists ∧
        g.anchoredComponents? = some (lists.map (List.map g.nthVertex))) ∧
      g.components = g.compact.components.map (List.map g.nthVertex) ∧
      (∀ direction, ∃ ranking, g.compact.linkedRanking? direction = some ranking ∧
        g.linkedRanking? direction = some (ranking.rename g.nthVertex)) ∧
      (∀ direction, g.lexRanking direction =
        (g.compact.lexRanking direction).rename g.nthVertex) ∧
      SameAnswer (Elimination.rename g.nthVertex) g.compact.elimination g.elimination ∧
      (∀ x givePaths, SameAnswer (AsteroidalTriple.rename g.nthVertex)
        (g.compact.asteroidalTriple x givePaths)
        (g.asteroidalTriple (g.nthVertex x) givePaths)) ∧
      ∀ options, SameAnswer (Verdict.rename g.nthVertex) (g.compact.recognize options)
        (g.recognize options) := by
  have h := hg.carries_compact
  have hg := hg.consistent
  have hc : g.compact.Consistent := (reachable_built _).consistent
  refine ⟨⟨_, hc.anchoredComponents?_eq, ?_⟩, h.components hc hg, fun direction => ⟨_,
    hc.linkedRanking?_eq direction, ?_⟩, h.lexRanking, h.elimination hc hg,
    h.asteroidalTriple hc hg, h.recognize hc hg⟩
  · rw [hg.anchoredComponents?_eq, h.components hc hg]
  · rw [hg.linkedRanking?_eq, h.lexRanking]

/-- The path on the vertices 0, 2 and 3, its edges coming from the far end; the vertex 1 was
removed. -/
def gappedPath : Graph :=
  built [.pushNumbered, .pushNumbered, .pushNumbered, .pushNumbered, .connect 3 2, .connect 0 1,
    .connect 2 0, .eraseVertex 1]

theorem answers_of_compact_gappedPath : gappedPath.Reachable ∧ gappedPath.vertices = [0, 2, 3] ∧
    gappedPath.components = gappedPath.compact.components.map (List.map gappedPath.nthVertex) ∧
    SameAnswer (Verdict.rename gappedPath.nthVertex) gappedPath.compact.recognize
      gappedPath.recognize := by
  have hreach : gappedPath.Reachable := reachable_built _
  obtain ⟨-, hcomponents, -, -, -, -, hrecognize⟩ := answers_of_compact hreach
  exact ⟨hreach, by decide, hcomponents, hrecognize {}⟩

end Graph

end CliquePath
