import CliquePath.Proofs.Recognition
import CliquePath.Proofs.Renaming.CliqueTree
import CliquePath.Proofs.Renaming.Components

set_option autoImplicit false

/-!
# Recognition of a renamed graph

This module shows that the recognition follows an increasing renaming. Two corresponding trees give
every vertex the same interval, the check of the intervals passes the same tests, and so the two
outcomes correspond for every choice of options.
-/

namespace CliquePath

variable {ι : Vertex → Vertex} {c g : Graph}

/-! ## Intervals -/

/-- The intervals of the renamed vertices. -/
def Assignment.rename (ι : Vertex → Vertex) (a : Assignment) : Assignment :=
  a.map fun e => (ι e.1, e.2)

namespace Arrangement

/-- The places of the renamed vertices. -/
def rename (ι : Vertex → Vertex) (a : Arrangement) : Arrangement :=
  ⟨a.width, a.places.map fun p => { p with held := p.held.map ι }⟩

theorem under_rename (held : List Vertex) (a : Arrangement) :
    under (held.map ι) (a.rename ι) = (under held a).rename ι := rfl

theorem beside_rename (a b : Arrangement) :
    (a.rename ι).beside (b.rename ι) = (a.beside b).rename ι := by
  simp [beside, rename, Function.comp_def]

theorem inRow_rename (as : List Arrangement) :
    inRow (as.map (rename ι)) = (inRow as).rename ι := by
  induction as with
  | nil => rfl
  | cons a rest ih =>
      have hcons : ∀ (b : Arrangement) (bs : List Arrangement),
          inRow (b :: bs) = b.beside (inRow bs) := fun b bs => rfl
      rw [List.map_cons, hcons, ih, beside_rename, hcons]

theorem interval?_rename (hι : Function.Injective ι) (a : Arrangement) (v : Vertex) :
    (a.rename ι).interval? (ι v) = a.interval? v := by
  have hranges : (((a.rename ι).places.filter fun p => p.held.contains (ι v)).map Place.range) =
      (a.places.filter fun p => p.held.contains v).map Place.range := by
    have htest : (fun p : Place => p.held.contains (ι v)) ∘
        (fun p : Place => { p with held := p.held.map ι }) = fun p => p.held.contains v :=
      funext fun p => contains_map hι p.held v
    rw [rename, List.filter_map, htest, List.map_map]
    rfl
  simp only [interval?, hranges]

end Arrangement

theorem Node.arrangement_rename (node : Node) :
    (node.rename ι).arrangement = node.arrangement.rename ι := by
  induction node using Node.induction with
  | hleaf held =>
      rw [rename_leaf, arrangement_leaf, arrangement_leaf, ← Arrangement.under_rename]
      rfl
  | hpnode held children ih =>
      have hchildren : (children.map (rename ι)).map arrangement =
          (children.map arrangement).map (Arrangement.rename ι) := by
        rw [List.map_map, List.map_map]
        exact List.map_congr_left ih
      rw [rename_pnode, arrangement_pnode, hchildren, Arrangement.inRow_rename, arrangement_pnode,
        Arrangement.under_rename]
  | hqnode row ih =>
      have hsections : ((row.rename ι).toList.map fun s => .under s.held s.son.arrangement) =
          (row.toList.map fun s => .under s.held s.son.arrangement).map
            (Arrangement.rename ι) := by
        rw [Row.toList_map, List.map_map, List.map_map]
        refine List.map_congr_left fun s hs => ?_
        simp only [Function.comp_apply, Section.rename, ih s hs, Arrangement.under_rename]
      rw [rename_qnode, arrangement_qnode, hsections, Arrangement.inRow_rename, arrangement_qnode]

theorem CliqueTree.intervals_rename (hι : StrictMono ι) (t : CliqueTree) :
    (t.rename ι).intervals = t.intervals.rename ι := by
  obtain ⟨root, placed⟩ := t
  cases root with
  | none => rfl
  | some node =>
      have hsorted : (placed.map ι).mergeSort = placed.mergeSort.map ι := by
        refine (List.map_mergeSort fun a _ b _ => ?_).symm
        simp [hι.le_iff_le]
      simp only [intervals, rename, Option.map_some, hsorted, Node.arrangement_rename,
        List.filterMap_map, Assignment.rename, List.map_filterMap]
      refine congrArg (fun f => placed.mergeSort.filterMap f) (funext fun v => ?_)
      simp only [Function.comp_apply, Arrangement.interval?_rename hι.injective, Option.map_map]
      rfl

namespace Graph.Carries

variable (h : Carries ι c g)

include h

theorem countOverlaps (a : Assignment) : g.countOverlaps (a.rename ι) =
    match c.countOverlaps a with
    | .error pair => .error (pair.map ι ι)
    | .ok count => .ok count := by
  induction a with
  | nil => rfl
  | cons e rest ih =>
      obtain ⟨v, i⟩ := e
      have hoverlapping : (Assignment.rename ι rest).takeWhile (fun e => e.2.start < i.stop) =
          Assignment.rename ι (rest.takeWhile fun e => e.2.start < i.stop) := List.takeWhile_map
      have hapart : (Assignment.rename ι (rest.takeWhile fun e => e.2.start < i.stop)).find?
            (fun e => !g.adjacent (ι v) e.1) =
          ((rest.takeWhile fun e => e.2.start < i.stop).find? fun e => !c.adjacent v e.1).map
            fun e => (ι e.1, e.2) := by
        have htest : (fun e : Vertex × Interval => !g.adjacent (ι v) e.1) ∘
            (fun e : Vertex × Interval => (ι e.1, e.2)) = fun e => !c.adjacent v e.1 :=
          funext fun e => congrArg (! ·) (h.adjacent v e.1)
        rw [Assignment.rename, List.find?_map, htest]
      have hcons : Assignment.rename ι ((v, i) :: rest) = (ι v, i) :: Assignment.rename ι rest :=
        rfl
      have hlength : (Assignment.rename ι (rest.takeWhile fun e => e.2.start < i.stop)).length =
          (rest.takeWhile fun e => e.2.start < i.stop).length := List.length_map _
      rw [hcons, Graph.countOverlaps, hoverlapping, hapart, ih, Graph.countOverlaps]
      cases (rest.takeWhile fun e => e.2.start < i.stop).find? fun e => !c.adjacent v e.1 with
      | some e => rfl
      | none =>
          dsimp only [Option.map_none]
          rw [hlength]
          cases c.countOverlaps rest <;> rfl

theorem edgeOverlaps (a : Assignment) (e : Vertex × Vertex) :
    Graph.edgeOverlaps (a.rename ι) (e.map ι ι) = Graph.edgeOverlaps a e := by
  have hget : ∀ v, (a.rename ι).get? (ι v) = a.get? v := by
    intro v
    induction a with
    | nil => rfl
    | cons e rest ih =>
        obtain ⟨w, i⟩ := e
        have hcons : Assignment.rename ι ((w, i) :: rest) = (ι w, i) :: Assignment.rename ι rest :=
          rfl
        rw [hcons, Assignment.get?_cons, Assignment.get?_cons, ih]
        simp only [h.injective.eq_iff]
  simp only [Graph.edgeOverlaps, Prod.map_fst, Prod.map_snd, hget]

/-- The check of the intervals finds corresponding pairs. -/
theorem disagreement? (a : Assignment) :
    g.disagreement? (a.rename ι) = (c.disagreement? a).map (Prod.map ι ι) := by
  have hsorted : (a.rename ι).byStart = Assignment.rename ι a.byStart := by
    refine (List.map_mergeSort fun p _ q _ => ?_).symm
    simp only [h.mono.le_iff_le]
  have htest : (fun e => !Graph.edgeOverlaps (a.rename ι) e) ∘ Prod.map ι ι =
      fun e => !Graph.edgeOverlaps a e := funext fun e => congrArg (! ·) (h.edgeOverlaps a e)
  rw [Graph.disagreement?, hsorted, h.countOverlaps, Graph.disagreement?]
  cases c.countOverlaps a.byStart with
  | error pair => rfl
  | ok count =>
      dsimp only
      rw [h.edgeCount, h.edges, List.find?_map, htest]
      split <;> rfl

end Graph.Carries

/-! ## Recognition -/

/-- What becomes of a list of vertices, with the vertices renamed. -/
def Buildup.rename (ι : Vertex → Vertex) : Buildup CliqueTree → Buildup CliqueTree
  | .complete tree => .complete (tree.rename ι)
  | .stuck v => .stuck (ι v)

/-- The outcome with the vertices renamed. -/
def Verdict.rename (ι : Vertex → Vertex) : Verdict → Verdict
  | .represented order intervals => .represented (order.map ι) (intervals.rename ι)
  | .hole cycle => .hole (cycle.map ι)
  | .asteroidal triple => .asteroidal (triple.rename ι)

theorem CliqueTree.insertAll_rename (h : Graph.Carries ι c g) (t : CliqueTree)
    (vs : List Vertex) : SameAnswer (Buildup.rename ι) (t.insertAll c vs)
      ((t.rename ι).insertAll g (vs.map ι)) := by
  induction vs generalizing t with
  | nil => exact .ok (Buildup.complete t)
  | cons v rest ih =>
      rw [List.map_cons, insertAll, insertAll]
      rcases (insert_rename h t v).cases with ⟨placement, hc, hg⟩ | ⟨d, e, hc, hg⟩
      · rw [hc, hg]
        cases placement with
        | placed tree => exact ih tree
        | noRoom => exact .ok (Buildup.stuck v)
      · rw [hc, hg]
        exact .error d e

namespace Graph.Carries

variable (h : Carries ι c g)

include h

theorem cliqueTree : SameAnswer (Buildup.rename ι) c.cliqueTree g.cliqueTree := by
  rw [Graph.cliqueTree, Graph.cliqueTree, h.lexRanking]
  exact CliqueTree.insertAll_rename h CliqueTree.empty _

/-- Corresponding intervals pass the check or fail it alike. -/
theorem represented (options : Options) (order : List Vertex) {a : Assignment}
    (hc : ∀ e ∈ a, e.1 < c.bound) (hg : ∀ e ∈ a.rename ι, e.1 < g.bound) :
    SameAnswer (Verdict.rename ι) (c.represented options order a)
      (g.represented options (order.map ι) (a.rename ι)) := by
  have hpair : (if options.checkIntervals then g.markedDisagreement? (a.rename ι) else none) =
      (if options.checkIntervals then c.markedDisagreement? a else none).map (Prod.map ι ι) := by
    rw [markedDisagreement?_eq hg, markedDisagreement?_eq hc, h.disagreement?]
    split <;> rfl
  rw [Graph.represented, Graph.represented, hpair]
  cases (if options.checkIntervals then c.markedDisagreement? a else none) with
  | some pair => exact .error _ _
  | none => exact .ok (Verdict.represented order a)

theorem recognizeChordal (hc : c.Consistent) (hg : g.Consistent) (options : Options)
    (order : List Vertex) : SameAnswer (Verdict.rename ι) (c.recognizeChordal options order)
      (g.recognizeChordal options (order.map ι)) := by
  rcases h.cliqueTree.cases with ⟨buildup, htc, htg⟩ | ⟨d, e, htc, htg⟩
  · cases buildup with
    | stuck v =>
        rw [hc.recognizeChordal_of_stuck htc, hg.recognizeChordal_of_stuck htg]
        rcases (h.asteroidalTriple hc hg v options.givePaths).cases with
          ⟨triple, hac, hag⟩ | ⟨d, e, hac, hag⟩
        · rw [hac, hag]
          exact .ok (Verdict.asteroidal triple)
        · rw [hac, hag]
          exact .error _ _
    | complete tree =>
        have hintervals := CliqueTree.intervals_rename h.mono tree
        rw [hc.recognizeChordal_of_complete htc, hg.recognizeChordal_of_complete htg, hintervals]
        exact h.represented options order (hc.lt_bound_of_intervals htc)
          (hintervals ▸ hg.lt_bound_of_intervals htg)
  · rw [hc.recognizeChordal_of_error htc, hg.recognizeChordal_of_error htg]
    exact .error d e

/-- Two graphs that correspond are recognized alike, with corresponding orders, intervals and
certificates. -/
theorem recognize (hc : c.Consistent) (hg : g.Consistent) (options : Options) :
    SameAnswer (Verdict.rename ι) (c.recognize options) (g.recognize options) := by
  unfold Graph.recognize
  rcases (h.elimination hc hg).cases with ⟨certificate, hec, heg⟩ | ⟨d, e, hec, heg⟩
  · rw [hec, heg]
    cases certificate with
    | order vertices => exact h.recognizeChordal hc hg options vertices
    | hole cycle => exact .ok (Verdict.hole cycle)
  · rw [hec, heg]
    exact .error _ _

end Graph.Carries

end CliquePath
