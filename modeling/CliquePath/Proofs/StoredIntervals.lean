import CliquePath.Proofs.Chordality
import CliquePath.Proofs.Graph.EditRuns
import CliquePath.Proofs.Renaming.Recognition
import CliquePath.Proofs.Representation.Exactness
import Mathlib

set_option autoImplicit false

/-!
# Stored intervals

This module says what a recognition that stores its intervals leaves in the graph. Everything but
the stored intervals is as before (`forgetIntervals_recognizeAndStore`), so the outcome is that of
the graph as it was. All intervals stored earlier are forgotten first; after an outcome with
intervals, which are entered for every vertex, each vertex has its own, and after any other outcome
none has one.
-/

namespace CliquePath

namespace Graph

variable {g h : Graph} {v : Vertex} {options : Options}

/-! ## All but the intervals -/

/-- Vertices, labels, edges and the order of all neighbours are the same. -/
structure SameButIntervals (g h : Graph) : Prop where
  bound : h.bound = g.bound
  vertices : h.vertices = g.vertices
  vertexCount : h.vertexCount = g.vertexCount
  label : ∀ v, h.label? v = g.label? v
  neighbors : ∀ v, h.neighbors v = g.neighbors v
  edgeSet : h.edgeSet = g.edgeSet
  edges : h.edges = g.edges

theorem neighbors_forgetIntervals (g : Graph) (v : Vertex) :
    g.forgetIntervals.neighbors v = g.neighbors v := by
  rw [neighbors, record?_forgetIntervals, Option.map_map]
  rfl

theorem label?_forgetIntervals (g : Graph) (v : Vertex) :
    g.forgetIntervals.label? v = g.label? v := by
  rw [label?, record?_forgetIntervals, Option.map_map]
  rfl

theorem interval?_forgetIntervals (g : Graph) (v : Vertex) :
    g.forgetIntervals.interval? v = none := by
  rw [interval?, record?_forgetIntervals]
  cases g.record? v <;> rfl

@[simp]
theorem contains_forgetIntervals (g : Graph) (v : Vertex) :
    g.forgetIntervals.contains v = g.contains v := by
  rw [contains, record?_forgetIntervals, Option.isSome_map, contains]

@[simp]
theorem bound_forgetIntervals (g : Graph) : g.forgetIntervals.bound = g.bound := by
  simp [forgetIntervals, bound]

theorem vertices_forgetIntervals (g : Graph) : g.forgetIntervals.vertices = g.vertices := by
  rw [vertices, bound_forgetIntervals, vertices]
  exact List.filter_congr fun v _ => contains_forgetIntervals g v

/-- Two graphs that differ in stored intervals only are the same once these are forgotten. -/
theorem sameButIntervals_of_forgetIntervals (heq : h.forgetIntervals = g.forgetIntervals) :
    SameButIntervals g h := by
  have hvertices : h.vertices = g.vertices := by
    rw [← vertices_forgetIntervals h, heq, vertices_forgetIntervals]
  have hneighbors : ∀ v, h.neighbors v = g.neighbors v := fun v => by
    rw [← neighbors_forgetIntervals h, heq, neighbors_forgetIntervals]
  refine ⟨?_, hvertices, ?_, fun v => ?_, hneighbors, ?_, ?_⟩
  · rw [← bound_forgetIntervals h, heq, bound_forgetIntervals]
  · show h.forgetIntervals.vertexCount = g.forgetIntervals.vertexCount
    rw [heq]
  · rw [← label?_forgetIntervals h, heq, label?_forgetIntervals]
  · show h.forgetIntervals.edgeSet = g.forgetIntervals.edgeSet
    rw [heq]
  · simp only [edges, hvertices, hneighbors]

theorem forgetIntervals_forgetIntervals (g : Graph) :
    g.forgetIntervals.forgetIntervals = g.forgetIntervals := by
  simp only [forgetIntervals, Array.map_map, Graph.mk.injEq, and_true]
  refine congrArg (fun f => g.slots.map f) (funext fun slot => ?_)
  cases slot <;> rfl

theorem forgetIntervals_storeInterval (g : Graph) (v : Vertex) (i : Interval) :
    (g.storeInterval v i).forgetIntervals = g.forgetIntervals := by
  simp only [forgetIntervals, storeInterval, modifyRecord, Graph.mk.injEq, and_true]
  refine Array.ext (by simp) fun j hj hk => ?_
  have hbound : j < g.slots.size := by simpa using hk
  rw [Array.getElem_map, Array.getElem_map, Array.getElem_modify]
  split
  · cases (g.slots[j]) <;> rfl
  · rfl

theorem forgetIntervals_store (g : Graph) (verdict : Verdict) :
    (g.store verdict).forgetIntervals = g.forgetIntervals := by
  cases verdict with
  | represented order intervals =>
      show (intervals.foldl (fun g e => g.storeInterval e.1 e.2) g).forgetIntervals = _
      induction intervals generalizing g with
      | nil => rfl
      | cons e rest ih => rw [List.foldl_cons, ih, forgetIntervals_storeInterval]
  | hole cycle => rfl
  | asteroidal triple => rfl

theorem forgetIntervals_recognizeAndStore (g : Graph) (options : Options) :
    (g.recognizeAndStore options).2.forgetIntervals = g.forgetIntervals := by
  unfold recognizeAndStore
  dsimp only
  split
  next => exact forgetIntervals_forgetIntervals g
  next => rw [forgetIntervals_store, forgetIntervals_forgetIntervals]

/-! ## The outcome -/

/-- Every graph that edits lead to gets one of the three outcomes, and intervals represent it. -/
theorem Reachable.recognize_cases (hg : g.Reachable) (options : Options) :
    (∃ order intervals, g.recognize options = .ok (.represented order intervals) ∧
      Represents intervals g.vertices g.Linked) ∨
    (∃ cycle, g.recognize options = .ok (.hole cycle)) ∨
      ∃ triple, g.recognize options = .ok (.asteroidal triple) := by
  have hcons := hg.consistent
  by_cases hchordal : Chordal g.vertices g.Linked
  · rcases hg.cliqueTree_cases with ⟨t, hall, hafter⟩ | ⟨pre, v, post, t, hsplit, -, hafter, hno, hstuck⟩
    · have hrep := hcons.represents_of_after hafter
      exact Or.inl ⟨_, _, hcons.recognize_of_complete hchordal hall hrep, hrep⟩
    · obtain ⟨l, r, hast⟩ :=
        hafter.asteroidal_of_refused hcons (hcons.cliqueOrder hchordal) hsplit hno
      obtain ⟨triple, -, -, htriple, -⟩ := hcons.exists_asteroidalTriple hast options.givePaths
      exact Or.inr (Or.inr ⟨triple, hcons.recognize_of_stuck hchordal hstuck htriple⟩)
  · -- Without an unmet demand the graph would be chordal.
    cases hunmet : g.unmetDemand? (g.lexRanking .backward) with
    | none =>
        have hnodup : (g.lexRanking .backward).order.Nodup :=
          List.nodup_reverse.2 hcons.nodup_visits
        have hlater := laterClique_of_unmetDemand? hnodup hcons.symm hunmet
        exact absurd ((LaterClique.cliqueOrder hcons.symm hlater).chordal hcons.mutual
          fun v => hcons.mem_visits.2) hchordal
    | some pair =>
        obtain ⟨cycle, hcycle⟩ := hcons.exists_holeThrough hunmet
        refine Or.inr (Or.inl ⟨cycle, ?_⟩)
        rw [recognize, hcons.elimination_of_some hunmet, hcycle]
        rfl

end Graph

/-- A renaming that keeps every number keeps an outcome. -/
theorem Verdict.rename_id (verdict : Verdict) : verdict.rename id = verdict := by
  cases verdict with
  | represented order intervals => simp [rename, Assignment.rename]
  | hole cycle => simp [rename]
  | asteroidal triple =>
      obtain ⟨first, second, third, paths⟩ := triple
      simp [rename, AsteroidalTriple.rename]

namespace Graph

variable {g : Graph} {v : Vertex} {options : Options}

/-- Stored intervals play no part in a recognition. -/
theorem Reachable.recognize_forgetIntervals (hg : g.Reachable) (options : Options) :
    g.forgetIntervals.recognize options = g.recognize options := by
  have hcons := hg.consistent
  have hcarries : Carries id g.forgetIntervals g := by
    refine ⟨strictMono_id, ?_, fun v => ?_, rfl, rfl⟩
    · rw [vertices_forgetIntervals, List.map_id]
    · rw [neighbors_forgetIntervals, List.map_id, id]
  obtain ⟨verdict, hverdict⟩ : ∃ verdict, g.recognize options = .ok verdict := by
    rcases hg.recognize_cases options with ⟨order, intervals, h, -⟩ | ⟨cycle, h⟩ | ⟨triple, h⟩
    · exact ⟨_, h⟩
    · exact ⟨_, h⟩
    · exact ⟨_, h⟩
  rcases (hcarries.recognize hcons.forgetIntervals hcons options).cases with
    ⟨outcome, hcleared, hsame⟩ | ⟨d, e, -, herror⟩
  · rw [hcleared, hsame, Verdict.rename_id]
  · rw [hverdict] at herror
    cases herror

/-! ## Storing -/

theorem interval?_storeInterval (g : Graph) (u v : Vertex) (i : Interval) :
    (g.storeInterval u i).interval? v =
      if u = v ∧ g.contains v = true then some i else g.interval? v := by
  rw [interval?, record?_storeInterval, contains, interval?]
  cases g.record? v with
  | none => simp
  | some r => by_cases huv : u = v <;> simp [huv]

theorem contains_storeInterval (g : Graph) (u v : Vertex) (i : Interval) :
    (g.storeInterval u i).contains v = g.contains v := by
  rw [contains, record?_storeInterval, contains]
  split
  next => rw [Option.isSome_map]
  next => rfl

/-- Each vertex gets the interval entered for it, and keeps its own if none is entered. -/
theorem interval?_foldl_storeInterval {intervals : Assignment} (g : Graph)
    (hkeys : (intervals.map Prod.fst).Nodup) (hv : g.contains v = true) :
    (intervals.foldl (fun g e => g.storeInterval e.1 e.2) g).interval? v =
      (intervals.get? v).or (g.interval? v) := by
  induction intervals generalizing g with
  | nil => simp [Assignment.get?]
  | cons e rest ih =>
      obtain ⟨w, i⟩ := e
      obtain ⟨hnew, hrest⟩ := List.nodup_cons.1 hkeys
      rw [List.foldl_cons, ih _ hrest (by rwa [contains_storeInterval]), interval?_storeInterval,
        Assignment.get?_cons]
      by_cases hvw : v = w
      · -- No later entry is for the same vertex.
        subst hvw
        have hlater : Assignment.get? rest v = none := by
          cases hget : Assignment.get? rest v with
          | none => rfl
          | some j => exact absurd (List.mem_map_of_mem (Assignment.mem_of_get? hget)) hnew
        simp [hlater, hv]
      · simp [hvw, Ne.symm hvw]

/-- Without an interval graph, no interval is left of any earlier recognition. -/
theorem interval?_recognizeAndStore_of_refused (g : Graph) (v : Vertex)
    (hrefused : ∀ order intervals,
      (g.recognizeAndStore options).1 ≠ .ok (.represented order intervals)) :
    (g.recognizeAndStore options).2.interval? v = none := by
  cases hcleared : g.forgetIntervals.recognize options with
  | error e =>
      simp only [recognizeAndStore, hcleared]
      exact interval?_forgetIntervals g v
  | ok verdict =>
      simp only [recognizeAndStore, hcleared] at hrefused ⊢
      cases verdict with
      | represented order intervals => exact absurd rfl (hrefused order intervals)
      | hole cycle => exact interval?_forgetIntervals g v
      | asteroidal triple => exact interval?_forgetIntervals g v

theorem Reachable.recognizeAndStore_fst (hg : g.Reachable) (options : Options) :
    (g.recognizeAndStore options).1 = g.recognize options := by
  rw [← hg.recognize_forgetIntervals options, Graph.recognizeAndStore]
  cases g.forgetIntervals.recognize options <;> rfl

/-- An interval graph ends with the intervals of the outcome and no others. -/
theorem Reachable.interval?_recognizeAndStore (hg : g.Reachable) {order : List Vertex}
    {intervals : Assignment}
    (hanswer : (g.recognizeAndStore options).1 = .ok (.represented order intervals))
    (hv : v ∈ g.vertices) :
    ∃ i, intervals.get? v = some i ∧ (g.recognizeAndStore options).2.interval? v = some i := by
  rw [hg.recognizeAndStore_fst] at hanswer
  -- The outcome has an interval for each vertex, so nothing that is stored is left over.
  obtain ⟨order', intervals', hrepresented, hrep⟩ : ∃ order' intervals',
      g.recognize options = .ok (.represented order' intervals') ∧
        Represents intervals' g.vertices g.Linked := by
    rcases hg.recognize_cases options with hrep | ⟨cycle, h⟩ | ⟨triple, h⟩
    · exact hrep
    · rw [hanswer] at h
      cases h
    · rw [hanswer] at h
      cases h
  rw [hanswer] at hrepresented
  cases hrepresented
  have hkeys : (intervals.map Prod.fst).Nodup := hrep.keys ▸ hrep.ascending.imp Nat.ne_of_lt
  obtain ⟨e, he, rfl⟩ := List.mem_map.1 (hrep.keys.symm ▸ hv)
  have hget := Assignment.get?_of_mem hkeys he
  refine ⟨e.2, hget, ?_⟩
  have hcontains : g.forgetIntervals.contains e.1 = true := by
    rw [contains_forgetIntervals]
    exact (List.mem_filter.1 hv).2
  rw [← hg.recognize_forgetIntervals] at hanswer
  simp only [Graph.recognizeAndStore, hanswer]
  show (intervals.foldl (fun g e => g.storeInterval e.1 e.2) g.forgetIntervals).interval? e.1 = _
  rw [interval?_foldl_storeInterval _ hkeys hcontains, hget]
  rfl

/-- A recognition that stores its intervals answers for the graph as it was, whatever intervals
earlier ones left. It stores those of its outcome for all vertices, or none at all, and changes
nothing else. -/
theorem recognizeAndStore_exact (hg : g.Reachable) (options : Options) :
    (g.recognizeAndStore options).1 = g.recognize options ∧
      (∀ order intervals,
        (g.recognizeAndStore options).1 = .ok (.represented order intervals) →
          ∀ v ∈ g.vertices, ∃ i, intervals.get? v = some i ∧
            (g.recognizeAndStore options).2.interval? v = some i) ∧
      ((∀ order intervals,
        (g.recognizeAndStore options).1 ≠ .ok (.represented order intervals)) →
          ∀ v, (g.recognizeAndStore options).2.interval? v = none) ∧
      SameButIntervals g (g.recognizeAndStore options).2 := by
  refine ⟨hg.recognizeAndStore_fst options, ?_, ?_, ?_⟩
  · exact fun order intervals hanswer v hv => hg.interval?_recognizeAndStore hanswer hv
  · exact fun hrefused v => interval?_recognizeAndStore_of_refused g v hrefused
  · exact sameButIntervals_of_forgetIntervals (forgetIntervals_recognizeAndStore g options)

/-- A path on three vertices. Intervals were stored when it had two. -/
def outgrown : Graph :=
  ((((edgeless 2).join 0 1).recognizeAndStore .full).2.push "end").join 1 2

/-- A cycle on four vertices. Intervals were stored for all but the last one. -/
def closedUp : Graph := (((outgrown.recognizeAndStore .full).2.push "last").join 2 3).join 3 0

theorem reachable_outgrown : outgrown.Reachable := by
  have hstored : (((edgeless 2).join 0 1).recognizeAndStore .full).2.Reachable :=
    .recognizeAndStore .full (.insertEdge (reachable_edgeless 2) (u := 0) (v := 1) rfl)
  have hjoin : ((((edgeless 2).join 0 1).recognizeAndStore .full).2.push "end").insertEdge 1 2 =
      (.ok true, outgrown) := by
    cbv
  exact .insertEdge (.push "end" hstored) (congrArg Prod.snd hjoin)

theorem reachable_closedUp : closedUp.Reachable := by
  have hopen : ((outgrown.recognizeAndStore .full).2.push "last").insertEdge 2 3 =
      (.ok true, ((outgrown.recognizeAndStore .full).2.push "last").join 2 3) := by
    cbv
  have hclose : (((outgrown.recognizeAndStore .full).2.push "last").join 2 3).insertEdge 3 0 =
      (.ok true, closedUp) := by
    cbv
  have hpath : (((outgrown.recognizeAndStore .full).2.push "last").join 2 3).Reachable :=
    .insertEdge (.push "last" (.recognizeAndStore .full reachable_outgrown))
      (congrArg Prod.snd hopen)
  exact .insertEdge hpath (congrArg Prod.snd hclose)

theorem recognizeAndStore_exact_regrown :
    (outgrown.Reachable ∧ outgrown.interval? 1 = some ⟨1, 2⟩ ∧ outgrown.interval? 2 = none ∧
      (outgrown.recognizeAndStore .full).2.interval? 1 = some ⟨1, 3⟩ ∧
      (outgrown.recognizeAndStore .full).2.interval? 2 = some ⟨2, 3⟩) ∧
    (closedUp.Reachable ∧ closedUp.interval? 1 = some ⟨1, 3⟩ ∧
      (closedUp.recognizeAndStore .full).1 = .ok (.hole [3, 0, 1, 2]) ∧
      ∀ v, (closedUp.recognizeAndStore .full).2.interval? v = none) := by
  refine ⟨⟨reachable_outgrown, by cbv, by cbv, ?_⟩, reachable_closedUp, by cbv, ?_⟩
  · obtain ⟨hsame, hstored, -, -⟩ := recognizeAndStore_exact reachable_outgrown .full
    have hanswer : outgrown.recognize .full =
        .ok (.represented [2, 1, 0] [(0, ⟨1, 2⟩), (1, ⟨1, 3⟩), (2, ⟨2, 3⟩)]) := by
      cbv
    have hvertices : outgrown.vertices = [0, 1, 2] := by cbv
    obtain ⟨i, hi, hmiddle⟩ := hstored _ _ (hsame.trans hanswer) 1 (by simp [hvertices])
    obtain ⟨j, hj, hend⟩ := hstored _ _ (hsame.trans hanswer) 2 (by simp [hvertices])
    cases hi
    cases hj
    exact ⟨hmiddle, hend⟩
  · obtain ⟨hsame, -, hcleared, -⟩ := recognizeAndStore_exact reachable_closedUp .full
    have hanswer : closedUp.recognize .full = .ok (.hole [3, 0, 1, 2]) := by cbv
    refine ⟨hsame.trans hanswer, hcleared fun order intervals => ?_⟩
    rw [hsame, hanswer]
    intro hrepresented
    cases hrepresented

end Graph

end CliquePath
