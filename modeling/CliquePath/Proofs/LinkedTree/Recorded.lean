import CliquePath.Proofs.CliqueTree.Positions
import CliquePath.Proofs.LinkedTree.Intervals

set_option autoImplicit false

/-!
# What a linked tree knows of its graph

This module states what a linked tree is after any insertions that took in their vertices, whatever graphs
these were taken from. The calls record a graph: each vertex is joined to those of its neighbours that
were in the tree when the vertex was put in. The tree takes in the next vertex whenever the recorded graph
stays an interval graph, its intervals represent the recorded graph, and its cliques are the maximal ones.
All of this is known of the clique tree to which the same calls lead.
-/

namespace CliquePath

namespace LinkedTree

open CliquePath.Graph (threePath reachable_threePath)

variable {b : Nat} {calls : List Call} {u v w : Vertex} {g : Graph}

/-- Two vertices are joined in the graph that the calls record. -/
def Joined (calls : List Call) : Vertex → Vertex → Prop := CliqueTree.recorded (recorded calls)

theorem mem_inserted_recorded : v ∈ CliqueTree.inserted (recorded calls) ↔ v ∈ calls.map Call.vertex := by
  simp [CliqueTree.inserted, recorded]

/-- Sorted, the vertices of the calls are the same in either order. -/
theorem mergeSort_inserted (h : (CliqueTree.inserted (recorded calls)).Nodup) :
    (CliqueTree.inserted (recorded calls)).mergeSort = (calls.map Call.vertex).mergeSort := by
  have hperm : (CliqueTree.inserted (recorded calls)).Perm (calls.map Call.vertex) := by
    simp [CliqueTree.inserted, recorded, Function.comp_def]
  have hsorted : (CliqueTree.inserted (recorded calls)).mergeSort.Perm
      (calls.map Call.vertex).mergeSort :=
    ((List.mergeSort_perm _ _).trans hperm).trans (List.mergeSort_perm _ _).symm
  exact hsorted.eq_of_pairwise (fun a b _ _ hab hba => absurd hba (Nat.lt_asymm hab))
    (pairwise_mergeSort_lt h) (pairwise_mergeSort_lt (hperm.nodup_iff.1 h))

theorem recorded_concat (calls : List Call) (g : Graph) (u : Vertex) :
    recorded (calls ++ [⟨g, u⟩]) = (g, u) :: recorded calls := by
  simp [recorded]

/-- After calls that took in their vertices, the linked tree stands for the clique tree with that history,
and its vertices are those of the calls. -/
theorem exists_history (hgraphs : ∀ c ∈ calls, c.graph.Reachable)
    (hall : ∀ answer ∈ (new b).answers calls, answer = .ok .inserted) :
    ∃ ct, CliqueTree.After (recorded calls) ct ∧ ((new b).after calls).Mirrors ct ∧
      ((new b).after calls).Sound {v | v ∈ ct.placed} := by
  have hstart : CliqueTree.After (recorded []) .empty := .start
  obtain ⟨ct, hct, hmirrors⟩ := (mirrors_new b).run hstart hgraphs hall
  have hnone : .ok .rejected ∉ (new b).answers calls := fun hrejected => by cases hall _ hrejected
  have hsound := (sound_new b).run hnone
  refine ⟨ct, hct, hmirrors, ?_⟩
  -- the vertices of the tree are those with a slot, in both descriptions
  convert hsound using 1
  ext v
  obtain ⟨M, hM⟩ := hsound.tree
  have hplaced : ((new b).after calls).slots.get v ≠ .absent ↔ v ∈ ct.placed :=
    Work.Forms.placed hmirrors
  rw [← hM.agree.placed v]
  exact hplaced.symm

/-- Ends of 32 bits hold all positions of a tree that took in its vertices, if these are not too many. -/
theorem intervals32_after (hgraphs : ∀ c ∈ calls, c.graph.Reachable)
    (hall : ∀ answer ∈ (new b).answers calls, answer = .ok .inserted)
    (hsize : calls.length + 1 < UInt32.size) :
    ((new b).after calls).intervals32 = ((new b).after calls).intervals := by
  obtain ⟨ct, hct, hmirrors, hsound⟩ := exists_history hgraphs hall
  have hplaced : ct.placed.length = calls.length := by
    rw [hct.keeps.placed, CliqueTree.inserted, List.length_map, recorded, List.length_map,
      List.length_reverse]
  rw [intervals32, hmirrors.intervals_eq hct.keeps.sound hsound]
  exact congrArg Except.ok (hct.keeps.sound.toWords_intervals (hplaced ▸ hsize))

/-- The path on four vertices, put in from one end to the other. The last vertex is new in the graph when
the others are in the tree already. -/
def pathCalls : List Call := [⟨threePath, 0⟩, ⟨threePath, 1⟩, ⟨threePath, 2⟩, ⟨fourPath, 3⟩]

theorem reachable_pathCalls : ∀ c ∈ pathCalls, c.graph.Reachable := by
  simp [pathCalls, reachable_threePath, reachable_fourPath]

theorem inserted_pathCalls : ∀ answer ∈ (new 0).answers pathCalls, answer = .ok .inserted := by
  have hanswers : (new 0).answers pathCalls =
      [.ok .inserted, .ok .inserted, .ok .inserted, .ok .inserted] := by
    cbv
  rw [hanswers]
  decide

/-- A linked tree takes in the next vertex if the neighbours of the vertex in the tree form a clique of
the recorded graph and that graph, with the vertex joined to them, is an interval graph. -/
theorem inserted_of_intervalGraph (b : Nat) (calls : List Call)
    (hgraphs : ∀ c ∈ calls, c.graph.Reachable)
    (hall : ∀ answer ∈ (new b).answers calls, answer = .ok .inserted) (g : Graph) (u : Vertex)
    (hg : g.Reachable) (hu : g.contains u = true) (hnew : u ∉ calls.map Call.vertex)
    (hclique : ∀ v ∈ g.neighbors u, ∀ w ∈ g.neighbors u, v ∈ calls.map Call.vertex →
      w ∈ calls.map Call.vertex → v ≠ w → Joined calls v w)
    (hinterval : IntervalGraph (u :: calls.map Call.vertex) (Joined (calls ++ [⟨g, u⟩]))) :
    (((new b).after calls).insert g u).1 = .ok .inserted := by
  obtain ⟨ct, hct, hmirrors, -⟩ := exists_history hgraphs hall
  have hfollows := hmirrors.insert hct.keeps.sound (hg.consistent.nodup u)
  -- The clique tree has room for the vertex, and the linked tree answers alike.
  obtain ⟨ct', hins⟩ := CliqueTree.placed_of_intervalGraph hct hu (mt mem_inserted_recorded.1 hnew)
    (fun v hv w hw hvc hwc hvw =>
      hclique v hv w hw (mem_inserted_recorded.1 hvc) (mem_inserted_recorded.1 hwc) hvw) (by
      rw [Joined, recorded_concat] at hinterval
      obtain ⟨f, hne, hf⟩ := hinterval
      have hmem : ∀ v ∈ u :: CliqueTree.inserted (recorded calls), v ∈ u :: calls.map Call.vertex := by
        intro v hv
        simpa only [List.mem_cons, mem_inserted_recorded] using hv
      exact ⟨f, fun v hv => hne v (hmem v hv), fun v hv w hw hvw => hf v (hmem v hv) w (hmem w hw) hvw⟩)
  rw [hins] at hfollows
  generalize (((new b).after calls).insert g u).1 = answer at hfollows
  cases hfollows
  rfl

/-- The end of a path on three vertices, put in when the other end and the middle are in the tree. -/
theorem inserted_of_intervalGraph_threePath :
    (((new 0).after [⟨threePath, 0⟩, ⟨threePath, 1⟩]).insert threePath 2).1 = .ok .inserted := by
  have h0 : threePath.neighbors 0 = [1] := rfl
  have h1 : threePath.neighbors 1 = [0, 2] := rfl
  have h2 : threePath.neighbors 2 = [1] := rfl
  have hanswers : (new 0).answers [⟨threePath, 0⟩, ⟨threePath, 1⟩] = [.ok .inserted, .ok .inserted] := by
    cbv
  refine inserted_of_intervalGraph 0 _ (by simp [reachable_threePath]) (by rw [hanswers]; decide)
    threePath 2 reachable_threePath rfl (by decide) ?_ ?_
  · -- the new vertex has one neighbour only
    intro v hv w hw _ _ hvw
    rw [h2, List.mem_singleton] at hv hw
    exact absurd (hv.trans hw.symm) hvw
  · refine ⟨fun v => if v = 0 then ⟨0, 1⟩ else if v = 1 then ⟨0, 2⟩ else ⟨1, 2⟩, ?_, ?_⟩
    · simp
    · simp [Joined, recorded, CliqueTree.recorded, CliqueTree.inserted, h0, h1, h2, Interval.overlaps]

/-- The intervals of a linked tree represent the recorded graph, and start at 1 or later. They are read
out as they are, with ends of 32 bits, if the number of vertices leaves one number of 32 bits to spare. The
tree takes in a vertex only if the neighbours of the vertex in the tree form a clique of that graph. -/
theorem intervals_after_represent (b : Nat) (calls : List Call)
    (hgraphs : ∀ c ∈ calls, c.graph.Reachable)
    (hall : ∀ answer ∈ (new b).answers calls, answer = .ok .inserted) :
    ∃ intervals, ((new b).after calls).intervals = .ok intervals ∧
      Represents intervals (calls.map Call.vertex).mergeSort (Joined calls) ∧
      (∀ e ∈ intervals, 1 ≤ e.2.start) ∧
      (calls.length + 1 < UInt32.size → ((new b).after calls).intervals32 = .ok intervals) ∧
      ∀ g u, g.Reachable → (((new b).after calls).insert g u).1 = .ok .inserted →
        ∀ v ∈ g.neighbors u, ∀ w ∈ g.neighbors u, v ∈ calls.map Call.vertex →
          w ∈ calls.map Call.vertex → v ≠ w → Joined calls v w := by
  obtain ⟨ct, hct, hmirrors, hsound⟩ := exists_history hgraphs hall
  obtain ⟨hrepresents, hstart, hcliques⟩ := CliqueTree.intervals_represent_recorded hct
  have hread := hmirrors.intervals_eq hct.keeps.sound hsound
  refine ⟨ct.intervals, hread, ?_, hstart,
    fun hsize => (intervals32_after hgraphs hall hsize).trans hread, ?_⟩
  · rwa [mergeSort_inserted (hct.keeps.placed ▸ hct.keeps.sound.nodup)] at hrepresents
  · intro g u hg hins v hv w hw hvc hwc hvw
    have hfollows := hmirrors.insert hct.keeps.sound (hg.consistent.nodup u)
    rw [hins] at hfollows
    -- the clique tree that follows took the vertex in, and so its neighbours form a clique
    generalize hct' : ct.insert g u = placement at hfollows
    cases hfollows with
    | inserted =>
        exact hcliques g u _ hg hct' v hv w hw (mem_inserted_recorded.2 hvc)
          (mem_inserted_recorded.2 hwc) hvw

theorem intervals_after_represent_path :
    ((new 0).after pathCalls).intervals = .ok [(0, ⟨1, 2⟩), (1, ⟨1, 3⟩), (2, ⟨2, 4⟩), (3, ⟨3, 4⟩)] ∧
      Represents [(0, ⟨1, 2⟩), (1, ⟨1, 3⟩), (2, ⟨2, 4⟩), (3, ⟨3, 4⟩)] [0, 1, 2, 3] (Joined pathCalls) := by
  have hread : ((new 0).after pathCalls).intervals =
      .ok [(0, ⟨1, 2⟩), (1, ⟨1, 3⟩), (2, ⟨2, 4⟩), (3, ⟨3, 4⟩)] := by
    cbv
  obtain ⟨intervals, hintervals, hrepresents, -⟩ :=
    intervals_after_represent 0 pathCalls reachable_pathCalls inserted_pathCalls
  cases hread.symm.trans hintervals
  have hsorted : (pathCalls.map Call.vertex).mergeSort = [0, 1, 2, 3] :=
    List.mergeSort_of_pairwise (by decide)
  exact ⟨hread, hsorted ▸ hrepresents⟩

/-- The cliques of a linked tree are the maximal cliques of the recorded graph, each once and strictly
ascending, and those of any vertex are consecutive. -/
theorem cliques_after_maximal (b : Nat) (calls : List Call)
    (hgraphs : ∀ c ∈ calls, c.graph.Reachable)
    (hall : ∀ answer ∈ (new b).answers calls, answer = .ok .inserted) :
    ∃ cliques, ((new b).after calls).cliques = .ok cliques ∧
      (∀ K ∈ cliques, K.Pairwise (· < ·)) ∧ cliques.Nodup ∧
      (∀ K : List Vertex, K.Pairwise (· < ·) →
        (K ∈ cliques ↔ MaximalClique (calls.map Call.vertex) (Joined calls) {v | v ∈ K})) ∧
      ∀ v, ∃ first stop : Nat, ∀ p : Nat,
        (∃ K, cliques[p]? = some K ∧ v ∈ K) ↔ first ≤ p ∧ p < stop := by
  obtain ⟨ct, hct, hmirrors, hsound⟩ := exists_history hgraphs hall
  obtain ⟨hascending, hnodup, hmaximal, hconsecutive⟩ := CliqueTree.cliques_maximal hct
  refine ⟨ct.cliques, hmirrors.cliques_eq hsound, hascending, hnodup, fun K hK => ?_, hconsecutive⟩
  rw [hmaximal K hK]
  exact ⟨fun h => h.congr fun v => mem_inserted_recorded,
    fun h => h.congr fun v => mem_inserted_recorded.symm⟩

theorem cliques_after_maximal_path :
    ((new 0).after pathCalls).cliques = .ok [[0, 1], [1, 2], [2, 3]] ∧
      MaximalClique [0, 1, 2, 3] (Joined pathCalls) {v | v ∈ [1, 2]} := by
  have hread : ((new 0).after pathCalls).cliques = .ok [[0, 1], [1, 2], [2, 3]] := by
    cbv
  obtain ⟨cliques, hcliques, -, -, hmaximal, -⟩ :=
    cliques_after_maximal 0 pathCalls reachable_pathCalls inserted_pathCalls
  cases hread.symm.trans hcliques
  exact ⟨hread, (hmaximal [1, 2] (by decide)).1 (by decide)⟩

/-- The cliques and the intervals of a linked tree agree. -/
theorem cliques_after_agree_intervals (b : Nat) (calls : List Call)
    (hgraphs : ∀ c ∈ calls, c.graph.Reachable)
    (hall : ∀ answer ∈ (new b).answers calls, answer = .ok .inserted) :
    ∃ cliques intervals, ((new b).after calls).cliques = .ok cliques ∧
      ((new b).after calls).intervals = .ok intervals ∧
      (∀ v ∈ calls.map Call.vertex, ∃ i, intervals.get? v = some i ∧ i.stop ≤ cliques.length + 1 ∧
        ∀ p, 1 ≤ p → ((∃ K, cliques[p - 1]? = some K ∧ v ∈ K) ↔ i.start ≤ p ∧ p < i.stop)) ∧
      ∀ K ∈ cliques, K.Nodup ∧ ∀ v ∈ K, v ∈ calls.map Call.vertex := by
  obtain ⟨ct, hct, hmirrors, hsound⟩ := exists_history hgraphs hall
  obtain ⟨hagree, hinserted⟩ := CliqueTree.cliques_agree_intervals hct
  refine ⟨ct.cliques, ct.intervals, hmirrors.cliques_eq hsound,
    hmirrors.intervals_eq hct.keeps.sound hsound, fun v hv => hagree v (mem_inserted_recorded.2 hv),
    fun K hK => ⟨(hinserted K hK).1, fun v hv => mem_inserted_recorded.1 ((hinserted K hK).2 v hv)⟩⟩

theorem cliques_after_agree_intervals_path :
    ∃ cliques intervals, ((new 0).after pathCalls).cliques = .ok cliques ∧
      ((new 0).after pathCalls).intervals = .ok intervals ∧
      ∃ i, intervals.get? 1 = some i ∧ i.stop ≤ cliques.length + 1 ∧
        ∀ p, 1 ≤ p → ((∃ K, cliques[p - 1]? = some K ∧ 1 ∈ K) ↔ i.start ≤ p ∧ p < i.stop) := by
  obtain ⟨cliques, intervals, hcliques, hintervals, hagree, -⟩ :=
    cliques_after_agree_intervals 0 pathCalls reachable_pathCalls inserted_pathCalls
  exact ⟨cliques, intervals, hcliques, hintervals, hagree 1 (by decide)⟩

end LinkedTree

end CliquePath
