import CliquePath.Proofs.Graph.EdgeSet
import CliquePath.Proofs.Graph.EditRuns
import CliquePath.Proofs.Representation.Marks

set_option autoImplicit false

/-!
# What the check of a representation finds

This module says for any assignment of non-empty intervals, whether or not it has all vertices, what
the check against a graph finds. It finds nothing exactly if the assignment agrees with the graph,
and a pair that it finds disagrees.

The sweep meets no pair twice, so the pairs that it meets, if all are adjacent, are so many
different edges. If there are as many of them as the graph has edges, they are all the edges, and
none is left that could lack an overlap.
-/

namespace CliquePath

variable {g : Graph} {a : Assignment} {entries : List (Vertex × Interval)}

namespace Assignment

theorem mem_of_get? {v : Vertex} {i : Interval} (h : a.get? v = some i) : (v, i) ∈ a := by
  obtain ⟨front, rest, rfl, -⟩ := List.lookup_eq_some_iff.1 h
  exact List.mem_append_right _ List.mem_cons_self

/-- The sweep meets no two vertices twice, in whichever order. -/
theorem Swept.nodup_crossings (h : Swept entries) :
    ((crossings entries).map fun p => sortedEnds p.1 p.2).Nodup := by
  induction entries with
  | nil => exact .nil
  | cons first rest ih =>
      rw [crossings, List.map_append, List.map_map]
      refine List.nodup_append.2 ⟨?_, ih h.tail, ?_⟩
      · -- The pairs of the first entry differ in their second vertices.
        have hdistinct := h.tail.distinct.sublist (List.takeWhile_sublist
          fun e => decide (e.2.start < first.2.stop))
        refine List.pairwise_map.2 (hdistinct.imp fun {e f} hne heq => hne ?_)
        rcases (Graph.sortedEnds_eq_iff _ _ _ _).1 heq with ⟨-, heq⟩ | ⟨hleft, hright⟩
        · exact heq
        · exact hright.trans hleft
      · -- The later pairs do not have the first vertex.
        rintro p hp q hq rfl
        obtain ⟨e, he, rfl⟩ := List.mem_map.1 hp
        obtain ⟨r, hr, heq⟩ := List.mem_map.1 hq
        obtain ⟨x, hx, y, hy, rfl, -⟩ := h.tail.exists_of_mem_crossings hr
        rcases (Graph.sortedEnds_eq_iff _ _ _ _).1 heq with ⟨heq, -⟩ | ⟨-, heq⟩
        · exact h.ne_first hx heq.symm
        · exact h.ne_first hy heq.symm

end Assignment

namespace Graph

open Assignment

/-- If the pairs met are adjacent, and as many as there are edges, every edge is one of them. -/
theorem mem_crossings_of_length_eq (hg : g.Reachable) (hswept : Swept entries)
    (hadjacent : ∀ p ∈ crossings entries, g.adjacent p.1 p.2 = true)
    (hlength : (crossings entries).length = g.edgeCount) {u v : Vertex}
    (hedge : g.hasEdge u v = true) :
    (u, v) ∈ crossings entries ∨ (v, u) ∈ crossings entries := by
  have hsubset : (crossings entries).map (fun p => sortedEnds p.1 p.2) ⊆ g.edgeSet := by
    intro e he
    obtain ⟨p, hp, rfl⟩ := List.mem_map.1 he
    exact (mem_edgeSet_iff hg.consistent rfl).2 (adjacent_iff.1 (hadjacent p hp))
  have hperm := (List.subperm_of_subset hswept.nodup_crossings hsubset).perm_of_length_le
    (by rw [List.length_map, hlength, edgeCount])
  have hmem : sortedEnds u v ∈ g.edgeSet := List.contains_iff_mem.1 hedge
  obtain ⟨⟨x, y⟩, hp, heq⟩ := List.mem_map.1 (hperm.mem_iff.2 hmem)
  rcases (sortedEnds_eq_iff _ _ _ _).1 heq with ⟨rfl, rfl⟩ | ⟨rfl, rfl⟩
  · exact Or.inl hp
  · exact Or.inr hp

/-- Overlapping entries that are all adjacent, and an overlap for every edge, are an agreement. -/
theorem Consistent.agrees_of (hg : g.Consistent) (hkeys : (a.map Prod.fst).Nodup)
    (hswept : Swept a.byStart) (hadjacent : ∀ p ∈ crossings a.byStart, g.adjacent p.1 p.2 = true)
    (hoverlaps : ∀ u v, g.hasEdge u v = true →
      ∃ i j, (u, i) ∈ a ∧ (v, j) ∈ a ∧ i.overlaps j = true) : g.Agrees a := by
  refine ⟨fun e he f hf hne => ⟨fun hover => ?_, fun hedge => ?_⟩, fun u v hedge => ?_⟩
  · rw [hg.edge]
    rcases hswept.mem_crossings_or (mem_byStart.2 he) (mem_byStart.2 hf) hne hover with hmet | hmet
    · exact adjacent_iff.1 (hadjacent _ hmet)
    · exact hg.symm _ _ (adjacent_iff.1 (hadjacent _ hmet))
  · obtain ⟨i, j, hi, hj, hover⟩ := hoverlaps e.1 f.1 hedge
    -- A vertex has one interval only.
    have heq := get?_of_mem hkeys he
    have heq' := get?_of_mem hkeys hf
    rw [get?_of_mem hkeys hi, Option.some.injEq] at heq
    rw [get?_of_mem hkeys hj, Option.some.injEq] at heq'
    rwa [← heq, ← heq']
  · obtain ⟨i, j, hi, hj, -⟩ := hoverlaps u v hedge
    exact ⟨i, j, hi, hj⟩

/-- The edges that pass the last test of the check overlap. -/
theorem exists_of_edgeOverlaps {e : Vertex × Vertex} (h : edgeOverlaps a e = true) :
    ∃ i j, (e.1, i) ∈ a ∧ (e.2, j) ∈ a ∧ i.overlaps j = true := by
  unfold edgeOverlaps at h
  split at h
  next i j hi hj => exact ⟨i, j, mem_of_get? hi, mem_of_get? hj, h⟩
  next => cases h

/-- An assignment that passes the check agrees with the graph. -/
theorem agrees_of_disagreement? (hg : g.Reachable) (hkeys : (a.map Prod.fst).Nodup)
    (hnonempty : ∀ e ∈ a, e.2.start < e.2.stop) (h : g.disagreement? a = none) : g.Agrees a := by
  have hc := hg.consistent
  have hswept := swept_byStart hkeys hnonempty
  rw [disagreement?, countOverlaps_eq] at h
  cases hfind : (crossings a.byStart).find? fun p => !g.adjacent p.1 p.2 with
  | some pair =>
      rw [hfind] at h
      cases h
  | none =>
      have hadjacent : ∀ p ∈ crossings a.byStart, g.adjacent p.1 p.2 = true := by
        simpa using List.find?_eq_none.1 hfind
      rw [hfind] at h
      dsimp only at h
      refine hc.agrees_of hkeys hswept hadjacent fun u v hedge => ?_
      split at h
      next hlength =>
        -- Every edge is one of the pairs met.
        rcases mem_crossings_of_length_eq hg hswept hadjacent hlength hedge with hmet | hmet
        · obtain ⟨e, he, f, hf, heq, -, hover⟩ := hswept.exists_of_mem_crossings hmet
          obtain ⟨rfl, rfl⟩ := Prod.mk.inj heq
          exact ⟨e.2, f.2, mem_byStart.1 he, mem_byStart.1 hf, hover⟩
        · obtain ⟨f, hf, e, he, heq, -, hover⟩ := hswept.exists_of_mem_crossings hmet
          obtain ⟨rfl, rfl⟩ := Prod.mk.inj heq
          rw [Interval.overlaps_comm] at hover
          exact ⟨e.2, f.2, mem_byStart.1 he, mem_byStart.1 hf, hover⟩
      next =>
        -- Every edge was looked up.
        have hedges : ∀ e ∈ g.edges, edgeOverlaps a e = true := by
          simpa using List.find?_eq_none.1 h
        have hlinked := (hc.edge u v).1 hedge
        rcases Nat.lt_trichotomy u v with hlt | rfl | hlt
        · exact exists_of_edgeOverlaps (hedges (u, v) (mem_edges.2 ⟨hlinked, hlt⟩))
        · exact absurd hlinked (hc.irrefl u)
        · obtain ⟨j, i, hj, hi, hover⟩ := exists_of_edgeOverlaps
            (hedges (v, u) (mem_edges.2 ⟨hc.symm u v hlinked, hlt⟩))
          exact ⟨i, j, hi, hj, by rwa [Interval.overlaps_comm]⟩

/-- Two vertices disagree with their intervals: these overlap without an edge, or do not overlap
across an edge, or one of the two is missing across an edge. -/
inductive Disagrees (g : Graph) (a : Assignment) (u v : Vertex) : Prop
  | intervals {i j : Interval} : u ≠ v → a.get? u = some i → a.get? v = some j →
      i.overlaps j ≠ g.hasEdge u v → Disagrees g a u v
  | missing : g.hasEdge u v = true → a.get? u = none ∨ a.get? v = none → Disagrees g a u v

/-- A pair that the check finds disagrees. -/
theorem disagrees_of_disagreement? (hg : g.Consistent) (hkeys : (a.map Prod.fst).Nodup)
    (hnonempty : ∀ e ∈ a, e.2.start < e.2.stop) {u v : Vertex}
    (h : g.disagreement? a = some (u, v)) : g.Disagrees a u v := by
  rw [disagreement?, countOverlaps_eq] at h
  cases hfind : (crossings a.byStart).find? fun p => !g.adjacent p.1 p.2 with
  | some pair =>
      rw [hfind] at h
      cases h
      obtain ⟨e, he, f, hf, heq, hne, hover⟩ := (swept_byStart hkeys hnonempty).exists_of_mem_crossings
        (List.mem_of_find?_eq_some hfind)
      obtain ⟨rfl, rfl⟩ := Prod.mk.inj heq
      have hno : g.adjacent e.1 f.1 = false := by simpa using List.find?_some hfind
      refine .intervals hne (get?_of_mem hkeys (mem_byStart.1 he))
        (get?_of_mem hkeys (mem_byStart.1 hf)) fun hsame => ?_
      rw [hover, eq_comm, hg.edge, ← adjacent_iff, hno] at hsame
      cases hsame
  | none =>
      rw [hfind] at h
      dsimp only at h
      split at h
      next => cases h
      next =>
        obtain ⟨hlinked, hlt⟩ := mem_edges.1 (List.mem_of_find?_eq_some h)
        have hedge := (hg.edge u v).2 hlinked
        have hno : edgeOverlaps a (u, v) = false := by simpa using List.find?_some h
        unfold edgeOverlaps at hno
        split at hno
        next i j hi hj =>
          refine .intervals (Nat.ne_of_lt hlt) hi hj ?_
          rw [hno, hedge]
          exact Bool.false_ne_true
        next hmissing =>
          refine .missing hedge ?_
          cases hi : a.get? u with
          | none => exact Or.inl rfl
          | some i =>
              cases hj : a.get? v with
              | none => exact Or.inr rfl
              | some j => exact absurd hj (hmissing i j hi)

/-- The check of a representation with marks is exact for every assignment of non-empty intervals to
numbers of vertices, whatever the order of its entries and whether or not it has all vertices. It
finds nothing exactly if two intervals overlap just when their vertices are joined by an edge and
both ends of every edge have intervals. A pair that it finds is one for which this fails. -/
theorem markedDisagreement?_exact (hg : g.Reachable) (hkeys : (a.map Prod.fst).Nodup)
    (hbound : ∀ e ∈ a, e.1 < g.bound) (hnonempty : ∀ e ∈ a, e.2.start < e.2.stop) :
    let answer := g.markedDisagreement? a
    answer = g.disagreement? a ∧ (answer = none ↔ g.Agrees a) ∧
      ∀ u v, answer = some (u, v) → g.Disagrees a u v := by
  rw [markedDisagreement?_eq hbound]
  refine ⟨rfl, ⟨agrees_of_disagreement? hg hkeys hnonempty, fun h => ?_⟩, fun u v h => ?_⟩
  · exact h.disagreement?_eq_none hg.consistent hkeys hnonempty
  · exact disagrees_of_disagreement? hg.consistent hkeys hnonempty h

/-- The path on the vertices 0, 1 and 3; the vertex 2 was removed. -/
def holedPath : Graph :=
  built [.push "a", .push "b", .push "c", .push "d", .connect 0 1, .connect 1 3, .eraseVertex 2]

/-- Intervals for the path, and one for the removed vertex that touches that of the vertex 3. -/
def touching : Assignment := [(3, ⟨4, 6⟩), (2, ⟨6, 7⟩), (1, ⟨2, 5⟩), (0, ⟨1, 3⟩)]

/-- Without the first entry the edge between the vertices 1 and 3 misses an end. -/
theorem markedDisagreement?_exact_holedPath : holedPath.Reachable ∧
    (touching.map Prod.fst).Nodup ∧ (∀ e ∈ touching, e.1 < holedPath.bound) ∧
    (∀ e ∈ touching, e.2.start < e.2.stop) ∧ holedPath.markedDisagreement? touching = none ∧
    ∃ u v, holedPath.markedDisagreement? touching.tail = some (u, v) ∧
      holedPath.Disagrees touching.tail u v := by
  have hreach : holedPath.Reachable := reachable_built _
  have hkeys : (touching.map Prod.fst).Nodup := by decide
  have hbound : ∀ e ∈ touching, e.1 < holedPath.bound := by decide
  have hnonempty : ∀ e ∈ touching, e.2.start < e.2.stop := by decide
  have hagrees : holedPath.Agrees touching := by
    refine ⟨by decide, fun u v hedge => ?_⟩
    have hends : ∀ u ∈ holedPath.vertices, ∃ i, (u, i) ∈ touching := by
      have hmem : ∀ u ∈ holedPath.vertices, u ∈ touching.map Prod.fst := by decide
      intro u hu
      obtain ⟨e, he, rfl⟩ := List.mem_map.1 (hmem u hu)
      exact ⟨e.2, he⟩
    obtain ⟨hu, hv⟩ :=
      hreach.consistent.mem_vertices_of_linked ((hreach.consistent.edge u v).1 hedge)
    obtain ⟨i, hi⟩ := hends u hu
    obtain ⟨j, hj⟩ := hends v hv
    exact ⟨i, j, hi, hj⟩
  obtain ⟨-, hnone, -⟩ := markedDisagreement?_exact hreach hkeys hbound hnonempty
  refine ⟨hreach, hkeys, hbound, hnonempty, hnone.2 hagrees, ?_⟩
  obtain ⟨-, hnone', hsome⟩ := markedDisagreement?_exact (a := touching.tail) hreach (by decide)
    (by decide) (by decide)
  cases hanswer : holedPath.markedDisagreement? touching.tail with
  | none =>
      obtain ⟨-, j, -, hj⟩ := (hnone'.1 hanswer).covered 1 3 (by decide)
      have habsent : 3 ∉ touching.tail.map Prod.fst := by decide
      exact absurd (List.mem_map_of_mem (f := Prod.fst) hj) habsent
  | some pair => exact ⟨pair.1, pair.2, rfl, hsome pair.1 pair.2 hanswer⟩

end Graph

end CliquePath
