import CliquePath.Proofs.Search.DetourExactness
import CliquePath.Proofs.Search.LinkedVisits
import CliquePath.Proofs.Search.RankRecords

set_option autoImplicit false

/-!
# Searches over linked groups

This module shows that the two searches of a graph give the same rankings and hop counts over linked
groups as over plain lists, and it says in plain terms which order that is: the vertices stand in
nonempty lists, the first vertex of the last list is visited, and each list is divided into the
vertices that are not neighbours of the visited one and those that are.
-/

namespace CliquePath

namespace LinkedGroups

/-- No groups hold nothing. -/
theorem shows_empty (bound : Nat) : Shows bound (fun _ => False) (empty bound) [] := by
  refine ⟨List.nodup_nil, List.nodup_nil, trivial, rfl, ?_, ?_, ?_, ?_, ?_⟩
  · exact fun b hb => absurd hb List.not_mem_nil
  · exact fun b hb => absurd hb List.not_mem_nil
  · exact fun b hb => absurd hb List.not_mem_nil
  · exact Array.size_replicate
  · intro v c hc
    obtain ⟨cell, hcell, rfl⟩ := Option.map_eq_some_iff.1 hc
    have hdefault : cell = {} := by
      rw [empty, Array.getElem?_replicate] at hcell
      split at hcell
      next => exact (Option.some.inj hcell).symm
      next => cases hcell
    rw [hdefault]
    exact iff_of_false Bool.noConfusion id

/-- A new empty group behind all others. -/
theorem Shows.pushGroup {bound : Nat} {waiting : Vertex → Prop} {p : LinkedGroups}
    {blocks : List Block} (h : Shows bound waiting p blocks) :
    ∃ q, p.pushGroup? = some (q, p.groups.size) ∧
      Shows bound waiting q (blocks ++ [{ id := p.groups.size }]) := by
  have hlast := h.last.symm
  rw [← List.append_nil blocks] at h
  exact h.insertGroup hlast rfl

end LinkedGroups

open LinkedGroups

namespace Graph

variable {g : Graph} {v w : Vertex}

theorem Consistent.neighbors_lt_bound (hg : g.Consistent) (v : Vertex) :
    ∀ w ∈ g.neighbors v, w < g.bound := fun _ hw =>
  lt_bound (hg.mem_vertices_of_linked hw).2

/-- The search over linked groups visits the vertices in the order of the one over plain lists, and
makes the records of these visits. -/
theorem Consistent.linkedRecords?_eq (hg : g.Consistent) (direction : Direction) :
    g.linkedRecords? direction = some (g.recordsOf g.visits direction) := by
  obtain ⟨first, hfirst, hshows⟩ := (shows_empty g.bound).pushGroup
  obtain ⟨second, hsecond, hshows'⟩ := Shows.fill [] [] hshows (nodup_vertices g)
    (fun v _ hv => by simp [members] at hv) fun v hv => lt_bound hv
  have hvisits : visit? g g.vertexCount second = some (logOf g g.visits) := by
    -- without vertices there is a group without vertices, from which nothing is taken
    by_cases hnil : g.vertices = []
    · have hcount : g.vertexCount = 0 := by rw [hg.count, hnil, List.length_nil]
      rw [visits, hcount]
      rfl
    · have hheld : Holds g.bound second [g.vertices] :=
        ⟨_, hshows'.congr (by simp), by simp, by simp⟩
      exact hheld.visit (tidy_vertices hnil) hg.nodup hg.neighbors_lt_bound (by simp [hg.count])
  simp only [linkedRecords?, hfirst, hsecond, hvisits, Option.bind_eq_bind, Option.bind_some,
    map_fst_logOf]
  rfl

theorem Consistent.length_visits (hg : g.Consistent) : g.visits.length = g.vertexCount := by
  rw [hg.count, hg.perm_visits.length_eq]

/-- The two records hold the ranking and the ranks of the search over plain lists. -/
theorem Consistent.exists_linkedRecords (hg : g.Consistent) (direction : Direction) :
    ∃ records, g.linkedRecords? direction = some records ∧
      records.ranking = g.lexRanking direction ∧
      ∀ v, records.rank? v = (g.lexRanking direction).rank? v := by
  have hbound : ∀ v ∈ g.visits, v < g.bound := fun v hv => lt_bound (hg.mem_visits.1 hv)
  exact ⟨_, hg.linkedRecords?_eq direction, ranking_recordsOf hg.length_visits direction,
    rank?_recordsOf hg.length_visits hg.nodup_visits hbound direction⟩

/-- The search over linked groups gives the same ranking as the one over plain lists. -/
theorem Consistent.linkedRanking?_eq (hg : g.Consistent) (direction : Direction) :
    g.linkedRanking? direction = some (g.lexRanking direction) := by
  obtain ⟨records, hrecords, hranking, -⟩ := hg.exists_linkedRecords direction
  rw [linkedRanking?, hrecords, Option.map_some, hranking]

end Graph

namespace Detour

variable {g : Graph} {d : Detour}

/-- The allowed vertices without the two ends. -/
def others (g : Graph) (d : Detour) : List Vertex :=
  g.vertices.filter fun v => v != d.start && v != d.target && !(d.avoided g).contains v

/-- Three fillings put the allowed vertices in the last group and the avoided ones before them. -/
theorem Proper.exists_holds (h : d.Proper g) (hg : g.Consistent) {p : LinkedGroups}
    {low high : GroupId} (hshows : Shows g.bound (fun _ => False) p [{ id := low }, { id := high }]) :
    ∃ q r s t, p.fill? high [d.target, d.start] = some q ∧ q.fill? low (d.avoided g) = some r ∧
      r.fill? high (d.others g) = some s ∧ s.removeIfEmpty? low = some t ∧
      Holds g.bound t [d.allowed g, d.avoided g] := by
  have hperm := h.perm_vertices hg
  have hnodup := hperm.nodup_iff.2 (Graph.nodup_vertices g)
  have hsplit : d.allowed g = [d.target, d.start] ++ d.others g := rfl
  obtain ⟨hallowed, havoided, hdisj⟩ := List.nodup_append.1 hnodup
  have hends := hallowed
  rw [hsplit] at hends
  obtain ⟨hends, hothers, hendsdisj⟩ := List.nodup_append.1 hends
  have hlt : ∀ v ∈ d.allowed g ++ d.avoided g, v < g.bound := fun v hv =>
    Graph.lt_bound (hperm.subset hv)
  -- the ends of the detour are put in first and the others last, behind the avoided ones
  have hendsin : ∀ v ∈ [d.target, d.start], v ∈ d.allowed g := fun v hv =>
    hsplit ▸ List.mem_append_left _ hv
  have hothersin : ∀ v ∈ d.others g, v ∈ d.allowed g := fun v hv =>
    hsplit ▸ List.mem_append_right _ hv
  obtain ⟨q, hq, hq'⟩ := Shows.fill [{ id := low }] [] hshows hends
    (fun v _ hv => by simp [members] at hv)
    fun v hv => hlt v (List.mem_append_left _ (hendsin v hv))
  obtain ⟨r, hr, hr'⟩ := Shows.fill [] _ hq' havoided
    (fun v hv hin => by
      have hin : v ∈ [d.target, d.start] := by simpa [members] using hin
      exact hdisj v (hendsin v hin) v hv rfl)
    fun v hv => hlt v (List.mem_append_right _ hv)
  obtain ⟨s, hs, hs'⟩ := Shows.fill [_] [] hr' hothers
    (fun v hv hin => by
      have hin : v ∈ d.avoided g ∨ v ∈ [d.target, d.start] := by simpa [members] using hin
      rcases hin with hin | hin
      · exact hdisj v (hothersin v hv) v hin rfl
      · exact hendsdisj v hin v hv rfl)
    fun v hv => hlt v (List.mem_append_left _ (hothersin v hv))
  obtain ⟨t, ht, ht'⟩ := Shows.removeIfEmpty [] hs'
  refine ⟨q, r, s, t, hq, hr, hs, ht, _, ht'.congr fun v => ?_, ?_, ?_⟩
  · rw [hsplit]
    simp only [List.flatten_cons, List.flatten_nil, List.append_nil, List.mem_append, or_false]
    tauto
  · simp [avoided]
  · rw [hsplit]
    simp [avoided]

/-- The search for a path over linked groups gives the same ranking and the same hop counts as the
one over plain lists. -/
theorem Proper.linkedSearch?_eq (h : d.Proper g) (hg : g.Consistent) :
    d.linkedSearch? g = some (d.search g) := by
  obtain ⟨first, hfirst, hshows⟩ := (shows_empty g.bound).pushGroup
  obtain ⟨second, hsecond, hshows'⟩ := hshows.pushGroup
  obtain ⟨q, r, s, t, hq, hr, hs, ht, hheld⟩ := h.exists_holds hg hshows'
  have hlen : [d.allowed g, d.avoided g].flatten.length = g.vertexCount := by
    rw [hg.count, ← (h.perm_vertices hg).length_eq]
    simp
  have hvisits := hheld.visit (h.tidy hg) hg.nodup hg.neighbors_lt_bound hlen
  have hcount : (d.visits g).length = g.vertexCount := by
    rw [hg.count, (h.perm_visits hg).length_eq]
  have hranking : (g.recordsOf (d.visits g) .forward).ranking = (d.search g).ranking :=
    Graph.ranking_recordsOf hcount .forward
  rw [others] at hs
  simp only [linkedSearch?, hfirst, hsecond, hq, hr, hs, ht, hvisits, Option.bind_eq_bind,
    Option.bind_some, map_fst_logOf, HopCounts.stamp_logOf]
  rw [← visits, hranking]
  rfl

end Detour

/-! ## The plain order -/

/-- Each list divided into what is not near and what is near, in the order of the latter, without the
lists that are empty. -/
def divide (near : List Vertex) (lists : List (List Vertex)) : List (List Vertex) :=
  (lists.flatMap fun l => [l.filter fun v => !near.contains v, near.filter l.contains]).filter
    fun l => !l.isEmpty

/-- Visits the first vertex of the last list and divides the lists, `n` times. There is no answer if
the lists run dry before. -/
def plainVisits? (g : Graph) : Nat → List (List Vertex) → Option (List Vertex)
  | 0, _ => some []
  | n + 1, lists =>
      match lists.getLast? with
      | some (v :: rest) =>
          (plainVisits? g n (divide (g.neighbors v) (lists.dropLast ++ [rest]))).map (v :: ·)
      | _ => none

/-- Dividing lists is moving the near vertices of the same groups. -/
theorem divide_eq {near : List Vertex} {groups : Groups} (hgroups : groups.flatten.Nodup)
    (hnear : near.Nodup) : divide near groups.reverse = (groups.refine near).reverse := by
  rw [Groups.refine_eq hgroups hnear, List.reverse_flatMap, divide, List.filter_flatMap]
  refine List.flatMap_congr fun group _ => ?_
  simp [Split.along, Split.groups, ← List.filter_reverse]

/-- The lists never run dry, and they are visited in the order of the groups. -/
theorem plainVisits?_eq {g : Graph} {groups : Groups} {n : Nat} (htidy : groups.Tidy)
    (hg : ∀ v, (g.neighbors v).Nodup) (hn : groups.flatten.length = n) :
    plainVisits? g n groups.reverse = some (Groups.visit g n groups) := by
  induction n generalizing groups with
  | zero => rfl
  | succ n ih =>
      rcases htidy.cases with rfl | ⟨v, group, others, rfl⟩
      · cases hn
      · have hlen : (Groups.rest g v group others).flatten.length = n := by
          rw [(htidy.perm_rest (hg v)).length_eq]
          simpa using hn
        -- dividing the reversed lists gives the reversed groups
        have hdivide : divide (g.neighbors v) (others.reverse ++ [group]) =
            (Groups.rest g v group others).reverse := by
          rw [Groups.rest, ← divide_eq htidy.nodup_filter (hg v)]
          cases group <;> simp [divide]
        rw [Groups.visit_cons, plainVisits?, List.reverse_cons, List.getLast?_concat]
        simp only [List.dropLast_concat]
        rw [hdivide, ih (htidy.rest (hg v)) hlen, Option.map_some]

/-- The search over linked groups never meets a place where nothing stands, and it never runs dry. Its
visits are those over the nonempty lists that begin as one list of all vertices in ascending order: a
ranking lists them as they come or in reverse, and every vertex is among them once. -/
theorem linkedRanking?_plain {g : Graph} (hg : g.Reachable) : ∃ visits,
    plainVisits? g g.vertices.length ([g.vertices].filter fun l => !l.isEmpty) = some visits ∧
    visits.Perm g.vertices ∧
    (∀ direction, g.linkedRanking? direction = some (g.lexRanking direction)) ∧
    (g.lexRanking .forward).order = visits ∧ (g.lexRanking .backward).order = visits.reverse := by
  have hc := hg.consistent
  refine ⟨g.visits, ?_, hc.perm_visits, hc.linkedRanking?_eq, rfl, rfl⟩
  by_cases hnil : g.vertices = []
  · have hvisits : g.visits = [] := by
      rw [← List.perm_nil, ← hnil]
      exact hc.perm_visits
    rw [hnil, hvisits]
    rfl
  · have hfilter : [g.vertices].filter (fun l => !l.isEmpty) = [g.vertices].reverse := by
      simp [hnil]
    rw [hfilter, plainVisits?_eq (Graph.tidy_vertices hnil) hc.nodup (by simp), Graph.visits, hc.count]

/-- Two paths of length two from the vertex 0, the second one entered first, beside a vertex that
stands alone. -/
def twoArms : Graph :=
  Graph.built (List.replicate 6 (.push "") ++
    [.connect 0 3, .connect 3 4, .connect 0 1, .connect 1 2])

theorem linkedRanking?_plain_twoArms : twoArms.Reachable ∧
    twoArms.linkedRanking? .forward = some ⟨[0, 3, 1, 4, 2, 5]⟩ ∧
    twoArms.linkedRanking? .backward = some ⟨[5, 2, 4, 1, 3, 0]⟩ := by
  have hreach : twoArms.Reachable := Graph.reachable_built _
  obtain ⟨visits, hplain, -, hlinked, hforward, hbackward⟩ := linkedRanking?_plain hreach
  have hvisits : plainVisits? twoArms twoArms.vertices.length
      ([twoArms.vertices].filter fun l => !l.isEmpty) = some [0, 3, 1, 4, 2, 5] := by
    decide +kernel
  obtain rfl : visits = [0, 3, 1, 4, 2, 5] := Option.some.inj (hplain.symm.trans hvisits)
  refine ⟨hreach, ?_, ?_⟩
  · rw [hlinked]
    exact congrArg some (congrArg Ranking.mk hforward)
  · rw [hlinked]
    exact congrArg some (congrArg Ranking.mk hbackward)

end CliquePath
