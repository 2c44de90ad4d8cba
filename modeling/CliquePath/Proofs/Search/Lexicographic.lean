import CliquePath.Proofs.Search.LinkedSearch

set_option autoImplicit false

/-!
# The lexicographic law of the search

This module states the law that the order of the visits obeys. Of two vertices the one visited first
is adjacent to the earliest vertex, visited before both, that is adjacent to only one of them. The
proof looks at the visit of the first of the two: the groups of the search have kept them together,
or the earliest vertex that told them apart is known.
-/

namespace CliquePath

namespace Graph

variable {g : Graph} {s : List Vertex}

/-- Of two vertices of a sequence, the earlier one is adjacent to the first vertex before both that
is adjacent to only one of them. -/
def Lexicographic (g : Graph) (s : List Vertex) : Prop :=
  ∀ (i j k : Nat) (hki : k < i) (hij : i < j) (hj : j < s.length),
    g.adjacent s[k] s[i] ≠ g.adjacent s[k] s[j] →
    (∀ (l : Nat) (hl : l < k), g.adjacent s[l] s[i] = g.adjacent s[l] s[j]) →
      g.adjacent s[k] s[i] = true

/-- Two vertices that are level are adjacent to the same visited vertices. -/
theorem adjacent_eq_of_level {done : List Vertex} {a b c : Vertex} (h : Groups.Level g done b c)
    (ha : a ∈ done) : g.adjacent a b = g.adjacent a c := by
  rw [Bool.eq_iff_iff, adjacent_iff, adjacent_iff]
  exact h a ha

/-- A sequence is lexicographic if each vertex, when its turn comes, is level with or ahead of every
vertex that is still to come. -/
theorem lexicographic_of_level (h : ∀ pre b post, s = pre ++ b :: post → ∀ c ∈ post,
    Groups.Level g pre b c ∨ Groups.Ahead g pre b c) : g.Lexicographic s := by
  intro i j k hki hij hj hdiffer hsame
  have hi : i < s.length := Nat.lt_trans hij hj
  have hsplit : s = s.take i ++ s[i] :: s.drop (i + 1) := by
    rw [← List.drop_eq_getElem_cons hi, List.take_append_drop]
  have hlater : s[j] ∈ s.drop (i + 1) := by
    refine List.mem_drop_iff_getElem.2 ⟨j - (i + 1), by omega, ?_⟩
    congr 1
    omega
  have hvisited : ∀ l (hl : l < i), s[l] ∈ s.take i := by
    intro l hl
    exact List.mem_take_iff_getElem.2 ⟨l, by omega, rfl⟩
  rcases h _ _ _ hsplit _ hlater with hlevel | ⟨front, d, back, htake, hdi, hdj, hlevel⟩
  · -- Nothing visited tells the two apart, so `k` cannot.
    exact absurd (adjacent_eq_of_level hlevel (hvisited k hki)) hdiffer
  · -- The vertex `d` that put `s[i]` ahead has its place at `front.length`; so has `k`.
    have hd : front.length < i := by
      have hlength := congrArg List.length htake
      rw [List.length_take, List.length_append, List.length_cons] at hlength
      omega
    have hat : ∀ l (hl : l < i), (front ++ d :: back)[l]? = some s[l] := by
      intro l hl
      rw [← htake, List.getElem?_take, if_pos hl, List.getElem?_eq_getElem]
    have hplace : s[front.length] = d := by
      have hget := hat front.length hd
      simpa [eq_comm] using hget
    rcases Nat.lt_trichotomy k front.length with hlt | heq | hgt
    · have hk : s[k] ∈ front := by
        have hget := hat k hki
        rw [List.getElem?_append_left hlt] at hget
        exact List.mem_of_getElem? hget
      exact absurd (adjacent_eq_of_level hlevel hk) hdiffer
    · subst heq
      rw [hplace]
      exact adjacent_iff.2 hdi
    · have hagree := hsame front.length hgt
      rw [hplace, Bool.eq_iff_iff, adjacent_iff, adjacent_iff] at hagree
      exact absurd (hagree.1 hdi) hdj

/-- A lexicographic breadth-first search ranks every vertex once, and the order of its visits is
lexicographic. The search over linked groups makes the two records of that ranking. -/
theorem lexRanking_lexicographic (hg : g.Reachable) (direction : Direction) :
    (g.lexRanking direction).order.Nodup ∧
      (∀ v, v ∈ (g.lexRanking direction).order ↔ g.contains v = true) ∧
      (∀ v i, (g.lexRanking direction).rank? v = some i ↔
        (g.lexRanking direction).order[i]? = some v) ∧
      (∀ v, g.contains v = false → (g.lexRanking direction).rank? v = none) ∧
      g.Lexicographic ((g.lexRanking direction).visits direction) ∧
      ∃ records, g.linkedRecords? direction = some records ∧
        records.ranking = g.lexRanking direction ∧
        ∀ v, records.rank? v = (g.lexRanking direction).rank? v := by
  have hc := hg.consistent
  have hvisits : (g.lexRanking direction).visits direction = g.visits :=
    Ranking.visits_ofVisits g.visits direction
  have hperm : (g.lexRanking direction).order.Perm g.visits :=
    Ranking.perm_ofVisits g.visits direction
  have hnodup : (g.lexRanking direction).order.Nodup := hperm.nodup_iff.2 hc.nodup_visits
  have hmem : ∀ v, v ∈ (g.lexRanking direction).order ↔ g.contains v = true := fun v => by
    rw [hperm.mem_iff, hc.mem_visits, mem_vertices]
  refine ⟨hnodup, hmem, fun v i => Ranking.rank?_eq_some_iff hnodup, fun v hv => ?_, ?_,
    hc.exists_linkedRecords direction⟩
  · rw [Ranking.rank?_eq_none_iff, hmem, hv]
    exact Bool.false_ne_true
  · rw [hvisits]
    exact lexicographic_of_level fun pre b post hsplit c hlater =>
      hc.level_or_ahead hsplit hlater

/-- The cycle on six vertices, searched from its vertex 0 and ranked from the end. -/
theorem lexRanking_lexicographic_hexagon : hexagon.Reachable ∧
    (hexagon.lexRanking .backward).order = [3, 4, 2, 5, 1, 0] ∧
    (hexagon.lexRanking .backward).rank? 5 = some 3 ∧
    hexagon.Lexicographic ((hexagon.lexRanking .backward).visits .backward) := by
  obtain ⟨-, -, hrank, -, hlexicographic, -⟩ :=
    lexRanking_lexicographic reachable_hexagon .backward
  have horder : (hexagon.lexRanking .backward).order = [3, 4, 2, 5, 1, 0] := by decide
  exact ⟨reachable_hexagon, horder, (hrank 5 3).2 (by rw [horder]; rfl), hlexicographic⟩

end Graph

end CliquePath
