import CliquePath.Proofs.Holes

set_option autoImplicit false

/-!
# Orders whose earlier neighbours form cliques

This module shows what a lexicographic search does in a graph without holes: the neighbours of each
vertex that are visited before it are pairwise adjacent. The search enters through its four points
only. If two earlier neighbours of a vertex were not adjacent, the three would be a chordless path
with its inner vertex visited last. By the four points such a path leads to another one whose ends
are visited earlier, or to a hole.

The converse needs no search: an order of this kind leaves no room for a hole.
-/

namespace CliquePath

variable {vertices visits path : List Vertex} {adjacent : Vertex → Vertex → Prop}

/-! ## Positions in a list of visits -/

section Positions

variable {pre post : List Vertex} {a b c : Vertex}

theorem mem_of_idxOf_lt_idxOf (h : visits.idxOf a < visits.idxOf b) : a ∈ visits :=
  List.idxOf_lt_length_iff.1 (Nat.lt_of_lt_of_le h List.idxOf_le_length)

theorem idxOf_middle (hb : b ∉ pre) : (pre ++ b :: post).idxOf b = pre.length := by
  rw [List.idxOf_append_of_notMem hb]
  simp

theorem idxOf_lt_iff_mem (hb : b ∉ pre) :
    (pre ++ b :: post).idxOf a < (pre ++ b :: post).idxOf b ↔ a ∈ pre := by
  rw [idxOf_middle hb]
  by_cases ha : a ∈ pre
  · rw [List.idxOf_append_of_mem ha, List.idxOf_lt_length_iff]
  · rw [List.idxOf_append_of_notMem ha]
    exact iff_of_false (by omega) ha

theorem mem_of_idxOf_lt (hb : b ∉ pre)
    (hlt : (pre ++ b :: post).idxOf b < (pre ++ b :: post).idxOf c) (hc : c ∈ pre ++ b :: post) :
    c ∈ post := by
  rcases List.mem_append.1 hc with hc | hc
  · exact absurd ((idxOf_lt_iff_mem hb).2 hc) (Nat.lt_asymm hlt)
  · refine (List.mem_cons.1 hc).resolve_left fun heq => ?_
    rw [heq] at hlt
    exact Nat.lt_irrefl _ hlt

theorem idxOf_lt_of_mem (hnodup : (pre ++ b :: post).Nodup) (hc : c ∈ post) :
    (pre ++ b :: post).idxOf b < (pre ++ b :: post).idxOf c := by
  obtain ⟨-, htail, hdisj⟩ := List.nodup_append.1 hnodup
  have hb : b ∉ pre := fun hin => hdisj b hin b List.mem_cons_self rfl
  have hcpre : c ∉ pre := fun hin => hdisj c hin c (List.mem_cons_of_mem _ hc) rfl
  refine Nat.lt_of_le_of_ne (Nat.le_of_not_lt fun hlt => hcpre ((idxOf_lt_iff_mem hb).1 hlt)) ?_
  intro heq
  obtain rfl : b = c := (List.idxOf_inj (List.mem_append_right _ List.mem_cons_self)).1 heq
  exact (List.nodup_cons.1 htail).1 hc

end Positions

/-! ## Four points -/

/-- An earlier neighbour of `c` that is not one of `b`, although `b` is visited before `c`, comes
after a neighbour of `b` that is not one of `c`. -/
def FourPoints (adjacent : Vertex → Vertex → Prop) (visits : List Vertex) : Prop :=
  ∀ a b c, visits.idxOf a < visits.idxOf b → visits.idxOf b < visits.idxOf c → c ∈ visits →
    adjacent a c → ¬ adjacent a b →
    ∃ d ∈ visits, visits.idxOf d < visits.idxOf a ∧ adjacent d b ∧ ¬ adjacent d c

/-- The neighbours of each vertex that are visited before it are pairwise adjacent. -/
def CliqueOrder (adjacent : Vertex → Vertex → Prop) (visits : List Vertex) : Prop :=
  ∀ v ∈ visits, ∀ x y, visits.idxOf x < visits.idxOf v → visits.idxOf y < visits.idxOf v →
    adjacent v x → adjacent v y → x ≠ y → adjacent x y

/-- The inner vertices of a path are visited after its two ends. -/
def Buried (visits path : List Vertex) : Prop :=
  ∀ i j, ∀ (hi : i < path.length) (hj : j < path.length), 0 < i → i + 1 < path.length →
    j = 0 ∨ j + 1 = path.length → visits.idxOf path[j] < visits.idxOf path[i]

theorem Buried.reverse (h : Buried visits path) : Buried visits path.reverse := by
  intro i j hi hj hpos hlast hend
  rw [List.length_reverse] at hi hj hlast hend
  rw [List.getElem_reverse, List.getElem_reverse]
  exact h _ _ (by omega) (by omega) (by omega) (by omega) (by omega)

/-- A path whose vertices come after its first one is buried between that one and a vertex that was
visited before. -/
theorem buried_extend {d : Vertex} {j : Nat} (hj : j < path.length)
    (hafter : ∀ i, ∀ hi : i < path.length, 0 < i → visits.idxOf path[0] < visits.idxOf path[i])
    (hd : visits.idxOf d < visits.idxOf path[0]) : Buried visits (path.take (j + 1) ++ [d]) := by
  have hlength := Chordless.length_extend hj d
  intro i k hi hk hpos hlast hend
  rw [Chordless.getElem_extend (i := i) (by omega) hj]
  have hlow := hafter i (by omega) hpos
  rcases hend with rfl | hend
  · rw [Chordless.getElem_extend (Nat.zero_le _) hj]
    exact hlow
  · obtain rfl : k = j + 1 := by omega
    rw [Chordless.getElem_extend_last hj]
    exact Nat.lt_trans hd hlow

/-- The first vertex behind the first end of a path that a vertex sees, if it sees the last one. -/
theorem exists_first_seen {d : Vertex} (hlen : 3 ≤ path.length)
    (hlast : adjacent d path[path.length - 1]) :
    ∃ j, (0 < j ∧ ∃ hj : j < path.length, adjacent d path[j]) ∧
      ∀ i, ∀ hi : i < path.length, 0 < i → i < j → ¬ adjacent d path[i] := by
  classical
  have hex : ∃ j, 0 < j ∧ ∃ hj : j < path.length, adjacent d path[j] :=
    ⟨path.length - 1, by omega, by omega, hlast⟩
  refine ⟨Nat.find hex, Nat.find_spec hex, fun i hi hpos hlt hadj => ?_⟩
  exact Nat.find_min hex hlt ⟨hpos, hi, hadj⟩

namespace FourPoints

section Step

variable (hfour : FourPoints adjacent visits) (hmutual : Mutual vertices adjacent)
  (hvisits : ∀ v, v ∈ visits ↔ v ∈ vertices) (hchordal : Chordal vertices adjacent)

include hfour hmutual hvisits hchordal

/-- A buried path whose first end is visited before its last one leads to a buried path that ends no
later than in that first end. -/
theorem exists_earlier (hlen : 3 ≤ path.length) (hpath : Chordless vertices adjacent path)
    (hburied : Buried visits path)
    (hends : visits.idxOf path[0] < visits.idxOf path[path.length - 1]) :
    ∃ path', 3 ≤ path'.length ∧ Chordless vertices adjacent path' ∧ Buried visits path' ∧
      ∀ j, ∀ hj : j < path'.length, j = 0 ∨ j + 1 = path'.length →
        visits.idxOf path'[j] ≤ visits.idxOf path[0] := by
  have hmem : ∀ i, ∀ hi : i < path.length, path[i] ∈ vertices := fun i hi =>
    hpath.mem _ (List.getElem_mem hi)
  have hafter : ∀ i, ∀ hi : i < path.length, 0 < i →
      visits.idxOf path[0] < visits.idxOf path[i] := by
    intro i hi hpos
    by_cases hlast : i + 1 = path.length
    · obtain rfl : i = path.length - 1 := by omega
      exact hends
    · exact hburied i 0 hi (by omega) hpos (by omega) (Or.inl rfl)
  -- The first end sees the vertex next to it and not the last end.
  obtain ⟨d, hd, hdfirst, hdlast, hdnext⟩ := hfour path[0] path[path.length - 1] path[1] hends
    (hburied 1 _ (by omega) (by omega) (by omega) (by omega) (Or.inr (by omega)))
    ((hvisits _).2 (hmem 1 (by omega)))
    ((hpath.adjacent_iff 0 1 (by omega) (by omega)).2 rfl)
    (fun hadj => by
      have := (hpath.adjacent_iff 0 (path.length - 1) (by omega) (by omega)).1 hadj
      omega)
  have hdpath : d ∉ path := by
    intro hin
    obtain ⟨i, hi, rfl⟩ := List.getElem_of_mem hin
    rcases Nat.eq_zero_or_pos i with rfl | hpos
    · exact Nat.lt_irrefl _ hdfirst
    · exact Nat.lt_asymm hdfirst (hafter i hi hpos)
  have hdv : d ∈ vertices := (hvisits d).1 hd
  have hback : ∀ i, ∀ hi : i < path.length, (adjacent path[i] d ↔ adjacent d path[i]) := by
    intro i hi
    have hne : d ≠ path[i] := fun heq => hdpath (heq ▸ List.getElem_mem hi)
    exact ⟨hmutual _ (hmem i hi) _ hdv hne.symm, hmutual _ hdv _ (hmem i hi) hne⟩
  obtain ⟨j, ⟨hjpos, hj, hdj⟩, hmin⟩ := exists_first_seen hlen hdlast
  have hj2 : 2 ≤ j := by
    by_contra hlt
    obtain rfl : j = 1 := by omega
    exact hdnext hdj
  have hsees : ∀ i, ∀ hi : i < path.length, i ≤ j → 0 < i → (adjacent path[i] d ↔ i = j) := by
    intro i hi hij hpos
    rw [hback i hi]
    refine ⟨fun hadj => ?_, fun heq => heq ▸ hdj⟩
    by_contra hne
    exact hmin i hi hpos (by omega) hadj
  by_cases hd0 : adjacent path[0] d
  · refine absurd (hpath.close hdv hdpath hj hj2 fun i hi hij => ?_) (hchordal _)
    rcases Nat.eq_zero_or_pos i with rfl | hpos
    · exact ⟨fun _ => Or.inr rfl, fun _ => hd0⟩
    · rw [hsees i hi hij hpos]
      omega
  · have hlength := Chordless.length_extend hj d
    refine ⟨path.take (j + 1) ++ [d], by omega, hpath.extend hdv hdpath hj fun i hi hij => ?_,
      buried_extend hj hafter hdfirst, fun k hk hend => ?_⟩
    · rcases Nat.eq_zero_or_pos i with rfl | hpos
      · exact ⟨fun hadj => absurd hadj hd0, by omega⟩
      · exact hsees i hi hij hpos
    · rcases hend with rfl | hend
      · rw [Chordless.getElem_extend (Nat.zero_le _) hj]
      · obtain rfl : k = j + 1 := by omega
        rw [Chordless.getElem_extend_last hj]
        exact Nat.le_of_lt hdfirst

/-- No chordless path has all its inner vertices visited after both ends. -/
theorem not_buried (hlen : 3 ≤ path.length) (hpath : Chordless vertices adjacent path) :
    ¬ Buried visits path := by
  -- By induction on a bound on the visits of the two ends.
  have hbounded : ∀ n path, 3 ≤ path.length → Chordless vertices adjacent path →
      Buried visits path → ¬ ∀ j, ∀ hj : j < path.length, j = 0 ∨ j + 1 = path.length →
        visits.idxOf path[j] < n := by
    intro n
    induction n with
    | zero => exact fun path hlen _ _ hn => absurd (hn 0 (by omega) (Or.inl rfl)) (by omega)
    | succ n ih =>
        intro path hlen hpath hburied hn
        have hstep : ∀ path : List Vertex, ∀ hlen : 3 ≤ path.length,
            Chordless vertices adjacent path → Buried visits path →
            visits.idxOf path[0] < visits.idxOf path[path.length - 1] →
            ¬ visits.idxOf path[path.length - 1] < n + 1 := by
          intro path hlen hpath hburied hends hlast
          obtain ⟨path', hlen', hpath', hburied', hends'⟩ :=
            exists_earlier hfour hmutual hvisits hchordal hlen hpath hburied hends
          exact ih path' hlen' hpath' hburied' fun j hj hend => by
            have := hends' j hj hend
            omega
        have hne : visits.idxOf path[0] ≠ visits.idxOf path[path.length - 1] := by
          intro heq
          have hv : path[0] ∈ visits := (hvisits _).2 (hpath.mem _ (List.getElem_mem (by omega)))
          have h0 := (hpath.nodup.getElem_inj_iff).1 ((List.idxOf_inj hv).1 heq)
          omega
        rcases Nat.lt_or_gt_of_ne hne with hlt | hlt
        · exact hstep path hlen hpath hburied hlt (hn _ (by omega) (Or.inr (by omega)))
        · refine hstep path.reverse (by simpa using hlen) (hpath.reverse hmutual) hburied.reverse
            ?_ ?_
          · simp only [List.getElem_reverse, List.length_reverse]
            simpa using hlt
          · simp only [List.getElem_reverse, List.length_reverse]
            simpa using hn 0 (by omega) (Or.inl rfl)
  intro hburied
  refine hbounded (visits.length + 1) path hlen hpath hburied fun j hj _ => ?_
  exact Nat.lt_succ_of_le List.idxOf_le_length

/-- In a graph without holes the earlier neighbours of each vertex are pairwise adjacent. -/
theorem cliqueOrder (hirrefl : ∀ v, ¬ adjacent v v) : CliqueOrder adjacent visits := by
  intro v hv x y hx hy hvx hvy hne
  by_contra hno
  have hxv : x ≠ v := fun heq => hirrefl v (heq ▸ hvx)
  have hyv : y ≠ v := fun heq => hirrefl v (heq ▸ hvy)
  have hin : ∀ {w}, visits.idxOf w < visits.idxOf v → w ∈ vertices := fun {w} hw =>
    (hvisits w).1 (List.idxOf_lt_length_iff.1 (Nat.lt_of_lt_of_le hw List.idxOf_le_length))
  have hvv := (hvisits v).1 hv
  -- two earlier neighbours that are not adjacent make a path without chords around the later vertex
  have hpath : Chordless vertices adjacent [x, v, y] := by
    refine ⟨by simp [hxv, hne, hyv.symm], by simp [hin hx, hin hy, hvv], ?_⟩
    have hxv' := hmutual v hvv x (hin hx) hxv.symm hvx
    intro i j hij hj
    obtain ⟨rfl, rfl⟩ | ⟨rfl, rfl⟩ | ⟨rfl, rfl⟩ :
        i = 0 ∧ j = 1 ∨ i = 0 ∧ j = 2 ∨ i = 1 ∧ j = 2 := by
      simp only [List.length_cons, List.length_nil] at hj
      omega
    · simpa using hxv'
    · simpa using hno
    · simpa using hvy
  have hburied : Buried visits [x, v, y] := by
    intro i j hi hj hpos hlast hend
    obtain rfl : i = 1 := by
      simp only [List.length_cons, List.length_nil] at hlast
      omega
    match j with
    | 0 => simpa using hx
    | 1 => simp at hend
    | 2 => simpa using hy
  exact not_buried hfour hmutual hvisits hchordal (by simp) hpath hburied

end Step

end FourPoints

/-- The vertex of a hole that is visited last has two earlier neighbours that are not adjacent. -/
theorem CliqueOrder.chordal (h : CliqueOrder adjacent visits) (hmutual : Mutual vertices adjacent)
    (hvisits : ∀ v ∈ vertices, v ∈ visits) : Chordal vertices adjacent := by
  intro cycle hhole
  obtain ⟨p, hp, m, hm, q, hq, hpq, hpm, hqm, hmp, hmq, hno, hlast, hlast'⟩ :=
    hhole.exists_corner hmutual fun v => OrderDual.toDual (visits.idxOf v)
  have hlt : ∀ {w}, w ∈ vertices → w ≠ m → visits.idxOf w ≤ visits.idxOf m →
      visits.idxOf w < visits.idxOf m := fun hw hne hle =>
    Nat.lt_of_le_of_ne hle fun heq => hne ((List.idxOf_inj (hvisits _ hw)).1 heq)
  exact hno (h m (hvisits m hm) p q (hlt hp hpm hlast) (hlt hq hqm hlast') hmp hmq hpq)

end CliquePath
