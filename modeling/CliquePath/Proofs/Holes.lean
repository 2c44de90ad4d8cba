import CliquePath.Failure
import Mathlib.Tactic

set_option autoImplicit false

/-!
# Holes and chordless paths

This module defines the cycles and the paths that have no chord, and the graphs without holes. A
chordless path grows by a vertex that sees its far end; if the vertex also sees the near end, the
two close a hole. Every hole has a corner: a vertex that comes first in any given order, between two
neighbours that are not adjacent.
-/

namespace CliquePath

variable {vertices path cycle : List Vertex} {adjacent : Vertex → Vertex → Prop} {d : Vertex}

/-- A cycle of at least four vertices without a chord. -/
structure Hole (vertices : List Vertex) (adjacent : Vertex → Vertex → Prop)
    (cycle : List Vertex) : Prop where
  four : 4 ≤ cycle.length
  nodup : cycle.Nodup
  mem : ∀ v ∈ cycle, v ∈ vertices
  adjacent_iff : ∀ i j, ∀ (hi : i < j) (hj : j < cycle.length),
    (adjacent cycle[i] cycle[j] ↔ j = i + 1 ∨ i = 0 ∧ j + 1 = cycle.length)

/-- A graph without holes. -/
def Chordal (vertices : List Vertex) (adjacent : Vertex → Vertex → Prop) : Prop :=
  ∀ cycle, ¬ Hole vertices adjacent cycle

/-- Adjacency goes both ways. -/
def Mutual (vertices : List Vertex) (adjacent : Vertex → Vertex → Prop) : Prop :=
  ∀ v ∈ vertices, ∀ w ∈ vertices, v ≠ w → adjacent v w → adjacent w v

/-! ## Corners -/

namespace Hole

theorem adjacent_iff_of_ne (h : Hole vertices adjacent cycle) (hmutual : Mutual vertices adjacent)
    {i j : Nat} (hij : i ≠ j) (hi : i < cycle.length) (hj : j < cycle.length) :
    adjacent cycle[i] cycle[j] ↔ j = i + 1 ∨ i = j + 1 ∨ i = 0 ∧ j + 1 = cycle.length ∨
      j = 0 ∧ i + 1 = cycle.length := by
  have hmem : ∀ k (hk : k < cycle.length), cycle[k] ∈ vertices := fun k hk =>
    h.mem _ (List.getElem_mem hk)
  have hne : cycle[i] ≠ cycle[j] := fun heq => hij ((h.nodup.getElem_inj_iff).1 heq)
  rcases Nat.lt_or_gt_of_ne hij with hlt | hlt
  · rw [h.adjacent_iff i j hlt hj]
    omega
  · have hback : adjacent cycle[i] cycle[j] ↔ adjacent cycle[j] cycle[i] :=
      ⟨hmutual _ (hmem i hi) _ (hmem j hj) hne, hmutual _ (hmem j hj) _ (hmem i hi) hne.symm⟩
    rw [hback, h.adjacent_iff j i hlt hi]
    omega

/-- The vertex of a hole that comes first lies between two vertices that are not adjacent. -/
theorem exists_corner {α : Type} [LinearOrder α] (h : Hole vertices adjacent cycle)
    (hmutual : Mutual vertices adjacent) (rank : Vertex → α) :
    ∃ p ∈ vertices, ∃ m ∈ vertices, ∃ q ∈ vertices, p ≠ q ∧ p ≠ m ∧ q ≠ m ∧ adjacent m p ∧
      adjacent m q ∧ ¬ adjacent p q ∧ rank m ≤ rank p ∧ rank m ≤ rank q := by
  have h4 := h.four
  obtain ⟨m, hm, hmin⟩ : ∃ m, ∃ hm : m < cycle.length,
      ∀ j, ∀ hj : j < cycle.length, rank cycle[m] ≤ rank cycle[j] := by
    have hne : (Finset.univ : Finset (Fin cycle.length)).Nonempty := ⟨⟨0, by omega⟩, Finset.mem_univ _⟩
    obtain ⟨m, -, hmin⟩ := Finset.univ.exists_min_image
      (fun i : Fin cycle.length => rank cycle[i]) hne
    exact ⟨m, m.isLt, fun j hj => hmin ⟨j, hj⟩ (Finset.mem_univ _)⟩
  -- The neighbours on the cycle of the vertex at `m`.
  obtain ⟨p, hp, hpm⟩ : ∃ p, p < cycle.length ∧
      (m + 1 = p ∨ m + 1 = cycle.length ∧ p = 0) := by
    by_cases hlast : m + 1 = cycle.length
    · exact ⟨0, by omega, Or.inr ⟨hlast, rfl⟩⟩
    · exact ⟨m + 1, by omega, Or.inl rfl⟩
  obtain ⟨q, hq, hqm⟩ : ∃ q, q < cycle.length ∧ (q + 1 = m ∨ m = 0 ∧ q + 1 = cycle.length) := by
    by_cases hfirst : m = 0
    · exact ⟨cycle.length - 1, by omega, Or.inr ⟨hfirst, by omega⟩⟩
    · exact ⟨m - 1, by omega, Or.inl (by omega)⟩
  have hne : ∀ {i j}, ∀ (hi : i < cycle.length) (hj : j < cycle.length), i ≠ j →
      cycle[i] ≠ cycle[j] := fun hi hj hij heq => hij ((h.nodup.getElem_inj_iff).1 heq)
  have hpq : p ≠ q := by omega
  have hpm' : p ≠ m := by omega
  have hqm' : q ≠ m := by omega
  refine ⟨cycle[p], h.mem _ (List.getElem_mem hp), cycle[m], h.mem _ (List.getElem_mem hm),
    cycle[q], h.mem _ (List.getElem_mem hq), hne hp hq hpq, hne hp hm hpm', hne hq hm hqm', ?_, ?_,
    ?_, hmin p hp, hmin q hq⟩
  · rw [h.adjacent_iff_of_ne hmutual hpm'.symm hm hp]
    omega
  · rw [h.adjacent_iff_of_ne hmutual hqm'.symm hm hq]
    omega
  · rw [h.adjacent_iff_of_ne hmutual hpq hp hq]
    omega

end Hole

/-! ## Chordless paths -/

/-- A path without a chord. -/
structure Chordless (vertices : List Vertex) (adjacent : Vertex → Vertex → Prop)
    (path : List Vertex) : Prop where
  nodup : path.Nodup
  mem : ∀ v ∈ path, v ∈ vertices
  adjacent_iff : ∀ i j, ∀ (hi : i < j) (hj : j < path.length),
    (adjacent path[i] path[j] ↔ j = i + 1)

namespace Chordless

theorem reverse (h : Chordless vertices adjacent path) (hmutual : Mutual vertices adjacent) :
    Chordless vertices adjacent path.reverse := by
  refine ⟨List.nodup_reverse.2 h.nodup, fun v hv => h.mem v (List.mem_reverse.1 hv), ?_⟩
  intro i j hij hj
  rw [List.length_reverse] at hj
  rw [List.getElem_reverse, List.getElem_reverse]
  have hlt : path.length - 1 - j < path.length - 1 - i := by omega
  have hi' : path.length - 1 - i < path.length := by omega
  have hne : path[path.length - 1 - j] ≠ path[path.length - 1 - i] := by
    intro heq
    have := (h.nodup.getElem_inj_iff).1 heq
    omega
  have hv := h.mem _ (List.getElem_mem (Nat.lt_trans hlt hi'))
  have hw := h.mem _ (List.getElem_mem hi')
  have hback : adjacent path[path.length - 1 - i] path[path.length - 1 - j] ↔
      adjacent path[path.length - 1 - j] path[path.length - 1 - i] :=
    ⟨hmutual _ hw _ hv hne.symm, hmutual _ hv _ hw hne⟩
  rw [hback, h.adjacent_iff _ _ hlt hi']
  omega

/-- Between two ends that differ and are not adjacent there is another vertex. -/
theorem three_le_length {v w : Vertex} (h : Chordless vertices adjacent path)
    (hhead : path.head? = some v) (hlast : path.getLast? = some w) (hne : v ≠ w)
    (hno : ¬ adjacent v w) : 3 ≤ path.length := by
  match path, hhead, hlast with
  | [x], hhead, hlast =>
      cases hhead
      cases hlast
      exact absurd rfl hne
  | [x, y], hhead, hlast =>
      cases hhead
      cases hlast
      exact absurd ((h.adjacent_iff 0 1 Nat.zero_lt_one Nat.one_lt_two).2 rfl) hno
  | x :: y :: z :: rest, _, _ => exact Nat.le_add_left 3 rest.length

section Extend

variable {j : Nat}

theorem length_extend (hj : j < path.length) (d : Vertex) :
    (path.take (j + 1) ++ [d]).length = j + 2 := by
  rw [List.length_append, List.length_take]
  simp
  omega

theorem getElem_extend {i : Nat} (hij : i ≤ j) (hj : j < path.length)
    (hi : i < (path.take (j + 1) ++ [d]).length) :
    (path.take (j + 1) ++ [d])[i] = path[i] := by
  rw [List.getElem_append_left (by rw [List.length_take]; omega), List.getElem_take]

theorem getElem_extend_last (hj : j < path.length)
    (hi : j + 1 < (path.take (j + 1) ++ [d]).length) :
    (path.take (j + 1) ++ [d])[j + 1] = d := by
  rw [List.getElem_append_right (by rw [List.length_take]; omega)]
  simp

/-- Pairs on the path up to `path[j]` and continued by `d`. The vertex `d` sees `path[j]` and, if the
path is to be closed, its first vertex. -/
theorem adjacent_extend_iff (h : Chordless vertices adjacent path) (hj : j < path.length)
    (closed : Prop) (hsees : ∀ i, ∀ hi : i < path.length, i ≤ j →
      (adjacent path[i] d ↔ i = j ∨ i = 0 ∧ closed))
    {i k : Nat} (hik : i < k) (hk : k < (path.take (j + 1) ++ [d]).length) :
    adjacent (path.take (j + 1) ++ [d])[i] (path.take (j + 1) ++ [d])[k] ↔
      k = i + 1 ∨ i = 0 ∧ k = j + 1 ∧ closed := by
  have hlen := length_extend hj d
  rw [getElem_extend (by omega) hj]
  by_cases hkj : k ≤ j
  · rw [getElem_extend hkj hj, h.adjacent_iff i k hik (by omega)]
    omega
  · obtain rfl : k = j + 1 := by omega
    rw [getElem_extend_last hj, hsees i (by omega) (by omega)]
    constructor
    · rintro (rfl | ⟨hi, hc⟩)
      · exact Or.inl rfl
      · exact Or.inr ⟨hi, rfl, hc⟩
    · rintro (heq | ⟨hi, -, hc⟩)
      · exact Or.inl (by omega)
      · exact Or.inr ⟨hi, hc⟩

theorem nodup_extend (h : Chordless vertices adjacent path) (hd : d ∉ path) :
    (path.take (j + 1) ++ [d]).Nodup := by
  refine List.nodup_append.2 ⟨h.nodup.take, List.nodup_singleton d, ?_⟩
  rintro v hv w hw rfl
  exact hd (List.mem_singleton.1 hw ▸ List.mem_of_mem_take hv)

theorem mem_extend (h : Chordless vertices adjacent path) (hd : d ∈ vertices) :
    ∀ v ∈ path.take (j + 1) ++ [d], v ∈ vertices := by
  intro v hv
  rcases List.mem_append.1 hv with hv | hv
  · exact h.mem v (List.mem_of_mem_take hv)
  · exact List.mem_singleton.1 hv ▸ hd

/-- A chordless path grows by a vertex that sees only the last of the vertices kept. -/
theorem extend (h : Chordless vertices adjacent path) (hd : d ∈ vertices) (hdpath : d ∉ path)
    (hj : j < path.length)
    (hsees : ∀ i, ∀ hi : i < path.length, i ≤ j → (adjacent path[i] d ↔ i = j)) :
    Chordless vertices adjacent (path.take (j + 1) ++ [d]) := by
  refine ⟨h.nodup_extend hdpath, h.mem_extend hd, fun i k hik hk => ?_⟩
  rw [h.adjacent_extend_iff hj False (by simpa using hsees) hik hk]
  simp

/-- A vertex that sees both ends of a chordless path, and nothing between them, closes a hole. -/
theorem close (h : Chordless vertices adjacent path) (hd : d ∈ vertices) (hdpath : d ∉ path)
    (hj : j < path.length) (htwo : 2 ≤ j)
    (hsees : ∀ i, ∀ hi : i < path.length, i ≤ j → (adjacent path[i] d ↔ i = j ∨ i = 0)) :
    Hole vertices adjacent (path.take (j + 1) ++ [d]) := by
  have hlen := length_extend hj d
  refine ⟨by omega, h.nodup_extend hdpath, h.mem_extend hd, fun i k hik hk => ?_⟩
  rw [h.adjacent_extend_iff hj True (by simpa using hsees) hik hk]
  simp only [and_true]
  omega

end Extend

end Chordless

end CliquePath
