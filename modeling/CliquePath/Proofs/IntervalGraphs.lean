import CliquePath.Interval
import CliquePath.Proofs.Holes
import CliquePath.Proofs.Joined

set_option autoImplicit false

/-!
# Interval graphs

This module says what it means that a relation on some vertices is represented by intervals, and
shows the two obstacles that cannot occur then: three vertices each two of which are joined around
the third, since one of three disjoint intervals lies between the others; and a cycle of four or
more vertices without a chord, since the two neighbours of the interval that stops first overlap.
-/

namespace CliquePath

variable {vertices : List Vertex} {adjacent : Vertex → Vertex → Prop} {a b c x : Vertex}

/-- Some non-empty intervals overlap exactly when their vertices are related. -/
def IntervalGraph (vertices : List Vertex) (adjacent : Vertex → Vertex → Prop) : Prop :=
  ∃ f : Vertex → Interval, (∀ v ∈ vertices, (f v).start < (f v).stop) ∧
    ∀ v ∈ vertices, ∀ w ∈ vertices, v ≠ w → ((f v).overlaps (f w) = true ↔ adjacent v w)

theorem Interval.overlaps_iff {a b : Interval} :
    a.overlaps b = true ↔ a.start < b.stop ∧ b.start < a.stop := by
  simp [overlaps]

/-- The intervals of two vertices overlap in both directions. -/
theorem IntervalGraph.mutual (h : IntervalGraph vertices adjacent) : Mutual vertices adjacent := by
  obtain ⟨f, -, hf⟩ := h
  intro v hv w hw hne hvw
  rw [← hf w hw v hv hne.symm, Interval.overlaps_comm, hf v hv w hw hne]
  exact hvw

/-! ## Asteroidal triples -/

/-- Two vertices are joined outside the closed neighbourhood of `x`. -/
def Around (vertices : List Vertex) (adjacent : Vertex → Vertex → Prop) (x a b : Vertex) : Prop :=
  Joined adjacent (fun w => w ∈ vertices ∧ w ≠ x ∧ ¬ adjacent x w) a b

/-- Each two of three vertices are joined around the third. -/
structure Asteroidal (vertices : List Vertex) (adjacent : Vertex → Vertex → Prop)
    (a b c : Vertex) : Prop where
  first : Around vertices adjacent a b c
  second : Around vertices adjacent b a c
  third : Around vertices adjacent c a b

section Represented

variable {f : Vertex → Interval}

/-- Vertices joined around `x` have their intervals on one side of that of `x`. -/
theorem Around.stop_le (h : Around vertices adjacent x a b) (hx : x ∈ vertices)
    (hpos : ∀ v ∈ vertices, (f v).start < (f v).stop)
    (hf : ∀ v ∈ vertices, ∀ w ∈ vertices, v ≠ w → ((f v).overlaps (f w) = true ↔ adjacent v w))
    (ha : (f a).stop ≤ (f x).start) : (f b).stop ≤ (f x).start := by
  refine Joined.induct (Q := fun w => (f w).stop ≤ (f x).start) h ha ?_
  rintro v w hvw ⟨hv, -, -⟩ ⟨hw, hwx, hno⟩ hstop
  rw [← hf x hx w hw (Ne.symm hwx), Interval.overlaps_iff] at hno
  have hxpos := hpos x hx
  have hwpos := hpos w hw
  by_cases heq : v = w
  · exact heq ▸ hstop
  · have hover := Interval.overlaps_iff.1 ((hf v hv w hw heq).2 hvw)
    omega

/-- Three vertices of an interval graph are not asteroidal. -/
theorem IntervalGraph.not_asteroidal (h : IntervalGraph vertices adjacent) :
    ¬ Asteroidal vertices adjacent a b c := by
  have hmutual := h.mutual
  obtain ⟨f, hpos, hf⟩ := h
  intro hast
  obtain ⟨hb, hba, hnab⟩ := hast.first.left
  obtain ⟨hc, hca, hnac⟩ := hast.first.right
  obtain ⟨ha, -, -⟩ := hast.second.left
  obtain ⟨-, hcb, hnbc⟩ := hast.second.right
  rw [← hf a ha b hb (Ne.symm hba), Interval.overlaps_iff] at hnab
  rw [← hf a ha c hc (Ne.symm hca), Interval.overlaps_iff] at hnac
  rw [← hf b hb c hc (Ne.symm hcb), Interval.overlaps_iff] at hnbc
  -- Of three disjoint intervals one lies between the two others.
  have hback : ∀ {x y z}, x ∈ vertices → Around vertices adjacent x y z →
      ((f y).stop ≤ (f x).start ↔ (f z).stop ≤ (f x).start) := by
    intro x y z hx hxyz
    refine ⟨hxyz.stop_le hx hpos hf, Around.stop_le (hxyz.symm ?_) hx hpos hf⟩
    exact fun v w hne hvw hv hw => hmutual v hv.1 w hw.1 hne hvw
  have h1 := hback ha hast.first
  have h2 := hback hb hast.second
  have h3 := hback hc hast.third
  have := hpos a ha
  have := hpos b hb
  have := hpos c hc
  omega

end Represented

/-! ## Holes -/

/-- The vertex of a hole that stops first has two neighbours that overlap behind it. -/
theorem IntervalGraph.chordal (h : IntervalGraph vertices adjacent) :
    Chordal vertices adjacent := by
  have hmutual := h.mutual
  obtain ⟨f, -, hf⟩ := h
  intro cycle hhole
  obtain ⟨p, hp, m, hm, q, hq, hpq, hpm, hqm, hmp, hmq, hno, hstop, hstop'⟩ :=
    hhole.exists_corner hmutual fun v => (f v).stop
  rw [← hf m hm p hp hpm.symm, Interval.overlaps_iff] at hmp
  rw [← hf m hm q hq hqm.symm, Interval.overlaps_iff] at hmq
  rw [← hf p hp q hq hpq, Interval.overlaps_iff] at hno
  omega

/-! ## Assignments -/

/-- An assignment represents a relation on some vertices, given in ascending order: these are the
vertices that have intervals, the intervals are not empty, and two of them overlap exactly when
their vertices are related. -/
structure Represents (intervals : Assignment) (vertices : List Vertex)
    (adjacent : Vertex → Vertex → Prop) : Prop where
  keys : intervals.map Prod.fst = vertices
  ascending : vertices.Pairwise (· < ·)
  nonempty : ∀ e ∈ intervals, e.2.start < e.2.stop
  overlaps : ∀ e ∈ intervals, ∀ f ∈ intervals, e.1 ≠ f.1 →
    (e.2.overlaps f.2 = true ↔ adjacent e.1 f.1)

theorem Assignment.get?_of_mem {intervals : Assignment} (hkeys : (intervals.map Prod.fst).Nodup)
    {e : Vertex × Interval} (he : e ∈ intervals) : intervals.get? e.1 = some e.2 := by
  induction intervals with
  | nil => exact absurd he List.not_mem_nil
  | cons first rest ih =>
      obtain ⟨hfirst, hrest⟩ := List.nodup_cons.1 hkeys
      rw [get?_cons]
      rcases List.mem_cons.1 he with rfl | he
      · exact if_pos rfl
      · have hne : e.1 ≠ first.1 := fun heq => hfirst (heq ▸ List.mem_map_of_mem he)
        rw [if_neg hne, ih hrest he]

namespace Represents

variable {intervals : Assignment} {v : Vertex}

theorem mem_vertices {e : Vertex × Interval} (h : Represents intervals vertices adjacent)
    (he : e ∈ intervals) : e.1 ∈ vertices := by
  rw [← h.keys]
  exact List.mem_map_of_mem he

/-- Only the adjacency of the vertices matters. -/
theorem congr {adjacent' : Vertex → Vertex → Prop} (h : Represents intervals vertices adjacent)
    (hiff : ∀ v ∈ vertices, ∀ w ∈ vertices, v ≠ w → (adjacent v w ↔ adjacent' v w)) :
    Represents intervals vertices adjacent' := by
  refine ⟨h.keys, h.ascending, h.nonempty, fun e he f hf hne => ?_⟩
  rw [h.overlaps e he f hf hne]
  exact hiff e.1 (h.mem_vertices he) f.1 (h.mem_vertices hf) hne

/-- Every vertex has an interval. -/
theorem exists_get? (h : Represents intervals vertices adjacent) (hv : v ∈ vertices) :
    ∃ i, (v, i) ∈ intervals ∧ intervals.get? v = some i := by
  rw [← h.keys] at hv
  obtain ⟨⟨w, i⟩, hmem, rfl⟩ := List.mem_map.1 hv
  have hnodup : (intervals.map Prod.fst).Nodup := by
    rw [h.keys]
    exact h.ascending.imp Nat.ne_of_lt
  exact ⟨i, hmem, Assignment.get?_of_mem hnodup hmem⟩

/-- What an assignment represents is an interval graph. -/
theorem intervalGraph (h : Represents intervals vertices adjacent) :
    IntervalGraph vertices adjacent := by
  refine ⟨fun v => (intervals.get? v).getD ⟨0, 1⟩, fun v hv => ?_, fun v hv w hw hne => ?_⟩
  · obtain ⟨i, hi, hget⟩ := h.exists_get? hv
    simpa [hget] using h.nonempty _ hi
  · obtain ⟨i, hi, hget⟩ := h.exists_get? hv
    obtain ⟨j, hj, hget'⟩ := h.exists_get? hw
    simpa [hget, hget'] using h.overlaps _ hi _ hj hne

end Represents

end CliquePath
