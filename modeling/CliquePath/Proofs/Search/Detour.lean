import CliquePath.Proofs.Joined
import CliquePath.Proofs.Search.HopCounts
import CliquePath.Proofs.Search.Ranking

set_option autoImplicit false

/-!
# Paths around a neighbourhood

This module shows that the search for a path finds one whenever the start and the target are joined
through allowed vertices. The search visits all allowed vertices before the avoided ones, and each
vertex that is joined to the target comes after a neighbour that is joined to it as well. So all of
them get hop counts, and the walk down the counts never stalls.
-/

namespace CliquePath

namespace Detour

variable {g : Graph} {d : Detour} {v w : Vertex} {k count : Nat}

/-- The three vertices are different vertices of the graph. -/
structure Proper (g : Graph) (d : Detour) : Prop where
  avoid : d.avoid ∈ g.vertices
  start : d.start ∈ g.vertices
  target : d.target ∈ g.vertices
  start_ne : d.start ≠ d.avoid
  target_ne : d.target ≠ d.avoid
  ne : d.start ≠ d.target

theorem mem_avoided : v ∈ d.avoided g ↔
    v = d.avoid ∨ g.Linked d.avoid v ∧ v ≠ d.start ∧ v ≠ d.target := by
  simp [avoided]

theorem mem_allowed : v ∈ d.allowed g ↔ v = d.target ∨ v = d.start ∨
    v ∈ g.vertices ∧ v ≠ d.start ∧ v ≠ d.target ∧ v ∉ d.avoided g := by
  simp [allowed, and_assoc]

namespace Proper

variable (h : d.Proper g) (hg : g.Consistent)

include h

theorem notMem_avoided (hv : v ∈ d.allowed g) : v ∉ d.avoided g := by
  rcases mem_allowed.1 hv with rfl | rfl | ⟨-, -, -, hno⟩
  · rw [mem_avoided]
    exact fun hin => hin.elim h.target_ne fun hin => hin.2.2 rfl
  · rw [mem_avoided]
    exact fun hin => hin.elim h.start_ne fun hin => hin.2.1 rfl
  · exact hno

include hg

/-- Every vertex is either allowed or avoided. -/
theorem perm_vertices : (d.allowed g ++ d.avoided g).Perm g.vertices := by
  have hallowed : (d.allowed g).Nodup := by
    refine List.nodup_cons.2 ⟨?_, List.nodup_cons.2 ⟨?_, (Graph.nodup_vertices g).filter _⟩⟩
    · simp [h.ne.symm]
    · simp
  have havoided : (d.avoided g).Nodup := by
    refine List.nodup_cons.2 ⟨fun hin => ?_, (hg.nodup _).filter _⟩
    exact hg.irrefl _ (List.mem_filter.1 hin).1
  have hnodup : (d.allowed g ++ d.avoided g).Nodup := by
    refine List.nodup_append.2 ⟨hallowed, havoided, ?_⟩
    rintro v hv w hw rfl
    exact h.notMem_avoided hv hw
  refine (List.perm_ext_iff_of_nodup hnodup (Graph.nodup_vertices g)).2 fun v => ?_
  rw [List.mem_append, mem_allowed]
  constructor
  · rintro ((rfl | rfl | hv) | hv)
    · exact h.target
    · exact h.start
    · exact hv.1
    · rcases mem_avoided.1 hv with rfl | ⟨hv, -⟩
      · exact h.avoid
      · exact (hg.mem_vertices_of_linked hv).2
  · intro hv
    -- every vertex is an end of the detour, avoided, or one of the others
    by_cases htarget : v = d.target
    · exact Or.inl (Or.inl htarget)
    by_cases hstart : v = d.start
    · exact Or.inl (Or.inr (Or.inl hstart))
    by_cases havoid : v ∈ d.avoided g
    · exact Or.inr havoid
    · exact Or.inl (Or.inr (Or.inr ⟨hv, hstart, htarget, havoid⟩))

end Proper

/-- The vertices in the order in which the search visits them. -/
def visits (g : Graph) (d : Detour) : List Vertex :=
  Groups.visit g g.vertexCount [d.allowed g, d.avoided g]

/-- The hop count of a vertex after the search. -/
def hops? (g : Graph) (d : Detour) (v : Vertex) : Option Nat :=
  (HopCounts.along g (d.visits g) [(d.target, 0)]).lookup v

theorem hops?_search (g : Graph) (d : Detour) (v : Vertex) :
    (d.search g).hops? v = d.hops? g v := rfl

theorem hops?_target (g : Graph) (d : Detour) : d.hops? g d.target = some 0 :=
  HopCounts.lookup_along_of_lookup (by simp)

/-- Apart from the target, a vertex with a hop count has a neighbour that is one hop closer. -/
theorem source_of_hops? (h : d.hops? g v = some k) :
    (v = d.target ∧ k = 0) ∨ ∃ w ∈ d.visits g, g.Linked w v ∧
      ∃ count, d.hops? g w = some count ∧ k = count + 1 := by
  rcases HopCounts.source_of_lookup_along h with h | h
  · rw [HopCounts.lookup_cons] at h
    split at h
    next heq => exact Or.inl ⟨heq, (Option.some.inj h).symm⟩
    next => cases h
  · exact Or.inr h

section Search

variable (h : d.Proper g) (hg : g.Consistent)

include h hg

theorem Proper.tidy : Groups.Tidy [d.allowed g, d.avoided g] := by
  refine ⟨?_, ?_⟩
  · simpa using (h.perm_vertices hg).nodup_iff.2 (Graph.nodup_vertices g)
  · simp [allowed, avoided]

theorem Proper.length_le : [d.allowed g, d.avoided g].flatten.length ≤ g.vertexCount := by
  have hlen := (h.perm_vertices hg).length_eq
  rw [hg.count]
  simp only [List.flatten_cons, List.flatten_nil, List.append_nil]
  exact Nat.le_of_eq hlen

theorem Proper.perm_visits : (d.visits g).Perm g.vertices := by
  have hperm := (h.tidy hg).perm_visit hg.nodup (h.length_le hg)
  refine hperm.trans ?_
  simpa using h.perm_vertices hg

theorem Proper.nodup_visits : (d.visits g).Nodup :=
  (h.perm_visits hg).nodup_iff.2 (Graph.nodup_vertices g)

theorem Proper.mem_visits (hv : v ∈ d.allowed g) : v ∈ d.visits g := by
  rw [(h.perm_visits hg).mem_iff, ← (h.perm_vertices hg).mem_iff]
  exact List.mem_append_left _ hv

end Search

theorem Proper.ordered (h : d.Proper g) :
    Groups.Ordered g (· ∈ d.avoided g) [] [d.allowed g, d.avoided g] := by
  refine Groups.ordered_nil ?_ ?_
  · intro group hgroup b hb c hc
    rcases List.mem_cons.1 hgroup with rfl | hgroup
    · exact iff_of_false (h.notMem_avoided hb) (h.notMem_avoided hc)
    · obtain rfl := List.mem_singleton.1 hgroup
      exact iff_of_true hb hc
  · exact List.pairwise_pair.2 fun b hb c hc => ⟨h.notMem_avoided hb, hc⟩

section Reach

variable (h : d.Proper g) (hg : g.Consistent)

include h hg

/-- The search begins with the target. -/
theorem Proper.idxOf_target (hne : v ≠ d.target) :
    (d.visits g).idxOf d.target < (d.visits g).idxOf v := by
  obtain ⟨n, hn⟩ : ∃ n, g.vertexCount = n + 1 := by
    refine Nat.exists_eq_succ_of_ne_zero fun hzero => ?_
    rw [hg.count] at hzero
    exact List.ne_nil_of_mem h.target (List.eq_nil_of_length_eq_zero hzero)
  rw [visits, hn, allowed, Groups.visit_cons]
  rw [List.idxOf_cons_self, List.idxOf_cons_ne _ hne.symm]
  exact Nat.succ_pos _

/-- A vertex visited after a neighbour that has a hop count gets one. -/
theorem Proper.exists_hops?_of_linked (hk : d.hops? g v = some k) (hvw : g.Linked v w)
    (hw : w ∈ d.visits g) (hlt : (d.visits g).idxOf v < (d.visits g).idxOf w) :
    ∃ j, d.hops? g w = some j := by
  have hv : v ∈ d.visits g :=
    List.idxOf_lt_length_iff.1 (Nat.lt_of_lt_of_le hlt List.idxOf_le_length)
  obtain ⟨pre, post, hsplit, hpre⟩ := List.eq_append_cons_of_mem hv
  have hnodup := h.nodup_visits hg
  rw [hops?, hsplit] at hk ⊢
  rw [hsplit] at hw hlt hnodup
  exact HopCounts.exists_lookup_along hnodup hk (mem_of_idxOf_lt hpre hlt hw) hvw

/-- Every vertex that is joined to the target through allowed vertices gets a hop count. -/
theorem Proper.exists_hops? (hjoined : Joined g.Linked (· ∈ d.allowed g) d.target w) :
    ∃ k, d.hops? g w = some k := by
  -- By induction on the position at which the vertex is visited.
  induction hpos : (d.visits g).idxOf w using Nat.strong_induction_on generalizing w with
  | _ n ih =>
      subst hpos
      by_cases htarget : w = d.target
      · exact htarget ▸ ⟨0, hops?_target g d⟩
      have hw := h.mem_visits hg hjoined.right
      -- It is enough that a neighbour that is joined to the target is visited before.
      have hnear : ∀ v, Joined g.Linked (· ∈ d.allowed g) d.target v → g.Linked v w →
          (d.visits g).idxOf v < (d.visits g).idxOf w → ∃ k, d.hops? g w = some k := by
        intro v hv hvw hlt
        obtain ⟨k, hk⟩ := ih _ hlt hv rfl
        exact h.exists_hops?_of_linked hg hk hvw hw hlt
      obtain ⟨p, q, hp, hpq, hq, hpw, hqw⟩ := hjoined.exists_step
        (Q := fun v => (d.visits g).idxOf v < (d.visits g).idxOf w)
        (h.idxOf_target hg htarget) (Nat.lt_irrefl _)
      by_cases hpnear : g.Linked p w
      · exact hnear p hp hpnear hpw
      -- Otherwise `w` is ahead of `q`, by a neighbour that is visited before `p`.
      have hqne : q ≠ w := fun heq => hpnear (heq ▸ hpq)
      obtain ⟨pre, post, hsplit, hpre⟩ := List.eq_append_cons_of_mem hw
      have hqv := h.mem_visits hg hq
      have hwq : (d.visits g).idxOf w < (d.visits g).idxOf q := by
        refine Nat.lt_of_le_of_ne (Nat.le_of_not_lt hqw) fun heq => ?_
        exact hqne ((List.idxOf_inj hw).1 heq).symm
      rw [hsplit] at hpw hwq hqv
      have horder := (h.ordered.visit (h.tidy hg) hg.nodup (h.length_le hg) hsplit
        (mem_of_idxOf_lt hpre hwq hqv)).2 fun hlate => absurd hlate (h.notMem_avoided hq)
      obtain ⟨l, x, r, hsplit', -, hxw, -⟩ :=
        Groups.exists_of_level_or horder ((idxOf_lt_iff_mem hpre).1 hpw) hpq hpnear
      obtain rfl : pre = l ++ x :: r := hsplit'
      have hsplit'' : d.visits g = l ++ x :: (r ++ w :: post) := by
        rw [hsplit, List.append_assoc, List.cons_append]
      have hwafter : w ∈ r ++ w :: post := List.mem_append_right _ List.mem_cons_self
      have hxallowed : x ∈ d.allowed g := by
        have hxavoided : x ∉ d.avoided g := fun hlate =>
          h.notMem_avoided hjoined.right ((h.ordered.visit (h.tidy hg) hg.nodup (h.length_le hg)
            hsplit'' hwafter).1 hlate)
        have hx : x ∈ d.visits g := by
          rw [hsplit'']
          exact List.mem_append_right _ List.mem_cons_self
        rw [(h.perm_visits hg).mem_iff, ← (h.perm_vertices hg).mem_iff] at hx
        exact (List.mem_append.1 hx).resolve_right hxavoided
      refine hnear x (hjoined.trans (Joined.step (hg.symm x w hxw) hjoined.right hxallowed)) hxw ?_
      have hnodup := h.nodup_visits hg
      rw [hsplit''] at hnodup ⊢
      exact idxOf_lt_of_mem hnodup hwafter

end Reach

/-! ## The walk -/

theorem closer_eq_some {c : CountedRanking} {l : List Vertex} {k : Fin count}
    (h : closer c count l = some (v, k)) : v ∈ l ∧ c.hops? v = some k.1 := by
  induction l with
  | nil => cases h
  | cons x rest ih =>
      rw [closer] at h
      split at h
      next =>
        obtain ⟨hv, hk⟩ := ih h
        exact ⟨List.mem_cons_of_mem _ hv, hk⟩
      next j hj =>
        split at h
        next =>
          cases h
          exact ⟨List.mem_cons_self, hj⟩
        next =>
          obtain ⟨hv, hk⟩ := ih h
          exact ⟨List.mem_cons_of_mem _ hv, hk⟩

theorem exists_closer {c : CountedRanking} {l : List Vertex} (hv : v ∈ l)
    (hk : c.hops? v = some k) (hlt : k < count) : ∃ next, closer c count l = some next := by
  induction l with
  | nil => exact absurd hv List.not_mem_nil
  | cons x rest ih =>
      rw [closer]
      -- the vertex itself is one to take, unless one before it is taken
      rcases List.mem_cons.1 hv with rfl | hv
      · rw [hk]
        exact ⟨(v, ⟨k, hlt⟩), dif_pos hlt⟩
      · split
        next => exact ih hv
        next j _ =>
          split
          next h => exact ⟨_, rfl⟩
          next => exact ih hv

/-- The walk ends at the target. -/
theorem exists_descend (h : d.hops? g v = some count) :
    ∃ walked, descend g (d.search g) count v = .ok (walked, d.target) := by
  induction count using Nat.strong_induction_on generalizing v with
  | _ count ih =>
      rw [descend]
      rcases source_of_hops? h with ⟨rfl, rfl⟩ | ⟨w, hw, hwv, k, hk, rfl⟩
      · exact ⟨[], rfl⟩
      · rw [if_neg (Nat.succ_ne_zero k)]
        -- a vertex with a count got it from a neighbour with a smaller one
        have hnear : w ∈ g.neighborsByRank (d.search g).ranking v :=
          List.mem_filter.2 ⟨hw, Graph.adjacent_iff.2 hwv⟩
        obtain ⟨⟨next, j⟩, hnext⟩ := exists_closer hnear
          ((hops?_search g d w).trans hk) (Nat.lt_succ_self k)
        obtain ⟨walked, hwalked⟩ :=
          ih j j.isLt ((hops?_search g d next).symm.trans (closer_eq_some hnext).2)
        refine ⟨v :: walked, ?_⟩
        rw [hnext]
        simp only [hwalked]

/-- A path is found whenever the start and the target are joined through allowed vertices. -/
theorem Proper.exists_path (h : d.Proper g) (hg : g.Consistent)
    (hjoined : Joined g.Linked (· ∈ d.allowed g) d.target d.start) : ∃ p, path g d = .ok p := by
  obtain ⟨count, hcount⟩ := h.exists_hops? hg hjoined
  obtain ⟨walked, hwalked⟩ := exists_descend hcount
  refine ⟨walked ++ [d.target], ?_⟩
  simp only [path, hops?_search, hcount, hwalked, if_true]

end Detour

end CliquePath
