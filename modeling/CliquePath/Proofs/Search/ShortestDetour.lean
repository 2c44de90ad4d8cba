import CliquePath.Proofs.Search.Detour

set_option autoImplicit false

/-!
# Shortest paths around a neighbourhood

This module shows that a path found around a neighbourhood has no chord and uses allowed vertices
only. The search visits allowed vertices in the order of their hop counts, so the counts of two
allowed neighbours differ by one at most. The walk down the counts takes the first closer neighbour
that was visited, which is an allowed one; each of its steps lowers the count by exactly one, and
vertices of the walk that are not next to each other are too far apart to be adjacent.
-/

namespace CliquePath

namespace Detour

variable {g : Graph} {d : Detour} {a b c e v w p q : Vertex} {i j k count : Nat}
  {walked : List Vertex}

section Order

variable (h : d.Proper g) (hg : g.Consistent)

include h hg

theorem Proper.mem_vertices (hv : v ∈ d.allowed g) : v ∈ g.vertices :=
  (h.perm_vertices hg).subset (List.mem_append_left _ hv)

/-- Only allowed vertices are visited before an allowed one. -/
theorem Proper.allowed_of_lt (hc : c ∈ d.allowed g)
    (hlt : (d.visits g).idxOf b < (d.visits g).idxOf c) : b ∈ d.allowed g := by
  have hb := mem_of_idxOf_lt_idxOf hlt
  obtain ⟨pre, post, hsplit, hpre⟩ := List.eq_append_cons_of_mem hb
  have hcv := h.mem_visits hg hc
  rw [hsplit] at hlt hcv
  have hlate := (h.ordered.visit (h.tidy hg) hg.nodup (h.length_le hg) hsplit
    (mem_of_idxOf_lt hpre hlt hcv)).1
  rw [(h.perm_visits hg).mem_iff, ← (h.perm_vertices hg).mem_iff] at hb
  exact (List.mem_append.1 hb).resolve_right fun hin => h.notMem_avoided hc (hlate hin)

/-- The order of the visits to allowed vertices is lexicographic. -/
theorem Proper.fourPoints (hc : c ∈ d.allowed g)
    (hab : (d.visits g).idxOf a < (d.visits g).idxOf b)
    (hbc : (d.visits g).idxOf b < (d.visits g).idxOf c) (hac : g.Linked a c)
    (hnab : ¬ g.Linked a b) :
    ∃ e, (d.visits g).idxOf e < (d.visits g).idxOf a ∧ g.Linked e b := by
  obtain ⟨pre, post, hsplit, hpre⟩ := List.eq_append_cons_of_mem (mem_of_idxOf_lt_idxOf hbc)
  have hcv := h.mem_visits hg hc
  rw [hsplit] at hab hbc hcv
  have horder := (h.ordered.visit (h.tidy hg) hg.nodup (h.length_le hg) hsplit
    (mem_of_idxOf_lt hpre hbc hcv)).2 fun hlate => absurd hlate (h.notMem_avoided hc)
  obtain ⟨l, e, r, rfl, har, heb, -⟩ :=
    Groups.exists_of_level_or horder ((idxOf_lt_iff_mem hpre).1 hab) hac hnab
  have hsplit' : d.visits g = l ++ e :: (r ++ b :: post) := by
    rw [hsplit, List.append_assoc, List.cons_append]
  refine ⟨e, ?_, heb⟩
  have hnodup := h.nodup_visits hg
  rw [hsplit'] at hnodup ⊢
  exact idxOf_lt_of_mem hnodup (List.mem_append_left _ har)

/-! ## Hop counts -/

/-- The hop count of a vertex other than the target is one more than that of the first visited
neighbour that has one. -/
theorem Proper.exists_source (hk : d.hops? g v = some k) (hne : v ≠ d.target) :
    ∃ f count, (d.visits g).idxOf f < (d.visits g).idxOf v ∧ g.Linked f v ∧
      d.hops? g f = some count ∧ k = count + 1 ∧
      ∀ e, (d.visits g).idxOf e < (d.visits g).idxOf f → g.Linked e v → d.hops? g e = none :=
  HopCounts.first_source_of_lookup_along (h.nodup_visits hg)
    (by rw [HopCounts.lookup_cons, if_neg hne, List.lookup_nil]) hk

/-- A vertex gets a count not larger than one more than that of an earlier neighbour, if no vertex
visited before that neighbour has a larger count. -/
theorem Proper.hops?_le_succ (hj : d.hops? g e = some j) (hep : g.Linked e p)
    (hp : p ∈ d.visits g) (hlt : (d.visits g).idxOf e < (d.visits g).idxOf p)
    (hbefore : ∀ f i, (d.visits g).idxOf f < (d.visits g).idxOf e → d.hops? g f = some i → i ≤ j) :
    ∃ i, i ≤ j + 1 ∧ d.hops? g p = some i := by
  obtain ⟨i, hi⟩ := h.exists_hops?_of_linked hg hj hep hp hlt
  refine ⟨i, ?_, hi⟩
  by_cases htarget : p = d.target
  · rw [htarget, hops?_target] at hi
    cases hi
    exact Nat.zero_le _
  obtain ⟨f, count, hfp, hlink, hcount, rfl, hfirst⟩ := h.exists_source hg hi htarget
  rcases Nat.lt_trichotomy ((d.visits g).idxOf f) ((d.visits g).idxOf e) with hfe | heq | hef
  · exact Nat.succ_le_succ (hbefore f count hfe hcount)
  · obtain rfl : f = e := (List.idxOf_inj (mem_of_idxOf_lt_idxOf hfp)).1 heq
    rw [hj] at hcount
    cases hcount
    exact Nat.le_refl _
  · rw [hfirst e hef hep] at hj
    cases hj

/-- Every vertex visited before an allowed one that has a hop count has a count that is not
larger. -/
theorem Proper.hops?_le_of_lt (hq : q ∈ d.allowed g) (hk : d.hops? g q = some k)
    (hpq : (d.visits g).idxOf p < (d.visits g).idxOf q) :
    ∃ i, i ≤ k ∧ d.hops? g p = some i := by
  -- By induction on the position at which `q` is visited.
  induction hpos : (d.visits g).idxOf q using Nat.strong_induction_on generalizing p q k with
  | _ n ih =>
      subst hpos
      have htarget : q ≠ d.target := by
        rintro rfl
        have hne : p ≠ d.target := fun heq => Nat.lt_irrefl _ (heq ▸ hpq)
        exact Nat.lt_asymm hpq (h.idxOf_target hg hne)
      obtain ⟨f, count, hfq, hlink, hcount, rfl, -⟩ := h.exists_source hg hk htarget
      have hf := h.allowed_of_lt hg hq hfq
      have hp := mem_of_idxOf_lt_idxOf hpq
      rcases Nat.lt_trichotomy ((d.visits g).idxOf p) ((d.visits g).idxOf f) with hpf | heq | hfp
      · obtain ⟨i, hi, hpi⟩ := ih _ hfq hf hcount hpf rfl
        exact ⟨i, Nat.le_succ_of_le hi, hpi⟩
      · obtain rfl : p = f := (List.idxOf_inj hp).1 heq
        exact ⟨count, Nat.le_succ _, hcount⟩
      -- An earlier vertex than `p` with a count that is not larger than `count` is near `p`.
      have hnear : ∀ e j, (d.visits g).idxOf e ≤ (d.visits g).idxOf f → g.Linked e p →
          d.hops? g e = some j → j ≤ count → ∃ i, i ≤ count + 1 ∧ d.hops? g p = some i := by
        intro e j hef hep hj hle
        have hep' := Nat.lt_of_le_of_lt hef hfp
        have he := h.allowed_of_lt hg hq (Nat.lt_trans hep' hpq)
        have heq := Nat.lt_trans hep' hpq
        obtain ⟨i, hi, hpi⟩ := h.hops?_le_succ hg hj hep hp hep' fun f' i' hlt hi' => by
          obtain ⟨i'', hle', hi''⟩ := ih _ heq he hj hlt rfl
          rw [hi'] at hi''
          cases hi''
          exact hle'
        exact ⟨i, Nat.le_trans hi (Nat.succ_le_succ hle), hpi⟩
      by_cases hfp' : g.Linked f p
      · exact hnear f count (Nat.le_refl _) hfp' hcount (Nat.le_refl _)
      · obtain ⟨e, hef, hep⟩ := h.fourPoints hg hq hfp hpq hlink hfp'
        obtain ⟨j, hj, hej⟩ := ih _ hfq hf hcount hef rfl
        exact hnear e j (Nat.le_of_lt hef) hep hej hj

/-- The hop counts of two allowed neighbours differ by one at most. -/
theorem Proper.hops?_le_of_linked (hp : p ∈ d.allowed g) (hq : q ∈ d.allowed g)
    (hi : d.hops? g p = some i) (hj : d.hops? g q = some j) (hlink : g.Linked q p) : i ≤ j + 1 := by
  rcases Nat.lt_trichotomy ((d.visits g).idxOf p) ((d.visits g).idxOf q) with hlt | heq | hlt
  · obtain ⟨i', hle, hi'⟩ := h.hops?_le_of_lt hg hq hj hlt
    rw [hi] at hi'
    cases hi'
    exact Nat.le_succ_of_le hle
  · obtain rfl : p = q := (List.idxOf_inj (h.mem_visits hg hp)).1 heq
    exact absurd hlink (hg.irrefl p)
  · obtain ⟨i', hle, hi'⟩ := h.hops?_le_succ hg hj hlink (h.mem_visits hg hp) hlt
      fun f i' hf hi' => by
        obtain ⟨i'', hle, hi''⟩ := h.hops?_le_of_lt hg hq hj hf
        rw [hi'] at hi''
        cases hi''
        exact hle
    rw [hi] at hi'
    cases hi'
    exact hle

end Order

/-! ## The walk -/

/-- The vertex taken is the first one in the list that is close enough. -/
theorem closer_first {c : CountedRanking} {l : List Vertex} {m : Fin count}
    (hsome : closer c count l = some (v, m)) :
    ∃ pre post, l = pre ++ v :: post ∧ ∀ w ∈ pre, ∀ j, c.hops? w = some j → count ≤ j := by
  induction l with
  | nil => cases hsome
  | cons x rest ih =>
      rw [closer] at hsome
      split at hsome
      next hx =>
        obtain ⟨pre, post, rfl, hpre⟩ := ih hsome
        refine ⟨x :: pre, post, rfl, fun w hw j hj => ?_⟩
        rcases List.mem_cons.1 hw with rfl | hw
        · rw [hx] at hj
          cases hj
        · exact hpre w hw j hj
      next n hn =>
        split at hsome
        next =>
          cases hsome
          exact ⟨[], rest, rfl, fun w hw => absurd hw List.not_mem_nil⟩
        next hle =>
          obtain ⟨pre, post, rfl, hpre⟩ := ih hsome
          refine ⟨x :: pre, post, rfl, fun w hw j hj => ?_⟩
          rcases List.mem_cons.1 hw with rfl | hw
          · rw [hn] at hj
            cases hj
            exact Nat.le_of_not_lt hle
          · exact hpre w hw j hj

/-- A walk over allowed vertices whose hop counts go down to 0 by one at each step. -/
inductive Descent (g : Graph) (d : Detour) : Nat → List Vertex → Prop
  | target : d.target ∈ d.allowed g → Descent g d 0 [d.target]
  | step {v w : Vertex} {k : Nat} {rest : List Vertex} : v ∈ d.allowed g →
      d.hops? g v = some (k + 1) → g.Linked w v → Descent g d k (w :: rest) →
      Descent g d (k + 1) (v :: w :: rest)

section Walk

variable (h : d.Proper g) (hg : g.Consistent)

include h hg

/-- The walk moves from an allowed vertex to an allowed neighbour that is one hop closer. -/
theorem Proper.closer_spec {m : Fin (k + 1)} (hv : v ∈ d.allowed g)
    (hk : d.hops? g v = some (k + 1))
    (hsome : closer (d.search g) (k + 1) (g.neighborsByRank (d.search g).ranking v) = some (w, m)) :
    w ∈ d.allowed g ∧ g.Linked w v ∧ d.hops? g w = some k ∧ m.1 = k := by
  obtain ⟨hw, hm⟩ := closer_eq_some hsome
  rw [hops?_search] at hm
  have htarget : v ≠ d.target := by
    rintro rfl
    rw [hops?_target] at hk
    cases hk
  obtain ⟨f, count, hfv, hlink, hcount, hk', -⟩ := h.exists_source hg hk htarget
  obtain rfl : k = count := Nat.succ.inj hk'
  have hf := h.allowed_of_lt hg hv hfv
  have hnear : g.neighborsByRank (d.search g).ranking v =
      (d.visits g).filter fun x => g.adjacent x v := rfl
  have hlist : f ∈ g.neighborsByRank (d.search g).ranking v := by
    rw [hnear]
    exact List.mem_filter.2 ⟨mem_of_idxOf_lt_idxOf hfv, Graph.adjacent_iff.2 hlink⟩
  have hwv : w ∈ d.visits g ∧ g.Linked w v := by
    rw [hnear] at hw
    obtain ⟨hin, hadj⟩ := List.mem_filter.1 hw
    exact ⟨hin, Graph.adjacent_iff.1 hadj⟩
  -- The neighbour taken is visited no later than `f`, so it is allowed.
  have hallowed : w ∈ d.allowed g := by
    obtain ⟨pre, post, hsplit, hpre⟩ := closer_first hsome
    rw [hsplit, List.mem_append, List.mem_cons] at hlist
    rcases hlist with hin | rfl | hin
    · have := hpre f hin k hcount
      exact absurd this (Nat.not_succ_le_self k)
    · exact hf
    · have hpair : (d.visits g).Pairwise fun a b =>
          (d.visits g).idxOf a < (d.visits g).idxOf b := by
        refine List.pairwise_iff_getElem.2 fun a b ha hb hab => ?_
        rwa [(h.nodup_visits hg).idxOf_getElem, (h.nodup_visits hg).idxOf_getElem]
      have hpair' := hpair.filter fun x => g.adjacent x v
      rw [← hnear, hsplit, List.pairwise_append] at hpair'
      exact h.allowed_of_lt hg hf ((List.pairwise_cons.1 hpair'.2.1).1 f hin)
  have hle := h.hops?_le_of_linked hg hv hallowed hk hm hwv.2
  have hlt := m.isLt
  have hmk : m.1 = k := by omega
  exact ⟨hallowed, hwv.2, hmk ▸ hm, hmk⟩

theorem Proper.descent (hv : v ∈ d.allowed g) (hk : d.hops? g v = some k)
    (hwalk : descend g (d.search g) k v = .ok (walked, w)) :
    w = d.target ∧ Descent g d k (walked ++ [w]) ∧ (walked ++ [w]).head? = some v := by
  induction k generalizing v walked with
  | zero =>
      rw [descend, if_pos rfl] at hwalk
      cases hwalk
      rcases source_of_hops? hk with ⟨rfl, -⟩ | ⟨x, -, -, count, -, hcount⟩
      · exact ⟨rfl, .target hv, rfl⟩
      · cases hcount
  | succ k ih =>
      rw [descend, if_neg (Nat.succ_ne_zero k)] at hwalk
      split at hwalk
      next => cases hwalk
      next next m hnext =>
        obtain ⟨hnextv, hlink, hhops, hmk⟩ := h.closer_spec hg hv hk hnext
        rw [hmk] at hwalk
        split at hwalk
        next => cases hwalk
        next rest reached hrest =>
          cases hwalk
          obtain ⟨hreached, hdescent, hhead⟩ := ih hnextv hhops hrest
          refine ⟨hreached, ?_, rfl⟩
          -- The rest of the walk begins with the neighbour taken.
          cases hrest' : rest ++ [w] with
          | nil =>
              rw [hrest'] at hhead
              cases hhead
          | cons x tail =>
              rw [hrest'] at hhead hdescent
              cases hhead
              rw [List.cons_append, hrest']
              exact .step hv hk hlink hdescent

omit h hg

theorem Descent.length_eq {l : List Vertex} (hl : Descent g d k l) : l.length = k + 1 := by
  induction hl with
  | target => rfl
  | step _ _ _ _ ih => rw [List.length_cons, ih]

theorem Descent.getLast?_eq {l : List Vertex} (hl : Descent g d k l) :
    l.getLast? = some d.target := by
  induction hl with
  | target => rfl
  | step _ _ _ _ ih => rw [List.getLast?_cons_cons, ih]

/-- The hop counts along the walk. -/
theorem Descent.getElem {l : List Vertex} (hl : Descent g d k l) (hi : i < l.length) :
    l[i] ∈ d.allowed g ∧ d.hops? g l[i] = some (k - i) := by
  induction hl generalizing i with
  | target htarget =>
      obtain rfl : i = 0 := Nat.lt_one_iff.1 hi
      exact ⟨htarget, hops?_target g d⟩
  | @step v w k rest hv hk _ hrest ih =>
      cases i with
      | zero => exact ⟨hv, hk⟩
      | succ i =>
          obtain ⟨hmem, hhops⟩ := ih (i := i) (Nat.lt_of_succ_lt_succ hi)
          rw [List.getElem_cons_succ, Nat.succ_sub_succ_eq_sub]
          exact ⟨hmem, hhops⟩

theorem Descent.linked_succ {l : List Vertex} (hl : Descent g d k l) (hi : i + 1 < l.length) :
    g.Linked l[i + 1] l[i] := by
  induction hl generalizing i with
  | target => exact absurd hi (Nat.not_lt.2 (Nat.le_add_left _ _))
  | @step v w k rest hv hk hlink hrest ih =>
      cases i with
      | zero => exact hlink
      | succ i => exact ih (i := i) (Nat.lt_of_succ_lt_succ hi)

include h hg

/-- A walk down the hop counts has no chord. -/
theorem Descent.chordless {l : List Vertex} (hl : Descent g d k l) :
    Chordless g.vertices g.Linked l := by
  have hlen := hl.length_eq
  refine ⟨?_, ?_, ?_⟩
  · refine List.pairwise_iff_getElem.2 fun i j hi hj hij heq => ?_
    have hcount := (hl.getElem hi).2
    rw [heq, (hl.getElem hj).2, Option.some.injEq] at hcount
    omega
  · intro v hv
    obtain ⟨i, hi, rfl⟩ := List.getElem_of_mem hv
    exact h.mem_vertices hg (hl.getElem hi).1
  · intro i j hij hj
    obtain ⟨hiv, hicount⟩ := hl.getElem (Nat.lt_trans hij hj)
    obtain ⟨hjv, hjcount⟩ := hl.getElem hj
    constructor
    · intro hlink
      have hle := h.hops?_le_of_linked hg hiv hjv hicount hjcount (hg.symm _ _ hlink)
      omega
    · rintro rfl
      exact hg.symm _ _ (hl.linked_succ hj)

/-- A path found goes down the hop counts from that of the start. -/
theorem Proper.descent_of_path {l : List Vertex} (hl : path g d = .ok l) :
    ∃ count, d.hops? g d.start = some count ∧ Descent g d count l ∧ l.head? = some d.start := by
  have hstart : d.start ∈ d.allowed g := mem_allowed.2 (Or.inr (Or.inl rfl))
  simp only [path, hops?_search] at hl
  split at hl
  next => cases hl
  next count hcount =>
    split at hl
    next => cases hl
    next walked reached hwalk =>
      split at hl
      next hreached =>
        cases hl
        obtain ⟨-, hdescent, hhead⟩ := h.descent hg hstart hcount hwalk
        rw [hreached] at hdescent hhead
        exact ⟨count, hcount, hdescent, hhead⟩
      next => cases hl

/-- A path found is a chordless path from the start to the target over allowed vertices. -/
theorem Proper.path_spec {l : List Vertex} (hl : path g d = .ok l) :
    Chordless g.vertices g.Linked l ∧ l.head? = some d.start ∧ l.getLast? = some d.target ∧
      ∀ v ∈ l, v ∈ d.allowed g := by
  obtain ⟨count, -, hdescent, hhead⟩ := h.descent_of_path hg hl
  refine ⟨hdescent.chordless h hg, hhead, hdescent.getLast?_eq, fun v hv => ?_⟩
  obtain ⟨i, hi, rfl⟩ := List.getElem_of_mem hv
  exact (hdescent.getElem hi).1

end Walk

end Detour

end CliquePath
