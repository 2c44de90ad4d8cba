import CliquePath.Elimination
import CliquePath.Proofs.Search.Ranking

set_option autoImplicit false

/-!
# Elimination of chordal graphs

This module defines the check of an elimination order by adjacency and shows that it is exact: there is
an unmet demand unless the later neighbours of each vertex are pairwise adjacent, and an unmet demand is
a pair of earlier visited neighbours of some vertex that are not adjacent.
-/

namespace CliquePath

namespace Graph

/-- For each vertex that has later neighbours: the first of them, and the others, to which that
first one has to be adjacent. -/
def demands (g : Graph) : List Vertex → List (Vertex × List Vertex)
  | [] => []
  | v :: later =>
      match later.filter fun w => g.adjacent w v with
      | [] => demands g later
      | first :: others => (first, others) :: demands g later

/-- The vertices to which `v` has to be adjacent. -/
def required (demands : List (Vertex × List Vertex)) (v : Vertex) : List Vertex :=
  (demands.filter fun d => d.1 == v).flatMap Prod.snd

/-- The vertex of highest rank that misses a vertex it has to be adjacent to, and the first one that
it misses. There is none exactly when the ranking is an elimination order. -/
def unmetDemand? (g : Graph) (r : Ranking) : Option (Vertex × Vertex) :=
  let demands := g.demands r.order
  r.order.reverse.findSome? fun v =>
    ((required demands v).find? fun w => !g.adjacent v w).map fun w => (v, w)

variable {g : Graph} {order : List Vertex}

/-- The later neighbours of each vertex are pairwise adjacent. -/
def LaterClique (g : Graph) (order : List Vertex) : Prop :=
  ∀ front v later, order = front ++ v :: later → ∀ x ∈ later, ∀ y ∈ later,
    g.Linked x v → g.Linked y v → x ≠ y → g.Linked x y

theorem LaterClique.tail {v : Vertex} (h : g.LaterClique (v :: order)) : g.LaterClique order :=
  fun front w later heq => h (v :: front) w later (by rw [heq, List.cons_append])

/-- Every demand is met. -/
theorem LaterClique.adjacent_of_mem_demands (h : g.LaterClique order) (hnodup : order.Nodup) :
    ∀ d ∈ g.demands order, ∀ w ∈ d.2, g.Linked d.1 w := by
  induction order with
  | nil => exact fun d hd => absurd hd List.not_mem_nil
  | cons v later ih =>
      obtain ⟨-, hlater⟩ := List.nodup_cons.1 hnodup
      have hrest := ih h.tail hlater
      rw [demands]
      cases hnear : later.filter fun w => g.adjacent w v with
      | nil => exact hrest
      | cons first others =>
          intro d hd w hw
          -- The demand of `v` itself: its first later neighbour must be joined to all others.
          rcases List.mem_cons.1 hd with rfl | hd
          · have hmem : ∀ x ∈ first :: others, x ∈ later ∧ g.Linked x v := by
              intro x hx
              rw [← hnear, List.mem_filter] at hx
              exact ⟨hx.1, adjacent_iff.1 hx.2⟩
            have hne : first ≠ w := by
              have hnodup' : (first :: others).Nodup := hnear ▸ hlater.filter _
              exact fun heq => (List.nodup_cons.1 hnodup').1 (heq ▸ hw)
            obtain ⟨hfirst, hfirstv⟩ := hmem first List.mem_cons_self
            obtain ⟨hwl, hwv⟩ := hmem w (List.mem_cons_of_mem _ hw)
            exact h [] v later rfl first hfirst w hwl hfirstv hwv hne
          · exact hrest d hd w hw

/-- The vertices of a demand are later neighbours of one vertex. -/
theorem exists_of_mem_demands {d : Vertex × List Vertex} (hd : d ∈ g.demands order) :
    ∃ front v later, order = front ++ v :: later ∧
      (later.filter fun w => g.adjacent w v) = d.1 :: d.2 := by
  induction order with
  | nil => exact absurd hd List.not_mem_nil
  | cons v later ih =>
      have hrest : d ∈ g.demands later → ∃ front x rest, v :: later = front ++ x :: rest ∧
          (rest.filter fun w => g.adjacent w x) = d.1 :: d.2 := by
        intro hd
        obtain ⟨front, x, rest, heq, hnear⟩ := ih hd
        exact ⟨v :: front, x, rest, by rw [heq, List.cons_append], hnear⟩
      rw [demands] at hd
      split at hd
      next => exact hrest hd
      next first others hnear =>
        rcases List.mem_cons.1 hd with rfl | hd
        · exact ⟨[], v, later, rfl, hnear⟩
        · exact hrest hd

/-- If every demand is met, the later neighbours of each vertex are pairwise adjacent. -/
theorem laterClique_of_met (hnodup : order.Nodup) (hsymm : ∀ v w, g.Linked v w → g.Linked w v)
    (hmet : ∀ d ∈ g.demands order, ∀ w ∈ d.2, g.Linked d.1 w) : g.LaterClique order := by
  induction order with
  | nil =>
      intro front v later heq
      cases front <;> cases heq
  | cons v later ih =>
      obtain ⟨-, hlater⟩ := List.nodup_cons.1 hnodup
      have htail : g.LaterClique later := by
        refine ih hlater fun d hd w hw => hmet d ?_ w hw
        rw [demands]
        split
        next => exact hd
        next => exact List.mem_cons_of_mem _ hd
      intro front x rest heq a ha b hb hax hbx hab
      cases front with
      | cons y front =>
          cases heq
          exact htail front x rest rfl a ha b hb hax hbx hab
      | nil =>
          cases heq
          -- All later neighbours of `v` are seen by the first of them, which comes before the rest.
          have hnear : ∀ {z}, z ∈ later → g.Linked z v →
              z ∈ later.filter fun w => g.adjacent w v := fun hz hzv =>
            List.mem_filter.2 ⟨hz, adjacent_iff.2 hzv⟩
          cases hfilter : later.filter fun w => g.adjacent w v with
          | nil => exact absurd (hfilter ▸ hnear ha hax) List.not_mem_nil
          | cons first others =>
              have hfirst : ∀ w ∈ others, g.Linked first w := by
                refine fun w hw => hmet (first, others) ?_ w hw
                rw [demands, hfilter]
                exact List.mem_cons_self
              have hin : ∀ {z}, z ∈ later → g.Linked z v → z = first ∨ z ∈ others := fun hz hzv =>
                List.mem_cons.1 (hfilter ▸ hnear hz hzv)
              rcases hin ha hax with rfl | ha'
              · exact hfirst b ((hin hb hbx).resolve_left (Ne.symm hab))
              rcases hin hb hbx with rfl | hb'
              · exact hsymm _ _ (hfirst a ha')
              obtain ⟨pre, post, hsplit, hfront⟩ := List.filter_eq_cons_iff.1 hfilter
              have hpost : ∀ z ∈ others, z ∈ post := fun z hz =>
                (List.mem_filter.1 (hfront.2.2 ▸ hz)).1
              exact htail pre first post hsplit a (hpost a ha') b (hpost b hb')
                (hsymm _ _ (hfirst a ha')) (hsymm _ _ (hfirst b hb')) hab

theorem LaterClique.unmetDemand?_eq_none {r : Ranking} (h : g.LaterClique r.order)
    (hnodup : r.order.Nodup) : g.unmetDemand? r = none := by
  refine List.findSome?_eq_none_iff.2 fun v _ => ?_
  rw [Option.map_eq_none_iff, List.find?_eq_none]
  intro w hw
  obtain ⟨d, hd, hwd⟩ := List.mem_flatMap.1 hw
  obtain ⟨hd, hdv⟩ := List.mem_filter.1 hd
  have hlinked := h.adjacent_of_mem_demands hnodup d hd w hwd
  rw [beq_iff_eq.1 hdv] at hlinked
  simpa using hlinked

/-- An order without unmet demands has pairwise adjacent later neighbours. -/
theorem laterClique_of_unmetDemand? {r : Ranking} (hnodup : r.order.Nodup)
    (hsymm : ∀ v w, g.Linked v w → g.Linked w v) (h : g.unmetDemand? r = none) :
    g.LaterClique r.order := by
  refine laterClique_of_met hnodup hsymm fun d hd w hw => ?_
  obtain ⟨front, v, later, heq, hnear⟩ := exists_of_mem_demands hd
  have hfirst : d.1 ∈ r.order.reverse := by
    rw [List.mem_reverse, heq]
    have hin : d.1 ∈ later.filter fun w => g.adjacent w v := hnear ▸ List.mem_cons_self
    exact List.mem_append_right _ (List.mem_cons_of_mem _ (List.mem_filter.1 hin).1)
  have hmet := List.findSome?_eq_none_iff.1 h d.1 hfirst
  rw [Option.map_eq_none_iff, List.find?_eq_none] at hmet
  have hrequired : w ∈ required (g.demands r.order) d.1 :=
    List.mem_flatMap.2 ⟨d, List.mem_filter.2 ⟨hd, beq_self_eq_true _⟩, hw⟩
  simpa using hmet w hrequired

/-- An unmet demand is a pair of later neighbours of one vertex that are not adjacent. -/
theorem exists_of_unmetDemand? {r : Ranking} {v w : Vertex} (hnodup : r.order.Nodup)
    (h : g.unmetDemand? r = some (v, w)) : ∃ front x later, r.order = front ++ x :: later ∧
      v ∈ later ∧ w ∈ later ∧ g.Linked v x ∧ g.Linked w x ∧ v ≠ w ∧ ¬ g.Linked v w := by
  obtain ⟨y, -, hy⟩ := List.exists_of_findSome?_eq_some h
  obtain ⟨z, hz, heq⟩ := Option.map_eq_some_iff.1 hy
  cases heq
  -- The missed vertex was looked up among the neighbours and not found.
  have hno : ¬ g.Linked v w := by
    have hmissed := List.find?_some hz
    rwa [Bool.not_eq_true', ← Bool.not_eq_true, adjacent_iff] at hmissed
  obtain ⟨d, hd, hwd⟩ := List.mem_flatMap.1 (List.mem_of_find?_eq_some hz)
  obtain ⟨hd, hdv⟩ := List.mem_filter.1 hd
  obtain ⟨front, x, later, horder, hnear⟩ := exists_of_mem_demands hd
  rw [beq_iff_eq.1 hdv] at hnear
  have hin : ∀ y ∈ v :: d.2, y ∈ later ∧ g.Linked y x := by
    intro y hy
    rw [← hnear, List.mem_filter] at hy
    exact ⟨hy.1, adjacent_iff.1 hy.2⟩
  have hlater : later.Nodup := by
    rw [horder] at hnodup
    exact (List.nodup_append.1 hnodup).2.1.of_cons
  have hne : v ≠ w := by
    have hpair : (v :: d.2).Nodup := hnear ▸ hlater.filter _
    exact fun heq => (List.nodup_cons.1 hpair).1 (heq ▸ hwd)
  exact ⟨front, x, later, horder, (hin v List.mem_cons_self).1,
    (hin w (List.mem_cons_of_mem _ hwd)).1, (hin v List.mem_cons_self).2,
    (hin w (List.mem_cons_of_mem _ hwd)).2, hne, hno⟩

/-- A clique order read backwards. -/
theorem LaterClique.of_reverse {visits : List Vertex} (hnodup : visits.Nodup)
    (hsymm : ∀ v w, g.Linked v w → g.Linked w v) (h : CliqueOrder g.Linked visits) :
    g.LaterClique visits.reverse := by
  intro front v later heq x hx y hy hxv hyv hne
  have hsplit : visits = later.reverse ++ v :: front.reverse := by
    rw [← List.reverse_inj, heq]
    simp
  have hv : v ∉ later.reverse := fun hin => by
    rw [hsplit] at hnodup
    exact (List.nodup_append.1 hnodup).2.2 v hin v List.mem_cons_self rfl
  have hlt : ∀ z ∈ later, visits.idxOf z < visits.idxOf v := by
    intro z hz
    rw [hsplit]
    exact (idxOf_lt_iff_mem hv).2 (List.mem_reverse.2 hz)
  refine h v ?_ x y (hlt x hx) (hlt y hy) (hsymm x v hxv) (hsymm y v hyv) hne
  rw [hsplit]
  exact List.mem_append_right _ List.mem_cons_self

/-- The other way round: the earlier neighbours of each vertex in the order read backwards. -/
theorem LaterClique.cliqueOrder {visits : List Vertex}
    (hsymm : ∀ v w, g.Linked v w → g.Linked w v) (h : g.LaterClique visits.reverse) :
    CliqueOrder g.Linked visits := by
  intro v hv x y hx hy hvx hvy hne
  obtain ⟨pre, post, hsplit, hpre⟩ := List.eq_append_cons_of_mem hv
  rw [hsplit] at hx hy
  have hmem : ∀ {z}, (pre ++ v :: post).idxOf z < (pre ++ v :: post).idxOf v →
      z ∈ pre.reverse := fun hz => List.mem_reverse.2 ((idxOf_lt_iff_mem hpre).1 hz)
  have hreverse : visits.reverse = post.reverse ++ v :: pre.reverse := by
    rw [hsplit]
    simp
  exact h post.reverse v pre.reverse hreverse x (hmem hx) y (hmem hy) (hsymm v x hvx)
    (hsymm v y hvy) hne

end Graph

end CliquePath
