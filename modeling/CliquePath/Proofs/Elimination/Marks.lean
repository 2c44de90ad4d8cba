import CliquePath.Proofs.Elimination
import CliquePath.Proofs.Marks

set_option autoImplicit false

/-!
# The check of an elimination order with marks

This module shows that the two passes with marks find what `unmetDemand?` finds. On the way up, the
lists that are handed over are the demands. On the way down, every round starts without marks, since
the one before took off all that it had set; so a mark tells adjacency to the vertex of the round. So a
graph without holes gets the order of its backward search.
-/

namespace CliquePath

variable {v w : Vertex}

namespace Graph

variable {g : Graph} {r : Ranking} {front part : List Vertex} {n : Nat}

/-! ## The way up -/

/-- Cutting the neighbours by rank leaves those that come later in the order. -/
theorem laterNeighbors_eq (hirrefl : ∀ v, ¬ g.Linked v v) (hnodup : r.order.Nodup)
    (horder : r.order = front ++ v :: part) :
    laterNeighbors r (g.neighborsByRank r) v = part.filter fun w => g.adjacent w v := by
  have hself : g.adjacent v v = false := by
    rw [← Bool.not_eq_true, adjacent_iff]
    exact hirrefl v
  have hsplit := horder ▸ hnodup
  have hv : v ∉ front := fun hmem =>
    (List.nodup_append.1 hsplit).2.2 v hmem v List.mem_cons_self rfl
  have hlow : ∀ w ∈ front.filter (fun x => g.adjacent x v),
      decide (r.order.idxOf w < r.order.idxOf v) = true := by
    intro w hw
    rw [horder]
    exact decide_eq_true ((idxOf_lt_iff_mem hv).2 (List.mem_filter.1 hw).1)
  have hhigh : ∀ w ∈ part.filter (fun x => g.adjacent x v),
      ¬ decide (r.order.idxOf w < r.order.idxOf v) = true := by
    intro w hw
    rw [horder, decide_eq_true_eq, idxOf_lt_iff_mem hv]
    intro hwf
    exact (List.nodup_append.1 hsplit).2.2 w hwf w
      (List.mem_cons_of_mem v (List.mem_filter.1 hw).1) rfl
  have hnear : g.neighborsByRank r v = front.filter (fun x => g.adjacent x v) ++
      part.filter fun x => g.adjacent x v := by
    simp [neighborsByRank, horder, hself]
  rw [laterNeighbors, hnear, List.dropWhile_append_of_pos hlow]
  cases hpart : part.filter fun x => g.adjacent x v with
  | nil => rfl
  | cons w rest => exact List.dropWhile_cons_of_neg (hhigh w (hpart ▸ List.mem_cons_self))

/-- Handing over along a part of the order adds the demands of that part. -/
theorem foldl_handOver (front : List Vertex) (hirrefl : ∀ v, ¬ g.Linked v v) (hnodup : r.order.Nodup)
    (horder : r.order = front ++ part) (pending : Array (List Vertex)) :
    part.foldl (handOver r (g.neighborsByRank r)) pending =
      (g.demands part).foldl (fun pending d => pending.modify d.1 (· ++ d.2)) pending := by
  induction part generalizing front pending with
  | nil => rfl
  | cons v part ih =>
      have hrest := ih (front ++ [v]) (by simp [horder])
      rw [List.foldl_cons, hrest, handOver, laterNeighbors_eq hirrefl hnodup horder, demands]
      cases part.filter fun w => g.adjacent w v with
      | nil => rfl
      | cons first others => rfl

theorem getElem?_foldl_modify (ds : List (Vertex × List Vertex)) {pending : Array (List Vertex)}
    (hv : v < pending.size) :
    (ds.foldl (fun pending d => pending.modify d.1 (· ++ d.2)) pending)[v]?.getD [] =
      pending[v]?.getD [] ++ required ds v := by
  induction ds generalizing pending with
  | nil => simp [required]
  | cons d rest ih =>
      have hrequired : required (d :: rest) v =
          (if d.1 = v then d.2 else []) ++ required rest v := by
        by_cases hd : d.1 = v <;> simp [required, hd]
      have hmodify : (pending.modify d.1 (· ++ d.2))[v]?.getD [] =
          pending[v]?.getD [] ++ if d.1 = v then d.2 else [] := by
        rw [Array.getElem?_modify]
        by_cases hd : d.1 = v <;> simp [hd, hv]
      rw [List.foldl_cons, ih (by simpa using hv), hmodify, hrequired, List.append_assoc]

/-- What is handed to a vertex is what the demands require of it. -/
theorem getElem?_handedOver (hirrefl : ∀ v, ¬ g.Linked v v) (hnodup : r.order.Nodup)
    (hv : v < g.bound) :
    (g.handedOver r (g.neighborsByRank r))[v]?.getD [] = required (g.demands r.order) v := by
  rw [handedOver, foldl_handOver [] hirrefl hnodup rfl,
    getElem?_foldl_modify _ (by simpa using hv)]
  simp [hv]

/-! ## The way down -/

/-- The marks of the rounds before are gone in each round. -/
theorem firstMissed?_eq {pending : Array (List Vertex)} {ds : List (Vertex × List Vertex)}
    (vs : List Vertex) (hpending : ∀ v ∈ vs, pending[v]?.getD [] = required ds v)
    (hlow : ∀ v ∈ vs, ∀ w ∈ required ds v, w < n) :
    g.firstMissed? pending (.clear n) vs = vs.findSome? fun v =>
      ((required ds v).find? fun w => !g.adjacent v w).map fun w => (v, w) := by
  -- Setting and clearing the marks of one round gives back the clear array, so each round starts alike.
  induction vs with
  | nil => rfl
  | cons v below ih =>
      have hbelow := ih (fun x hx => hpending x (List.mem_cons_of_mem v hx))
        fun x hx => hlow x (List.mem_cons_of_mem v hx)
      have hfind : ((required ds v).find?
            fun w => !((Marks.clear n).setAll true (g.neighbors v)).has w) =
          (required ds v).find? fun w => !g.adjacent v w :=
        List.find?_congr fun w hw => by rw [has_marked (hlow v List.mem_cons_self w hw)]
      rw [firstMissed?, List.findSome?_cons, hpending v List.mem_cons_self]
      cases hrequired : required ds v with
      | nil => exact hbelow
      | cons first others =>
          rw [hrequired] at hfind
          simp only [hfind, Marks.setAll_setAll_clear]
          cases (first :: others).find? fun w => !g.adjacent v w with
          | none => exact hbelow
          | some w => rfl

/-- The vertices of the demands are in the order. -/
theorem mem_of_mem_required (hw : w ∈ required (g.demands part) v) : w ∈ part := by
  obtain ⟨d, hd, hwd⟩ := List.mem_flatMap.1 hw
  obtain ⟨front, x, later, rfl, hnear⟩ := exists_of_mem_demands (List.mem_filter.1 hd).1
  have hlater : w ∈ later.filter fun y => g.adjacent y x := by
    rw [hnear]
    exact List.mem_cons_of_mem _ hwd
  exact List.mem_append_right _ (List.mem_cons_of_mem _ (List.mem_filter.1 hlater).1)

/-- The two passes with marks find what the search through the demands finds. -/
theorem Consistent.unmarkedDemand?_eq (hg : g.Consistent) (hr : r.order.Perm g.vertices) :
    g.unmarkedDemand? r (g.neighborsByRank r) = g.unmetDemand? r := by
  have hnodup : r.order.Nodup := hr.nodup_iff.2 (nodup_vertices g)
  have hbound : ∀ v ∈ r.order, v < g.bound := fun v hv => lt_bound (hr.mem_iff.1 hv)
  rw [unmarkedDemand?, unmetDemand?]
  apply firstMissed?_eq
  · intro v hv
    exact getElem?_handedOver hg.irrefl hnodup (hbound v (List.mem_reverse.1 hv))
  · intro v _ w hw
    exact hbound w (mem_of_mem_required hw)

/-! ## Elimination -/

variable (hg : g.Consistent)

include hg

theorem Consistent.unmarkedDemand?_backward :
    g.unmarkedDemand? (g.lexRanking .backward) (g.neighborsByRank (g.lexRanking .backward)) =
      g.unmetDemand? (g.lexRanking .backward) :=
  hg.unmarkedDemand?_eq ((List.reverse_perm g.visits).trans hg.perm_visits)

/-- Without an unmet demand the order of the backward search is an elimination order. -/
theorem Consistent.elimination_of_none (hunmet : g.unmetDemand? (g.lexRanking .backward) = none) :
    g.elimination = .ok (.order (g.lexRanking .backward).order) := by
  rw [elimination, hg.unmarkedDemand?_backward, hunmet]

/-- An unmet demand is closed to a hole. -/
theorem Consistent.elimination_of_some
    (hunmet : g.unmetDemand? (g.lexRanking .backward) = some (v, w)) :
    g.elimination = (g.holeThrough (g.lexRanking .backward) v w).map .hole := by
  rw [elimination, hg.unmarkedDemand?_backward, hunmet]

/-- A graph without holes is eliminated in the order of its backward search. -/
theorem Consistent.elimination_eq (hchordal : Chordal g.vertices g.Linked) :
    g.elimination = .ok (.order g.visits.reverse) := by
  have hnodup : (g.lexRanking .backward).order.Nodup := List.nodup_reverse.2 hg.nodup_visits
  have hlater : g.LaterClique (g.lexRanking .backward).order :=
    .of_reverse hg.nodup_visits hg.symm (hg.cliqueOrder hchordal)
  exact hg.elimination_of_none (hlater.unmetDemand?_eq_none hnodup)

end Graph

end CliquePath
