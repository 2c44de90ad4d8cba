import CliquePath.Proofs.Elimination.Marks
import CliquePath.Proofs.Renaming.Carries

set_option autoImplicit false

/-!
# Searches on a renamed graph

This module shows that the searches follow an increasing renaming. Two groups that correspond split
alike, so the visits of two corresponding searches correspond one by one; the hop counts, the walk
down the hop counts and the test of an elimination order then correspond too.
-/

namespace CliquePath

variable {ι : Vertex → Vertex} {c g : Graph}

/-! ## Groups -/

namespace Split

/-- Both groups renamed. -/
def rename (ι : Vertex → Vertex) (s : Split) : Split := ⟨s.moved.map ι, s.kept.map ι⟩

theorem rename_ofGroup (group : List Vertex) :
    ofGroup (group.map ι) = (ofGroup group).rename ι := rfl

theorem rename_move (hι : Function.Injective ι) (s : Split) (v : Vertex) :
    (s.rename ι).move (ι v) = (s.move v).rename ι := by
  simp [rename, move, List.map_erase hι]

theorem rename_groups (s : Split) : (s.rename ι).groups = s.groups.map (List.map ι) := by
  obtain ⟨moved, kept⟩ := s
  cases moved <;> cases kept <;> rfl

end Split

namespace Groups

theorem promote_rename (hι : Function.Injective ι) (ss : List Split) (v : Vertex) :
    promote (ss.map (Split.rename ι)) (ι v) = (promote ss v).map (Split.rename ι) := by
  induction ss with
  | nil => rfl
  | cons s rest ih =>
      have hkept : (s.rename ι).kept.contains (ι v) = s.kept.contains v :=
        contains_map hι s.kept v
      simp only [List.map_cons, promote, hkept]
      split
      · rw [List.map_cons, Split.rename_move hι]
      · rw [List.map_cons, ih]

theorem refine_rename (hι : Function.Injective ι) (groups : Groups) (moving : List Vertex) :
    refine (groups.map (List.map ι)) (moving.map ι) =
      (groups.refine moving).map (List.map ι) := by
  have hfold : ∀ ss : List Split, (moving.map ι).foldl promote (ss.map (Split.rename ι)) =
      (moving.foldl promote ss).map (Split.rename ι) := by
    induction moving with
    | nil => exact fun ss => rfl
    | cons v rest ih =>
        intro ss
        rw [List.map_cons, List.foldl_cons, promote_rename hι, ih, List.foldl_cons]
  have hstart : (groups.map (List.map ι)).map Split.ofGroup =
      (groups.map Split.ofGroup).map (Split.rename ι) := by
    simp [Split.rename_ofGroup]
  rw [refine, hstart, hfold, List.flatMap_map, refine, List.map_flatMap]
  exact congrArg (fun f => (moving.foldl promote (groups.map Split.ofGroup)).flatMap f)
    (funext Split.rename_groups)

theorem next?_rename (groups : Groups) : next? (groups.map (List.map ι)) =
    groups.next?.map fun r => (ι r.1, r.2.map (List.map ι)) := by
  rcases groups with _ | ⟨_ | ⟨v, _ | ⟨w, group⟩⟩, rest⟩ <;> rfl

theorem visit_rename (h : Graph.Carries ι c g) (n : Nat) (groups : Groups) :
    visit g n (groups.map (List.map ι)) = (visit c n groups).map ι := by
  induction n generalizing groups with
  | zero => rfl
  | succ n ih =>
      rw [visit, next?_rename]
      cases hnext : groups.next? with
      | none => simp [visit, hnext]
      | some r =>
          obtain ⟨v, rest⟩ := r
          simp only [Option.map_some, visit, hnext, List.map_cons]
          rw [h.neighbors, refine_rename h.injective, ih]

end Groups

/-! ## Rankings -/

/-- The ranking of the renamed vertices. -/
def Ranking.rename (ι : Vertex → Vertex) (r : Ranking) : Ranking := ⟨r.order.map ι⟩

theorem Ranking.rename_ofVisits (visits : List Vertex) (direction : Direction) :
    ofVisits (visits.map ι) direction = (ofVisits visits direction).rename ι := by
  cases direction <;> simp [ofVisits, rename]

theorem Graph.Carries.lexRanking (h : Carries ι c g) (direction : Direction) :
    g.lexRanking direction = (c.lexRanking direction).rename ι := by
  have hgroups : [c.vertices.map ι] = [c.vertices].map (List.map ι) := rfl
  rw [Graph.lexRanking, h.vertexCount, h.vertices, hgroups, Groups.visit_rename h,
    Ranking.rename_ofVisits, Graph.lexRanking]

theorem Graph.Carries.neighborsByRank (h : Carries ι c g) (r : Ranking) (v : Vertex) :
    g.neighborsByRank (r.rename ι) (ι v) = (c.neighborsByRank r v).map ι := by
  rw [Graph.neighborsByRank, Ranking.rename, List.filter_map, Graph.neighborsByRank]
  exact congrArg (fun p => (r.order.filter p).map ι) (funext fun x => h.adjacent x v)

/-! ## Paths around a neighbourhood -/

namespace HopCounts

/-- The counts of the renamed vertices. -/
def rename (ι : Vertex → Vertex) (hops : HopCounts) : HopCounts :=
  hops.map fun e => (ι e.1, e.2)

theorem lookup_rename (hι : Function.Injective ι) (hops : HopCounts) (v : Vertex) :
    (hops.rename ι).lookup (ι v) = hops.lookup v := by
  induction hops with
  | nil => rfl
  | cons e rest ih =>
      obtain ⟨w, count⟩ := e
      have hcons : rename ι ((w, count) :: rest) = (ι w, count) :: rename ι rest := rfl
      rw [hcons, List.lookup_cons, List.lookup_cons, beq_map hι, ih]

theorem enter_rename (hι : Function.Injective ι) (unvisited : List Vertex) (count : Nat)
    (hops : HopCounts) (v : Vertex) : enter (unvisited.map ι) count (hops.rename ι) (ι v) =
      (enter unvisited count hops v).rename ι := by
  simp only [enter, contains_map hι, lookup_rename hι]
  split <;> rfl

theorem foldl_enter_rename (hι : Function.Injective ι) (unvisited : List Vertex) (count : Nat)
    (vs : List Vertex) (hops : HopCounts) :
    (vs.map ι).foldl (enter (unvisited.map ι) count) (hops.rename ι) =
      (vs.foldl (enter unvisited count) hops).rename ι := by
  induction vs generalizing hops with
  | nil => rfl
  | cons v rest ih => rw [List.map_cons, List.foldl_cons, enter_rename hι, ih, List.foldl_cons]

theorem along_rename (h : Graph.Carries ι c g) (visits : List Vertex) (hops : HopCounts) :
    along g (visits.map ι) (hops.rename ι) = (along c visits hops).rename ι := by
  induction visits generalizing hops with
  | nil => rfl
  | cons v unvisited ih =>
      rw [List.map_cons, along, lookup_rename h.injective, along]
      cases hops.lookup v with
      | none => exact ih hops
      | some count =>
          dsimp only
          rw [h.neighbors, foldl_enter_rename h.injective, ih]

end HopCounts

/-- The ranking and the counts of the renamed vertices. -/
def CountedRanking.rename (ι : Vertex → Vertex) (k : CountedRanking) : CountedRanking :=
  ⟨k.ranking.rename ι, k.hops.rename ι⟩

namespace Detour

/-- The detour of the renamed vertices. -/
def rename (ι : Vertex → Vertex) (d : Detour) : Detour := ⟨ι d.avoid, ι d.start, ι d.target⟩

theorem avoided_rename (h : Graph.Carries ι c g) (d : Detour) :
    (d.rename ι).avoided g = (d.avoided c).map ι := by
  have hinner : (fun v => v != ι d.start && v != ι d.target) ∘ ι =
      fun v => v != d.start && v != d.target := by
    funext v
    simp [bne, beq_map h.injective]
  simp only [avoided, rename, h.neighbors, List.filter_map, hinner, List.map_cons]

theorem allowed_rename (h : Graph.Carries ι c g) (d : Detour) :
    (d.rename ι).allowed g = (d.allowed c).map ι := by
  have hfree : (fun v => v != ι d.start && v != ι d.target &&
      !((d.rename ι).avoided g).contains v) ∘ ι =
        fun v => v != d.start && v != d.target && !(d.avoided c).contains v := by
    funext v
    simp only [Function.comp_apply, bne, beq_map h.injective, avoided_rename h,
      contains_map h.injective]
  simp only [allowed, h.vertices, List.map_cons]
  rw [List.filter_map]
  exact congrArg (fun p => ι d.target :: ι d.start :: (c.vertices.filter p).map ι) hfree

theorem search_rename (h : Graph.Carries ι c g) (d : Detour) :
    (d.rename ι).search g = (d.search c).rename ι := by
  have hgroups : [(d.allowed c).map ι, (d.avoided c).map ι] =
      [d.allowed c, d.avoided c].map (List.map ι) := rfl
  have htarget : [((d.rename ι).target, 0)] = HopCounts.rename ι [(d.target, 0)] := rfl
  simp only [search, allowed_rename h, avoided_rename h, h.vertexCount, hgroups,
    Groups.visit_rename h, htarget, HopCounts.along_rename h, Ranking.rename_ofVisits,
    CountedRanking.rename]

theorem hops?_rename (hι : Function.Injective ι) (k : CountedRanking) (v : Vertex) :
    (k.rename ι).hops? (ι v) = k.hops? v :=
  HopCounts.lookup_rename hι k.hops v

theorem closer_rename (hι : Function.Injective ι) (k : CountedRanking) (count : Nat)
    (vs : List Vertex) : closer (k.rename ι) count (vs.map ι) =
      (closer k count vs).map fun r => (ι r.1, r.2) := by
  induction vs with
  | nil => rfl
  | cons v rest ih =>
      rw [List.map_cons, closer, hops?_rename hι, closer]
      cases k.hops? v with
      | none => exact ih
      | some n =>
          dsimp only
          split
          · rfl
          · exact ih

theorem descend_rename (h : Graph.Carries ι c g) (k : CountedRanking) (count : Nat) (v : Vertex) :
    SameAnswer (fun r : List Vertex × Vertex => (r.1.map ι, ι r.2)) (descend c k count v)
      (descend g (k.rename ι) count (ι v)) := by
  induction count using Nat.strong_induction_on generalizing v with
  | _ count ih =>
      rw [descend, descend]
      by_cases hzero : count = 0
      · simp only [hzero, if_true]
        exact .ok _
      · have hcloser : closer (k.rename ι) count
            (g.neighborsByRank (k.rename ι).ranking (ι v)) =
              (closer k count (c.neighborsByRank k.ranking v)).map fun r => (ι r.1, r.2) := by
          rw [CountedRanking.rename, h.neighborsByRank]
          exact closer_rename h.injective k count _
        simp only [hzero, if_false, hcloser]
        cases closer k count (c.neighborsByRank k.ranking v) with
        | none => exact .error _ _
        | some r =>
            obtain ⟨next, fewer⟩ := r
            dsimp only [Option.map_some]
            rcases (ih fewer fewer.isLt next).cases with ⟨walk, hc, hg⟩ | ⟨d, e, hc, hg⟩
            · simp only [hc, hg]
              exact .ok (v :: walk.1, walk.2)
            · simp only [hc, hg]
              exact .error _ _

theorem path_rename (h : Graph.Carries ι c g) (d : Detour) :
    SameAnswer (List.map ι) (d.path c) ((d.rename ι).path g) := by
  have hstart : ((d.search c).rename ι).hops? (d.rename ι).start = (d.search c).hops? d.start :=
    hops?_rename h.injective _ _
  simp only [path, search_rename h, hstart]
  cases (d.search c).hops? d.start with
  | none => exact .error _ _
  | some count =>
      dsimp only
      rcases (descend_rename h (d.search c) count d.start).cases with ⟨walk, hc, hg⟩ | ⟨b, e, hc, hg⟩
      · obtain ⟨walked, reached⟩ := walk
        have hends : ι reached = (d.rename ι).target ↔ reached = d.target := h.injective.eq_iff
        simp only [rename] at hg hends ⊢
        simp only [hc, hg, hends]
        split
        · have hpath : walked.map ι ++ [ι d.target] = (walked ++ [d.target]).map ι := by simp
          rw [hpath]
          exact .ok _
        · exact .error _ _
      · simp only [rename] at hg ⊢
        simp only [hc, hg]
        exact .error _ _

end Detour

/-! ## Elimination -/

/-- The certificate of the renamed vertices. -/
def Elimination.rename (ι : Vertex → Vertex) : Elimination → Elimination
  | .order vertices => .order (vertices.map ι)
  | .hole cycle => .hole (cycle.map ι)

namespace Graph

theorem required_rename (hι : Function.Injective ι) (ds : List (Vertex × List Vertex)) (v : Vertex) :
    required (ds.map fun d => (ι d.1, d.2.map ι)) (ι v) = (required ds v).map ι := by
  have hkey : (fun d : Vertex × List Vertex => d.1 == ι v) ∘
      (fun d : Vertex × List Vertex => (ι d.1, d.2.map ι)) = fun d => d.1 == v := by
    funext d
    exact beq_map hι d.1 v
  rw [required, List.filter_map, hkey, List.flatMap_map, required, List.map_flatMap]

/-- The cycle that a common neighbour of two vertices closes, if it closes one. -/
def closedBy? (g : Graph) (v w u : Vertex) : Option (List Vertex) :=
  match Detour.path g ⟨u, v, w⟩ with
  | .error _ => none
  | .ok path => some (path ++ [u])

theorem holeThrough_eq (g : Graph) (r : Ranking) (v w : Vertex) : g.holeThrough r v w =
    match ((g.neighborsByRank r w).filter fun u => g.adjacent v u).findSome?
      (g.closedBy? v w) with
    | none => .error (.noChordlessCycle v w)
    | some cycle => .ok cycle := rfl

namespace Carries

variable (h : Carries ι c g)

include h

theorem demands (order : List Vertex) : g.demands (order.map ι) =
    (c.demands order).map fun d => (ι d.1, d.2.map ι) := by
  induction order with
  | nil => rfl
  | cons v later ih =>
      have hlater : (later.map ι).filter (fun w => g.adjacent w (ι v)) =
          (later.filter fun w => c.adjacent w v).map ι := by
        rw [List.filter_map]
        exact congrArg (fun p => (later.filter p).map ι) (funext fun w => h.adjacent w v)
      rw [List.map_cons, Graph.demands, hlater, ih, Graph.demands]
      cases later.filter fun w => c.adjacent w v with
      | nil => rfl
      | cons first others => rfl

theorem unmetDemand? (r : Ranking) :
    g.unmetDemand? (r.rename ι) = (c.unmetDemand? r).map (Prod.map ι ι) := by
  have hmissed : ∀ v, ((required (g.demands (r.order.map ι)) (ι v)).find?
        fun w => !g.adjacent (ι v) w).map (fun w => (ι v, w)) =
      (((required (c.demands r.order) v).find? fun w => !c.adjacent v w).map
        fun w => (v, w)).map (Prod.map ι ι) := by
    intro v
    have hadj : (fun w => !g.adjacent (ι v) w) ∘ ι = fun w => !c.adjacent v w := by
      funext w
      simp only [Function.comp_apply, h.adjacent]
    rw [h.demands, required_rename h.injective, List.find?_map, hadj, Option.map_map,
      Option.map_map]
    rfl
  simp only [Graph.unmetDemand?, Ranking.rename, ← List.map_reverse, List.findSome?_map,
    List.map_findSome?]
  exact congrArg (fun f => r.order.reverse.findSome? f) (funext hmissed)

theorem holeThrough (r : Ranking) (v w : Vertex) :
    SameAnswer (List.map ι) (c.holeThrough r v w) (g.holeThrough (r.rename ι) (ι v) (ι w)) := by
  have hcommon : (g.neighborsByRank (r.rename ι) (ι w)).filter (fun u => g.adjacent (ι v) u) =
      ((c.neighborsByRank r w).filter fun u => c.adjacent v u).map ι := by
    rw [h.neighborsByRank, List.filter_map]
    exact congrArg (fun p => ((c.neighborsByRank r w).filter p).map ι)
      (funext fun u => h.adjacent v u)
  have hclosed : g.closedBy? (ι v) (ι w) ∘ ι = Option.map (List.map ι) ∘ c.closedBy? v w := by
    funext u
    rcases (Detour.path_rename h ⟨u, v, w⟩).cases with ⟨path, hc, hg⟩ | ⟨d, e, hc, hg⟩
    · simp only [Detour.rename] at hg
      simp [closedBy?, hc, hg]
    · simp only [Detour.rename] at hg
      simp [closedBy?, hc, hg]
  rw [holeThrough_eq, holeThrough_eq, hcommon, List.findSome?_map, hclosed, ← List.map_findSome?]
  cases ((c.neighborsByRank r w).filter fun u => c.adjacent v u).findSome? (c.closedBy? v w) with
  | none => exact .error _ _
  | some cycle => exact .ok cycle

/-- Two graphs that correspond are chordal or not alike, with corresponding certificates. -/
theorem elimination (hc : c.Consistent) (hg : g.Consistent) :
    SameAnswer (Elimination.rename ι) c.elimination g.elimination := by
  have hunmet := h.unmetDemand? (c.lexRanking .backward)
  rw [← h.lexRanking] at hunmet
  cases hdemand : c.unmetDemand? (c.lexRanking .backward) with
  | none =>
      rw [hdemand] at hunmet
      rw [hc.elimination_of_none hdemand, hg.elimination_of_none hunmet, h.lexRanking]
      exact .ok (Elimination.order _)
  | some pair =>
      obtain ⟨v, w⟩ := pair
      rw [hdemand] at hunmet
      rw [hc.elimination_of_some hdemand, hg.elimination_of_some hunmet, h.lexRanking]
      rcases (h.holeThrough (c.lexRanking .backward) v w).cases with
        ⟨cycle, hfound, hfound'⟩ | ⟨d, e, hfound, hfound'⟩
      · rw [hfound, hfound']
        exact .ok (Elimination.hole cycle)
      · rw [hfound, hfound']
        exact .error _ _

end Carries

end Graph

end CliquePath
