import CliquePath.Proofs.Search.Lexicographic
import CliquePath.Proofs.Search.LinkedSearch

set_option autoImplicit false

/-!
# The search from the target of a detour

This module says what the search behind a detour ranks and counts. It visits the target first, then
the vertices that are joined to it within the part that the path may use, then the rest of that part
and all other vertices last. The hop count of a vertex of the part is its distance from the target
within the part.

The first vertex that moves another one is the one whose count matters, so a vertex of the part might
get its count from outside. That does not happen, since no vertex outside is visited before one of
the part.
-/

namespace CliquePath

/-- The first vertex has a lower rank than the second. -/
def Ranking.Before (r : Ranking) (a b : Vertex) : Prop :=
  ∃ i j, r.rank? a = some i ∧ r.rank? b = some j ∧ i < j

namespace Detour

variable {g : Graph} {d : Detour} {a b v : Vertex} {k : Nat} {path : List Vertex}

/-- The list leads from the target to the vertex, each vertex adjacent to the next one, through usable
vertices. -/
structure Route (g : Graph) (d : Detour) (v : Vertex) (path : List Vertex) : Prop where
  head : path.head? = some d.target
  last : path.getLast? = some v
  chain : path.IsChain g.Linked
  usable : ∀ x ∈ path, d.Usable g x

/-- The number of steps of a shortest route to the vertex, or that there is no route. -/
def IsDistance (g : Graph) (d : Detour) (v : Vertex) : Option Nat → Prop
  | some k => (∃ path, d.Route g v path ∧ path.length = k + 1) ∧
      ∀ path, d.Route g v path → k + 1 ≤ path.length
  | none => ∀ path, ¬ d.Route g v path

theorem Route.extend (h : d.Route g a path) (hlink : g.Linked a v) (hv : d.Usable g v) :
    d.Route g v (path ++ [v]) := by
  refine ⟨?_, List.getLast?_concat, ?_, ?_⟩
  · rw [List.head?_append, h.head, Option.some_or]
  · refine List.isChain_append.2 ⟨h.chain, List.isChain_singleton v, ?_⟩
    rintro x hx y ⟨⟩
    rw [h.last, Option.mem_some_iff] at hx
    exact hx ▸ hlink
  · intro x hx
    rcases List.mem_append.1 hx with hx | hx
    · exact h.usable x hx
    · exact List.mem_singleton.1 hx ▸ hv

theorem Route.joined (h : d.Route g v path) : Joined g.Linked (d.Usable g) d.target v :=
  joined_of_isChain h.chain h.usable h.head h.last

section Sweep

variable (h : d.Proper g) (hg : g.Consistent)

include h hg

/-- A vertex of the part with a hop count can be reached in that many steps. -/
theorem Proper.exists_route (hv : d.Usable g v) (hk : d.hops? g v = some k) :
    ∃ path, d.Route g v path ∧ path.length = k + 1 := by
  -- Down the counts: each vertex got its count from one of the part that was visited before.
  induction k using Nat.strong_induction_on generalizing v with
  | _ k ih =>
      by_cases htarget : v = d.target
      · subst htarget
        rw [hops?_target] at hk
        cases hk
        refine ⟨[d.target], ⟨rfl, rfl, List.isChain_singleton _, ?_⟩, rfl⟩
        exact fun x hx => List.mem_singleton.1 hx ▸ hv
      · obtain ⟨f, count, hlt, hlink, hcount, rfl, -⟩ := h.exists_source hg hk htarget
        have hf := h.allowed_of_lt hg (h.mem_allowed_iff.2 hv) hlt
        obtain ⟨path, hroute, hlen⟩ := ih count (Nat.lt_succ_self _) (h.mem_allowed_iff.1 hf) hcount
        refine ⟨path ++ [v], hroute.extend hlink hv, ?_⟩
        rw [List.length_append, hlen]
        rfl

/-- A route has at least as many steps as the hop count of its end. -/
theorem Proper.hops?_lt_length (hroute : d.Route g v path) :
    ∃ k, d.hops? g v = some k ∧ k < path.length := by
  have hchain : path.reverse.IsChain g.Linked := by
    rw [List.isChain_reverse]
    exact hroute.chain.imp fun x y hlink => hg.symm x y hlink
  obtain ⟨k, hk, hlt⟩ := h.exists_hops?_lt_length hg hchain
    (fun x hx => h.mem_allowed_iff.2 (hroute.usable x (List.mem_reverse.1 hx)))
    (by rw [List.head?_reverse, hroute.last]) (by rw [List.getLast?_reverse, hroute.head])
  rw [List.length_reverse] at hlt
  exact ⟨k, hk, hlt⟩

/-- The hop count of a vertex of the part is its distance. -/
theorem Proper.isDistance_hops? (hv : d.Usable g v) : d.IsDistance g v (d.hops? g v) := by
  cases hk : d.hops? g v with
  | none =>
      intro path hroute
      obtain ⟨k, hk', -⟩ := h.hops?_lt_length hg hroute
      rw [hk] at hk'
      cases hk'
  | some k =>
      refine ⟨h.exists_route hg hv hk, fun path hroute => ?_⟩
      obtain ⟨j, hj, hlt⟩ := h.hops?_lt_length hg hroute
      rw [hk, Option.some.injEq] at hj
      exact hj ▸ hlt

/-- A vertex of the part has a hop count exactly if it is joined to the target there. -/
theorem Proper.exists_hops?_iff (hv : d.Usable g v) :
    (∃ k, d.hops? g v = some k) ↔ Joined g.Linked (d.Usable g) d.target v := by
  constructor
  · rintro ⟨k, hk⟩
    obtain ⟨path, hroute, -⟩ := h.exists_route hg hv hk
    exact hroute.joined
  · intro hjoined
    exact h.exists_hops? hg (hjoined.mono (fun _ _ _ hlink _ _ => hlink) fun _ hx =>
      h.mem_allowed_iff.2 hx)

theorem Proper.head?_visits : (d.visits g).head? = some d.target := by
  have hin := h.mem_visits hg (mem_allowed.2 (Or.inl rfl))
  cases hvisits : d.visits g with
  | nil => simp [hvisits] at hin
  | cons x rest =>
      by_contra hne
      have hx : x ≠ d.target := fun heq => hne (congrArg some heq)
      have hlt := h.idxOf_target hg hx
      rw [hvisits, List.idxOf_cons_self] at hlt
      exact Nat.not_lt_zero _ hlt

/-- An earlier visit is a lower rank. -/
theorem Proper.before_of_idxOf_lt (hb : b ∈ g.vertices)
    (hlt : (d.visits g).idxOf a < (d.visits g).idxOf b) : (d.search g).ranking.Before a b := by
  have hnodup := h.nodup_visits hg
  have hin : b ∈ d.visits g := (h.perm_visits hg).mem_iff.2 hb
  have hrank : ∀ x ∈ d.visits g, (d.search g).ranking.rank? x = some ((d.visits g).idxOf x) := by
    intro x hx
    refine (Ranking.rank?_eq_some_iff (r := (d.search g).ranking) hnodup).2 ?_
    exact List.getElem?_eq_some_iff.2 ⟨List.idxOf_lt_length_of_mem hx, List.getElem_idxOf _⟩
  exact ⟨_, _, hrank a (mem_of_idxOf_lt_idxOf hlt), hrank b hin, hlt⟩

/-- The part is visited before all other vertices. -/
theorem Proper.before_of_usable (ha : d.Usable g a) (hb : b ∈ g.vertices) (hno : ¬ d.Usable g b) :
    (d.search g).ranking.Before a b := by
  refine h.before_of_idxOf_lt hg hb (Nat.lt_of_not_le fun hle => ?_)
  have hane : b ≠ a := fun heq => hno (heq ▸ ha)
  have hin := (h.perm_visits hg).mem_iff.2 hb
  have hlt := Nat.lt_of_le_of_ne hle fun heq => hane ((List.idxOf_inj hin).1 heq)
  exact hno (h.mem_allowed_iff.1 (h.allowed_of_lt hg (h.mem_allowed_iff.2 ha) hlt))

/-- Of the part, what is joined to the target is visited first. -/
theorem Proper.before_of_joined (ha : Joined g.Linked (d.Usable g) d.target a) (hb : d.Usable g b)
    (hno : ¬ Joined g.Linked (d.Usable g) d.target b) : (d.search g).ranking.Before a b := by
  refine h.before_of_idxOf_lt hg hb.mem (Nat.lt_of_not_le fun hle => ?_)
  have hane : b ≠ a := fun heq => hno (heq ▸ ha)
  have hin := (h.perm_visits hg).mem_iff.2 hb.mem
  have hlt := Nat.lt_of_le_of_ne hle fun heq => hane ((List.idxOf_inj hin).1 heq)
  -- What is visited before a vertex with a hop count has one too.
  obtain ⟨k, hk⟩ := (h.exists_hops?_iff hg ha.right).2 ha
  obtain ⟨j, -, hj⟩ := h.hops?_le_of_lt hg (h.mem_allowed_iff.2 ha.right) hk hlt
  exact hno ((h.exists_hops?_iff hg hb).1 ⟨j, hj⟩)

end Sweep

/-- The search from the target of a detour has an answer over linked groups. It ranks every vertex
once and the target first; the part that the path may use stands before all other vertices, and in
that part what is joined to the target before the rest; and the hop count of a vertex of the part is
its distance from the target there, and is missing exactly if the two are not joined. -/
theorem linkedSearch?_sweeps (hg : g.Reachable) (h : d.Proper g) : ∃ c : CountedRanking,
    d.linkedSearch? g = some c ∧ d.search g = c ∧
    c.ranking.order.Perm g.vertices ∧ c.ranking.order.head? = some d.target ∧
    (∀ a b, d.Usable g a → b ∈ g.vertices → ¬ d.Usable g b → c.ranking.Before a b) ∧
    (∀ a b, Joined g.Linked (d.Usable g) d.target a → d.Usable g b →
      ¬ Joined g.Linked (d.Usable g) d.target b → c.ranking.Before a b) ∧
    (∀ v, d.Usable g v → d.IsDistance g v (c.hops? v) ∧
      ((∃ k, c.hops? v = some k) ↔ Joined g.Linked (d.Usable g) d.target v)) := by
  have hc := hg.consistent
  exact ⟨d.search g, h.linkedSearch?_eq hc, rfl, h.perm_visits hc, h.head?_visits hc,
    fun a b => h.before_of_usable hc, fun a b => h.before_of_joined hc,
    fun v hv => ⟨h.isDistance_hops? hc hv, h.exists_hops?_iff hc hv⟩⟩

/-- A way from the vertex 1 to the vertex 3 over 4 that stays clear of the vertex 0, and another one
over its neighbour 2. The vertex 5 has no other neighbour than 2. -/
def clearWay : Graph :=
  Graph.built (List.replicate 6 (.push "") ++ [.connect 0 1, .connect 0 2, .connect 1 2,
    .connect 2 3, .connect 1 4, .connect 4 3, .connect 2 5])

theorem linkedSearch?_sweeps_clearWay : clearWay.Reachable ∧ (Detour.mk 0 1 3).Proper clearWay ∧
    ∃ c : CountedRanking, (Detour.mk 0 1 3).linkedSearch? clearWay = some c ∧
      c.ranking.order.head? = some 3 ∧ c.ranking.Before 5 2 ∧ c.ranking.Before 1 5 ∧
      (Detour.mk 0 1 3).IsDistance clearWay 1 (c.hops? 1) ∧ c.hops? 5 = none := by
  have hreach : clearWay.Reachable := Graph.reachable_built _
  have hproper : (Detour.mk 0 1 3).Proper clearWay := by
    constructor <;> decide
  have husable : ∀ v ∈ [1, 3, 4, 5], (Detour.mk 0 1 3).Usable clearWay v := by
    have hfields : ∀ v ∈ [1, 3, 4, 5], v ∈ clearWay.vertices ∧ v ≠ 0 ∧
        (clearWay.Linked 0 v → v = 1 ∨ v = 3) := by
      decide
    exact fun v hv => ⟨(hfields v hv).1, (hfields v hv).2.1, (hfields v hv).2.2⟩
  have hclosed : ¬ (Detour.mk 0 1 3).Usable clearWay 2 := fun h =>
    absurd (h.clear (by decide)) (by decide)
  have hjoined : Joined clearWay.Linked ((Detour.mk 0 1 3).Usable clearWay) 3 1 :=
    (Joined.step (by decide) (husable 3 (by decide)) (husable 4 (by decide))).trans
      (Joined.step (by decide) (husable 4 (by decide)) (husable 1 (by decide)))
  -- The only neighbour of the vertex 5 is not usable.
  have hapart : ¬ Joined clearWay.Linked ((Detour.mk 0 1 3).Usable clearWay) 3 5 := by
    intro hin
    obtain ⟨v, w, hv, hlink, -, hne, hw⟩ := hin.exists_step (Q := fun v => v ≠ 5) (by decide)
      fun hne => hne rfl
    obtain rfl : w = 5 := not_not.1 hw
    have honly : ∀ x ∈ clearWay.vertices, clearWay.Linked x 5 → x = 2 := by decide
    obtain rfl := honly v hv.right.mem hlink
    exact hclosed hv.right
  obtain ⟨c, hc, -, -, hhead, hclass, hfirst, hhops⟩ := linkedSearch?_sweeps hreach hproper
  refine ⟨hreach, hproper, c, hc, hhead, hclass 5 2 (husable 5 (by decide)) (by decide) hclosed,
    hfirst 1 5 hjoined (husable 5 (by decide)) hapart, (hhops 1 (husable 1 (by decide))).1, ?_⟩
  rw [Option.eq_none_iff_forall_ne_some]
  exact fun k hk => hapart ((hhops 5 (husable 5 (by decide))).2.1 ⟨k, hk⟩)

end Detour

end CliquePath
