import CliquePath.Proofs.Graph.EditRuns
import CliquePath.Proofs.Search.ShortestDetour

set_option autoImplicit false

/-!
# Exactness of the search for a path

This module says for which vertices a path around a neighbourhood is found and what it is then. The
part of the graph that the path may use has all vertices but the one to avoid and its neighbours,
and always the two ends. A path is found exactly if the ends are joined in that part, and no path
between them in that part has fewer vertices.

A path through the part gives every one of its vertices a hop count, and along the path the counts
rise by at most one from a vertex to the one before. So no path is shorter than the walk down the
counts, whose counts fall by exactly one.
-/

namespace CliquePath

namespace Detour

variable {g : Graph} {d : Detour} {a b v : Vertex} {path : List Vertex}

/-- The path may use the vertex: it is not the one to avoid, and not a neighbour of that one unless
it is an end of the path. -/
structure Usable (g : Graph) (d : Detour) (v : Vertex) : Prop where
  mem : v ∈ g.vertices
  ne : v ≠ d.avoid
  clear : g.Linked d.avoid v → v = d.start ∨ v = d.target

/-- The list leads from the start to the target, each vertex adjacent to the next one, through
usable vertices. -/
structure Leads (g : Graph) (d : Detour) (path : List Vertex) : Prop where
  head : path.head? = some d.start
  last : path.getLast? = some d.target
  chain : path.IsChain g.Linked
  usable : ∀ v ∈ path, d.Usable g v

/-- The search allows the usable vertices. -/
theorem Proper.mem_allowed_iff (h : d.Proper g) : v ∈ d.allowed g ↔ d.Usable g v := by
  rw [mem_allowed, mem_avoided]
  constructor
  · rintro (rfl | rfl | ⟨hv, hstart, htarget, havoid⟩)
    · exact ⟨h.target, h.target_ne, fun _ => Or.inr rfl⟩
    · exact ⟨h.start, h.start_ne, fun _ => Or.inl rfl⟩
    · rw [not_or] at havoid
      exact ⟨hv, havoid.1, fun hlink => absurd ⟨hlink, hstart, htarget⟩ havoid.2⟩
  · intro hv
    by_cases htarget : v = d.target
    · exact Or.inl htarget
    by_cases hstart : v = d.start
    · exact Or.inr (Or.inl hstart)
    refine Or.inr (Or.inr ⟨hv.mem, hstart, htarget, ?_⟩)
    rintro (heq | ⟨hlink, -⟩)
    · exact hv.ne heq
    · rcases hv.clear hlink with heq | heq
      · exact hstart heq
      · exact htarget heq

/-- A chain of vertices of a part joins its ends in that part. -/
theorem joined_of_isChain {P : Vertex → Prop} (hchain : path.IsChain g.Linked)
    (hpart : ∀ v ∈ path, P v) (hhead : path.head? = some a) (hlast : path.getLast? = some b) :
    Joined g.Linked P a b := by
  induction path generalizing a with
  | nil => cases hhead
  | cons v rest ih =>
      cases hhead
      cases rest with
      | nil =>
          cases hlast
          exact .refl (hpart v List.mem_cons_self)
      | cons w rest =>
          obtain ⟨hlink, hrest⟩ := List.isChain_cons_cons.1 hchain
          have hjoined := ih hrest (fun x hx => hpart x (List.mem_cons_of_mem v hx)) rfl hlast
          exact (Joined.step hlink (hpart v List.mem_cons_self) hjoined.left).trans hjoined

section Exact

variable (h : d.Proper g) (hg : g.Consistent)

include h hg

/-- From each vertex of a chain of allowed vertices the target is at most as many hops away as the
chain has vertices after it. -/
theorem Proper.exists_hops?_lt_length (hchain : path.IsChain g.Linked)
    (hallowed : ∀ v ∈ path, v ∈ d.allowed g) (hhead : path.head? = some a)
    (hlast : path.getLast? = some d.target) :
    ∃ k, d.hops? g a = some k ∧ k < path.length := by
  induction path generalizing a with
  | nil => cases hhead
  | cons v rest ih =>
      have hjoined := joined_of_isChain hchain hallowed hhead hlast
      cases hhead
      cases rest with
      | nil =>
          cases hlast
          exact ⟨0, hops?_target g d, Nat.one_pos⟩
      | cons w rest =>
          obtain ⟨hlink, hrest⟩ := List.isChain_cons_cons.1 hchain
          have hw : w ∈ d.allowed g := hallowed w (by simp)
          obtain ⟨j, hj, hlt⟩ :=
            ih hrest (fun x hx => hallowed x (List.mem_cons_of_mem v hx)) rfl hlast
          obtain ⟨k, hk⟩ := h.exists_hops? hg (hjoined.symm fun x y _ hxy _ _ => hg.symm x y hxy)
          -- adjacent vertices are one hop apart at most
          have hle : k ≤ j + 1 :=
            h.hops?_le_of_linked hg hjoined.left hw hk hj (hg.symm v w hlink)
          rw [List.length_cons]
          exact ⟨k, hk, Nat.lt_of_le_of_lt hle (Nat.succ_lt_succ hlt)⟩

/-- A path found leads from the start to the target. -/
theorem Proper.leads_of_path (hpath : d.path g = .ok path) : d.Leads g path := by
  obtain ⟨hchordless, hhead, hlast, hallowed⟩ := h.path_spec hg hpath
  refine ⟨hhead, hlast, ?_, fun v hv => h.mem_allowed_iff.1 (hallowed v hv)⟩
  refine List.isChain_iff_getElem.2 fun i hi => ?_
  exact (hchordless.adjacent_iff i (i + 1) (Nat.lt_succ_self i) hi).2 rfl

/-- No other path is shorter. -/
theorem Proper.length_le_of_leads {other : List Vertex} (hpath : d.path g = .ok path)
    (hother : d.Leads g other) : path.length ≤ other.length := by
  obtain ⟨count, hcount, hdescent, -⟩ := h.descent_of_path hg hpath
  obtain ⟨k, hk, hlt⟩ := h.exists_hops?_lt_length hg hother.chain
    (fun v hv => h.mem_allowed_iff.2 (hother.usable v hv)) hother.head hother.last
  rw [hcount, Option.some.injEq] at hk
  rw [hdescent.length_eq, hk]
  exact hlt

/-- A path is found exactly if the start is joined to the target through usable vertices. -/
theorem Proper.exists_path_iff :
    (∃ path, d.path g = .ok path) ↔ Joined g.Linked (d.Usable g) d.start d.target := by
  constructor
  · rintro ⟨path, hpath⟩
    have hleads := h.leads_of_path hg hpath
    exact joined_of_isChain hleads.chain hleads.usable hleads.head hleads.last
  · intro hjoined
    refine h.exists_path hg ((hjoined.symm fun x y _ hxy _ _ => hg.symm x y hxy).mono ?_ ?_)
    · exact fun v w _ hlink _ _ => hlink
    · exact fun v hv => h.mem_allowed_iff.2 hv

omit h hg

/-- The only failure is that the search does not reach the start. -/
theorem path_eq_error {breach : Breach} (herror : d.path g = .error breach) :
    breach = .unreachable d.start d.target d.avoid := by
  simp only [path, hops?_search] at herror
  split at herror
  next =>
    cases herror
    rfl
  next count hcount =>
    obtain ⟨walked, hwalked⟩ := exists_descend hcount
    rw [hwalked] at herror
    simp at herror

end Exact

/-- The search for a path around a neighbourhood is exact. It finds one exactly if the start is
joined to the target through usable vertices. What it finds leads from the start to the target
through usable vertices, has no more vertices than any other list that does, and so no vertex twice
and no chord. Otherwise it says that the target does not reach the start. -/
theorem path_exact (hg : g.Reachable) (h : d.Proper g) :
    ((∃ path, d.path g = .ok path) ↔ Joined g.Linked (d.Usable g) d.start d.target) ∧
    (∀ path, d.path g = .ok path → d.Leads g path ∧
      (∀ other, d.Leads g other → path.length ≤ other.length) ∧
      Chordless g.vertices g.Linked path) ∧
    (¬ Joined g.Linked (d.Usable g) d.start d.target →
      d.path g = .error (.unreachable d.start d.target d.avoid)) := by
  have hc := hg.consistent
  refine ⟨h.exists_path_iff hc, fun path hpath => ?_, fun hno => ?_⟩
  · exact ⟨h.leads_of_path hc hpath, fun other => h.length_le_of_leads hc hpath,
      (h.path_spec hc hpath).1⟩
  · cases hpath : d.path g with
    | ok path => exact absurd ((h.exists_path_iff hc).1 ⟨path, hpath⟩) hno
    | error breach => rw [path_eq_error hpath]

/-- Two ways lead from the vertex 1 to the vertex 3: the shorter one through the neighbour 2 of the
vertex 0, the other one over 4 and 5. The vertex 6 stands alone. -/
def twoWays : Graph :=
  Graph.built (List.replicate 7 (.push "") ++ [.connect 0 1, .connect 0 2, .connect 1 2,
    .connect 2 3, .connect 1 4, .connect 4 5, .connect 5 3])

theorem path_exact_twoWays : twoWays.Reachable ∧ (Detour.mk 0 1 3).Proper twoWays ∧
    (Detour.mk 0 1 6).Proper twoWays ∧
    (∃ path, (Detour.mk 0 1 3).path twoWays = .ok path ∧
      (Detour.mk 0 1 3).Leads twoWays path ∧ path.length ≤ 4) ∧
    (Detour.mk 0 1 6).path twoWays = .error (.unreachable 1 6 0) := by
  have hreach : twoWays.Reachable := Graph.reachable_built _
  have hproper : (Detour.mk 0 1 3).Proper twoWays := by
    constructor <;> decide
  have halone : (Detour.mk 0 1 6).Proper twoWays := by
    constructor <;> decide
  have hway : (Detour.mk 0 1 3).Leads twoWays [1, 4, 5, 3] := by
    have husable : ∀ v ∈ [1, 4, 5, 3], v ∈ twoWays.vertices ∧ v ≠ 0 ∧
        (twoWays.Linked 0 v → v = 1 ∨ v = 3) := by
      decide
    refine ⟨rfl, rfl, by decide, fun v hv => ?_⟩
    obtain ⟨hmem, hne, hclear⟩ := husable v hv
    exact ⟨hmem, hne, hclear⟩
  obtain ⟨hfound, hleast, -⟩ := path_exact hreach hproper
  obtain ⟨path, hpath⟩ := hfound.2 (joined_of_isChain hway.chain hway.usable hway.head hway.last)
  obtain ⟨hleads, hle, -⟩ := hleast path hpath
  refine ⟨hreach, hproper, halone, ⟨path, hpath, hleads, hle _ hway⟩, ?_⟩
  refine (path_exact hreach halone).2.2 fun hjoined => ?_
  -- No edge leads to the vertex that stands alone.
  obtain ⟨v, w, -, hlink, -, hv, hw⟩ := hjoined.exists_step (Q := fun v => v ≠ 6) (by decide)
    fun hne => hne rfl
  have hnone : ∀ x ∈ twoWays.vertices, ¬ twoWays.Linked x 6 := by decide
  obtain rfl : w = 6 := not_not.1 hw
  exact hnone v (hreach.consistent.mem_vertices_of_linked hlink).1 hlink

end Detour

end CliquePath
