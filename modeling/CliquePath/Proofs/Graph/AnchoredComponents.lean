import CliquePath.Proofs.Graph.Collection
import CliquePath.Proofs.Graph.EditRuns
import Mathlib

set_option autoImplicit false

/-!
# Components collected by anchors

This module shows that collecting the vertices by the ends of their ways gives the components of the
graph. `anchoredComponents?_exact` states what the lists are: the vertices divided by the paths
between them, each list ascending and the lists in the order of their first vertices. It also states
why there is an answer at all: no array on the way has an anchor that is higher than its number.
-/

namespace CliquePath

variable {g : Graph} {vs : List Vertex} {c : Collection} {v w : Vertex}

namespace Graph

theorem size_forestOf (g : Graph) (edges : List (Vertex × Vertex)) :
    (g.forestOf edges).parents.size = g.bound := by
  rw [forestOf, Forest.size_joinAll, Forest.size_roots]

/-- The first vertices are collected by the classes of the forest of the edges. -/
theorem Consistent.collected (hg : g.Consistent) (hvs : vs <+: g.vertices) :
    ∃ c, vs.foldlM Collection.add? (.start (g.forestOf g.edges).parents g.bound) = some c ∧
      Collected (g.forestOf g.edges) vs c := by
  induction vs using List.reverseRecOn with
  | nil =>
      refine ⟨_, rfl, ?_⟩
      rw [← g.size_forestOf g.edges]
      exact Collected.start _
  | append_singleton vs v ih =>
      obtain ⟨c, hrun, hc⟩ := ih ((List.prefix_append vs [v]).trans hvs)
      obtain ⟨rest, hsplit⟩ := hvs
      have hascending := pairwise_vertices g
      rw [← hsplit, List.append_assoc, List.pairwise_append] at hascending
      have hlow : ∀ x ∈ vs, x < v := fun x hx => hascending.2.2 x hx v (by simp)
      have hnodup : vs.Nodup := hascending.1.imp Nat.ne_of_lt
      have hv : v ∈ g.vertices := by
        rw [← hsplit]
        simp
      have hbound : v < (g.forestOf g.edges).parents.size := by
        rw [size_forestOf]
        exact lt_bound hv
      obtain ⟨d, hadd, hd⟩ : ∃ d, c.add? v = some d ∧ Collected (g.forestOf g.edges) (vs ++ [v]) d := by
        by_cases hroot : (g.forestOf g.edges).root v = v
        · exact hc.add?_of_root hbound hlow hroot
        · -- The root is a lower vertex, so it was collected before.
          apply hc.add?_of_not_root hbound hnodup hroot
          have hlt : g.anchor v < v := Nat.lt_of_le_of_ne (Forest.root_le_self _ v) hroot
          have hmem := hg.mem_vertices_of_reaches hv (hg.reaches_anchor v)
          rw [← hsplit, List.append_assoc, List.mem_append] at hmem
          rcases hmem with hmem | hmem
          · exact hmem
          · rcases List.mem_cons.1 hmem with heq | hrest
            · exact absurd heq hroot
            · have hgt := (List.pairwise_cons.1 hascending.2.1).1 _ hrest
              exact absurd hlt (Nat.lt_asymm hgt)
      refine ⟨d, ?_, hd⟩
      rw [List.foldlM_append, hrun, Option.bind_eq_bind, Option.bind_some]
      simp [hadd]

/-- Collecting all vertices gives the components. -/
theorem Consistent.anchoredComponents?_eq (hg : g.Consistent) :
    g.anchoredComponents? = some g.components := by
  obtain ⟨c, hrun, hc⟩ := hg.collected (List.prefix_refl g.vertices)
  simp only [anchoredComponents?, hg.anchors?_eq, hrun, hc.lists, Option.bind_eq_bind,
    Option.bind_some]
  rfl

end Graph

/-! ## Arrays on the way -/

section Runs

variable {σ α : Type} {step : σ → α → Option σ} {xs front : List α} {s t : σ}

/-- What single steps keep is kept by a run. -/
theorem foldlM_induct {P : σ → Prop}
    (hstep : ∀ s x t, x ∈ xs → P s → step s x = some t → P t) (hs : P s)
    (hrun : xs.foldlM step s = some t) : P t := by
  induction xs generalizing s with
  | nil =>
      cases hrun
      exact hs
  | cons x rest ih =>
      rw [List.foldlM_cons, Option.bind_eq_bind, Option.bind_eq_some_iff] at hrun
      obtain ⟨r, hr, hrun⟩ := hrun
      apply ih _ (hstep s x r List.mem_cons_self hs hr) hrun
      exact fun s y t hy => hstep s y t (List.mem_cons_of_mem x hy)

/-- A run that has an answer has one after its first steps. -/
theorem exists_foldlM_prefix (hrun : xs.foldlM step s = some t) (hfront : front <+: xs) :
    ∃ r, front.foldlM step s = some r := by
  obtain ⟨rest, rfl⟩ := hfront
  rw [List.foldlM_append, Option.bind_eq_bind, Option.bind_eq_some_iff] at hrun
  obtain ⟨r, hr, -⟩ := hrun
  exact ⟨r, hr⟩

end Runs

namespace Graph

/-- The edges of a vertex are taken in by merging. -/
theorem Consistent.reached_mergeFrom? (hg : g.Consistent) {a b : Anchors} {u : Vertex}
    (hu : u ∈ g.vertices) (ha : Anchors.Reached g.bound a) (hmerge : g.mergeFrom? a u = some b) :
    Anchors.Reached g.bound b := by
  refine foldlM_induct (fun a v b hv ha hstep => ?_) ha hmerge
  split at hstep
  next => exact Option.some.inj hstep ▸ ha
  next => exact ha.merge (lt_bound hu) (lt_bound (hg.mem_vertices_of_linked hv).2) hstep

end Graph

theorem Collection.reached_add? {bound : Nat} {d : Collection}
    (hc : Anchors.Reached bound c.anchors) (hv : v < bound) (hadd : c.add? v = some d) :
    Anchors.Reached bound d.anchors := by
  rw [add?, Option.bind_eq_bind, Option.bind_eq_some_iff] at hadd
  obtain ⟨⟨root, anchors⟩, hfind, hadd⟩ := hadd
  dsimp only at hadd
  rw [Option.bind_eq_bind, Option.bind_eq_some_iff] at hadd
  obtain ⟨place, -, hadd⟩ := hadd
  -- Where the vertex goes does not matter for the anchors.
  have hanchors : d.anchors = anchors := by
    cases place with
    | none =>
        cases hadd
        rfl
    | some i =>
        rw [Option.bind_eq_bind, Option.bind_eq_some_iff] at hadd
        obtain ⟨members, -, hadd⟩ := hadd
        cases hadd
        rfl
  rw [hanchors]
  exact hc.find hv hfind

/-- No anchor is higher than its number, and the way from every number has an end. -/
structure Anchors.Descending (bound : Nat) (a : Anchors) : Prop where
  size : a.size = bound
  le : ∀ v anchor : Nat, a[v]? = some anchor → anchor ≤ v
  ends : ∀ v < bound, ∃ root b, a.find? v = some (root, b)

theorem Anchors.Reached.descending {bound : Nat} {a : Anchors} (h : Reached bound a) :
    Descending bound a := by
  obtain ⟨f, rfl, rfl⟩ := h.exists_forest
  refine ⟨rfl, fun v anchor hanchor => ?_, fun v hv => ⟨_, _, find?_parents hv⟩⟩
  obtain ⟨hv, rfl⟩ := Array.getElem?_eq_some_iff.1 hanchor
  exact f.parent_le v hv

/-! ## The components -/

namespace Graph

/-- The lists divide the vertices by the paths between them. Each list is ascending, and the lists
stand in the order of their first vertices. -/
structure Divides (g : Graph) (lists : List (List Vertex)) : Prop where
  perm : lists.flatten.Perm g.vertices
  together_iff : ∀ v ∈ g.vertices, ∀ w ∈ g.vertices,
    (∃ members ∈ lists, v ∈ members ∧ w ∈ members) ↔ g.Reaches v w
  nonempty : ∀ members ∈ lists, members ≠ []
  ascending : ∀ members ∈ lists, members.Pairwise (· < ·)
  ordered : lists.Pairwise fun earlier later =>
    ∃ v w, earlier.head? = some v ∧ later.head? = some w ∧ v < w

/-- The members of a component begin with its least vertex. -/
theorem Consistent.head?_members (hg : g.Consistent) {least : Vertex} (hleast : least ∈ g.vertices)
    (hroot : g.anchor least = least) :
    (g.vertices.filter fun v => g.anchor v == least).head? = some least := by
  have hmem : (g.vertices.filter fun v => g.anchor v == least) ∈ g.components := by
    rw [components_eq]
    exact List.mem_map_of_mem (List.mem_filter.2 ⟨hleast, beq_iff_eq.2 hroot⟩)
  obtain ⟨first, others, hmembers, hc⟩ := hg.exists_isComponent hmem
  have hself : least ∈ first :: others := by
    rw [← hmembers]
    exact List.mem_filter.2 ⟨hleast, beq_iff_eq.2 hroot⟩
  have hle : least ≤ first := by
    rw [← hroot]
    exact hg.anchor_le (hg.reaches_symm ((hc.mem_iff least).1 hself))
  rw [hmembers]
  rcases List.mem_cons.1 hself with rfl | hlater
  · rfl
  · have hlt := (List.pairwise_cons.1 hc.ascending).1 least hlater
    exact absurd hle (Nat.not_le_of_lt hlt)

theorem Consistent.divides_components (hg : g.Consistent) : g.Divides g.components := by
  refine ⟨hg.perm_flatten_components, fun v hv w hw => ⟨?_, fun hvw => ?_⟩, ?_, ?_, ?_⟩
  · rintro ⟨members, hmembers, hvm, hwm⟩
    obtain ⟨least, others, rfl, hc⟩ := hg.exists_isComponent hmembers
    exact (hg.reaches_symm ((hc.mem_iff v).1 hvm)).trans ((hc.mem_iff w).1 hwm)
  · obtain ⟨members, hmembers, hvm⟩ :=
      List.mem_flatten.1 (hg.perm_flatten_components.mem_iff.2 hv)
    refine ⟨members, hmembers, hvm, ?_⟩
    obtain ⟨least, others, rfl, hc⟩ := hg.exists_isComponent hmembers
    exact (hc.mem_iff w).2 (((hc.mem_iff v).1 hvm).trans hvw)
  · intro members hmembers
    obtain ⟨least, others, rfl, -⟩ := hg.exists_isComponent hmembers
    exact List.cons_ne_nil least others
  · intro members hmembers
    obtain ⟨least, others, rfl, hc⟩ := hg.exists_isComponent hmembers
    exact hc.ascending
  · -- The lists come in the order of their least vertices.
    rw [components_eq, List.pairwise_map]
    have hascending := (pairwise_vertices g).filter fun v => g.anchor v == v
    refine hascending.imp_of_mem fun {v w} hv hw hlt => ?_
    obtain ⟨hv, hvroot⟩ := List.mem_filter.1 hv
    obtain ⟨hw, hwroot⟩ := List.mem_filter.1 hw
    exact ⟨v, w, hg.head?_members hv (beq_iff_eq.1 hvroot), hg.head?_members hw
      (beq_iff_eq.1 hwroot), hlt⟩

/-- The components are exact. Collecting the vertices by their anchors ends, and the lists that it
gives divide the vertices of the graph by the paths between them. On the way no anchor is ever
higher than its number: that holds of every array that finding and merging lead to, and these are
the arrays that are found after the edges of some vertices were taken in and after some vertices
were collected. So the way from every number ends each time it is followed. -/
theorem anchoredComponents?_exact (hg : g.Reachable) :
    (∃ lists, g.anchoredComponents? = some lists ∧ lists = g.components ∧ g.Divides lists) ∧
      (∀ vs, vs <+: g.vertices → ∃ a, vs.foldlM g.mergeFrom? (.alone g.bound) = some a ∧
        Anchors.Reached g.bound a) ∧
      (∀ vs, vs <+: g.vertices → ∃ a c, g.anchors? = some a ∧
        vs.foldlM Collection.add? (.start a g.bound) = some c ∧
        Anchors.Reached g.bound c.anchors) ∧
      ∀ a, Anchors.Reached g.bound a → Anchors.Descending g.bound a := by
  have hcons := hg.consistent
  -- Every array on the way is reached by finding and merging; the loop invariant says no more.
  have hmerge : ∀ vs, vs <+: g.vertices → ∀ a,
      vs.foldlM g.mergeFrom? (.alone g.bound) = some a → Anchors.Reached g.bound a :=
    fun vs hvs a ha => foldlM_induct
      (fun b u d hu hb hstep => hcons.reached_mergeFrom? (hvs.subset hu) hb hstep) .alone ha
  refine ⟨⟨_, hcons.anchoredComponents?_eq, rfl, hcons.divides_components⟩, fun vs hvs => ?_,
    fun vs hvs => ?_, fun a ha => ha.descending⟩
  · obtain ⟨a, ha⟩ := exists_foldlM_prefix hcons.anchors?_eq hvs
    exact ⟨a, ha, hmerge vs hvs a ha⟩
  · obtain ⟨c, hrun, -⟩ := hcons.collected hvs
    refine ⟨_, c, hcons.anchors?_eq, hrun, ?_⟩
    have hstart : Anchors.Reached g.bound (g.forestOf g.edges).parents :=
      hmerge g.vertices (List.prefix_refl _) _ hcons.anchors?_eq
    exact foldlM_induct (P := fun c => Anchors.Reached g.bound c.anchors)
      (fun c v d hv hc hadd => Collection.reached_add? hc (lt_bound (hvs.subset hv)) hadd) hstart hrun

/-- Two components around a vertex that was removed; the edges of one of them come from its highest
vertex down. -/
def scattered : Graph :=
  built [.pushNumbered, .pushNumbered, .pushNumbered, .pushNumbered, .pushNumbered, .pushNumbered,
    .connect 5 3, .connect 0 2, .connect 3 1, .connect 2 4, .connect 5 1, .eraseVertex 0]

theorem anchoredComponents?_exact_scattered : scattered.Reachable ∧
    scattered.anchoredComponents? = some [[1, 3, 5], [2, 4]] ∧
    scattered.Divides [[1, 3, 5], [2, 4]] := by
  have hreach : scattered.Reachable := reachable_built _
  have hcomponents : scattered.components = [[1, 3, 5], [2, 4]] := by cbv
  obtain ⟨⟨lists, hlists, heq, hdivides⟩, -⟩ := anchoredComponents?_exact hreach
  rw [heq, hcomponents] at hlists hdivides
  exact ⟨hreach, hlists, hdivides⟩

end Graph

end CliquePath
