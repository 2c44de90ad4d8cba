import CliquePath.Proofs.Renaming.Components
import CliquePath.Proofs.Search.EdgeTour

set_option autoImplicit false

/-!
# The tour of a graph rebuilt from a tour

This module shows that an edge tour repeats itself. When a graph is built anew from its edges in the
order of their tour, its lists of neighbours change their order. But the edges of a vertex that
stand before the place where it is taken off lead to finished vertices, and those listed there stand
together, in their order. So the tour of the new graph, which passes over finished vertices, meets
the same neighbours at every step and lists the same edges.
-/

namespace CliquePath

variable {ι : Vertex → Vertex} {c g : Graph} {v x : Vertex}
variable {vs pre post component finished : List Vertex} {n : Nat}

namespace EdgeTour

/-! ## Two tours side by side -/

/-- The tour of the renamed vertices. -/
def rename (ι : Vertex → Vertex) (t : EdgeTour) : EdgeTour :=
  ⟨t.stack.map ι, t.unseen.map ι, t.finished.map ι⟩

theorem meet_rename (hι : Function.Injective ι) (t : EdgeTour) (v : Vertex) :
    (t.rename ι).meet (ι v) = (t.meet v).rename ι := by
  have hunseen : (t.rename ι).unseen.contains (ι v) = t.unseen.contains v :=
    contains_map hι t.unseen v
  simp only [meet, hunseen]
  split
  · simp [rename, List.map_erase hι]
  · rfl

theorem foldl_meet_rename (hι : Function.Injective ι) (vs : List Vertex) (t : EdgeTour) :
    (vs.map ι).foldl meet (t.rename ι) = (vs.foldl meet t).rename ι := by
  induction vs generalizing t with
  | nil => rfl
  | cons v rest ih => rw [List.map_cons, List.foldl_cons, meet_rename hι, ih, List.foldl_cons]

theorem next_rename (hι : Function.Injective ι) {t : EdgeTour}
    (hahead : ahead g (t.finished.map ι) (ι v) = (ahead c t.finished v).map ι)
    (rest : List Vertex) :
    (t.rename ι).next g (ι v) (rest.map ι) = (t.next c v rest).rename ι := by
  have hstart : { t.rename ι with
        stack := rest.map ι, finished := ι v :: (t.rename ι).finished } =
      EdgeTour.rename ι { t with stack := rest, finished := v :: t.finished } := rfl
  have hmet : ahead g (t.rename ι).finished (ι v) = (ahead c t.finished v).map ι := hahead
  rw [next, hmet, hstart, foldl_meet_rename hι, next]

/-- Two tours list corresponding edges as long as they list corresponding neighbours at each vertex
that is taken off. -/
theorem edges_rename (hι : Function.Injective ι) {t : EdgeTour}
    (h : ∀ (pre : List Vertex) (v : Vertex) (post : List Vertex), taken g n (t.rename ι) =
        pre.map ι ++ ι v :: post →
      ahead g ((pre.reverse ++ t.finished).map ι) (ι v) =
        (ahead c (pre.reverse ++ t.finished) v).map ι) :
    edges g n (t.rename ι) = (edges c n t).map (Prod.map ι ι) := by
  induction n generalizing t with
  | zero => rfl
  | succ n ih =>
      cases hstack : t.stack with
      | nil =>
          have hempty : (t.rename ι).stack = [] := by simp [rename, hstack]
          simp only [edges, hempty, hstack, List.map_nil]
      | cons v rest =>
          have htop : (t.rename ι).stack = ι v :: rest.map ι := by simp [rename, hstack]
          have htaken : taken g (n + 1) (t.rename ι) =
              ι v :: taken g n ((t.rename ι).next g (ι v) (rest.map ι)) := by
            rw [taken, htop]
          have hahead : ahead g (t.finished.map ι) (ι v) = (ahead c t.finished v).map ι :=
            h [] v _ htaken
          have hnext := next_rename hι hahead rest
          have hrest : edges g n ((t.next c v rest).rename ι) =
              (edges c n (t.next c v rest)).map (Prod.map ι ι) := by
            refine ih fun pre w post hsplit => ?_
            rw [finished_next]
            -- One vertex more was taken off before `w`.
            have hlater := h (v :: pre) w post (by rw [htaken, hnext, hsplit]; rfl)
            simpa using hlater
          rw [edges_eq, htaken, along, edges_eq c, taken, hstack, along, List.map_append]
          congr 1
          · have hfinished : (t.rename ι).finished = t.finished.map ι := rfl
            rw [hfinished, hahead, List.map_map, List.map_map]
            rfl
          · have hfinished : ((t.next c v rest).rename ι).finished =
                ι v :: (t.rename ι).finished := by simp [rename, finished_next]
            rw [edges_eq, edges_eq c, finished_next, hfinished] at hrest
            rw [hnext]
            exact hrest

/-! ## The edges of one vertex along an order -/

/-- Of the edges of one vertex along an order, those that do not lead to a vertex before it are the
ones listed at the vertex itself, in their order. -/
theorem filter_partners_along (g : Graph) (finished : List Vertex) (hvs : vs.Nodup)
    (hsplit : vs = pre ++ v :: post) :
    ((along g finished vs).filterMap (Graph.partner? v)).filter
      (fun w => !(pre.reverse ++ finished).contains w) = ahead g (pre.reverse ++ finished) v := by
  rw [hsplit, List.nodup_append, List.nodup_cons] at hvs
  obtain ⟨-, ⟨hpost, -⟩, hapart⟩ := hvs
  have hpre : v ∉ pre := fun hv => hapart v hv v List.mem_cons_self rfl
  rw [hsplit, along_append, along, List.filterMap_append, List.filterMap_append,
    List.filter_append, List.filter_append]
  -- an edge that was listed at an earlier vertex leads back to that vertex
  have hbefore : ((along g finished pre).filterMap (Graph.partner? v)).filter
      (fun w => !(pre.reverse ++ finished).contains w) = [] := by
    refine List.filter_eq_nil_iff.2 fun w hw => ?_
    obtain ⟨⟨a, b⟩, hab, hpartner⟩ := List.mem_filterMap.1 hw
    obtain ⟨front, back, rfl, -, -, -⟩ := mem_along.1 hab
    have hav : a ≠ v := fun heq => hpre (heq ▸ List.mem_append_right _ List.mem_cons_self)
    have hwa : w = a := by
      simp only [Graph.partner?, hav, if_false] at hpartner
      split at hpartner
      · exact (Option.some.inj hpartner).symm
      · cases hpartner
    subst hwa
    simp
  have hat : ((ahead g (pre.reverse ++ finished) v).map fun w => (v, w)).filterMap
      (Graph.partner? v) = ahead g (pre.reverse ++ finished) v := by
    rw [List.filterMap_map]
    have hsome : Graph.partner? v ∘ (fun w => (v, w)) = some := by
      funext w
      simp [Graph.partner?]
    rw [hsome, List.filterMap_some]
  -- later vertices do not list edges to a finished one
  have hafter : (along g (v :: (pre.reverse ++ finished)) post).filterMap (Graph.partner? v) =
      [] := by
    refine Graph.filterMap_partner?_eq_nil fun e he => ?_
    obtain ⟨front, back, rfl, -, hb, -⟩ := mem_along.1 he
    constructor
    · exact fun heq => hpost (heq ▸ List.mem_append_right _ List.mem_cons_self)
    · exact fun heq => hb (heq ▸ List.mem_cons_self)
  have hself : (ahead g (pre.reverse ++ finished) v).filter
      (fun w => !(pre.reverse ++ finished).contains w) = ahead g (pre.reverse ++ finished) v := by
    refine List.filter_eq_self.2 fun w hw => ?_
    simpa using (mem_ahead.1 hw).2
  rw [hbefore, hat, hafter, hself, List.filter_nil, List.nil_append, List.append_nil]

end EdgeTour

namespace Graph

open EdgeTour

/-- The edges of the tour that end in a vertex are those of the tour of its component. -/
theorem Consistent.partners_edgeTour (hg : g.Consistent) (hcomponent : component ∈ g.components)
    (hx : x ∈ component) : g.edgeTour.filterMap (partner? x) =
      (g.tourComponent component).filterMap (partner? x) := by
  have hnone : ∀ ds : List (List Vertex), (∀ d ∈ ds, d ∈ g.components ∧ x ∉ d) →
      (ds.flatMap g.tourComponent).filterMap (partner? x) = [] := by
    intro ds hds
    refine filterMap_partner?_eq_nil fun e he => ?_
    obtain ⟨d, hd, he⟩ := List.mem_flatMap.1 he
    obtain ⟨hin, hxd⟩ := hds d hd
    obtain ⟨hleft, hright⟩ := hg.mem_of_mem_tourComponent hin he
    exact ⟨fun heq => hxd (heq ▸ hleft), fun heq => hxd (heq ▸ hright)⟩
  obtain ⟨front, back, hsplit⟩ := List.append_of_mem hcomponent
  -- The vertex is in no other component.
  have hnodup := hg.perm_flatten_components.nodup_iff.2 (nodup_vertices g)
  rw [hsplit, List.flatten_append, List.flatten_cons, List.nodup_append,
    List.nodup_append] at hnodup
  obtain ⟨-, ⟨-, -, hback⟩, hfront⟩ := hnodup
  rw [edgeTour, hsplit, List.flatMap_append, List.flatMap_cons, List.filterMap_append,
    List.filterMap_append, hnone front, hnone back, List.nil_append, List.append_nil]
  · intro d hd
    refine ⟨hsplit ▸ by simp [hd], fun hxd => ?_⟩
    exact hback x hx x (List.mem_flatten.2 ⟨d, hd, hxd⟩) rfl
  · intro d hd
    refine ⟨hsplit ▸ by simp [hd], fun hxd => ?_⟩
    exact hfront x (List.mem_flatten.2 ⟨d, hd, hxd⟩) x (List.mem_append_left _ hx) rfl

/-- The first graph has the edges of the second, added in the order of their tour. -/
structure Retraces (ι : Vertex → Vertex) (c g : Graph) : Prop extends Embeds ι c g where
  listed : ∀ v, (c.neighbors v).map ι = g.edgeTour.filterMap (partner? (ι v))

/-- Corresponding components have corresponding tours. -/
theorem Retraces.tourComponent_eq (h : Retraces ι c g) (hc : c.Consistent) (hg : g.Consistent)
    (hcomponent : component ∈ c.components) :
    g.tourComponent (component.map ι) = (c.tourComponent component).map (Prod.map ι ι) := by
  have hι := h.mono.injective
  have hmem : component.map ι ∈ g.components :=
    h.toEmbeds.components hc hg ▸ List.mem_map_of_mem hcomponent
  have hperm := hg.perm_takenComponent hmem
  have hedges := Graph.tourComponent_eq g (component.map ι)
  have hnodup : (component.map ι).Nodup := by
    obtain ⟨least, others, heq, hi⟩ := hg.exists_isComponent hmem
    exact heq ▸ hi.nodup
  obtain ⟨least, others, rfl, -⟩ := hc.exists_isComponent hcomponent
  have htour : g.tourComponent ((least :: others).map ι) = EdgeTour.edges g (others.length + 1)
      (EdgeTour.rename ι { stack := [least], unseen := others }) := by
    rw [List.map_cons, tourComponent, List.length_map]
    rfl
  have htaken : g.takenComponent ((least :: others).map ι) = taken g (others.length + 1)
      (EdgeTour.rename ι { stack := [least], unseen := others }) := by
    rw [List.map_cons, takenComponent, List.length_map]
    rfl
  rw [htour, edges_rename hι, tourComponent]
  intro pre v post hsplit
  rw [← htaken] at hsplit
  have hv : ι v ∈ (least :: others).map ι := by
    rw [← hperm.mem_iff, hsplit]
    exact List.mem_append_right _ List.mem_cons_self
  have hpartners : (c.neighbors v).map ι =
      (along g [] (g.takenComponent ((least :: others).map ι))).filterMap (partner? (ι v)) := by
    rw [h.listed, hg.partners_edgeTour hmem hv, hedges]
  -- What is ahead of `v` is what remains of its list without the vertices taken off before.
  have hfilter := filter_partners_along g [] (hperm.nodup_iff.2 hnodup) hsplit
  rw [← hpartners, List.filter_map] at hfilter
  have hfinished : ∀ w, ((pre.map ι).reverse ++ []).contains (ι w) =
      (pre.reverse ++ []).contains w := by
    intro w
    rw [List.append_nil, List.append_nil, ← List.map_reverse, contains_map hι]
  simp only [Function.comp_def, hfinished] at hfilter
  simpa [ahead, List.map_reverse] using hfilter.symm

/-- The tour of a graph built from the edges of a tour lists them in the same order. -/
theorem Retraces.edgeTour_eq (h : Retraces ι c g) (hc : c.Consistent) (hg : g.Consistent) :
    g.edgeTour = c.edgeTour.map (Prod.map ι ι) := by
  rw [edgeTour, h.toEmbeds.components hc hg, List.flatMap_map, edgeTour, List.map_flatMap]
  exact List.flatMap_congr fun d hd => h.tourComponent_eq hc hg hd

end Graph

end CliquePath
