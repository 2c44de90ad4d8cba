import CliquePath.Proofs.Graph.Components
import CliquePath.Proofs.Graph.EdgeSet
import CliquePath.Search.EdgeTour

set_option autoImplicit false

/-!
# The order of an edge tour

This module splits an edge tour into the order in which vertices are taken off the stack and the
edges listed at each of them. A vertex that was finished has no neighbour that was never on the
stack, so when the stack runs empty the whole component was taken off. The edges follow the order:
each is listed at the end that was taken off first. So the tour lists every edge of the graph once.
-/

namespace CliquePath

variable {g : Graph} {v w x : Vertex} {vs ws component finished : List Vertex} {n : Nat}

namespace EdgeTour

/-! ## Vertices taken off the stack -/

/-- The neighbours of a vertex to which an edge is listed when the vertex is taken off the stack. -/
def ahead (g : Graph) (finished : List Vertex) (v : Vertex) : List Vertex :=
  (g.neighbors v).filter fun w => !finished.contains w

/-- The tour after the vertex on top of the stack was taken off. -/
def next (g : Graph) (v : Vertex) (rest : List Vertex) (t : EdgeTour) : EdgeTour :=
  (ahead g t.finished v).foldl meet { t with stack := rest, finished := v :: t.finished }

/-- At most `n` vertices in the order in which they are taken off the stack. -/
def taken (g : Graph) : Nat → EdgeTour → List Vertex
  | 0, _ => []
  | n + 1, t =>
      match t.stack with
      | [] => []
      | v :: rest => v :: taken g n (t.next g v rest)

/-- The edges listed at the given vertices when they are taken off in this order. -/
def along (g : Graph) : List Vertex → List Vertex → List (Vertex × Vertex)
  | _, [] => []
  | finished, v :: rest =>
      ((ahead g finished v).map fun w => (v, w)) ++ along g (v :: finished) rest

theorem mem_ahead : w ∈ ahead g finished v ↔ g.Linked v w ∧ w ∉ finished := by
  simp [ahead, List.mem_filter]

theorem finished_foldl_meet (ws : List Vertex) (t : EdgeTour) :
    (ws.foldl meet t).finished = t.finished := by
  induction ws generalizing t with
  | nil => rfl
  | cons w rest ih =>
      rw [List.foldl_cons, ih, meet]
      split <;> rfl

theorem finished_next (v : Vertex) (rest : List Vertex) (t : EdgeTour) :
    (t.next g v rest).finished = v :: t.finished :=
  finished_foldl_meet _ _

/-- The edges of a tour are those along the order in which its vertices are taken off. -/
theorem edges_eq (g : Graph) (n : Nat) (t : EdgeTour) :
    edges g n t = along g t.finished (taken g n t) := by
  induction n generalizing t with
  | zero => rfl
  | succ n ih =>
      rw [edges, taken]
      cases t.stack with
      | nil => rfl
      | cons v rest =>
          have hnext := ih (t.next g v rest)
          rw [finished_next] at hnext
          rw [along, ← hnext]
          rfl

/-! ## All vertices of a component are taken off -/

/-- Meeting a vertex moves it to the stack or changes nothing. -/
theorem perm_meet (t : EdgeTour) (w : Vertex) :
    ((t.meet w).stack ++ (t.meet w).unseen).Perm (t.stack ++ t.unseen) := by
  unfold meet
  split
  next h =>
    have hw : w ∈ t.unseen := by simpa using h
    exact List.perm_middle.symm.trans ((List.perm_cons_erase hw).symm.append_left t.stack)
  next => exact List.Perm.refl _

theorem perm_foldl_meet (ws : List Vertex) (t : EdgeTour) :
    ((ws.foldl meet t).stack ++ (ws.foldl meet t).unseen).Perm (t.stack ++ t.unseen) := by
  induction ws generalizing t with
  | nil => exact List.Perm.refl _
  | cons w rest ih => exact (ih (t.meet w)).trans (perm_meet t w)

/-- What is unseen after some vertices were met was unseen before and was not met. -/
theorem mem_unseen_foldl_meet (ws : List Vertex) {t : EdgeTour} (ht : t.unseen.Nodup)
    (hx : x ∈ (ws.foldl meet t).unseen) : x ∈ t.unseen ∧ x ∉ ws := by
  induction ws generalizing t with
  | nil => exact ⟨hx, List.not_mem_nil⟩
  | cons w rest ih =>
      have hmeet : (t.meet w).unseen = t.unseen.erase w := by
        unfold meet
        split
        next => rfl
        next h => exact (List.erase_of_not_mem (by simpa using h)).symm
      obtain ⟨hunseen, hrest⟩ := ih (by rw [hmeet]; exact ht.erase w) hx
      rw [hmeet, ht.mem_erase_iff] at hunseen
      refine ⟨hunseen.2, ?_⟩
      rw [List.mem_cons, not_or]
      exact ⟨hunseen.1, hrest⟩

/-- The state of a tour through a component with the given least vertex. -/
structure Touring (g : Graph) (least : Vertex) (component : List Vertex) (t : EdgeTour) : Prop where
  perm : (t.finished ++ (t.stack ++ t.unseen)).Perm component
  start : least ∉ t.unseen
  /-- The neighbours of a finished vertex were all met. -/
  met : ∀ v ∈ t.finished, ∀ w, g.Linked v w → w ∉ t.unseen

theorem Touring.nodup {least : Vertex} {t : EdgeTour} (h : Touring g least component t)
    (hcomponent : component.Nodup) : t.unseen.Nodup :=
  (List.nodup_append.1 (List.nodup_append.1 (h.perm.nodup_iff.2 hcomponent)).2.1).2.1

theorem Touring.next {least : Vertex} {t : EdgeTour} {rest : List Vertex}
    (h : Touring g least component t) (hcomponent : component.Nodup)
    (hstack : t.stack = v :: rest) :
    Touring g least component (t.next g v rest) ∧
      ((t.next g v rest).stack ++ (t.next g v rest).unseen).Perm (rest ++ t.unseen) := by
  have hmoved := perm_foldl_meet (ahead g t.finished v)
    { t with stack := rest, finished := v :: t.finished }
  have hunseen : ∀ {x}, x ∈ (t.next g v rest).unseen →
      x ∈ t.unseen ∧ x ∉ ahead g t.finished v := fun hx =>
    mem_unseen_foldl_meet (t := { t with stack := rest, finished := v :: t.finished }) _
      (h.nodup hcomponent) hx
  have hapart : ∀ x ∈ t.unseen, x ∉ t.finished := by
    intro x hx hfinished
    have hnodup := h.perm.nodup_iff.2 hcomponent
    exact (List.nodup_append.1 hnodup).2.2 x hfinished x (List.mem_append_right _ hx) rfl
  refine ⟨⟨?_, fun hleast => h.start (hunseen hleast).1, ?_⟩, hmoved⟩
  · rw [finished_next]
    have hstart := h.perm
    rw [hstack] at hstart
    refine ((hmoved.append_left (v :: t.finished)).trans ?_).trans hstart
    exact List.perm_middle.symm
  · intro x hx w hxw hw
    rw [finished_next] at hx
    rcases List.mem_cons.1 hx with rfl | hx
    · -- The neighbours of the vertex taken off are met now, unless they are finished.
      exact (hunseen hw).2 (mem_ahead.2 ⟨hxw, hapart w (hunseen hw).1⟩)
    · exact h.met x hx w hxw (hunseen hw).1

/-- A tour with enough steps takes off everything that is on the stack or unseen. -/
theorem Touring.perm_taken {least : Vertex} {others : List Vertex} {t : EdgeTour}
    (h : Touring g least (least :: others) t) (hc : g.IsComponent least others)
    (hn : (t.stack ++ t.unseen).length ≤ n) : (taken g n t).Perm (t.stack ++ t.unseen) := by
  induction n generalizing t with
  | zero =>
      rw [taken, List.eq_nil_of_length_eq_zero (Nat.le_zero.1 hn)]
  | succ n ih =>
      rw [taken]
      cases hstack : t.stack with
      | nil =>
          -- Everything is finished: what is not unseen is closed under links.
          have hseen : ∀ x ∈ least :: others, x ∉ t.unseen := by
            refine hc.induct (P := fun x => x ∉ t.unseen) h.start ?_
            intro x y hx hunseen hxy
            have hin := h.perm.mem_iff.2 hx
            rw [hstack, List.nil_append, List.mem_append] at hin
            exact h.met x (hin.resolve_right hunseen) y hxy
          have hempty : t.unseen = [] := by
            refine List.eq_nil_iff_forall_not_mem.2 fun x hx => hseen x ?_ hx
            exact h.perm.mem_iff.1 (List.mem_append_right _ (List.mem_append_right _ hx))
          rw [hempty]
          exact List.Perm.refl _
      | cons v rest =>
          obtain ⟨hnext, hperm⟩ := h.next hc.nodup hstack
          have hlength : (rest ++ t.unseen).length ≤ n := by
            rw [hstack] at hn
            simpa using hn
          exact ((ih hnext (hperm.length_eq ▸ hlength)).trans hperm).cons v

/-! ## The edges along an order -/

theorem along_append (g : Graph) (finished vs ws : List Vertex) :
    along g finished (vs ++ ws) =
      along g finished vs ++ along g (vs.reverse ++ finished) ws := by
  induction vs generalizing finished with
  | nil => rfl
  | cons v rest ih => simp [along, ih]

/-- Which vertices are finished matters only for the neighbours of those that are still to come. -/
theorem along_congr {finished finished' : List Vertex}
    (h : ∀ v ∈ vs, ∀ w, g.Linked v w → (w ∈ finished ↔ w ∈ finished')) :
    along g finished vs = along g finished' vs := by
  induction vs generalizing finished finished' with
  | nil => rfl
  | cons v rest ih =>
      have hahead : ahead g finished v = ahead g finished' v := by
        refine List.filter_congr fun w hw => ?_
        simp [h v List.mem_cons_self w hw]
      rw [along, along, hahead]
      congr 1
      refine ih fun x hx w hxw => ?_
      rw [List.mem_cons, List.mem_cons, h x (List.mem_cons_of_mem v hx) w hxw]

/-- Each edge is listed at the end that comes first. -/
theorem mem_along {e : Vertex × Vertex} : e ∈ along g finished vs ↔
    ∃ pre post, vs = pre ++ e.1 :: post ∧ g.Linked e.1 e.2 ∧ e.2 ∉ finished ∧ e.2 ∉ pre := by
  induction vs generalizing finished with
  | nil => simp [along]
  | cons v rest ih =>
      rw [along, List.mem_append, ih, List.mem_map]
      constructor
      · rintro (⟨w, hw, rfl⟩ | ⟨pre, post, rfl, hlinked, hfinished, hpre⟩)
        · obtain ⟨hlinked, hfinished⟩ := mem_ahead.1 hw
          exact ⟨[], rest, rfl, hlinked, hfinished, List.not_mem_nil⟩
        · rw [List.mem_cons, not_or] at hfinished
          refine ⟨v :: pre, post, rfl, hlinked, hfinished.2, ?_⟩
          rw [List.mem_cons, not_or]
          exact ⟨hfinished.1, hpre⟩
      · rintro ⟨pre, post, hsplit, hlinked, hfinished, hpre⟩
        cases pre with
        | nil =>
            obtain ⟨rfl, -⟩ := List.cons.inj hsplit
            exact Or.inl ⟨e.2, mem_ahead.2 ⟨hlinked, hfinished⟩, rfl⟩
        | cons u pre =>
            obtain ⟨rfl, rfl⟩ := List.cons.inj hsplit
            rw [List.mem_cons, not_or] at hpre
            refine Or.inr ⟨pre, post, rfl, hlinked, ?_, hpre.2⟩
            rw [List.mem_cons, not_or]
            exact ⟨hpre.1, hfinished⟩

/-- No edge is listed twice, not even with its ends exchanged. -/
theorem nodup_along (hg : g.Consistent) (finished : List Vertex) (hvs : vs.Nodup) :
    ((along g finished vs).map fun e => sortedEnds e.1 e.2).Nodup := by
  induction vs generalizing finished with
  | nil => exact List.nodup_nil
  | cons v rest ih =>
      obtain ⟨hv, hrest⟩ := List.nodup_cons.1 hvs
      rw [along, List.map_append, List.map_map, List.nodup_append]
      refine ⟨?_, ih (v :: finished) hrest, ?_⟩
      · refine ((hg.nodup v).filter _).map_on fun a _ b _ hab => ?_
        rcases (Graph.sortedEnds_eq_iff v a v b).1 hab with ⟨-, heq⟩ | ⟨hvb, hav⟩
        · exact heq
        · exact hav.trans hvb
      · intro e he d hd hed
        obtain ⟨w, -, rfl⟩ := List.mem_map.1 he
        obtain ⟨⟨a, b⟩, hab, rfl⟩ := List.mem_map.1 hd
        obtain ⟨pre, post, rfl, -, hb, -⟩ := mem_along.1 hab
        -- Neither end of a later edge is `v`.
        rcases (Graph.sortedEnds_eq_iff v w a b).1 hed with ⟨rfl, -⟩ | ⟨rfl, -⟩
        · exact hv (List.mem_append_right _ List.mem_cons_self)
        · exact hb List.mem_cons_self

end EdgeTour

namespace Graph

open EdgeTour

/-! ## The whole tour -/

/-- The vertices of a component in the order in which its tour takes them off the stack. -/
def takenComponent (g : Graph) : List Vertex → List Vertex
  | [] => []
  | least :: others => taken g (others.length + 1) { stack := [least], unseen := others }

/-- All vertices in the order in which the tour takes them off the stack. -/
def tourOrder (g : Graph) : List Vertex := g.components.flatMap g.takenComponent

theorem tourComponent_eq (g : Graph) (component : List Vertex) :
    g.tourComponent component = along g [] (g.takenComponent component) := by
  cases component with
  | nil => rfl
  | cons least others => exact edges_eq g _ _

theorem IsComponent.touring {least : Vertex} {others : List Vertex}
    (h : g.IsComponent least others) :
    Touring g least (least :: others) { stack := [least], unseen := others } :=
  ⟨List.Perm.refl _, (List.nodup_cons.1 h.nodup).1, fun _ hv => absurd hv List.not_mem_nil⟩

/-- The tour of a component takes each of its vertices off the stack once. -/
theorem Consistent.perm_takenComponent (hg : g.Consistent) (h : component ∈ g.components) :
    (g.takenComponent component).Perm component := by
  obtain ⟨least, others, rfl, hc⟩ := hg.exists_isComponent h
  exact hc.touring.perm_taken hc (by simp)

/-- The tour of a graph takes every vertex off the stack once. -/
theorem Consistent.perm_tourOrder (hg : g.Consistent) : g.tourOrder.Perm g.vertices := by
  have hperm : (g.components.flatMap g.takenComponent).Perm (g.components.flatMap id) :=
    List.Perm.flatMap_left g.components fun c hc => hg.perm_takenComponent hc
  rw [List.flatMap_id] at hperm
  exact hperm.trans hg.perm_flatten_components

/-- The tour of a component stays in it. -/
theorem Consistent.mem_of_mem_tourComponent (hg : g.Consistent)
    (hcomponent : component ∈ g.components) {e : Vertex × Vertex}
    (he : e ∈ g.tourComponent component) : e.1 ∈ component ∧ e.2 ∈ component := by
  have hperm := hg.perm_takenComponent hcomponent
  obtain ⟨least, others, rfl, hc⟩ := hg.exists_isComponent hcomponent
  rw [tourComponent_eq] at he
  obtain ⟨front, back, hsplit, hlinked, -, -⟩ := mem_along.1 he
  have hfirst : e.1 ∈ least :: others := by
    rw [← hperm.mem_iff, hsplit]
    exact List.mem_append_right _ List.mem_cons_self
  exact ⟨hfirst, hc.mem_of_linked hfirst hlinked⟩

/-- Edges of components follow the order of their vertices: what was finished before lies in other
components and is no neighbour. -/
theorem Consistent.flatMap_tourComponent (hg : g.Consistent) {components : List (List Vertex)}
    {finished : List Vertex} (hsub : ∀ c ∈ components, c ∈ g.components)
    (hfresh : ∀ c ∈ components, ∀ v ∈ c, v ∉ finished) (hnodup : components.flatten.Nodup) :
    components.flatMap g.tourComponent =
      along g finished (components.flatMap g.takenComponent) := by
  induction components generalizing finished with
  | nil => rfl
  | cons c rest ih =>
      have hperm := hg.perm_takenComponent (hsub c List.mem_cons_self)
      rw [List.flatten_cons, List.nodup_append] at hnodup
      rw [List.flatMap_cons, List.flatMap_cons, along_append, tourComponent_eq]
      congr 1
      · -- all neighbours of a vertex are in its own component
        refine along_congr fun v hv w hvw => iff_of_false List.not_mem_nil ?_
        obtain ⟨least, others, rfl, hc⟩ := hg.exists_isComponent (hsub c List.mem_cons_self)
        exact hfresh _ List.mem_cons_self w (hc.mem_of_linked (hperm.mem_iff.1 hv) hvw)
      · apply ih (fun d hd => hsub d (List.mem_cons_of_mem c hd)) _ hnodup.2.1
        intro d hd v hv
        rw [List.mem_append, List.mem_reverse, hperm.mem_iff, not_or]
        constructor
        · exact fun hvc => hnodup.2.2 v hvc v (List.mem_flatten.2 ⟨d, hd, hv⟩) rfl
        · exact hfresh d (List.mem_cons_of_mem c hd) v hv

/-- The edges of the whole tour follow the order of all vertices. -/
theorem Consistent.edgeTour_eq (hg : g.Consistent) : g.edgeTour = along g [] g.tourOrder := by
  apply hg.flatMap_tourComponent
  · exact fun c hc => hc
  · exact fun _ _ v _ => List.not_mem_nil
  · exact hg.perm_flatten_components.nodup_iff.2 (nodup_vertices g)

theorem Consistent.linked_of_mem_edgeTour (hg : g.Consistent) {e : Vertex × Vertex}
    (he : e ∈ g.edgeTour) : g.Linked e.1 e.2 := by
  rw [hg.edgeTour_eq] at he
  obtain ⟨-, -, -, hlinked, -⟩ := mem_along.1 he
  exact hlinked

/-- Of two vertices of a list, one comes first. -/
theorem exists_first (hv : v ∈ vs) (hw : w ∈ vs) :
    (∃ pre post, vs = pre ++ v :: post ∧ w ∉ pre) ∨
      ∃ pre post, vs = pre ++ w :: post ∧ v ∉ pre := by
  obtain ⟨pre, post, rfl, hpre⟩ := List.eq_append_cons_of_mem hv
  by_cases hin : w ∈ pre
  · obtain ⟨front, back, rfl⟩ := List.append_of_mem hin
    refine Or.inr ⟨front, back ++ v :: post, by simp, fun hfront => hpre ?_⟩
    exact List.mem_append_left _ hfront
  · exact Or.inl ⟨pre, post, rfl, hin⟩

/-- The tour lists every edge of the graph once. -/
theorem Chronicled.perm_edgeTour (hc : g.Chronicled) (hg : g.Consistent) :
    (g.edgeTour.map fun e => sortedEnds e.1 e.2).Perm g.edgeSet := by
  rw [hg.edgeTour_eq]
  have horder : g.tourOrder.Nodup := hg.perm_tourOrder.nodup_iff.2 (nodup_vertices g)
  refine (List.perm_ext_iff_of_nodup (nodup_along hg [] horder) hc.distinct).2 fun e => ?_
  constructor
  · intro he
    obtain ⟨⟨a, b⟩, hab, rfl⟩ := List.mem_map.1 he
    obtain ⟨-, -, -, hlinked, -⟩ := mem_along.1 hab
    exact (mem_edgeSet_iff hg rfl).2 hlinked
  · intro he
    have hlt := hc.sorted e he
    have hends : e = sortedEnds e.1 e.2 := by simp [sortedEnds, hlt]
    have hlinked : g.Linked e.1 e.2 := (mem_edgeSet_iff hg hends).1 he
    obtain ⟨hv, hw⟩ := hg.mem_vertices_of_linked hlinked
    rw [← hg.perm_tourOrder.mem_iff] at hv hw
    -- the edge is listed at the end that the order has first
    rcases exists_first hv hw with ⟨pre, post, hsplit, hpre⟩ |
      ⟨pre, post, hsplit, hpre⟩
    · exact List.mem_map.2 ⟨e, mem_along.2 ⟨pre, post, hsplit, hlinked, List.not_mem_nil, hpre⟩,
        hends.symm⟩
    · refine List.mem_map.2 ⟨(e.2, e.1), mem_along.2 ⟨pre, post, hsplit, hg.symm _ _ hlinked,
        List.not_mem_nil, hpre⟩, ?_⟩
      rw [sortedEnds_comm]
      exact hends.symm

/-- The edges of the tour that end in a vertex lead to its neighbours, in an order of their own. -/
theorem Chronicled.perm_partners_edgeTour (hc : g.Chronicled) (hg : g.Consistent) (x : Vertex) :
    (g.edgeTour.filterMap (partner? x)).Perm (g.neighbors x) := by
  have hne : ∀ e ∈ g.edgeTour, e.1 ≠ e.2 := by
    intro e he heq
    have hlinked := hg.linked_of_mem_edgeTour he
    exact hg.irrefl e.1 (by rwa [← heq] at hlinked)
  rw [← filterMap_partner?_sortedEnds hne, hc.listed]
  exact ((hc.perm_edgeTour hg).trans g.edgeSet.reverse_perm.symm).filterMap _

end Graph

end CliquePath
