import CliquePath.GraphFile.Writer
import CliquePath.Proofs.Graph.EditRuns
import CliquePath.Proofs.Joined
import CliquePath.Proofs.Search.StackOrder

set_option autoImplicit false

/-!
# Where an edge tour is a depth-first search

A depth-first search goes on from the vertex visited most recently that still has an unvisited
neighbour. An edge tour goes on to the vertex met last, and a vertex keeps its place when it is met
again later. So the two agree as long as nobody is met twice before the visit, which is the case in
a graph without cycles. With cycles they need not agree: in `crossing` the tour leaves a vertex that
has an unvisited neighbour and goes on from an earlier one.
-/

namespace CliquePath

namespace Graph

variable {g : Graph} {u v w x y : Vertex} {order pre post visited : List Vertex}

/-- The vertex is one that a depth-first search may visit next: a neighbour of the most recently
visited vertex that has unvisited ones, or, if there is none, the least vertex that is left. -/
structure Deepest (g : Graph) (visited : List Vertex) (v : Vertex) : Prop where
  fresh : v ∉ visited
  next : (∃ before u after, visited = before ++ u :: after ∧ g.Linked u v ∧
      ∀ x ∈ after, ∀ w, g.Linked x w → w ∈ visited) ∨
    ((∀ x ∈ visited, ∀ w, g.Linked x w → w ∈ visited) ∧
      ∀ w ∈ g.vertices, w ∉ visited → v ≤ w)

/-- The order is that of a depth-first search through all components, in the order of their least
vertices and from these on. -/
structure DepthFirst (g : Graph) (order : List Vertex) : Prop where
  perm : order.Perm g.vertices
  next : ∀ pre v post, order = pre ++ v :: post → g.Deepest pre v

/-- The list has each edge once, written from the end visited earlier, and these ends come in the
order of the visits. -/
structure ListedAlong (g : Graph) (order : List Vertex) (tour : List (Vertex × Vertex)) :
    Prop where
  edges : (tour.map fun e => sortedEnds e.1 e.2).Perm g.edgeSet
  earlier : ∀ e ∈ tour, order.idxOf e.1 < order.idxOf e.2
  ascending : (tour.map Prod.fst).Pairwise fun v w => order.idxOf v ≤ order.idxOf w

/-- No two neighbours of a vertex are joined around it. -/
def Acyclic (g : Graph) : Prop :=
  ∀ w x y, g.Linked w x → g.Linked w y → x ≠ y → ¬ Joined g.Linked (· ≠ w) x y

/-! ## The list of edges -/

/-- The first ends of the edges along an order are related as the vertices of the order are. -/
theorem pairwise_along {R : Vertex → Vertex → Prop} (hrefl : ∀ v, R v v) (finished : List Vertex)
    (horder : order.Pairwise R) :
    ((EdgeTour.along g finished order).map Prod.fst).Pairwise R := by
  induction order generalizing finished with
  | nil => exact .nil
  | cons v rest ih =>
      obtain ⟨hv, hrest⟩ := List.pairwise_cons.1 horder
      rw [EdgeTour.along, List.map_append, List.map_map, List.pairwise_append]
      refine ⟨?_, ih _ hrest, ?_⟩
      · exact List.pairwise_map.2 (List.pairwise_of_forall fun _ _ => hrefl v)
      · intro x hx y hy
        obtain ⟨w, -, rfl⟩ := List.mem_map.1 hx
        obtain ⟨e, he, rfl⟩ := List.mem_map.1 hy
        obtain ⟨front, back, rfl, -⟩ := EdgeTour.mem_along.1 he
        exact hv e.1 (List.mem_append_right front List.mem_cons_self)

theorem pairwise_idxOf (hnodup : order.Nodup) :
    order.Pairwise fun v w => order.idxOf v ≤ order.idxOf w := by
  refine List.pairwise_iff_getElem.2 fun i j hi hj hij => ?_
  rw [hnodup.idxOf_getElem i hi, hnodup.idxOf_getElem j hj]
  exact Nat.le_of_lt hij

/-- The tour is listed along the order of its visits. -/
theorem Chronicled.listedAlong (hc : g.Chronicled) (hg : g.Consistent) :
    g.ListedAlong g.tourOrder g.edgeTour := by
  have hnodup : g.tourOrder.Nodup := hg.perm_tourOrder.nodup_iff.2 (nodup_vertices g)
  refine ⟨hc.perm_edgeTour hg, fun e he => ?_, ?_⟩
  · rw [hg.edgeTour_eq] at he
    obtain ⟨pre, post, hsplit, hlinked, -, hlater⟩ := EdgeTour.mem_along.1 he
    -- the second end of an edge is not finished yet, so that it comes later in the order
    have hfirst : e.1 ∉ pre := by
      rw [hsplit] at hnodup
      exact fun hin => (List.nodup_append.1 hnodup).2.2 e.1 hin e.1 List.mem_cons_self rfl
    have hne : e.1 ≠ e.2 := fun heq => hg.irrefl e.1 (by rwa [← heq] at hlinked)
    rw [hsplit, List.idxOf_append_of_notMem hfirst, List.idxOf_append_of_notMem hlater,
      List.idxOf_cons_self, List.idxOf_cons_ne post hne]
    exact Nat.add_lt_add_left (Nat.succ_pos _) _
  · rw [hg.edgeTour_eq]
    exact pairwise_along (R := fun v w => g.tourOrder.idxOf v ≤ g.tourOrder.idxOf w)
      (fun v => Nat.le_refl _) [] (pairwise_idxOf hnodup)

/-! ## Graphs without cycles -/

theorem mem_of_reaches (hclosed : ∀ x ∈ visited, ∀ w, g.Linked x w → w ∈ visited)
    (hx : x ∈ visited) (hxy : g.Reaches x y) : y ∈ visited := by
  induction hxy with
  | refl => exact hx
  | tail _ hlast ih => exact hclosed _ ih _ hlast

/-- Visited vertices of one component are joined through visited vertices. -/
theorem StackOrder.joined (hg : g.Consistent) (ho : g.StackOrder order)
    (hsplit : order = pre ++ post) (hx : x ∈ pre) (hy : y ∈ pre) (hxy : g.Reaches x y) :
    Joined g.Linked (· ∈ pre) x y := by
  induction pre using List.reverseRecOn generalizing post x y with
  | nil => exact absurd hx List.not_mem_nil
  | append_singleton pre v ih =>
      rw [List.append_assoc, List.singleton_append] at hsplit
      -- Those visited before are joined already.
      have hold : ∀ {a b}, a ∈ pre → b ∈ pre → g.Reaches a b →
          Joined g.Linked (· ∈ pre ++ [v]) a b := fun ha hb hab =>
        (ih hsplit ha hb hab).mono (fun _ _ _ hab _ _ => hab)
          fun _ hin => List.mem_append_left [v] hin
      -- The new one is joined to them through one that met it.
      have hnew : ∀ {a}, a ∈ pre → g.Reaches a v → Joined g.Linked (· ∈ pre ++ [v]) a v := by
        intro a ha hav
        rcases ho.next_cases hsplit with hlast | ⟨hclosed, -⟩
        · obtain ⟨⟨u, hu, huv⟩, -⟩ := mem_waiting.1 (List.mem_of_getLast? hlast)
          refine (hold ha hu (hav.tail (hg.symm u v huv))).trans (.step huv ?_ ?_)
          · exact List.mem_append_left [v] hu
          · exact List.mem_append_right pre List.mem_cons_self
        · exact absurd (mem_of_reaches hclosed ha hav) (ho.not_mem_before hsplit)
      rcases List.mem_append.1 hx with hxpre | hxv <;>
        rcases List.mem_append.1 hy with hypre | hyv
      · exact hold hxpre hypre hxy
      · obtain rfl := List.mem_singleton.1 hyv
        exact hnew hxpre hxy
      · obtain rfl := List.mem_singleton.1 hxv
        exact (hnew hypre (hg.reaches_symm hxy)).symm fun a b _ hab _ _ => hg.symm a b hab
      · obtain rfl := List.mem_singleton.1 hxv
        obtain rfl := List.mem_singleton.1 hyv
        exact .refl hy

/-- Without cycles nobody is met twice before the visit. -/
theorem StackOrder.met_once (hg : g.Consistent) (ho : g.StackOrder order) (hacyclic : g.Acyclic)
    (hsplit : order = pre ++ post) (hw : w ∉ pre) (hx : x ∈ pre) (hy : y ∈ pre)
    (hxw : g.Linked x w) (hyw : g.Linked y w) : x = y := by
  by_contra hne
  have hreaches : g.Reaches x y := .tail (.single hxw) (hg.symm y w hyw)
  have hjoined := ho.joined hg hsplit hx hy hreaches
  refine hacyclic w x y (hg.symm x w hxw) (hg.symm y w hyw) hne ?_
  exact hjoined.mono (fun _ _ _ hab _ _ => hab) fun v hv heq => hw (heq ▸ hv)

/-- Without cycles, going on to the vertex met last is depth-first search. -/
theorem StackOrder.depthFirst (hg : g.Consistent) (ho : g.StackOrder order)
    (hacyclic : g.Acyclic) : g.DepthFirst order := by
  refine ⟨ho.perm, fun pre v post hsplit => ⟨ho.not_mem_before hsplit, ?_⟩⟩
  refine (ho.next_cases hsplit).imp_left fun hlast => ?_
  obtain ⟨⟨u, hu, huv⟩, hv⟩ := mem_waiting.1 (List.mem_of_getLast? hlast)
  obtain ⟨before, after, rfl⟩ := List.append_of_mem hu
  refine ⟨before, u, after, rfl, huv, fun x hx w hxw => ?_⟩
  by_contra hw
  -- Who was met later than `v` would wait behind it.
  have hxin : x ∈ before ++ u :: after :=
    List.mem_append_right before (List.mem_cons_of_mem u hx)
  have hnodup := ho.perm.nodup_iff.2 (nodup_vertices g)
  rw [hsplit, List.nodup_append] at hnodup
  have hunmet : ∀ y ∈ before ++ [u], ¬ g.Linked y w := by
    intro y hy hyw
    have hyin : y ∈ before ++ u :: after := by
      rcases List.mem_append.1 hy with hin | hin
      · exact List.mem_append_left _ hin
      · rw [List.mem_singleton.1 hin]
        exact hu
    have heq := ho.met_once hg hacyclic hsplit hw hyin hxin hyw hxw
    subst heq
    have hsame := hnodup.1
    rw [← List.singleton_append, ← List.append_assoc, List.nodup_append] at hsame
    exact hsame.2.2 y hy y hx rfl
  have hassoc : before ++ u :: after = (before ++ [u]) ++ after := by simp
  rw [hassoc] at hlast
  refine not_linked_of_last hlast (mem_waiting.2 ⟨⟨x, ?_, hxw⟩, ?_⟩) hunmet u
    (List.mem_append_right before List.mem_cons_self) huv
  · exact List.mem_append_right _ hx
  · rwa [← hassoc]

/-! ## The edges of a file -/

/-- The lines of a file after those of the vertices and the second heading are its edges. -/
theorem drop_fileLines (g : Graph) :
    (GraphFile.fileLines g).drop (g.vertices.length + 5) =
      g.edgeTour.map (GraphFile.edgeLine g) := by
  refine List.drop_left' ?_
  simp only [List.length_append, List.length_cons, List.length_nil, List.length_map]
  exact Nat.add_right_comm 2 g.vertices.length 3 |>.trans (Nat.add_comm 5 _)

/-- A file has each edge once, at the end that is visited first, in the order of the visits, each of
which goes to the vertex met last. In a graph without cycles this is a depth-first search. -/
theorem edgeTour_order (hg : g.Reachable) : ∃ order,
    g.StackOrder order ∧ g.ListedAlong order g.edgeTour ∧ (g.Acyclic → g.DepthFirst order) ∧
      (GraphFile.fileLines g).drop (g.vertices.length + 5) =
        g.edgeTour.map (GraphFile.edgeLine g) := by
  have hcons := hg.consistent
  have horder := hcons.stackOrder_tourOrder
  exact ⟨g.tourOrder, horder, hg.chronicled.listedAlong hcons,
    fun hacyclic => horder.depthFirst hcons hacyclic, drop_fileLines g⟩

/-- A path on four vertices that starts in the middle. -/
def branching : Graph :=
  built [.pushNumbered, .pushNumbered, .pushNumbered, .pushNumbered, .connect 0 1, .connect 0 2,
    .connect 1 3]

theorem edgeTour_order_branching : branching.Reachable ∧
    branching.edgeTour = [(0, 1), (0, 2), (1, 3)] ∧
    ∃ order, branching.DepthFirst order ∧ branching.ListedAlong order branching.edgeTour := by
  have hreach : branching.Reachable := reachable_built _
  obtain ⟨order, -, hlisted, hdepth, -⟩ := edgeTour_order hreach
  refine ⟨hreach, by cbv, order, hdepth ?_, hlisted⟩
  have hsymm := hreach.consistent.symm
  -- Of two neighbours of a vertex, one is a leaf and leads nowhere else.
  have hleaf : ∀ {w x y}, x ≠ y → (∀ v, branching.Linked x v → v = w) →
      ¬ Joined branching.Linked (· ≠ w) x y := by
    intro w x y hne hsole hjoined
    obtain ⟨a, b, -, hab, hb, rfl, -⟩ :=
      hjoined.exists_step (Q := (· = x)) rfl fun heq => hne heq.symm
    exact hb (hsole b hab)
  have hends : ∀ v < 4, ∀ x ∈ branching.neighbors v, ∀ y ∈ branching.neighbors v, x ≠ y →
      branching.neighbors x = [v] ∨ branching.neighbors y = [v] := by
    decide
  intro w x y hx hy hne hjoined
  have hw : w < 4 := lt_bound (hreach.consistent.mem_vertices_of_linked hx).1
  rcases hends w hw x hx y hy hne with hsole | hsole
  · exact hleaf hne (fun v hv => by simpa [Linked, hsole] using hv) hjoined
  · refine hleaf hne.symm (fun v hv => by simpa [Linked, hsole] using hv) (hjoined.symm ?_)
    exact fun a b _ hab _ _ => hsymm a b hab

/-- Four vertices and two cycles: what the first vertex meets is met again. -/
def crossing : Graph :=
  built [.pushNumbered, .pushNumbered, .pushNumbered, .pushNumbered, .connect 0 1, .connect 0 2,
    .connect 0 3, .connect 1 3, .connect 1 2]

theorem not_depthFirst_crossing : crossing.Reachable ∧
    ((GraphFile.fileLines crossing).drop 9).map String.ofList =
      ["1 2", "1 3", "1 4", "4 2", "3 2"] ∧
    ¬ ∃ order, crossing.DepthFirst order ∧ crossing.ListedAlong order crossing.edgeTour := by
  refine ⟨reachable_built _, by cbv, ?_⟩
  rintro ⟨order, hdepth, hlisted⟩
  have htour : crossing.edgeTour = [(0, 1), (0, 2), (0, 3), (3, 1), (2, 1)] := by cbv
  have hvertices : crossing.vertices = [0, 1, 2, 3] := by cbv
  -- The lines leave only one order.
  have honly : ∀ order ∈ [0, 1, 2, 3].permutations',
      (∀ e ∈ [(0, 1), (0, 2), (0, 3), (3, 1), (2, 1)], order.idxOf e.1 < order.idxOf e.2) →
      ([0, 0, 0, 3, 2].Pairwise fun v w => order.idxOf v ≤ order.idxOf w) →
      order = [0, 3, 2, 1] := by
    decide
  have hperm : order ∈ [0, 1, 2, 3].permutations' :=
    List.mem_permutations'.2 (hvertices ▸ hdepth.perm)
  have horder : order = [0, 3, 2, 1] :=
    honly order hperm (htour ▸ hlisted.earlier) (by simpa [htour] using hlisted.ascending)
  subst horder
  -- A search would go on from 3, and not to 2, which is no neighbour.
  have hneighbors : crossing.neighbors 3 = [0, 1] := by cbv
  have hone : crossing.Linked 3 1 := by simp [Linked, hneighbors]
  have htwo : ¬ crossing.Linked 3 2 := by simp [Linked, hneighbors]
  have hmissed : (1 : Vertex) ∉ [0, 3] := by decide
  rcases (hdepth.next [0, 3] 2 [1] rfl).next with
    ⟨before, u, after, hsplit, hu, hafter⟩ | ⟨hclosed, -⟩
  · have hthree : u = 3 ∨ 3 ∈ after := by
      rcases List.cons_eq_append_iff.1 hsplit with ⟨-, hrest⟩ | ⟨before, -, hrest⟩
      · cases hrest
        exact Or.inr List.mem_cons_self
      · rcases List.cons_eq_append_iff.1 hrest with ⟨-, hrest⟩ | ⟨before, -, hrest⟩
        · cases hrest
          exact Or.inl rfl
        · exact absurd hrest (by simp)
    rcases hthree with rfl | hthree
    · exact htwo hu
    · exact hmissed (hafter 3 hthree 1 hone)
  · exact hmissed (hclosed 3 (by decide) 1 hone)

end Graph

end CliquePath
