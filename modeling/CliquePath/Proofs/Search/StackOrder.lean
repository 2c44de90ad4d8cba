import CliquePath.Proofs.Graph.AnchoredComponents
import CliquePath.Proofs.Search.EdgeTour

set_option autoImplicit false

/-!
# The rule by which an edge tour goes on

This module says which vertex a tour visits next, in terms of the vertices visited so far alone. It
is the one met last: a vertex is met when the first of its neighbours is visited. A vertex that is
met again by a later visit keeps its place. Only when nobody waits does the tour go on to the least
vertex that is left.
-/

namespace CliquePath

variable {g : Graph} {least v w x : Vertex} {others visited vs ws component : List Vertex} {n : Nat}

namespace Graph

/-- The vertices that were met and not visited, in the order in which they were first met. -/
def waiting (g : Graph) (visited : List Vertex) : List Vertex :=
  (visited.flatMap g.neighbors).eraseDups.filter fun w => !visited.contains w

/-- The vertex to visit next: the one met last, or the least one if none is waiting. -/
def nextVisit? (g : Graph) (visited : List Vertex) : Option Vertex :=
  (g.waiting visited).getLast?.or (g.vertices.find? fun v => !visited.contains v)

/-- Each vertex is visited once, and when the rule says so. -/
structure StackOrder (g : Graph) (order : List Vertex) : Prop where
  perm : order.Perm g.vertices
  next : ∀ pre v post, order = pre ++ v :: post → g.nextVisit? pre = some v

/-! ## Waiting vertices -/

theorem mem_waiting :
    w ∈ g.waiting visited ↔ (∃ v ∈ visited, g.Linked v w) ∧ w ∉ visited := by
  rw [waiting, List.mem_filter, List.mem_eraseDups, List.mem_flatMap]
  simp

theorem eraseDups_of_nodup (h : vs.Nodup) : vs.eraseDups = vs := by
  induction vs with
  | nil => rfl
  | cons v rest ih =>
      obtain ⟨hv, hrest⟩ := List.nodup_cons.1 h
      have hkept : rest.filter (fun w => !w == v) = rest := by
        refine List.filter_eq_self.2 fun w hw => ?_
        simpa using fun heq : w = v => hv (heq ▸ hw)
      rw [List.eraseDups_cons, hkept, ih hrest]

/-- Those that only the later visits met, in the order in which they were first met. -/
def metLater (g : Graph) (front back : List Vertex) : List Vertex :=
  ((back.flatMap g.neighbors).removeAll (front.flatMap g.neighbors)).eraseDups

theorem mem_metLater {front back : List Vertex} :
    w ∈ g.metLater front back ↔
      (∃ x ∈ back, g.Linked x w) ∧ ∀ x ∈ front, ¬ g.Linked x w := by
  rw [metLater, List.mem_eraseDups, List.removeAll, List.mem_filter, List.mem_flatMap]
  simp

/-- Those met by the later visits alone wait behind all others. -/
theorem waiting_append (g : Graph) (front back : List Vertex) :
    g.waiting (front ++ back) =
      (front.flatMap g.neighbors).eraseDups.filter (fun w => !(front ++ back).contains w) ++
        (g.metLater front back).filter fun w => !(front ++ back).contains w := by
  rw [waiting, List.flatMap_append, List.eraseDups_append, List.filter_append, metLater]

/-- One more visit takes the vertex away and adds those of its neighbours that nobody met before. -/
theorem Consistent.waiting_snoc (hg : g.Consistent) (visited : List Vertex) (v : Vertex) :
    g.waiting (visited ++ [v]) = (g.waiting visited).filter (fun w => !w == v) ++
      (g.neighbors v).filter fun w =>
        !(visited ++ [v]).contains w && !(visited.flatMap g.neighbors).contains w := by
  have hfresh : ((g.neighbors v).removeAll (visited.flatMap g.neighbors)).Nodup :=
    (hg.nodup v).filter _
  rw [waiting_append, metLater, List.flatMap_singleton, eraseDups_of_nodup hfresh, waiting,
    List.filter_filter, List.removeAll, List.filter_filter]
  congr 1
  refine List.filter_congr fun w _ => ?_
  rw [List.contains_append, Bool.not_or, Bool.and_comm, List.contains_cons, List.contains_nil,
    Bool.or_false]

/-- If someone who waits was not met by the first visits, nor was the one met last. -/
theorem not_linked_of_last {front back : List Vertex}
    (hlast : (g.waiting (front ++ back)).getLast? = some v) (hw : w ∈ g.waiting (front ++ back))
    (hunmet : ∀ x ∈ front, ¬ g.Linked x w) : ∀ x ∈ front, ¬ g.Linked x v := by
  obtain ⟨⟨y, hy, hyw⟩, hleft⟩ := mem_waiting.1 hw
  have hback : y ∈ back := by
    rcases List.mem_append.1 hy with hfront | hback
    · exact absurd hyw (hunmet y hfront)
    · exact hback
  have hbehind : w ∈ (g.metLater front back).filter fun w => !(front ++ back).contains w :=
    List.mem_filter.2 ⟨mem_metLater.2 ⟨⟨y, hback, hyw⟩, hunmet⟩, by simpa using hleft⟩
  -- So the last one who waits is one of those met by the later visits alone.
  rw [waiting_append, List.getLast?_append_of_ne_nil _ (List.ne_nil_of_mem hbehind)] at hlast
  exact (mem_metLater.1 (List.mem_filter.1 (List.mem_of_getLast? hlast)).1).2

theorem StackOrder.not_mem_before {order pre post : List Vertex} (ho : g.StackOrder order)
    (hsplit : order = pre ++ v :: post) : v ∉ pre := by
  have hnodup := ho.perm.nodup_iff.2 (nodup_vertices g)
  rw [hsplit, List.nodup_append] at hnodup
  exact fun hin => hnodup.2.2 v hin v List.mem_cons_self rfl

/-- A visit is to the vertex met last, or, if the visited ones have no other neighbours, to the
least vertex that is left. -/
theorem StackOrder.next_cases {order pre post : List Vertex} (ho : g.StackOrder order)
    (hsplit : order = pre ++ v :: post) :
    (g.waiting pre).getLast? = some v ∨
      (∀ x ∈ pre, ∀ w, g.Linked x w → w ∈ pre) ∧ ∀ w ∈ g.vertices, w ∉ pre → v ≤ w := by
  have hnext := ho.next pre v post hsplit
  rw [nextVisit?] at hnext
  cases hlast : (g.waiting pre).getLast? with
  | some last =>
      rw [hlast, Option.some_or] at hnext
      exact Or.inl hnext
  | none =>
      rw [hlast, Option.none_or, List.find?_eq_some_iff_append] at hnext
      have hnone := List.getLast?_eq_none_iff.1 hlast
      refine Or.inr ⟨fun x hx w hxw => ?_, fun w hw hleft => ?_⟩
      · by_contra hleft
        have hin : w ∈ g.waiting pre := mem_waiting.2 ⟨⟨x, hx, hxw⟩, hleft⟩
        rw [hnone] at hin
        exact List.not_mem_nil hin
      · obtain ⟨-, below, above, hvertices, hbelow⟩ := hnext
        have hascending := pairwise_vertices g
        rw [hvertices, List.pairwise_append, List.pairwise_cons] at hascending
        rw [hvertices, List.mem_append, List.mem_cons] at hw
        rcases hw with hin | rfl | hin
        · exact absurd (hbelow w hin) (by simpa using hleft)
        · exact Nat.le_refl _
        · exact Nat.le_of_lt (hascending.2.1.1 w hin)

/-- Visits to a part that nobody leaves meet no one who waits for visits elsewhere. -/
theorem waiting_append_of_closed {closed : List Vertex}
    (hclosed : ∀ x ∈ closed, ∀ w, g.Linked x w → w ∈ closed)
    (hapart : ∀ x ∈ visited, ∀ w, g.Linked x w → w ∉ closed) :
    g.waiting (closed ++ visited) = g.waiting visited := by
  have hinside : ∀ w ∈ closed.flatMap g.neighbors, w ∈ closed := by
    intro w hw
    obtain ⟨x, hx, hxw⟩ := List.mem_flatMap.1 hw
    exact hclosed x hx w hxw
  have houtside : ∀ w ∈ visited.flatMap g.neighbors, w ∉ closed := by
    intro w hw
    obtain ⟨x, hx, hxw⟩ := List.mem_flatMap.1 hw
    exact hapart x hx w hxw
  have hold : (closed.flatMap g.neighbors).eraseDups.filter
      (fun w => !(closed ++ visited).contains w) = [] := by
    refine List.filter_eq_nil_iff.2 fun w hw => ?_
    have hin := hinside w (List.mem_eraseDups.1 hw)
    simp [hin]
  have hnew : (visited.flatMap g.neighbors).removeAll (closed.flatMap g.neighbors) =
      visited.flatMap g.neighbors := by
    refine List.filter_eq_self.2 fun w hw => ?_
    have hout : w ∉ closed.flatMap g.neighbors := fun hin => houtside w hw (hinside w hin)
    simpa using hout
  rw [waiting_append, hold, metLater, hnew, List.nil_append, waiting]
  refine List.filter_congr fun w hw => ?_
  have hout := houtside w (List.mem_eraseDups.1 hw)
  simp [hout]

end Graph

namespace EdgeTour

open CliquePath.Graph

/-! ## The stack -/

/-- Vertices met one after the other stand on the stack in reverse, without those met before. -/
theorem stack_foldl_meet {t : EdgeTour} (hws : ws.Nodup) :
    (ws.foldl meet t).stack = (ws.filter t.unseen.contains).reverse ++ t.stack := by
  induction ws generalizing t with
  | nil => rfl
  | cons w rest ih =>
      obtain ⟨hw, hrest⟩ := List.nodup_cons.1 hws
      rw [List.foldl_cons, ih hrest]
      by_cases hunseen : t.unseen.contains w = true
      · have hsame : rest.filter (t.unseen.erase w).contains = rest.filter t.unseen.contains := by
          refine List.filter_congr fun x hx => ?_
          have hne : x ≠ w := fun heq => hw (heq ▸ hx)
          simp [List.mem_erase_of_ne hne]
        rw [meet, if_pos hunseen, hsame, List.filter_cons_of_pos hunseen, List.reverse_cons,
          List.append_assoc, List.singleton_append]
      · rw [meet, if_neg hunseen, List.filter_cons_of_neg hunseen]

section Top

variable {t : EdgeTour} {rest : List Vertex} (hc : g.IsComponent least others)
  (h : Touring g least (least :: others) t) (hstack : t.stack = v :: rest)

include hc h hstack

theorem Touring.nodup_top : (v :: (rest ++ t.unseen)).Nodup := by
  have hnodup := h.perm.nodup_iff.2 hc.nodup
  rw [hstack, List.cons_append] at hnodup
  exact (List.nodup_append.1 hnodup).2.1

/-- The neighbours that a visit puts on the stack are those met for the first time. -/
theorem Touring.filter_ahead
    (hrest : rest = ((g.waiting t.finished.reverse).filter fun w => !w == v).reverse) :
    (ahead g t.finished v).filter t.unseen.contains =
      (g.neighbors v).filter fun w => !(t.finished.reverse ++ [v]).contains w &&
        !(t.finished.reverse.flatMap g.neighbors).contains w := by
  have hv : v ∈ least :: others := by
    refine h.perm.mem_iff.1 ?_
    rw [hstack]
    simp
  rw [ahead, List.filter_filter]
  refine List.filter_congr fun w hw => Bool.eq_iff_iff.2 ?_
  simp only [Bool.and_eq_true, Bool.not_eq_true', List.contains_eq_mem, decide_eq_true_eq,
    decide_eq_false_iff_not, List.mem_append, List.mem_reverse, List.mem_singleton, not_or,
    List.mem_flatMap, not_exists, not_and]
  constructor
  · rintro ⟨hunseen, hfinished⟩
    have hne : w ≠ v := by
      rintro rfl
      exact (List.nodup_cons.1 (h.nodup_top hc hstack)).1 (List.mem_append_right rest hunseen)
    exact ⟨⟨hfinished, hne⟩, fun x hx hxw => h.met x hx w hxw hunseen⟩
  · rintro ⟨⟨hfinished, hne⟩, hfirst⟩
    have hin := h.perm.mem_iff.2 (hc.mem_of_linked hv hw)
    rw [hstack] at hin
    -- Whoever stands on the stack below the top was met by a finished vertex.
    have hbelow : w ∉ rest := by
      rw [hrest, List.mem_reverse, List.mem_filter, mem_waiting]
      rintro ⟨⟨⟨x, hx, hxw⟩, -⟩, -⟩
      exact hfirst x (List.mem_reverse.1 hx) hxw
    refine ⟨?_, hfinished⟩
    simpa [hfinished, hne, hbelow] using hin

/-- What stands on the stack is waiting, the one met last on top. Only the start of a component
stands there without having been met. -/
theorem Touring.stack_next (hg : g.Consistent)
    (hrest : rest = ((g.waiting t.finished.reverse).filter fun w => !w == v).reverse) :
    (t.next g v rest).stack = (g.waiting (t.finished.reverse ++ [v])).reverse := by
  have hkept : (ahead g t.finished v).Nodup := (hg.nodup v).filter _
  rw [EdgeTour.next, stack_foldl_meet hkept, h.filter_ahead hc hstack hrest, hg.waiting_snoc,
    List.reverse_append, hrest]

end Top

/-- Once a component was begun, each vertex taken off the stack is the one met last. -/
theorem Touring.last_of_taken {t : EdgeTour} (hg : g.Consistent) (hc : g.IsComponent least others)
    (h : Touring g least (least :: others) t)
    (hstack : t.stack = (g.waiting t.finished.reverse).reverse) {pre post : List Vertex}
    (hsplit : taken g n t = pre ++ v :: post) :
    (g.waiting (t.finished.reverse ++ pre)).getLast? = some v := by
  -- By induction on the steps of the tour. What carries it is `hstack`: between two steps the stack
  -- has those who wait and no one else.
  induction n generalizing t pre with
  | zero => exact absurd hsplit.symm (by simp [taken])
  | succ n ih =>
      rw [taken] at hsplit
      cases htop : t.stack with
      | nil =>
          rw [htop] at hsplit
          exact absurd hsplit.symm (by simp)
      | cons top rest =>
          rw [htop] at hsplit hstack
          cases pre with
          | nil =>
              obtain ⟨rfl, -⟩ := List.cons.inj hsplit
              rw [List.append_nil, ← List.head?_reverse, ← hstack, List.head?_cons]
          | cons first pre =>
              obtain ⟨rfl, hlater⟩ := List.cons.inj hsplit
              have htopRest : top ∉ rest := fun hin =>
                (List.nodup_cons.1 (h.nodup_top hc htop)).1 (List.mem_append_left t.unseen hin)
              have hrest : rest =
                  ((g.waiting t.finished.reverse).filter fun w => !w == top).reverse := by
                rw [← List.filter_reverse, ← hstack, List.filter_cons_of_neg (by simp)]
                refine (List.filter_eq_self.2 fun w hw => ?_).symm
                simpa using fun heq : w = top => htopRest (heq ▸ hw)
              have hnext := h.stack_next hc htop hg hrest
              have hrule := ih (h.next hc.nodup htop).1
                (by rw [hnext, finished_next, List.reverse_cons]) hlater
              rwa [finished_next, List.reverse_cons, List.append_assoc] at hrule

end EdgeTour

namespace Graph

open EdgeTour

/-! ## The order of the whole tour -/

/-- A component is visited from its least vertex on, by the rule for waiting vertices. -/
theorem IsComponent.takenComponent_eq (hg : g.Consistent) (hc : g.IsComponent least others) :
    ∃ rest, g.takenComponent (least :: others) = least :: rest ∧
      ∀ pre v post, rest = pre ++ v :: post → (g.waiting (least :: pre)).getLast? = some v := by
  refine ⟨_, rfl, fun pre v post hsplit => ?_⟩
  have hrest : ([] : List Vertex) =
      ((g.waiting []).filter fun w => !w == least).reverse := rfl
  have hnext := hc.touring.stack_next hc rfl hg hrest
  have hrule := (hc.touring.next hc.nodup rfl).1.last_of_taken hg hc
    (by rw [hnext, finished_next, List.reverse_cons]) hsplit
  rwa [finished_next] at hrule

/-- A visit of the tour falls into one component, after all components before it. -/
theorem exists_component_of_split {components : List (List Vertex)} {pre post : List Vertex}
    (hsplit : components.flatMap g.takenComponent = pre ++ v :: post) :
    ∃ front component back inside rest, components = front ++ component :: back ∧
      g.takenComponent component = inside ++ v :: rest ∧
      pre = front.flatMap g.takenComponent ++ inside := by
  induction components generalizing pre with
  | nil => exact absurd hsplit.symm (by simp)
  | cons first rest ih =>
      rw [List.flatMap_cons, List.append_eq_append_iff] at hsplit
      rcases hsplit with ⟨pre', rfl, hlater⟩ | ⟨tail, hinside, hlater⟩
      · obtain ⟨front, component, back, inside, after, rfl, htaken, rfl⟩ := ih hlater
        exact ⟨first :: front, component, back, inside, after, rfl, htaken,
          by rw [List.flatMap_cons, List.append_assoc]⟩
      · cases tail with
        | nil =>
            have hnone : rest.flatMap g.takenComponent = [] ++ v :: post := hlater.symm
            obtain ⟨front, component, back, inside, after, rfl, htaken, hpre⟩ := ih hnone
            refine ⟨first :: front, component, back, inside, after, rfl, htaken, ?_⟩
            rw [List.flatMap_cons, List.append_assoc, ← hpre, hinside, List.append_nil,
              List.append_nil]
        | cons u tail =>
            obtain ⟨rfl, -⟩ := List.cons.inj hlater
            exact ⟨[], first, rest, pre, tail, rfl, hinside, rfl⟩

/-- The components before one have every vertex that is less than its least one. -/
theorem Consistent.mem_of_lt_least (hg : g.Consistent) {front back : List (List Vertex)}
    (hsplit : g.components = front ++ (least :: others) :: back) (hw : w ∈ g.vertices)
    (hlt : w < least) : ∃ earlier ∈ front, w ∈ earlier := by
  have hdivides := hg.divides_components
  obtain ⟨members, hmembers, hwm⟩ := List.mem_flatten.1 (hdivides.perm.mem_iff.2 hw)
  refine ⟨members, ?_, hwm⟩
  obtain ⟨low, rest, rfl, hc⟩ := hg.exists_isComponent hmembers
  have hle : low ≤ w := by
    rcases List.mem_cons.1 hwm with rfl | hin
    · exact Nat.le_refl _
    · exact Nat.le_of_lt ((List.pairwise_cons.1 hc.ascending).1 w hin)
  -- A component from this one on has no member that is less than its least vertex.
  have hlater : ∀ later ∈ (least :: others) :: back, ∀ u, later.head? = some u → least ≤ u := by
    intro later hin u hhead
    rcases List.mem_cons.1 hin with rfl | hin
    · exact Nat.le_of_eq (Option.some.inj hhead)
    · have hordered := hdivides.ordered
      rw [hsplit, List.pairwise_append] at hordered
      obtain ⟨a, b, ha, hb, hab⟩ := (List.pairwise_cons.1 hordered.2.1).1 later hin
      rw [List.head?_cons, Option.some.injEq] at ha
      rw [hhead, Option.some.injEq] at hb
      exact ha ▸ hb ▸ Nat.le_of_lt hab
  rw [hsplit, List.mem_append] at hmembers
  refine hmembers.resolve_right fun hin => ?_
  exact absurd (hlater _ hin low rfl) (Nat.not_le_of_lt (Nat.lt_of_le_of_lt hle hlt))

section Before

variable {front back : List (List Vertex)} (hg : g.Consistent)
  (hsplit : g.components = front ++ component :: back)

include hg hsplit

theorem Consistent.mem_visited_before :
    x ∈ front.flatMap g.takenComponent ↔ ∃ c ∈ front, x ∈ c := by
  have hfront : ∀ c ∈ front, c ∈ g.components := fun c hc => hsplit ▸ List.mem_append_left _ hc
  rw [List.mem_flatMap]
  constructor
  · rintro ⟨c, hc, hx⟩
    exact ⟨c, hc, (hg.perm_takenComponent (hfront c hc)).mem_iff.1 hx⟩
  · rintro ⟨c, hc, hx⟩
    exact ⟨c, hc, (hg.perm_takenComponent (hfront c hc)).mem_iff.2 hx⟩

theorem Consistent.not_visited_before (hx : x ∈ component) :
    x ∉ front.flatMap g.takenComponent := by
  intro hin
  obtain ⟨c, hc, hxc⟩ := (hg.mem_visited_before hsplit).1 hin
  have hnodup := hg.perm_flatten_components.nodup_iff.2 (nodup_vertices g)
  rw [hsplit, List.flatten_append, List.flatten_cons, List.nodup_append] at hnodup
  exact hnodup.2.2 x (List.mem_flatten.2 ⟨c, hc, hxc⟩) x (List.mem_append_left _ hx) rfl

/-- Nobody has neighbours in two components, so visits before a component do not matter in it. -/
theorem Consistent.waiting_component (hvisited : ∀ x ∈ visited, x ∈ component) :
    g.waiting (front.flatMap g.takenComponent ++ visited) = g.waiting visited := by
  apply waiting_append_of_closed
  · intro x hx w hxw
    obtain ⟨c, hc, hxc⟩ := (hg.mem_visited_before hsplit).1 hx
    obtain ⟨low, more, rfl, hlow⟩ :=
      hg.exists_isComponent (hsplit ▸ List.mem_append_left _ hc : c ∈ g.components)
    exact (hg.mem_visited_before hsplit).2 ⟨_, hc, hlow.mem_of_linked hxc hxw⟩
  · intro x hx w hxw
    obtain ⟨low, more, rfl, hlow⟩ := hg.exists_isComponent
      (hsplit ▸ List.mem_append_right _ List.mem_cons_self : component ∈ g.components)
    exact hg.not_visited_before hsplit (hlow.mem_of_linked (hvisited x hx) hxw)

end Before

/-- The least vertex of a component is the least one that is left after the components before. -/
theorem Consistent.least_left (hg : g.Consistent) {front back : List (List Vertex)}
    (hsplit : g.components = front ++ (least :: others) :: back)
    (hc : g.IsComponent least others) :
    (g.vertices.find? fun w => !(front.flatMap g.takenComponent).contains w) = some least := by
  rw [List.find?_eq_some_iff_append]
  obtain ⟨below, above, hvertices⟩ := List.append_of_mem hc.start
  refine ⟨?_, below, above, hvertices, fun w hw => ?_⟩
  · simpa using hg.not_visited_before hsplit List.mem_cons_self
  · have hascending := pairwise_vertices g
    rw [hvertices, List.pairwise_append] at hascending
    have hlt : w < least := hascending.2.2 w hw least List.mem_cons_self
    have hwv : w ∈ g.vertices := hvertices ▸ List.mem_append_left _ hw
    have hin := (hg.mem_visited_before hsplit).2 (hg.mem_of_lt_least hsplit hwv hlt)
    simpa using hin

/-- The tour visits the vertices in the order that the rule gives. -/
theorem Consistent.stackOrder_tourOrder (hg : g.Consistent) : g.StackOrder g.tourOrder := by
  refine ⟨hg.perm_tourOrder, fun pre v post hsplit => ?_⟩
  obtain ⟨front, component, back, inside, rest, hcomponents, htaken, rfl⟩ :=
    exists_component_of_split hsplit
  have hmem : component ∈ g.components := hcomponents ▸ List.mem_append_right _ List.mem_cons_self
  have hinside : ∀ x ∈ inside, x ∈ component := by
    intro x hx
    refine (hg.perm_takenComponent hmem).mem_iff.1 ?_
    rw [htaken]
    exact List.mem_append_left _ hx
  rw [nextVisit?, hg.waiting_component hcomponents hinside]
  obtain ⟨least, others, rfl, hc⟩ := hg.exists_isComponent hmem
  obtain ⟨later, hlater, hrule⟩ := hc.takenComponent_eq hg
  rw [hlater] at htaken
  cases inside with
  | nil =>
      obtain ⟨rfl, -⟩ := List.cons.inj htaken
      rw [List.append_nil]
      exact hg.least_left hcomponents hc
  | cons first inside =>
      obtain ⟨rfl, hmore⟩ := List.cons.inj htaken
      rw [hrule inside v rest hmore]
      rfl

end Graph

end CliquePath
