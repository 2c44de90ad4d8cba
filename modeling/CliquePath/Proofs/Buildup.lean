import CliquePath.Proofs.AsteroidalTriple
import CliquePath.Proofs.CliqueTree.History
import CliquePath.Proofs.Elimination.Marks
import CliquePath.Proofs.Representation.Marks

set_option autoImplicit false

/-!
# The clique tree of a graph

This module puts the vertices of one graph into a clique tree. The calls record the graph that these
vertices induce. Either all of them are placed, and the intervals of the tree represent the
graph; or one is refused, and in a graph without holes this vertex is in an asteroidal triple, since
the neighbours that are placed before it are pairwise adjacent.
-/

namespace CliquePath

namespace CliqueTree

/-- Puts the vertices of a list into a clique tree, from left to right, up to the first one for which
there is no room. -/
def insertAll (g : Graph) : CliqueTree → List Vertex → Except Failure (Buildup CliqueTree)
  | t, [] => .ok (.complete t)
  | t, v :: rest =>
      match t.insert g v with
      | .error e => .error e
      | .ok .noRoom => .ok (.stuck v)
      | .ok (.placed t') => insertAll g t' rest

end CliqueTree

/-- Puts all vertices into a clique tree in the order of a forward search. -/
def Graph.cliqueTree (g : Graph) : Except Failure (Buildup CliqueTree) :=
  CliqueTree.empty.insertAll g (g.lexRanking .forward).order

namespace CliqueTree

variable {g : Graph} {done vs : List Vertex} {t : CliqueTree} {u v w : Vertex}

/-- The calls that put vertices of one graph into a tree, the latest first. -/
def callsOf (g : Graph) (done : List Vertex) : Calls := done.map fun v => (g, v)

theorem inserted_callsOf (g : Graph) (done : List Vertex) : inserted (callsOf g done) = done := by
  simp [inserted, callsOf]

/-- Calls with one graph record the graph that their vertices induce. -/
theorem recorded_callsOf (hg : g.Consistent) :
    recorded (callsOf g done) v w ↔ v ∈ done ∧ w ∈ done ∧ g.Linked v w := by
  induction done with
  | nil => simp [callsOf, recorded]
  | cons u rest ih =>
      have hcons : callsOf g (u :: rest) = (g, u) :: callsOf g rest := rfl
      rw [hcons, recorded, inserted_callsOf, ih, List.mem_cons, List.mem_cons]
      constructor
      · rintro (⟨hv, hw, hvw⟩ | ⟨rfl, hw, hvw⟩ | ⟨rfl, hv, hwv⟩)
        · exact ⟨Or.inr hv, Or.inr hw, hvw⟩
        · exact ⟨Or.inl rfl, Or.inr hw, hvw⟩
        · exact ⟨Or.inr hv, Or.inl rfl, hg.symm _ _ hwv⟩
      · rintro ⟨rfl | hv, rfl | hw, hvw⟩
        · exact absurd hvw (hg.irrefl _)
        · exact Or.inr (Or.inl ⟨rfl, hw, hvw⟩)
        · exact Or.inr (Or.inr ⟨rfl, hv, hg.symm _ _ hvw⟩)
        · exact Or.inl ⟨hv, hw, hvw⟩

/-- A vertex of the graph that is not in the tree is placed or refused. -/
theorem After.insert_cases (h : After (callsOf g done) t) (hg : g.Reachable)
    (hv : v ∈ g.vertices) (hnew : v ∉ done) : t.insert g v = .ok .noRoom ∨
      ∃ t', t.insert g v = .ok (.placed t') ∧ After (callsOf g (v :: done)) t' := by
  have hplaced : t.placed = done := h.keeps.placed.trans (inserted_callsOf g done)
  have hins := insert_eq (t := t) (Graph.mem_vertices.1 hv) (hplaced ▸ hnew)
  cases hat : attach? t.root v (t.placedNeighbors g v) with
  | none =>
      rw [hat] at hins
      exact Or.inl hins
  | some root =>
      rw [hat] at hins
      exact Or.inr ⟨_, hins, .insert h hg hins⟩

/-- Vertices put in one after the other are all placed, or a first one is refused. -/
theorem After.insertAll_cases (h : After (callsOf g done) t) (hg : g.Reachable)
    (hvs : ∀ v ∈ vs, v ∈ g.vertices) (hnodup : vs.Nodup) (hnew : ∀ v ∈ vs, v ∉ done) :
    (∃ t', t.insertAll g vs = .ok (.complete t') ∧ After (callsOf g (vs.reverse ++ done)) t') ∨
      ∃ pre v post t', vs = pre ++ v :: post ∧ t.insertAll g pre = .ok (.complete t') ∧
        After (callsOf g (pre.reverse ++ done)) t' ∧ t'.insert g v = .ok .noRoom ∧
        t.insertAll g vs = .ok (.stuck v) := by
  -- The history of the tree grows with each vertex, so the induction is for any history.
  induction vs generalizing t done with
  | nil => exact Or.inl ⟨t, rfl, h⟩
  | cons v rest ih =>
      obtain ⟨hvrest, hrest⟩ := List.nodup_cons.1 hnodup
      rcases h.insert_cases hg (hvs v List.mem_cons_self) (hnew v List.mem_cons_self) with
        hno | ⟨t', hins, hafter⟩
      · -- This vertex is the first one refused.
        refine Or.inr ⟨[], v, rest, t, rfl, rfl, h, hno, ?_⟩
        rw [insertAll, hno]
      · have hstep : ∀ vs, t.insertAll g (v :: vs) = t'.insertAll g vs := fun vs => by
          rw [insertAll, hins]
        have hreverse : ∀ vs : List Vertex, vs.reverse ++ v :: done = (v :: vs).reverse ++ done :=
          fun vs => by simp
        rcases ih hafter (fun w hw => hvs w (List.mem_cons_of_mem _ hw)) hrest (fun w hw => by
            have := hnew w (List.mem_cons_of_mem _ hw)
            have hwv : w ≠ v := fun heq => hvrest (heq ▸ hw)
            simp [hwv, this]) with
          ⟨t'', hall, hafter'⟩ | ⟨pre, x, post, t'', rfl, hpre, hafter', hno, hstuck⟩
        · refine Or.inl ⟨t'', ?_, ?_⟩
          · rw [hstep, hall]
          · rw [← hreverse]
            exact hafter'
        · refine Or.inr ⟨v :: pre, x, post, t'', rfl, ?_, ?_, hno, ?_⟩
          · rw [hstep, hpre]
          · rw [← hreverse]
            exact hafter'
          · rw [hstep, hstuck]

/-- A tree stays in normal form, and its new vertices are vertices of the graph. -/
theorem Sound.insertAll {t' : CliqueTree} (ht : t.Sound) (hg : g.Consistent)
    (h : t.insertAll g vs = .ok (.complete t')) :
    t'.Sound ∧ ∀ v ∈ t'.placed, v ∈ t.placed ∨ v ∈ g.vertices := by
  induction vs generalizing t with
  | nil =>
      cases h
      exact ⟨ht, fun v => Or.inl⟩
  | cons u rest ih =>
      rw [CliqueTree.insertAll] at h
      split at h
      next => cases h
      next => cases h
      -- Only a vertex that is taken in lets the loop go on.
      next t₁ hins =>
        obtain ⟨ht₁, hplaced, -⟩ := ht.insert_placed (hg.nodup u) hins
        obtain ⟨hsound, hmem⟩ := ih ht₁ h
        refine ⟨hsound, fun v hv => ?_⟩
        rcases hmem v hv with hv | hv
        · rw [hplaced] at hv
          rcases List.mem_cons.1 hv with rfl | hv
          · exact Or.inr (Graph.mem_vertices.2 (insert_ok hins).1)
          · exact Or.inl hv
        · exact Or.inr hv

/-- The intervals of a tree into which all vertices of a graph were put represent the graph. -/
theorem After.represents_graph (h : After (callsOf g done) t) (hg : g.Consistent)
    (hdone : done.Perm g.vertices) : Represents t.intervals g.vertices g.Linked := by
  have hrep := h.represents
  have hsorted : (inserted (callsOf g done)).mergeSort = g.vertices := by
    refine List.Perm.eq_of_pairwise (fun a b _ _ hab hba => ?_) hrep.ascending
      (Graph.pairwise_vertices g) ?_
    · exact absurd hba (Nat.lt_asymm hab)
    · rw [inserted_callsOf]
      exact (List.mergeSort_perm done _).trans hdone
  rw [hsorted] at hrep
  refine hrep.congr fun v hv w hw _ => ?_
  rw [recorded_callsOf hg, hdone.mem_iff, hdone.mem_iff]
  exact ⟨fun h => h.2.2, fun h => ⟨hv, hw, h⟩⟩

/-- Vertices joined around another one in the recorded graph are so in the graph itself. -/
theorem around_of_callsOf {x a b : Vertex} (hg : g.Consistent) (hdone : ∀ v ∈ done, v ∈ g.vertices)
    (hx : x ∈ done) (h : Around done (recorded (callsOf g done)) x a b) :
    Around g.vertices g.Linked x a b := by
  refine Joined.mono (fun v w _ hvw _ _ => ((recorded_callsOf hg).1 hvw).2.2) ?_ h
  rintro v ⟨hv, hvx, hno⟩
  exact ⟨hdone v hv, hvx, fun hxv => hno ((recorded_callsOf hg).2 ⟨hx, hv, hxv⟩)⟩

/-- A vertex that is refused in the order of the search is in an asteroidal triple, if the neighbours
that are visited before it are pairwise adjacent. -/
theorem After.asteroidal_of_refused {pre post : List Vertex} (h : After (callsOf g pre.reverse) t)
    (hg : g.Consistent) (hclique : CliqueOrder g.Linked g.visits)
    (hsplit : g.visits = pre ++ v :: post) (hno : t.insert g v = .ok .noRoom) :
    ∃ l r, Asteroidal g.vertices g.Linked v l r := by
  have hplaced : t.placed = pre.reverse := h.keeps.placed.trans (inserted_callsOf g _)
  have hin : v ∈ g.visits := by
    rw [hsplit]
    exact List.mem_append_right _ List.mem_cons_self
  have hvpre : v ∉ pre := by
    have hnodup := hg.nodup_visits
    rw [hsplit] at hnodup
    exact fun hmem => (List.nodup_append.1 hnodup).2.2 v hmem v List.mem_cons_self rfl
  have hlt : ∀ x ∈ pre, g.visits.idxOf x < g.visits.idxOf v := by
    intro x hx
    rw [hsplit]
    exact (idxOf_lt_iff_mem hvpre).2 hx
  have hmem : ∀ {x}, x ∈ t.placedNeighbors g v → x ∈ pre ∧ g.Linked v x := by
    intro x hx
    obtain ⟨hlinked, hx⟩ := mem_placedNeighbors.1 hx
    rw [hplaced, List.mem_reverse] at hx
    exact ⟨hx, hlinked⟩
  -- The tree records the graph on the vertices before, where the neighbours form a clique.
  obtain ⟨l, r, hast⟩ := h.asteroidal_of_noRoom hno fun x hx y hy hne => by
    obtain ⟨hxpre, hvx⟩ := hmem hx
    obtain ⟨hypre, hvy⟩ := hmem hy
    rw [recorded_callsOf hg, List.mem_reverse, List.mem_reverse]
    exact ⟨hxpre, hypre, hclique v hin x y (hlt x hxpre) (hlt y hypre) hvx hvy hne⟩
  rw [inserted_callsOf] at hast
  -- The triple of the recorded graph is one of the whole graph, as its paths stay among those vertices.
  have hdone : ∀ x ∈ v :: pre.reverse, x ∈ g.vertices := by
    intro x hx
    rw [← hg.mem_visits, hsplit]
    rcases List.mem_cons.1 hx with rfl | hx
    · exact List.mem_append_right _ List.mem_cons_self
    · exact List.mem_append_left _ (List.mem_reverse.1 hx)
  exact ⟨l, r, around_of_callsOf hg hdone hast.second.left.1 hast.first,
    around_of_callsOf hg hdone hast.first.left.1 hast.second,
    around_of_callsOf hg hdone hast.first.right.1 hast.third⟩

end CliqueTree

/-- The clique tree of a graph has intervals for vertices of the graph alone. -/
theorem Graph.Consistent.lt_bound_of_intervals {g : Graph} {t : CliqueTree} (hg : g.Consistent)
    (h : g.cliqueTree = .ok (.complete t)) : ∀ e ∈ t.intervals, e.1 < g.bound := by
  obtain ⟨hsound, hmem⟩ := CliqueTree.sound_empty.insertAll hg h
  intro e he
  rcases hmem e.1 (hsound.mem_intervals.1 he).1 with hin | hin
  · exact absurd hin List.not_mem_nil
  · exact Graph.lt_bound hin

end CliquePath
