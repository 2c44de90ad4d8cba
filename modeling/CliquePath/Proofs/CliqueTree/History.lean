import CliquePath.Proofs.CliqueTree.Intervals
import CliquePath.Proofs.Graph.History

set_option autoImplicit false

/-!
# Trees with a history

This module follows a clique tree through insertions into the empty tree. The graph may be another
one at each call. What the calls record is a graph of their own: each vertex was joined, when it was
put in, to those of its neighbours that were there. By induction over the calls the tree stays in
normal form and two vertices share a bag exactly when they are joined in the recorded graph.
-/

namespace CliquePath

namespace CliqueTree

/-- Insertions that placed their vertex, the latest first. -/
abbrev Calls := List (Graph × Vertex)

/-- The vertices that the calls put in, the latest first. -/
def inserted (calls : Calls) : List Vertex := calls.map Prod.snd

/-- Two vertices are joined in the graph that the calls record. -/
def recorded : Calls → Vertex → Vertex → Prop
  | [], _, _ => False
  | (g, u) :: earlier, v, w =>
      recorded earlier v w ∨ (v = u ∧ w ∈ inserted earlier ∧ w ∈ g.neighbors u) ∨
        (w = u ∧ v ∈ inserted earlier ∧ v ∈ g.neighbors u)

/-- The tree to which the calls lead from the empty one. -/
inductive After : Calls → CliqueTree → Prop
  | start : After [] empty
  | insert {calls : Calls} {t t' : CliqueTree} {g : Graph} {u : Vertex} : After calls t →
      g.Reachable → t.insert g u = .ok (.placed t') → After ((g, u) :: calls) t'

variable {calls : Calls} {t t' : CliqueTree} {g : Graph} {u v w : Vertex}

/-- The vertices of the recorded edges were put in. -/
theorem mem_inserted_of_recorded (h : recorded calls v w) :
    v ∈ inserted calls ∧ w ∈ inserted calls := by
  induction calls with
  | nil => exact h.elim
  | cons call earlier ih =>
      obtain ⟨g, u⟩ := call
      rcases h with h | ⟨rfl, hw, -⟩ | ⟨rfl, hv, -⟩
      · exact ⟨List.mem_cons_of_mem _ (ih h).1, List.mem_cons_of_mem _ (ih h).2⟩
      · exact ⟨List.mem_cons_self, List.mem_cons_of_mem _ hw⟩
      · exact ⟨List.mem_cons_of_mem _ hv, List.mem_cons_self⟩

theorem recorded_symm (h : recorded calls v w) : recorded calls w v := by
  induction calls with
  | nil => exact h.elim
  | cons call earlier ih =>
      obtain ⟨g, u⟩ := call
      rcases h with h | h | h
      · exact Or.inl (ih h)
      · exact Or.inr (Or.inr h)
      · exact Or.inr (Or.inl h)

/-- The tree is in normal form, has the vertices put in, and records the graph of the calls. -/
structure Keeps (calls : Calls) (t : CliqueTree) : Prop where
  sound : t.Sound
  placed : t.placed = inserted calls
  shares : ∀ v ∈ t.placed, ∀ w ∈ t.placed, v ≠ w → (Shares t.bags v w ↔ recorded calls v w)

/-- One more insertion. -/
theorem Keeps.insert (h : Keeps calls t) (hnodup : (g.neighbors u).Nodup)
    (hins : t.insert g u = .ok (.placed t')) : Keeps ((g, u) :: calls) t' := by
  obtain ⟨hsound, hplaced, hext⟩ := h.sound.insert_placed hnodup hins
  have hu := (insert_ok hins).2
  have hub : ∀ B ∈ t.bags, u ∉ B := fun B hB huB => hu (h.sound.mem_placed.2 ⟨B, hB, huB⟩)
  have huc : u ∉ inserted calls := h.placed ▸ hu
  refine ⟨hsound, ?_, ?_⟩
  · rw [hplaced, h.placed]
    rfl
  · -- Either one of the two vertices is the new one, or both were there before.
    have hnew : ∀ x, x ∈ t.placed → x ≠ u →
        (Shares t'.bags u x ↔ x ∈ inserted calls ∧ x ∈ g.neighbors u) := by
      intro x hx hxu
      have hiff := hext.share_new_iff hub hxu
      rw [← h.placed]
      exact hiff.trans and_comm
    have hrec : ∀ x, x ≠ u → (recorded ((g, u) :: calls) u x ↔
        x ∈ inserted calls ∧ x ∈ g.neighbors u) := by
      intro x hxu
      constructor
      · rintro (hr | ⟨-, hx⟩ | ⟨rfl, -⟩)
        · exact absurd (mem_inserted_of_recorded hr).1 huc
        · exact hx
        · exact absurd rfl hxu
      · intro hx
        exact Or.inr (Or.inl ⟨rfl, hx⟩)
    rw [hplaced]
    intro v hv w hw hvw
    by_cases hvu : v = u
    · subst hvu
      have hwt : w ∈ t.placed := (List.mem_cons.1 hw).resolve_left (Ne.symm hvw)
      rw [hnew w hwt (Ne.symm hvw), hrec w (Ne.symm hvw)]
    by_cases hwu : w = u
    · subst hwu
      have hvt : v ∈ t.placed := (List.mem_cons.1 hv).resolve_left hvw
      have h1 := (hnew v hvt hvw).trans (hrec v hvw).symm
      exact ⟨fun hs => recorded_symm (h1.1 hs.symm), fun hr => (h1.2 (recorded_symm hr)).symm⟩
    · have hvt : v ∈ t.placed := (List.mem_cons.1 hv).resolve_left hvu
      have hwt : w ∈ t.placed := (List.mem_cons.1 hw).resolve_left hwu
      have hold : Shares t'.bags v w ↔ Shares t.bags v w := hext.share_iff hvu hwu
      rw [hold, h.shares v hvt w hwt hvw]
      constructor
      · exact Or.inl
      · rintro (hr | ⟨rfl, -⟩ | ⟨rfl, -⟩)
        · exact hr
        · exact absurd rfl hvu
        · exact absurd rfl hwu

/-- Every tree with a history is in normal form and records its calls. -/
theorem After.keeps (h : After calls t) : Keeps calls t := by
  induction h with
  | start => exact ⟨sound_empty, rfl, fun v hv => absurd hv List.not_mem_nil⟩
  | insert _ hg hins ih => exact ih.insert (hg.consistent.nodup _) hins

/-- The intervals of a tree with a history represent the recorded graph. -/
theorem After.represents (h : After calls t) :
    Represents t.intervals (inserted calls).mergeSort (recorded calls) := by
  have hkeeps := h.keeps
  have hrep := hkeeps.sound.represents
  rw [hkeeps.placed] at hrep
  refine hrep.congr fun v hv w hw hne => ?_
  rw [List.mem_mergeSort, ← hkeeps.placed] at hv hw
  exact hkeeps.shares v hv w hw hne

/-- The neighbours of a vertex that is placed are pairwise joined in the recorded graph. -/
theorem After.clique_of_placed (h : After calls t) (hg : g.Reachable)
    (hins : t.insert g u = .ok (.placed t')) (hv : v ∈ t.placedNeighbors g u)
    (hw : w ∈ t.placedNeighbors g u) (hvw : v ≠ w) : recorded calls v w := by
  obtain ⟨-, -, hext⟩ := h.keeps.sound.insert_placed (hg.consistent.nodup u) hins
  obtain ⟨B, hB, hAB⟩ := hext.fits
  exact (h.keeps.shares v (mem_placedNeighbors.1 hv).2 w (mem_placedNeighbors.1 hw).2 hvw).1
    ⟨B, hB, hAB (mem_placedNeighbors.1 hv), hAB (mem_placedNeighbors.1 hw)⟩

/-- A vertex in a bag was inserted. -/
theorem After.mem_inserted (h : After calls t) {x : Vertex} (hx : ∃ B ∈ t.bags, x ∈ B) :
    x ∈ inserted calls := by
  rw [← h.keeps.placed]
  exact h.keeps.sound.mem_placed.2 hx

/-- Vertices that share a bag are joined, also after a further call. -/
theorem After.recorded_of_shares (h : After calls t) (hvw : v ≠ w) (hs : Shares t.bags v w) :
    recorded ((g, u) :: calls) v w := by
  obtain ⟨B, hB, hvB, hwB⟩ := hs
  have hplaced := h.keeps.sound
  exact Or.inl ((h.keeps.shares v (hplaced.mem_placed.2 ⟨B, hB, hvB⟩) w
    (hplaced.mem_placed.2 ⟨B, hB, hwB⟩) hvw).1 ⟨B, hB, hvB, hwB⟩)

/-- A further vertex joins none of the vertices before it with each other. -/
theorem After.shares_of_recorded (h : After calls t) (hu : u ∉ inserted calls)
    (hv : v ∈ inserted calls) (hw : w ∈ inserted calls) (hvw : v ≠ w)
    (hrec : recorded ((g, u) :: calls) v w) : Shares t.bags v w := by
  refine (h.keeps.shares v (h.keeps.placed ▸ hv) w (h.keeps.placed ▸ hw) hvw).2 ?_
  rcases hrec with hrec | ⟨rfl, -⟩ | ⟨rfl, -⟩
  · exact hrec
  · exact absurd hv hu
  · exact absurd hw hu

/-- A further vertex is joined to its neighbours in the tree only. -/
theorem After.neighbor_of_recorded (h : After calls t) (hu : u ∉ inserted calls)
    (hrec : recorded ((g, u) :: calls) u w) : w ∈ t.placedNeighbors g u := by
  rcases hrec with hrec | ⟨-, hw, hn⟩ | ⟨-, hw, -⟩
  · exact absurd (mem_inserted_of_recorded hrec).1 hu
  · exact mem_placedNeighbors.2 ⟨hn, h.keeps.placed ▸ hw⟩
  · exact absurd hw hu

/-- The way from a further vertex through one of its neighbours avoids a vertex that shares no bag with
what comes behind that neighbour. -/
theorem After.around (h : After calls t) (hu : u ∉ inserted calls) {x y a : Vertex}
    (hx : ∃ B ∈ t.bags, x ∈ B) (hxn : x ∉ t.placedNeighbors g u) (ha : a ∈ t.placedNeighbors g u)
    (hay : Joined (Shares t.bags) (fun v => ¬ Shares t.bags v x) a y) :
    Around (u :: inserted calls) (recorded ((g, u) :: calls)) x u y := by
  have hxc := h.mem_inserted hx
  have hxself : Shares t.bags x x := by
    obtain ⟨B, hB, hxB⟩ := hx
    exact ⟨B, hB, hxB, hxB⟩
  have hpart : ∀ v, v ∈ inserted calls → ¬ Shares t.bags v x →
      v ∈ u :: inserted calls ∧ v ≠ x ∧ ¬ recorded ((g, u) :: calls) x v := by
    intro v hv hno
    have hvx : v ≠ x := by
      rintro rfl
      exact hno hxself
    exact ⟨List.mem_cons_of_mem u hv, hvx,
      fun hrec => hno (h.shares_of_recorded hu hxc hv (Ne.symm hvx) hrec).symm⟩
  have hac : a ∈ inserted calls := h.keeps.placed ▸ (mem_placedNeighbors.1 ha).2
  have hjoin : Around (u :: inserted calls) (recorded ((g, u) :: calls)) x a y := by
    refine hay.restrict (Q := fun v => v ∈ inserted calls) hac ?_ ?_ ?_
    · rintro v w ⟨B, hB, -, hwB⟩ - - -
      exact h.mem_inserted ⟨B, hB, hwB⟩
    · intro v w hvw hs _ _ _ _
      exact h.recorded_of_shares hvw hs
    · intro v hno hv
      exact hpart v hv hno
  refine Joined.trans (Joined.step ?_ ?_ hjoin.left) hjoin
  · exact Or.inr (Or.inl ⟨rfl, hac, (mem_placedNeighbors.1 ha).1⟩)
  · exact ⟨List.mem_cons_self, fun hux => hu (hux ▸ hxc),
      fun hrec => hxn (h.neighbor_of_recorded hu (recorded_symm hrec))⟩

/-- A vertex that finds no room, although its neighbours are pairwise joined, is the first vertex of
an asteroidal triple of the recorded graph with the vertex added. -/
theorem After.asteroidal_of_noRoom (h : After calls t) (hins : t.insert g u = .ok .noRoom)
    (hclique : ∀ v ∈ t.placedNeighbors g u, ∀ w ∈ t.placedNeighbors g u, v ≠ w →
      recorded calls v w) :
    ∃ l r, Asteroidal (u :: inserted calls) (recorded ((g, u) :: calls)) u l r := by
  have hkeeps := h.keeps
  have hu : u ∉ inserted calls := hkeeps.placed ▸ (insert_ok hins).2
  have hshares : ∀ v ∈ t.placedNeighbors g u, ∀ w ∈ t.placedNeighbors g u, Shares t.bags v w := by
    intro v hv w hw
    by_cases hvw : v = w
    · subst hvw
      obtain ⟨B, hB, hvB⟩ := hkeeps.sound.mem_placed.1 (mem_placedNeighbors.1 hv).2
      exact ⟨B, hB, hvB, hvB⟩
    · exact (hkeeps.shares v (mem_placedNeighbors.1 hv).2 w
        (mem_placedNeighbors.1 hw).2 hvw).2 (hclique v hv w hw hvw)
  obtain ⟨l, r, hfork, hdetached⟩ := hkeeps.sound.forked_of_noRoom hshares hins
  obtain ⟨hl, hr⟩ := hfork.mem
  obtain ⟨a, ha, hright⟩ := hfork.toRight
  obtain ⟨b, hb, hleft⟩ := hfork.toLeft
  -- Between the two ends, the way within the tree avoids the new vertex.
  refine ⟨l, r, ?_, h.around hu hl hfork.left ha hright, h.around hu hr hfork.right hb hleft⟩
  refine Joined.restrict (Q := fun v => v ∈ inserted calls) hdetached (h.mem_inserted hl) ?_ ?_ ?_
  · rintro v w ⟨B, hB, -, hwB⟩ - - -
    exact h.mem_inserted ⟨B, hB, hwB⟩
  · intro v w hvw hs _ _ _ _
    exact h.recorded_of_shares hvw hs
  · intro v hno hv
    exact ⟨List.mem_cons_of_mem u hv, fun hvu => hu (hvu ▸ hv),
      fun hrec => hno (h.neighbor_of_recorded hu hrec)⟩

end CliqueTree

end CliquePath
