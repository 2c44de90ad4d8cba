import CliquePath.Proofs.Graph.EdgeSet

set_option autoImplicit false

/-!
# Any sequence of edits

This module says what a graph is after any sequence of edits, with any numbers, those that fail
included. The vertices and the edges are read off the sequence alone: a vertex lives from the call
that created it until a call removes it, and an edge stands from the first call that joined its ends
while both lived until a call removes one of them. Beside them, the lists of neighbours keep the
order in which the edges came, and the two counters are right.

`Effect` says once what one call does to a graph. Each later fact about one call is a case analysis
of it, and an induction on the calls, the last one split off, carries the fact to a whole sequence.
-/

namespace CliquePath

namespace Graph

/-- A call that edits a graph. -/
inductive Edit where
  | push (label : String)
  | pushNumbered
  | eraseVertex (v : Vertex)
  | connect (u v : Vertex)
  | insertEdge (u v : Vertex)
  | relabel (v : Vertex) (label : String)
deriving DecidableEq

namespace Edit

/-- The answer of a call and the graph after it, whether or not the call fails. -/
def apply (g : Graph) : Edit → Except Failure Unit × Graph
  | .push label => (.ok (), g.push label)
  | .pushNumbered => (.ok (), g.pushNumbered)
  | .eraseVertex v => g.eraseVertex v
  | .connect u v => g.connect u v
  | .insertEdge u v => ((g.insertEdge u v).1.map fun _ => (), (g.insertEdge u v).2)
  | .relabel v label => g.relabel v label

/-- The call adds a vertex. -/
def creates : Edit → Bool
  | .push _ => true
  | .pushNumbered => true
  | _ => false

/-- The call asks for the edge between the two vertices. -/
def Joins (c : Edit) (u v : Vertex) : Prop :=
  c = .connect u v ∨ c = .connect v u ∨ c = .insertEdge u v ∨ c = .insertEdge v u

/-- The vertices that the call names, in the order in which it looks for them. -/
def named : Edit → List Vertex
  | .eraseVertex v => [v]
  | .connect u v => [u, v]
  | .insertEdge u v => [u, v]
  | .relabel v _ => [v]
  | _ => []

end Edit

/-- The graph after a call. -/
def edited (g : Graph) (c : Edit) : Graph := (c.apply g).2

/-- The graph after several calls, the first of them on the graph without vertices. -/
def built (calls : List Edit) : Graph := calls.foldl edited empty

variable {g h : Graph} {c : Edit} {calls : List Edit} {u v w : Vertex}

@[simp]
theorem built_concat (calls : List Edit) (c : Edit) :
    built (calls ++ [c]) = (built calls).edited c := by
  simp [built]

/-! ## What the calls tell of vertices and edges -/

/-- A call of the sequence met the condition when it was made, and no later call undid it. -/
def Since (made : List Edit → Edit → Prop) (undone : Edit → Prop) (calls : List Edit) : Prop :=
  ∃ earlier c later, calls = earlier ++ c :: later ∧ made earlier c ∧ ∀ d ∈ later, ¬ undone d

/-- A call created the vertex, and no later call removed it. The number of a vertex is the number of
vertices created before it. -/
def Lives (calls : List Edit) (v : Vertex) : Prop :=
  Since (fun earlier c => c.creates = true ∧ v = earlier.countP Edit.creates)
    (fun d => d = .eraseVertex v) calls

/-- A call joined the two vertices while both lived, and no later call removed one of them. -/
def Stands (calls : List Edit) (u v : Vertex) : Prop :=
  Since (fun earlier c => c.Joins u v ∧ u ≠ v ∧ Lives earlier u ∧ Lives earlier v)
    (fun d => d = .eraseVertex u ∨ d = .eraseVertex v) calls

/-- The reasons for which a call made after the sequence is refused. Of two vertices that are
missing the call names the first. -/
inductive Refused (calls : List Edit) (c : Edit) : Failure → Prop
  | noSuchVertex {before after : List Vertex} {v : Vertex} : c.named = before ++ v :: after →
      (∀ w ∈ before, Lives calls w) → ¬ Lives calls v → Refused calls c (.noSuchVertex v)
  | loop {u : Vertex} : c.Joins u u → Lives calls u → Refused calls c (.loop u)
  | edgeExists {u v : Vertex} : c = .connect u v → Stands calls u v →
      Refused calls c (.edgeExists u v)

theorem since_nil {made : List Edit → Edit → Prop} {undone : Edit → Prop} :
    ¬ Since made undone [] := by
  rintro ⟨earlier, c, later, hsplit, -⟩
  simp at hsplit

theorem since_concat {made : List Edit → Edit → Prop} {undone : Edit → Prop} :
    Since made undone (calls ++ [c]) ↔ made calls c ∨ Since made undone calls ∧ ¬ undone c := by
  constructor
  · rintro ⟨earlier, d, later, hsplit, hmade, hlater⟩
    -- Either the last call made it, or an earlier one did and no call since undid it.
    rcases List.eq_nil_or_concat later with rfl | ⟨later, e, rfl⟩
    · obtain ⟨rfl, hc⟩ := List.append_inj' hsplit rfl
      cases hc
      exact Or.inl hmade
    · rw [List.concat_eq_append] at hsplit hlater
      have hsplit' : calls ++ [c] = (earlier ++ d :: later) ++ [e] := by simpa using hsplit
      obtain ⟨rfl, hc⟩ := List.append_inj' hsplit' rfl
      cases hc
      exact Or.inr ⟨⟨earlier, d, later, rfl, hmade, fun x hx => hlater x (by simp [hx])⟩,
        hlater c (by simp)⟩
  · rintro (hmade | ⟨⟨earlier, d, later, rfl, hmade, hlater⟩, hc⟩)
    · exact ⟨calls, c, [], rfl, hmade, by simp⟩
    · refine ⟨earlier, d, later ++ [c], by simp, hmade, fun x hx => ?_⟩
      rcases List.mem_append.1 hx with hx | hx
      · exact hlater x hx
      · rw [List.mem_singleton.1 hx]
        exact hc

/-! ## One call -/

/-- What a call does to a graph as far as vertices and edges go. -/
inductive Effect (g : Graph) (c : Edit) : Graph → Prop
  /-- Nothing, since what it asks for cannot be or is so already. -/
  | idle {h : Graph} : Alike g h → c.creates = false →
      (∀ v, c = .eraseVertex v → g.contains v = false) →
      (∀ u v, c.Joins u v → u ≠ v → g.contains u = true → g.contains v = true →
        g.hasEdge u v = true) → Effect g c h
  | push (label : String) : c.creates = true → Effect g c (g.push label)
  | erased {h : Graph} {v : Vertex} : c = .eraseVertex v → Erased g v h → Effect g c h
  | join {u v : Vertex} : c.Joins u v → g.contains u = true → g.contains v = true → u ≠ v →
      g.hasEdge u v = false → Effect g c (g.join u v)

theorem hasEdge_comm (g : Graph) (u v : Vertex) : g.hasEdge u v = g.hasEdge v u := by
  rw [hasEdge, hasEdge, sortedEnds_comm]

theorem Edit.Joins.symm (hj : c.Joins u v) : c.Joins v u := by
  rcases hj with h | h | h | h <;> simp [Edit.Joins, h]

/-- A call asks for one edge. -/
theorem Edit.Joins.ends {a b : Vertex} (hj : c.Joins u v) (hab : c.Joins a b) :
    a = u ∧ b = v ∨ a = v ∧ b = u := by
  rcases hj with rfl | rfl | rfl | rfl <;>
    simpa [Edit.Joins, and_comm, or_comm, eq_comm] using hab

/-- A call that asks for an edge joins two distinct vertices of the graph which are not joined. -/
theorem effect_of_joins (hj : c.Joins u v) (hpush : c.creates = false)
    (hedit : g.edited c = (g.insertEdge u v).2) : Effect g c (g.edited c) := by
  have herase : ∀ x, c = .eraseVertex x → g.contains x = false := by
    rintro x rfl
    simp [Edit.Joins] at hj
  have hidle (hno : u ≠ v → g.contains u = true → g.contains v = true → g.hasEdge u v = true)
      (hsame : g.edited c = g) : Effect g c (g.edited c) := by
    rw [hsame]
    refine .idle (Alike.refl g) hpush herase fun a b hab hne ha hb => ?_
    rcases hj.ends hab with ⟨rfl, rfl⟩ | ⟨rfl, rfl⟩
    · exact hno hne ha hb
    · rw [hasEdge_comm]
      exact hno (Ne.symm hne) hb ha
  rcases insertEdge_cases g u v with ⟨hu, hins⟩ | ⟨hu, hv, hins⟩ | ⟨hu, hv, heq, hins⟩ |
    ⟨hu, hv, hne, hedge, hins⟩ | ⟨hu, hv, hne, hedge, hins⟩
  · exact hidle (fun _ hc _ => by simp [hu] at hc) (by rw [hedit, hins])
  · exact hidle (fun _ _ hc => by simp [hv] at hc) (by rw [hedit, hins])
  · exact hidle (fun hne => absurd heq hne) (by rw [hedit, hins])
  · exact hidle (fun _ _ _ => hedge) (by rw [hedit, hins])
  · rw [hedit, hins]
    exact .join hj hu hv hne hedge

theorem effect_edited (g : Graph) (c : Edit) : Effect g c (g.edited c) := by
  cases c with
  | push label => exact .push label rfl
  | pushNumbered => exact .push _ rfl
  | eraseVertex v =>
      rcases eraseVertex_cases g v with ⟨hno, herase⟩ | ⟨h, herased, herase⟩
      · have hsame : g.edited (.eraseVertex v) = g := congrArg Prod.snd herase
        rw [hsame]
        refine .idle (Alike.refl g) rfl (fun x hx => ?_) fun a b hab => ?_
        · cases hx
          exact hno
        · simp [Edit.Joins] at hab
      · have hsome : g.edited (.eraseVertex v) = h := congrArg Prod.snd herase
        rw [hsome]
        exact .erased rfl herased
  | connect u v =>
      exact effect_of_joins (u := u) (v := v) (by simp [Edit.Joins]) rfl (connect_snd g u v)
  | insertEdge u v => exact effect_of_joins (u := u) (v := v) (by simp [Edit.Joins]) rfl rfl
  | relabel v label =>
      refine .idle ?_ rfl (fun x hx => by cases hx) fun a b hab => by simp [Edit.Joins] at hab
      rcases relabel_snd g v label with hsame | hnew
      · rw [edited, Edit.apply, hsame]
        exact Alike.refl g
      · rw [edited, Edit.apply, hnew]
        exact alike_modifyRecord g v fun r => rfl

theorem Edit.Joins.creates_eq (hj : c.Joins u v) : c.creates = false := by
  rcases hj with rfl | rfl | rfl | rfl <;> rfl

theorem Edit.Joins.not_eraseVertex (hj : c.Joins u v) (x : Vertex) : c ≠ .eraseVertex x := by
  rcases hj with rfl | rfl | rfl | rfl <;> simp

theorem not_eraseVertex_of_creates (hc : c.creates = true) (x : Vertex) : c ≠ .eraseVertex x := by
  rintro rfl
  cases hc

theorem Edit.not_joins_of_creates (hc : c.creates = true) : ¬ c.Joins u v := by
  intro hj
  simp [hj.creates_eq] at hc

@[simp]
theorem bound_join (g : Graph) (u v : Vertex) : (g.join u v).bound = g.bound := by
  simp [Graph.join, modifyRecord, Graph.bound]

theorem Effect.bound_eq (he : Effect g c h) :
    h.bound = g.bound + if c.creates then 1 else 0 := by
  cases he with
  | idle ha hc => simp [ha.bound, hc]
  | push label hc => simp [hc]
  | erased hc he =>
      subst hc
      simp [he.bound, Edit.creates]
  | join hj => simp [hj.creates_eq]

theorem Effect.contains_iff (he : Effect g c h) (x : Vertex) :
    h.contains x = true ↔ (c.creates = true ∧ x = g.bound) ∨
      g.contains x = true ∧ c ≠ .eraseVertex x := by
  cases he with
  | idle ha hc herase =>
      have hlive : g.contains x = true → c ≠ .eraseVertex x := by
        intro hx heq
        simp [herase x heq] at hx
      rw [ha.contains]
      simpa [hc] using hlive
  | push label hc =>
      simp [contains_push, hc, not_eraseVertex_of_creates hc x]
  | @erased h v hc he =>
      subst hc
      have hne : x ≠ v ↔ Edit.eraseVertex v ≠ .eraseVertex x := by simp [eq_comm]
      simp [he.contains_eq, Edit.creates, ← hne, and_comm]
  | join hj _ _ hne =>
      simp [contains_join hne, hj.creates_eq, hj.not_eraseVertex x]

theorem Effect.linked_iff (he : Effect g c h) (hg : g.Consistent) (x y : Vertex) :
    h.Linked x y ↔ (c.Joins x y ∧ x ≠ y ∧ g.contains x = true ∧ g.contains y = true) ∨
      g.Linked x y ∧ ¬ (c = .eraseVertex x ∨ c = .eraseVertex y) := by
  have hends : g.Linked x y → g.contains x = true ∧ g.contains y = true := fun hxy =>
    ⟨contains_of_mem_neighbors hxy, hg.live x y hxy⟩
  cases he with
  | idle ha _ herase hjoin =>
      rw [Linked, ha.neighbors]
      constructor
      · intro hxy
        refine Or.inr ⟨hxy, ?_⟩
        rintro (heq | heq)
        · exact Bool.false_ne_true ((herase x heq).symm.trans (hends hxy).1)
        · exact Bool.false_ne_true ((herase y heq).symm.trans (hends hxy).2)
      · rintro (⟨hj, hne, hx, hy⟩ | ⟨hxy, -⟩)
        · exact (hg.edge x y).1 (hjoin x y hj hne hx hy)
        · exact hxy
  | push label hc =>
      rw [Linked, neighbors_push]
      simp [Edit.not_joins_of_creates hc, not_eraseVertex_of_creates hc]
  | @erased h v hc he =>
      subst hc
      rw [Linked, he.mem_neighbors hg]
      simp only [Edit.Joins, reduceCtorEq, or_self, false_and, false_or, Edit.eraseVertex.injEq,
        not_or]
      tauto
  | @join u v hj hu hv hne hnew =>
      rw [Linked, mem_neighbors_join hu hv hne]
      constructor
      · rintro (hxy | ⟨rfl, rfl⟩ | ⟨rfl, rfl⟩)
        · exact Or.inr ⟨hxy, by simp [hj.not_eraseVertex]⟩
        · exact Or.inl ⟨hj, hne, hu, hv⟩
        · exact Or.inl ⟨hj.symm, Ne.symm hne, hv, hu⟩
      · rintro (⟨hxy, -, -⟩ | ⟨hxy, -⟩)
        · exact Or.inr (hj.ends hxy)
        · exact Or.inl hxy

end Graph

end CliquePath
