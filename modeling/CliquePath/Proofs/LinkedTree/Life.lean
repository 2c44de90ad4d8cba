import CliquePath.Proofs.LinkedTree.Ownership
import CliquePath.LinkedTree.Basic

set_option autoImplicit false

/-!
# Live cells

This module follows which places of an arena are alive. New cells get the next places and are alive,
a discarded cell is dead from then on, and no other change of an arena makes or removes a place or
changes what is alive. The number of live cells tells whether given ones are all of them.
-/

namespace CliquePath

namespace Arena

variable {α β : Type} {a : Arena} {id q s : NodeId} {f : Array Bool}

/-- Whether the cell at each place is alive. -/
def life (a : Arena) : Array Bool := a.cells.map Cell.alive

/-- The number of live cells. -/
def live (a : Arena) : Nat := a.life.count true

/-- A new cell is one more live cell. -/
theorem live_of_push {a' : Arena} (h : a'.life = a.life.push true) : a'.live = a.live + 1 := by
  rw [live, h, Array.count_push_self, live]

/-- Where what is alive stays the same, so does the number of live cells. -/
theorem live_of_life {a' : Arena} (h : a'.life = a.life) : a'.live = a.live := by
  rw [live, h, live]

/-- A live place that is discarded is one less. -/
theorem count_discard (h : f[id]? = some true) :
    (f.setIfInBounds id false).count true + 1 = f.count true := by
  obtain ⟨hlt, hid⟩ := Array.getElem?_eq_some_iff.1 h
  have hpos : 0 < f.count true := Array.count_pos_iff.2 (hid ▸ Array.getElem_mem hlt)
  rw [Array.setIfInBounds, dif_pos hlt, Array.count_set]
  simp only [hid, beq_self_eq_true, if_true, Bool.false_eq_true, beq_iff_eq, if_false]
  omega

theorem size_life (a : Arena) : a.life.size = a.cells.size := Array.size_map

theorem size_of_life {a' : Arena} (h : a'.life = f) : a'.cells.size = f.size := by
  rw [← size_life, h]

theorem life_alloc (a : Arena) (kind : Kind) (held : List Vertex) :
    (a.alloc kind held).1.life = a.life.push true := by
  rw [life, alloc, Array.map_push]
  rfl

/-- A cell that stays alive or dead keeps the arena as it is. -/
theorem life_setIfInBounds {c d : Cell} (h : a.cells[id]? = some c) (hd : d.alive = c.alive) :
    (a.cells.setIfInBounds id d).map Cell.alive = a.life := by
  refine Array.ext_getElem? fun i => ?_
  rw [life, Array.getElem?_map, Array.getElem?_map, Array.getElem?_setIfInBounds]
  split
  next heq =>
    subst heq
    rw [h]
    split
    next => rw [Option.map_some, Option.map_some, hd]
    next hlt => exact absurd (Array.getElem?_eq_some_iff.1 h).1 hlt
  next => rfl

/-- What was done in two steps. -/
theorem exists_of_bind {x : Except TreeFault α} {f : α → Except TreeFault β} {z : β}
    (h : (x >>= f) = .ok z) : ∃ y, x = .ok y ∧ f y = .ok z := by
  cases x with
  | error e => cases h
  | ok y => exact ⟨y, rfl, h⟩

/-- If there is a new arena, its places are alive or dead as given. -/
def Lives (f : Array Bool) (x : Except TreeFault Arena) : Prop := ∀ a', x = .ok a' → a'.life = f

/-- An owned place is alive if its cell is. -/
theorem Owns.life_of_mem {r : Option NodeId} {M : Cells} {c : Cell} (o : a.Owns r M) (h : (id, c) ∈ M) :
    a.life[id]? = some c.alive := by
  rw [life, Array.getElem?_map, o.cells _ h]
  rfl

theorem life_of_cell {c : Cell} (h : a.cell id = .ok c) : a.life[id]? = some c.alive := by
  rw [Arena.cell] at h
  split at h
  next => cases h
  next d hd =>
    cases h
    rw [life, Array.getElem?_map, hd]
    rfl

/-- If as many cells are alive as are owned, and these are, then no others are. -/
theorem Owns.mem_of_life {r : Option NodeId} {M : Cells} (o : a.Owns r M)
    (halive : ∀ e ∈ M, e.2.alive = true) (hcard : a.live = M.card) (hid : a.life[id]? = some true) :
    id ∈ M.map Prod.fst := by
  have hplaces : ∀ i, i ∈ a.life.toList.idxsOf true ↔ a.life[i]? = some true := by
    intro i
    rw [List.mem_idxsOf_iff_exists_getElem_pos, Array.getElem?_eq_some_iff]
    simp
  -- the owned identities are among the live ones, and there are as many of them
  have hle : M.map Prod.fst ≤ (a.life.toList.idxsOf true : List Nat) := by
    rw [Multiset.le_iff_subset o.nodup]
    intro i hi
    obtain ⟨e, he, rfl⟩ := Multiset.mem_map.1 hi
    exact (hplaces e.1).2 (by rw [o.life_of_mem he, halive e he])
  have heq := Multiset.eq_of_le_of_card_le hle (by
    rw [Multiset.coe_card, List.length_idxsOf, Multiset.card_map, ← hcard, live, Array.count_toList])
  rw [heq]
  exact (hplaces id).2 hid

namespace Lives

theorem pure (h : a.life = f) : Lives f (.ok a) := by
  rintro a' ⟨⟩
  exact h

theorem error (e : TreeFault) : Lives f (.error e) := by
  rintro a' ⟨⟩

/-- Reading something changes no arena. -/
theorem read {x : Except TreeFault α} {g : α → Except TreeFault Arena}
    (hg : ∀ y, x = .ok y → Lives f (g y)) : Lives f (x >>= g) := by
  cases x with
  | error e => exact error e
  | ok y => exact hg y rfl

/-- One change after the other. -/
theorem bind {f' : Array Bool} {x : Except TreeFault Arena} {g : Arena → Except TreeFault Arena}
    (hx : Lives f x) (hg : ∀ a, a.life = f → Lives f' (g a)) : Lives f' (x >>= g) :=
  read fun a ha => hg a (hx a ha)

theorem modify (h : a.life = f) {g : Cell → Cell} (hg : ∀ c, (g c).alive = c.alive) :
    Lives f (a.modify id g) := by
  refine read fun c hc => pure ?_
  rw [Arena.cell] at hc
  split at hc
  next => cases hc
  next d hd =>
    cases hc
    exact (life_setIfInBounds hd (hg _)).trans h

theorem setParent (h : a.life = f) (parent : Option NodeId) : Lives f (a.setParent id parent) :=
  modify h fun _ => rfl

theorem setHeld (h : a.life = f) (held : List Vertex) : Lives f (a.setHeld id held) :=
  modify h fun _ => rfl

theorem setKind (h : a.life = f) (kind : Kind) : Lives f (a.setKind id kind) := modify h fun _ => rfl

theorem discard (h : a.life = f) : Lives (f.setIfInBounds id false) (a.discard id) := by
  refine read fun c hc => pure ?_
  rw [life, Array.map_setIfInBounds, ← h]
  rfl

theorem setSlice (h : a.life = f) (g : SliceLinks → SliceLinks) : Lives f (a.setSlice id g) := by
  refine read fun _ _ => modify h fun c => ?_
  dsimp only
  split <;> rfl

theorem setParents (h : a.life = f) (ids : List NodeId) (p : NodeId) : Lives f (a.setParents ids p) := by
  induction ids generalizing a with
  | nil => exact pure h
  | cons id rest ih =>
      rw [Arena.setParents, List.foldlM_cons]
      exact bind (setParent h _) fun a ha => ih ha

theorem mapHeld (h : a.life = f) (g : List Vertex → List Vertex) (ids : List NodeId) :
    Lives f (a.mapHeld g ids) := by
  induction ids generalizing a with
  | nil => exact pure h
  | cons id rest ih => exact read fun _ _ => bind (setHeld h _) fun a ha => ih ha

theorem adopt (h : a.life = f) (p child : NodeId) : Lives f (a.adopt p child) := by
  refine read fun c _ => ?_
  dsimp only
  split
  · exact error _
  · exact read fun _ _ => bind (setKind h _) fun a ha => setParent ha _

theorem setChildren (h : a.life = f) (p : NodeId) (children : List NodeId) :
    Lives f (a.setChildren p children) :=
  bind (setParents h _ _) fun _ ha => read fun _ _ => setKind ha _

theorem replace (h : a.life = f) (old new : NodeId) : Lives f (a.replace old new) := by
  refine read fun c _ => ?_
  dsimp only
  split
  · exact error _
  · refine read fun d _ => bind (setParent h _) fun a ha => ?_
    split
    · exact pure ha
    · refine read fun e _ => ?_
      split
      · split
        · exact bind (setKind ha _) fun a ha => setParent ha _
        · exact error _
      · exact bind (setKind ha _) fun a ha => setParent ha _
      · exact error _

theorem chain (h : a.life = f) (left right : Option NodeId) (ids : List NodeId) :
    Lives f (a.chain left ids right) := by
  induction ids generalizing a left with
  | nil => exact pure h
  | cons id rest ih => exact bind (setSlice h _) fun a ha => ih ha _

theorem rankFrom (h : a.life = f) (first step : Int) (ids : List NodeId) :
    Lives f (a.rankFrom first step ids) := by
  induction ids generalizing a first with
  | nil => exact pure h
  | cons id rest ih => exact bind (setSlice h _) fun a ha => ih ha _

theorem setRank (h : a.life = f) (rank : Int) : Lives f (a.setRank s rank) := setSlice h _

theorem joinLeft (h : a.life = f) (left : Option NodeId) : Lives f (a.joinLeft left s) := by
  cases left with
  | none => exact pure h
  | some l =>
      rw [Arena.joinLeft, setRight]
      exact setSlice h _

theorem joinRight (h : a.life = f) (right : Option NodeId) : Lives f (a.joinRight s right) := by
  cases right with
  | none => exact pure h
  | some r =>
      rw [Arena.joinRight, setLeft]
      exact setSlice h _

theorem rejoin (h : a.life = f) (left right : Option NodeId) (first last : NodeId) :
    Lives f (a.rejoin q left right first last) := by
  refine read fun ends _ => bind (joinLeft h _) fun a ha => bind (joinRight ha _) fun a ha => ?_
  refine modify ha fun c => ?_
  split <;> rfl

theorem renumber (h : a.life = f) : Lives f (a.renumber q) := read fun _ _ => rankFrom h _ _ _

theorem rankBetween (h : a.life = f) (low? high? : Option Int) :
    Lives f (a.rankBetween q s low? high?) := by
  unfold Arena.rankBetween
  split
  · exact setRank h _
  · exact setRank h _
  · exact setRank h _
  · split
    · exact setRank h _
    · exact renumber h

theorem rankAllBetween (h : a.life = f) (parts : List NodeId) (rank : Int) (low? high? : Option Int) :
    Lives f (a.rankAllBetween q parts rank low? high?) := by
  unfold Arena.rankAllBetween
  dsimp only
  split
  · exact rankFrom h _ _ _
  · exact rankFrom h _ _ _
  · split
    · exact rankFrom h _ _ _
    · exact renumber h

theorem reverse (h : a.life = f) : Lives f (a.reverse q) := by
  refine read fun c _ => ?_
  split
  · exact setKind h _
  · exact error _

/-- The section and the Q-node that make room for its own sections are discarded. -/
theorem spliceSlices (h : a.life = f) (inner : NodeId) :
    Lives ((f.setIfInBounds s false).setIfInBounds inner false) (a.spliceSlices q s inner) := by
  refine read fun l _ => read fun low? _ => read fun high? _ => read fun parts _ => ?_
  split
  · refine bind (setParents h _ _) fun a ha => bind (chain ha _ _ _) fun a ha => ?_
    refine bind (rejoin ha _ _ _ _) fun a ha => bind (discard ha) fun a ha => ?_
    exact bind (discard ha) fun a ha => rankAllBetween ha _ _ _ _
  · exact error _

end Lives

/-! ## New cells -/

variable {a' : Arena} {son : NodeId} {held : List Vertex}

/-- A new section gets the next place. -/
theorem life_newSlice (h : a.newSlice son held = .ok (a', s)) :
    s = a.cells.size ∧ a'.life = a.life.push true := by
  obtain ⟨b, hb, h⟩ := exists_of_bind h
  cases h
  exact ⟨rfl, Lives.setParent (life_alloc a _ _) _ _ hb⟩

theorem life_newSlices {parts : List (List Vertex × NodeId)} {ids : List NodeId}
    (h : a.newSlices parts = .ok (a', ids)) :
    a'.life = a.life ++ Array.replicate parts.length true := by
  induction parts generalizing a ids with
  | nil =>
      cases h
      rw [List.length_nil, Array.replicate_zero, Array.append_empty]
  | cons p rest ih =>
      obtain ⟨⟨b, s⟩, hb, h⟩ := exists_of_bind h
      obtain ⟨⟨c, more⟩, hc, h⟩ := exists_of_bind h
      cases h
      rw [ih hc, (life_newSlice hb).2, List.length_cons, Array.replicate_succ', Array.push_eq_append,
        Array.append_assoc]

theorem life_newQNode {parts : List (List Vertex × NodeId)} (h : a.newQNode parts = .ok (a', q)) :
    a'.life = (a.life ++ Array.replicate parts.length true).push true := by
  obtain ⟨⟨b, ids⟩, hb, h⟩ := exists_of_bind h
  dsimp only at h
  split at h
  next first last hfirst hlast =>
    obtain ⟨c, hc, h⟩ := exists_of_bind h
    obtain ⟨d, hd, h⟩ := exists_of_bind h
    obtain ⟨e, he, h⟩ := exists_of_bind h
    cases h
    have halloc := (life_alloc b (.qnode first last false) []).trans (by rw [life_newSlices hb])
    exact Lives.rankFrom (Lives.chain (Lives.setParents halloc _ _ _ hc) _ _ _ _ hd) _ _ _ _ he
  next => cases h

theorem life_insertSlice {left right : Option NodeId}
    (h : a.insertSlice q left right son held = .ok (a', s)) :
    a'.life = a.life.push true := by
  obtain ⟨low?, -, h⟩ := exists_of_bind h
  obtain ⟨high?, -, h⟩ := exists_of_bind h
  obtain ⟨⟨b, t⟩, hb, h⟩ := exists_of_bind h
  obtain ⟨c, hc, h⟩ := exists_of_bind h
  obtain ⟨d, hd, h⟩ := exists_of_bind h
  obtain ⟨e, he, h⟩ := exists_of_bind h
  obtain ⟨f, hf, h⟩ := exists_of_bind h
  cases h
  have hlinked := Lives.setSlice (Lives.setParent (life_newSlice hb).2 _ _ hc) _ _ hd
  exact Lives.rankBetween (Lives.rejoin hlinked _ _ _ _ _ he) _ _ _ hf

/-- Which places are alive after a P-node was dissolved, with the given other children: it is discarded
unless they are several, and there is a new section unless there are none. -/
def lifeAside (f : Array Bool) (x : NodeId) : List NodeId → Array Bool
  | [] => f.setIfInBounds x false
  | [_] => (f.setIfInBounds x false).push true
  | _ => f.push true

theorem count_lifeAside {x : NodeId} (h : f[x]? = some true) (others : List NodeId) :
    (lifeAside f x others).count true + 1 = f.count true + min others.length 2 := by
  have hdiscard := count_discard h
  match others with
  | [] => exact hdiscard
  | [only] =>
      rw [lifeAside, Array.count_push_self, hdiscard]
      rfl
  | _ :: _ :: rest =>
      have hmin : min (rest.length + 1 + 1) 2 = 2 := by omega
      rw [List.length_cons, List.length_cons, hmin]
      exact congrArg (· + 1) Array.count_push_self

theorem life_setAside {x : NodeId} {others touched : List NodeId} {leftmost : NodeId}
    (h : a.setAside x q others = .ok (a', leftmost, touched)) :
    a'.life = lifeAside a.life x others := by
  obtain ⟨ends, -, h⟩ := exists_of_bind h
  -- one sibling goes in alone, several stay together at the P-node
  match others with
  | [] =>
      obtain ⟨b, hb, h⟩ := exists_of_bind h
      cases h
      exact Lives.discard rfl _ hb
  | [only] =>
      obtain ⟨b, hb, h⟩ := exists_of_bind h
      obtain ⟨⟨c, s⟩, hc, h⟩ := exists_of_bind h
      cases h
      rw [life_insertSlice hc, Lives.discard rfl _ hb]
      rfl
  | _ :: _ :: _ =>
      obtain ⟨b, hb, h⟩ := exists_of_bind h
      obtain ⟨c, hc, h⟩ := exists_of_bind h
      obtain ⟨⟨d, s⟩, hd, h⟩ := exists_of_bind h
      cases h
      rw [life_insertSlice hd, Lives.setChildren (Lives.setHeld rfl _ _ hb) _ _ _ hc]
      rfl

theorem life_hostAbove {p : NodeId} (h : a.hostAbove q = .ok (a', p)) :
    a.wrapper? q = .ok (some p) ∧ a' = a ∨ a.wrapper? q = .ok none ∧ a'.life = a.life.push true := by
  obtain ⟨wrapper?, hw, h⟩ := exists_of_bind h
  cases wrapper? with
  | some p =>
      cases h
      exact Or.inl ⟨hw, rfl⟩
  | none =>
      obtain ⟨b, hb, h⟩ := exists_of_bind h
      obtain ⟨c, hc, h⟩ := exists_of_bind h
      cases h
      exact Or.inr ⟨hw, Lives.adopt (Lives.replace (life_alloc a _ _) _ _ _ hb) _ _ _ hc⟩

end Arena

namespace Work

variable {w w' : Work} {x q k s : NodeId} {u : Vertex} {held : List Vertex} {p : Pass}

open Arena (exists_of_bind Lives life_alloc life_insertSlice)

theorem life_lift {top : NodeId} (h : w.lift x held = .ok (w', top)) :
    w'.arena.life = w.arena.life.push true := by
  obtain ⟨a, ha, h⟩ := exists_of_bind h
  obtain ⟨b, hb, h⟩ := exists_of_bind h
  obtain ⟨c, hc, h⟩ := exists_of_bind h
  cases h
  exact Lives.setHeld (Lives.adopt (Lives.replace (life_alloc _ _ _) _ _ _ ha) _ _ _ hb) _ _ hc

theorem life_adoptLeaf (h : w.adoptLeaf x u = .ok w') : w'.arena.life = w.arena.life.push true := by
  obtain ⟨a, ha, h⟩ := exists_of_bind h
  cases h
  exact Lives.adopt (life_alloc _ _ _) _ _ _ ha

theorem life_pairUp {top : NodeId} (h : w.pairUp x u = .ok (w', top)) :
    w'.arena.life = (w.arena.life.push true).push true := by
  obtain ⟨a, ha, h⟩ := exists_of_bind h
  obtain ⟨b, hb, h⟩ := exists_of_bind h
  obtain ⟨w₁, hw, h⟩ := exists_of_bind h
  cases h
  rw [life_adoptLeaf hw, Lives.adopt (Lives.replace (life_alloc _ _ _) _ _ _ ha) _ _ _ hb]

theorem arena_foldl_moveEnd? (moves : List (Vertex × Option NodeId)) (s : NodeId) (w : Work) :
    (moves.foldl (fun w m => w.moveEnd? m.1 m.2 s) w).arena = w.arena := by
  induction moves generalizing w with
  | nil => rfl
  | cons m rest ih =>
      rw [List.foldl_cons, ih]
      unfold moveEnd?
      split
      next => rfl
      next =>
        unfold moveEnd
        split
        next => split <;> [rfl; (split <;> rfl)]
        next => rfl

theorem life_newSection {left right : Option NodeId} {moves : List (Vertex × Option NodeId)}
    (h : w.newSection p x left right moves = .ok (w', s)) :
    w'.arena.life = (w.arena.life.push true).push true := by
  obtain ⟨⟨a, s⟩, ha, h⟩ := exists_of_bind h
  cases h
  rw [arena_foldl_moveEnd?, life_insertSlice ha]
  exact congrArg (Array.push · true) (life_alloc _ _ _)

/-- A node that is wrapped leaves its place to a leaf that is discarded in the end. -/
theorem life_wrap (h : w.wrap p x = .ok (w', q, k)) :
    w'.arena.life = ((((w.arena.life.push true).push true) ++ Array.replicate 2 true).push
      true).setIfInBounds w.arena.life.size false := by
  obtain ⟨c, -, h⟩ := exists_of_bind h
  obtain ⟨a, ha, h⟩ := exists_of_bind h
  obtain ⟨b, hb, h⟩ := exists_of_bind h
  obtain ⟨⟨d, q'⟩, hd, h⟩ := exists_of_bind h
  obtain ⟨e, he, h⟩ := exists_of_bind h
  obtain ⟨f, hf, h⟩ := exists_of_bind h
  obtain ⟨ends, -, h⟩ := exists_of_bind h
  have hheld : a.life = w.arena.life := Lives.setHeld rfl _ _ ha
  have hhole := Lives.replace (life_alloc a .leaf []) _ _ _ hb
  have hrow := Lives.replace (Arena.life_newQNode hd) _ _ _ he
  have hlife := Lives.discard hrow _ hf
  have hleaf : (b.alloc .leaf [p.vertex]).1.life = (w.arena.life.push true).push true := by
    rw [life_alloc, hhole, hheld]
  change f.life = (((b.alloc .leaf [p.vertex]).1.life ++ Array.replicate 2 true).push
    true).setIfInBounds (a.alloc .leaf []).2 false at hlife
  rw [hleaf] at hlife
  -- the identity of the leaf that is discarded is the size of the arena before it was made
  have hsize : (a.alloc .leaf []).2 = w.arena.life.size := by
    rw [← hheld, Arena.size_life]
    rfl
  rw [hsize] at hlife
  cases h
  split <;> exact hlife

/-- A node that is wrapped makes four more live cells. -/
theorem live_wrap (h : w.wrap p x = .ok (w', q, k)) : w'.arena.live = w.arena.live + 4 := by
  have hhole : (((w.arena.life.push true).push true ++ Array.replicate 2 true).push
      true)[w.arena.life.size]? = some true := by
    simp [Array.getElem?_append, Array.getElem_push]
  have hcount := Arena.count_discard hhole
  rw [Array.count_push_self, Array.count_append, Array.count_push_self, Array.count_push_self,
    Array.count_replicate_self] at hcount
  rw [Arena.live, Arena.live, life_wrap h]
  omega

theorem life_absorbChildren (h : w.absorbChildren p x q k = .ok w') :
    ∃ children, w.arena.children x = .ok children ∧
      w'.arena.life = Arena.lifeAside w.arena.life x (children.filter (· != q)) := by
  obtain ⟨c, -, h⟩ := exists_of_bind h
  obtain ⟨children, hchildren, h⟩ := exists_of_bind h
  refine ⟨children, hchildren, ?_⟩
  dsimp only at h
  split at h
  · cases h
  · obtain ⟨a, ha, h⟩ := exists_of_bind h
    obtain ⟨⟨b, leftmost, touched⟩, hb, h⟩ := exists_of_bind h
    obtain ⟨l, -, h⟩ := exists_of_bind h
    dsimp only at h
    split at h
    · cases h
    · obtain ⟨ids, -, h⟩ := exists_of_bind h
      obtain ⟨d, hd, h⟩ := exists_of_bind h
      obtain ⟨e, he, h⟩ := exists_of_bind h
      cases h
      have hlife := Lives.mapHeld (Lives.mapHeld (Arena.life_setAside hb) _ _ _ hd) _ _ _ he
      rw [Lives.replace rfl _ _ _ ha] at hlife
      exact hlife

theorem life_turnOutwards {isTop : Bool} {a : Arena} (h : w.turnOutwards p x s isTop = .ok (some a)) :
    a.life = w.arena.life := by
  obtain ⟨⟨first, last⟩, -, h⟩ := exists_of_bind h
  dsimp only at h
  split at h
  · obtain ⟨b, hb, h⟩ := exists_of_bind h
    cases h
    exact Lives.reverse rfl _ hb
  · split at h
    · cases h
      rfl
    · split at h
      · cases h
      · obtain ⟨l, -, h⟩ := exists_of_bind h
        obtain ⟨right, -, h⟩ := exists_of_bind h
        split at h
        · cases h
          rfl
        · obtain ⟨left, -, h⟩ := exists_of_bind h
          split at h
          · obtain ⟨b, hb, h⟩ := exists_of_bind h
            cases h
            exact Lives.reverse rfl _ hb
          · cases h

/-- The section that is replaced and the inner Q-node are discarded. -/
theorem life_absorbRow {isTop : Bool} (h : w.absorbRow p x s q k isTop = .ok (w', true)) :
    w'.arena.life = (w.arena.life.setIfInBounds s false).setIfInBounds q false := by
  obtain ⟨l, -, h⟩ := exists_of_bind h
  split at h
  · cases h
  · obtain ⟨turned?, hturn, h⟩ := exists_of_bind h
    cases turned? with
    | none => cases h
    | some a =>
        obtain ⟨parts, -, h⟩ := exists_of_bind h
        dsimp only at h
        split at h
        · split at h
          · cases h
          · obtain ⟨c, -, h⟩ := exists_of_bind h
            obtain ⟨w₁, hslots, h⟩ := exists_of_bind h
            obtain ⟨d, hd, h⟩ := exists_of_bind h
            obtain ⟨e, he, h⟩ := exists_of_bind h
            obtain ⟨f, hf, h⟩ := exists_of_bind h
            cases h
            have hheld := Lives.mapHeld (Lives.mapHeld (life_turnOutwards hturn) _ _ _ hd) _ _ _ he
            exact Lives.spliceSlices hheld _ _ hf
        · cases h

end Work

end CliquePath
