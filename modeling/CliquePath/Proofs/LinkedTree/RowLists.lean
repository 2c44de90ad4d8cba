import CliquePath.Proofs.LinkedTree.SeveralRows

set_option autoImplicit false

/-!
# Linked rows are lists

Any calls may be made that build a Q-node, put a new section into one, splice one into another or
reverse one. Beside the arena stands a ledger with nothing but a list of sections for each Q-node. Every
call that the ledger admits has an answer, the list of a Q-node is what the arena lists, and its links,
parents and ranks are those of a list: the neighbours refer to one another, the ends to nothing, and the
ranks increase and stay small.

A node above which a section is put may be any cell but a section that is listed. It may be a Q-node
that is followed, even the one whose row is changed.
-/

namespace CliquePath

open Arena (Line cellsOf)

/-! ## Calls and lists -/

/-- A call that changes rows. -/
inductive RowCall where
  | build (parts : List (List Vertex × NodeId))
  | insert (q : NodeId) (left right : Option NodeId) (son : NodeId) (held : List Vertex)
  | splice (q s inner : NodeId)
  | reverse (q : NodeId)
deriving DecidableEq, Repr

namespace RowCall

/-- Does what is called for, and names the new Q-node or section. -/
def run (a : Arena) : RowCall → Except TreeFault (Arena × List NodeId)
  | .build parts => do
      let (a, q) ← a.newQNode parts
      return (a, [q])
  | .insert q left right son held => do
      let (a, s) ← a.insertSlice q left right son held
      return (a, [s])
  | .splice q s inner => do return (← a.spliceSlices q s inner, [])
  | .reverse q => do return (← a.reverse q, [])

/-- Does what is called for one after the other, and names everything new. -/
def runAll (a : Arena) : List RowCall → Except TreeFault (Arena × List NodeId)
  | [] => return (a, [])
  | call :: rest => do
      let (a, new) ← call.run a
      let (a, more) ← runAll a rest
      return (a, new ++ more)

end RowCall

/-- What is known of rows without any links: the next place, the sections of each Q-node from left to
right, what the calls named, and how many sections they created. -/
structure Ledger where
  next : NodeId
  rows : NodeId → Option (List NodeId) := fun _ => none
  named : List NodeId := []
  created : Nat := 0

namespace Ledger

/-- A section may be put above the node: it exists, and it is no listed section. -/
structure Free (L : Ledger) (son : NodeId) : Prop where
  lt : son < L.next
  unlisted : ∀ q ids, L.rows q = some ids → son ∉ ids

/-- The list of a Q-node is replaced. -/
def enter (L : Ledger) (q : NodeId) (ids : List NodeId) : NodeId → Option (List NodeId) :=
  Function.update L.rows q (some ids)

theorem unlisted_enter {L : Ledger} {son q : NodeId} {ids : List NodeId}
    (h : ∀ q ids, L.rows q = some ids → son ∉ ids) (hids : son ∉ ids) :
    ∀ q' ids', L.enter q ids q' = some ids' → son ∉ ids' := by
  intro q' ids' hrow
  rw [enter, Function.update_apply] at hrow
  split at hrow
  · cases hrow
    exact hids
  · exact h q' ids' hrow

/-- The calls that may come next, and what they do to the lists: an insertion between two neighbours or
at an end, a section replaced by the list of another Q-node, a reversal. -/
inductive Step : Ledger → RowCall → Ledger → Prop
  | build {L : Ledger} {parts : List (List Vertex × NodeId)} (hne : parts ≠ [])
      (hfree : ∀ p ∈ parts, L.Free p.2) :
      Step L (.build parts)
        { next := L.next + parts.length + 1
          rows := L.enter (L.next + parts.length) (List.range' L.next parts.length)
          named := L.named ++ [L.next + parts.length]
          created := L.created + parts.length }
  | insert {L : Ledger} {q son : NodeId} {xs ys : List NodeId} (held : List Vertex)
      (hrow : L.rows q = some (xs ++ ys)) (hfree : L.Free son) :
      Step L (.insert q xs.getLast? ys.head? son held)
        { next := L.next + 1
          rows := L.enter q (xs ++ L.next :: ys)
          named := L.named ++ [L.next]
          created := L.created + 1 }
  | splice {L : Ledger} {q s inner : NodeId} {xs ys ids : List NodeId}
      (hrow : L.rows q = some (xs ++ s :: ys)) (hinner : L.rows inner = some ids) (hne : inner ≠ q) :
      Step L (.splice q s inner)
        { L with rows := Function.update (L.enter q (xs ++ ids ++ ys)) inner none }
  | reverse {L : Ledger} {q : NodeId} {ids : List NodeId} (hrow : L.rows q = some ids) :
      Step L (.reverse q) { L with rows := L.enter q ids.reverse }

/-- Several calls, one after the other. -/
inductive Run : Ledger → List RowCall → Ledger → Prop
  | nil (L : Ledger) : Run L [] L
  | cons {L L₁ L₂ : Ledger} {call : RowCall} {rest : List RowCall} :
      Step L call L₁ → Run L₁ rest L₂ → Run L (call :: rest) L₂

end Ledger

/-- A row whose keys increase and are within its budget. -/
structure Arena.Line.Sound (l : Line) : Prop where
  ascending : l.row.Ascending
  nonempty : l.row.keyed ≠ []
  within : l.row.Within l.budget

/-- The lists are those of the given rows. -/
structure Records (rows : NodeId → Option (List NodeId)) (ls : List Line) : Prop where
  nodup : (ls.map Line.q).Nodup
  rows_iff : ∀ q ids, rows q = some ids ↔ ∃ l ∈ ls, l.q = q ∧ l.ids = ids
  sound : ∀ l ∈ ls, l.Sound

namespace Records

variable {rows : NodeId → Option (List NodeId)} {ls ls' rest : List Line} {l l' : Line}

theorem perm (h : Records rows ls) (hperm : ls.Perm ls') : Records rows ls' := by
  refine ⟨(hperm.map _).nodup_iff.1 h.nodup, fun q ids => ?_, fun l hl => ?_⟩
  · rw [h.rows_iff]
    simp only [hperm.mem_iff]
  · exact h.sound l (hperm.mem_iff.2 hl)

theorem congr (h : Records rows ls) (hbare : ls'.map Line.bare = ls.map Line.bare) :
    Records rows ls' := by
  have hq : ls'.map Line.q = ls.map Line.q := by
    have hfst := congrArg (List.map Prod.fst) hbare
    rwa [List.map_map, List.map_map] at hfst
  refine ⟨hq ▸ h.nodup, fun q ids => ?_, fun l hl => ?_⟩
  · -- the lines agree up to the parents of their Q-nodes, which the lists do not record
    rw [h.rows_iff]
    constructor
    · rintro ⟨l, hl, rfl, rfl⟩
      obtain ⟨l₀, hl₀, hq, hrow, -⟩ := Arena.exists_of_map_bare hbare.symm hl
      exact ⟨l₀, hl₀, hq, by rw [Line.ids, hrow, Line.ids]⟩
    · rintro ⟨l, hl, rfl, rfl⟩
      obtain ⟨l₀, hl₀, hq, hrow, -⟩ := Arena.exists_of_map_bare hbare hl
      exact ⟨l₀, hl₀, hq, by rw [Line.ids, hrow, Line.ids]⟩
  · obtain ⟨l₀, hl₀, -, hrow, hbudget⟩ := Arena.exists_of_map_bare hbare hl
    obtain ⟨hasc, hne, hwithin⟩ := h.sound l₀ hl₀
    exact ⟨hrow ▸ hasc, hrow ▸ hne, hrow ▸ hbudget ▸ hwithin⟩

/-- A Q-node that was not followed before. -/
theorem cons (h : Records rows ls) (hl : l.q ∉ ls.map Line.q) (hsound : l.Sound) :
    Records (Function.update rows l.q (some l.ids)) (l :: ls) := by
  refine ⟨List.nodup_cons.2 ⟨hl, h.nodup⟩, fun q ids => ?_, ?_⟩
  · -- the ledger has one new entry, at the new Q-node
    by_cases hq : q = l.q
    · subst hq
      rw [Function.update_self, Option.some.injEq, List.exists_mem_cons_iff]
      constructor
      · rintro rfl
        exact Or.inl ⟨rfl, rfl⟩
      · rintro (⟨-, rfl⟩ | ⟨l', hl', heq, -⟩)
        · rfl
        · exact absurd (heq ▸ List.mem_map_of_mem hl') hl
    · rw [Function.update_of_ne hq, h.rows_iff, List.exists_mem_cons_iff]
      exact ⟨Or.inr, fun hor => hor.resolve_left fun hl => hq hl.1.symm⟩
  · intro l' hl'
    rcases List.mem_cons.1 hl' with rfl | hl'
    · exact hsound
    · exact h.sound l' hl'

/-- A Q-node that is not followed any more. -/
theorem tail (h : Records rows (l :: rest)) : Records (Function.update rows l.q none) rest := by
  obtain ⟨hl, hnodup⟩ := List.nodup_cons.1 h.nodup
  refine ⟨hnodup, fun q ids => ?_, fun l' hl' => h.sound l' (List.mem_cons_of_mem _ hl')⟩
  by_cases hq : q = l.q
  · subst hq
    rw [Function.update_self]
    refine iff_of_false (fun hsome => nomatch hsome) ?_
    rintro ⟨l', hl', heq, -⟩
    exact hl (heq ▸ List.mem_map_of_mem hl')
  · rw [Function.update_of_ne hq, h.rows_iff, List.exists_mem_cons_iff]
    exact ⟨fun hor => hor.resolve_left fun hl => hq hl.1.symm, Or.inr⟩

/-- The row of a Q-node is replaced. -/
theorem update (h : Records rows (l :: rest)) (hsound : l'.Sound) (hq : l'.q = l.q) :
    Records (Function.update rows l.q (some l'.ids)) (l' :: rest) := by
  have hl : l'.q ∉ rest.map Line.q := hq ▸ (List.nodup_cons.1 h.nodup).1
  have hcons := h.tail.cons hl hsound
  rwa [hq, Function.update_idem] at hcons

end Records

/-! ## Changed rows -/

namespace Arena.Line

variable {l k : Line} {es fs : Entries} {e : Int × Part NodeId} {i : Nat}

theorem ids_eq (l : Line) : l.ids = l.row.toList.map Part.id := by
  rw [ids, Entries.ids, Row.toList, List.map_map]
  rfl

theorem keyed_ne_nil (h : l.row.toList ≠ []) : l.row.keyed ≠ [] := fun hnil =>
  h (by rw [Row.toList, hnil]; rfl)

/-- The Q-node with its row reversed. -/
def reverse (l : Line) : Line := { l with row := l.row.reverse }

/-- The Q-node with a new section. -/
def insertAt (l : Line) (i : Nat) (part : Part NodeId) : Line :=
  { l with row := l.row.insertAt i part, budget := l.budget + 1 }

/-- The Q-node with the row of another one in the place of a section. -/
def splice (l : Line) (i : Nat) (k : Line) : Line :=
  { l with row := l.row.splice i k.row, budget := l.budget + k.budget }

theorem ids_reverse (l : Line) : l.reverse.ids = l.ids.reverse := by
  rw [ids_eq, ids_eq, reverse, Row.toList_reverse, List.map_reverse]

theorem ids_insertAt (h : l.row.keyed = es ++ fs) (part : Part NodeId) :
    (l.insertAt es.length part).ids = Entries.ids es ++ part.id :: Entries.ids fs := by
  have htake : l.row.toList = es.map Prod.snd ++ fs.map Prod.snd := by
    rw [Row.toList, h, List.map_append]
  rw [ids_eq, insertAt, Row.toList_insertAt, htake, List.take_left' (List.length_map _),
    List.drop_left' (List.length_map _), List.map_append, List.map_cons, List.map_map, List.map_map]
  rfl

theorem length_lt_size (h : l.row.keyed = es ++ e :: fs) : es.length < l.row.size := by
  rw [← Row.length_keyed, h, List.length_append, List.length_cons]
  exact Nat.lt_add_of_pos_right (Nat.succ_pos _)

theorem ids_splice (h : l.row.keyed = es ++ e :: fs) :
    (l.splice es.length k).ids = Entries.ids es ++ k.ids ++ Entries.ids fs := by
  have htake : l.row.toList = es.map Prod.snd ++ e.2 :: fs.map Prod.snd := by
    rw [Row.toList, h, List.map_append, List.map_cons]
  have hdrop : l.row.toList.drop (es.length + 1) = fs.map Prod.snd := by
    rw [htake, List.append_cons]
    exact List.drop_left' (by simp)
  rw [ids_eq, splice, Row.toList_splice _ _ _ (length_lt_size h), hdrop, htake,
    List.take_left' (List.length_map _), List.map_append, List.map_append, List.map_map,
    List.map_map, ← ids_eq]
  rfl

namespace Sound

theorem reverse (h : l.Sound) : l.reverse.Sound where
  ascending := h.ascending.reverse
  nonempty := by
    have hne := h.nonempty
    rw [Line.reverse, Row.keyed_reverse, Row.reflect]
    simpa using hne
  within := h.within.reverse

theorem insertAt (h : l.Sound) (i : Nat) (part : Part NodeId) : (l.insertAt i part).Sound where
  ascending := h.ascending.insertAt i part
  nonempty := keyed_ne_nil (by
    rw [Line.insertAt, Row.toList_insertAt]
    exact List.append_ne_nil_of_right_ne_nil _ (List.cons_ne_nil _ _))
  within := h.within.insertAt i part

theorem splice (h : l.Sound) (hk : k.Sound) (hi : i < l.row.size) : (l.splice i k).Sound where
  ascending := h.ascending.splice i k.row
  nonempty := keyed_ne_nil (by
    rw [Line.splice, Row.toList_splice _ _ _ hi]
    refine List.append_ne_nil_of_left_ne_nil (List.append_ne_nil_of_right_ne_nil _ fun hnil => ?_) _
    exact hk.nonempty (List.map_eq_nil_iff.1 hnil))
  within := h.within.splice hk.within hi

end Sound

end Arena.Line

/-! ## Each call keeps the lists -/

/-- The arena has the given Q-nodes at its places, their sections are those of the ledger, and their
budgets have been created. -/
structure Follows (r : Option NodeId) (a : Arena) (L : Ledger) (ls : List Line) : Prop where
  owns : a.Owns r (cellsOf ls)
  size : a.cells.size = L.next
  records : Records L.rows ls
  budget : (ls.map Line.budget).sum ≤ L.created

namespace Follows

variable {r : Option NodeId} {a : Arena} {L L' : Ledger} {ls rest : List Line} {l k : Line}
variable {q s son : NodeId} {ids xs ys : List NodeId} {call : RowCall}

theorem start (a : Arena) : Follows a.root a { next := a.cells.size } [] where
  owns := ⟨rfl, Multiset.nodup_zero, fun _ he => absurd he (Multiset.notMem_zero _)⟩
  size := rfl
  records :=
    { nodup := List.nodup_nil
      rows_iff := fun _ _ => ⟨(fun h => nomatch h), fun ⟨_, hl, _⟩ => absurd hl List.not_mem_nil⟩
      sound := fun _ hl => absurd hl List.not_mem_nil }
  budget := Nat.le_refl 0

theorem perm {ls' : List Line} (h : Follows r a L ls) (hp : ls.Perm ls') : Follows r a L ls' where
  owns := h.owns.congr (hp.map _).sum_eq
  size := h.size
  records := h.records.perm hp
  budget := (hp.map Line.budget).sum_eq ▸ h.budget

/-- A Q-node that the ledger lists comes first. -/
theorem focus (h : Follows r a L ls) (hrow : L.rows q = some ids) :
    ∃ l rest, l.q = q ∧ l.ids = ids ∧ Follows r a L (l :: rest) := by
  obtain ⟨l, hl, hq, hids⟩ := (h.records.rows_iff q ids).1 hrow
  obtain ⟨as, bs, rfl⟩ := List.append_of_mem hl
  exact ⟨l, as ++ bs, hq, hids, h.perm List.perm_middle⟩

/-- Another one comes second. -/
theorem focus_second (h : Follows r a L (l :: rest)) (hrow : L.rows q = some ids) (hne : q ≠ l.q) :
    ∃ k rest, k.q = q ∧ k.ids = ids ∧ Follows r a L (l :: k :: rest) := by
  obtain ⟨k, hk, hq, hids⟩ := (h.records.rows_iff q ids).1 hrow
  rcases List.mem_cons.1 hk with rfl | hk
  · exact absurd hq.symm hne
  · obtain ⟨as, bs, rfl⟩ := List.append_of_mem hk
    exact ⟨k, as ++ bs, hq, hids, h.perm (List.perm_middle.cons l)⟩

theorem row_sound (h : Follows r a L (l :: rest)) : l.Sound := h.records.sound l List.mem_cons_self

/-- A free node is no section of a row. -/
theorem not_mem_ids (h : Follows r a L ls) (hson : L.Free son) : ∀ l ∈ ls, son ∉ l.ids := fun l hl =>
  hson.unlisted l.q l.ids ((h.records.rows_iff _ _).2 ⟨l, hl, rfl, rfl⟩)

/-- A Q-node that is followed stands in the arena. -/
theorem q_lt (h : Follows r a L ls) (hl : l ∈ ls) : l.q < a.cells.size := by
  obtain ⟨e, he, heq⟩ := Multiset.mem_map.1 (Arena.mem_places_cellsOf.2 ⟨l, hl, Or.inl rfl⟩)
  exact heq ▸ h.owns.mem_lt he

theorem reverse (h : Follows r a L (l :: rest)) :
    ∃ a', a.reverse l.q = .ok a' ∧
      Follows r a' { L with rows := L.enter l.q l.ids.reverse } (l.reverse :: rest) := by
  obtain ⟨a', ha, o⟩ := h.owns.reverse_row Arena.cellsOf_cons
  have hsize := (Arena.size_of_life (Arena.Lives.reverse rfl _ ha)).trans (Arena.size_life a)
  refine ⟨a', ha, o, hsize.trans h.size, ?_, h.budget⟩
  rw [← l.ids_reverse]
  exact h.records.update h.row_sound.reverse rfl

/-- A new section stands where the list has it. -/
theorem insert (h : Follows r a L (l :: rest)) (hids : l.ids = xs ++ ys) (hfree : L.Free son)
    (held : List Vertex) :
    ∃ a' ls, a.insertSlice l.q xs.getLast? ys.head? son held = .ok (a', L.next) ∧
      Follows r a'
        { next := L.next + 1
          rows := L.enter l.q (xs ++ L.next :: ys)
          named := L.named ++ [L.next]
          created := L.created + 1 } ls := by
  obtain ⟨es, fs, hkeyed, rfl, rfl⟩ := List.map_eq_append_iff.1 hids
  obtain ⟨a₁, h₁, o₁⟩ := Arena.Owns.newSlice_lines (h.owns.congr (zero_add _).symm)
    (h.size ▸ hfree.lt) (h.not_mem_ids hfree) (Multiset.notMem_zero _) held
  rw [h.size] at h₁ o₁
  have hrow : cellsOf ((l :: rest).map (Line.reparent son L.next)) =
      l.row.cellsAt l.q (l.reparent son L.next).parent +
        cellsOf (rest.map (Line.reparent son L.next)) := by
    rw [List.map_cons, Arena.cellsOf_cons, Line.cells, Line.q_reparent, Line.row_reparent]
  obtain ⟨a', ha, o⟩ := h.owns.insertSlice_linked Arena.cellsOf_cons hkeyed h₁
    (o₁.congr (by rw [zero_add, hrow]))
  refine ⟨a', (l.reparent son L.next).insertAt es.length ⟨L.next, held, son⟩ ::
    rest.map (Line.reparent son L.next), ?_, o.congr ?_, ?_, ?_, ?_⟩
  · rw [show (es.map fun e => e.2.id).getLast? = _ from Entries.getLast?_ids,
      show (fs.map fun e => e.2.id).head? = _ from Entries.head?_ids]
    exact ha
  · rw [Arena.cellsOf_cons, Line.cells, Line.insertAt, Line.q_reparent, Line.row_reparent]
  · rw [Arena.insertSlice_size ha, h.size]
  · -- The Q-nodes above and besides the new section keep their rows.
    have hsame := h.records.congr (Arena.map_bare_reparent son L.next)
    rw [List.map_cons] at hsame
    have hkeyed' : (l.reparent son L.next).row.keyed = es ++ fs := by rwa [Line.row_reparent]
    have hsound := (hsame.sound _ List.mem_cons_self).insertAt es.length ⟨L.next, held, son⟩
    have hup := hsame.update hsound rfl
    rwa [Line.q_reparent, Line.ids_insertAt hkeyed'] at hup
  · have hle := h.budget
    rw [← Arena.map_budget_of_bare (Arena.map_bare_reparent son L.next), List.map_cons,
      List.map_cons, List.sum_cons] at hle
    rw [List.map_cons, List.sum_cons]
    exact Nat.add_right_comm _ 1 _ ▸ Nat.succ_le_succ hle

/-- The sections of an inner Q-node stand where the list had one section. -/
theorem splice (h : Follows r a L (l :: k :: rest)) (hids : l.ids = xs ++ s :: ys) :
    ∃ a', a.spliceSlices l.q s k.q = .ok a' ∧
      Follows r a'
        { L with rows := Function.update (L.enter l.q (xs ++ k.ids ++ ys)) k.q none }
        (l.splice xs.length k :: rest) := by
  have hk : k.Sound := h.records.sound k (List.mem_cons_of_mem _ List.mem_cons_self)
  obtain ⟨es, fs', hkeyed, rfl, hmap⟩ := List.map_eq_append_iff.1 hids
  obtain ⟨e, fs, rfl, rfl, rfl⟩ := List.map_eq_cons_iff.1 hmap
  have hcells : cellsOf (l :: k :: rest) =
      l.row.cellsAt l.q l.parent + (k.row.cellsAt k.q k.parent + cellsOf rest) := by
    rw [Arena.cellsOf_cons, Arena.cellsOf_cons, Line.cells, Line.cells]
  obtain ⟨a', ha, o⟩ := h.owns.spliceSlices_row hcells hkeyed hk.nonempty
  rw [List.length_map]
  have hsize : a'.cells.size = a.cells.size := by
    rw [Arena.size_of_life (Arena.Lives.spliceSlices rfl _ _ ha), Array.size_setIfInBounds,
      Array.size_setIfInBounds, Arena.size_life]
  refine ⟨a', ha, o, hsize.trans h.size, ?_, ?_⟩
  · have hup := h.records.update (h.row_sound.splice hk (Line.length_lt_size hkeyed)) rfl
    rw [Line.ids_splice hkeyed] at hup
    exact (hup.perm (List.Perm.swap _ _ _)).tail
  · have hle := h.budget
    simp only [List.map_cons, List.sum_cons, ← Nat.add_assoc] at hle ⊢
    exact hle

/-- A new Q-node has the list of its sections. -/
theorem build {parts : List (List Vertex × NodeId)} (h : Follows r a L ls) (hne : parts ≠ [])
    (hfree : ∀ p ∈ parts, L.Free p.2) :
    ∃ a' ls', a.newQNode parts = .ok (a', L.next + parts.length) ∧
      Follows r a'
        { next := L.next + parts.length + 1
          rows := L.enter (L.next + parts.length) (List.range' L.next parts.length)
          named := L.named ++ [L.next + parts.length]
          created := L.created + parts.length } ls' := by
  obtain ⟨a', ls', ha, hsize, hbare, o⟩ := h.owns.newQNode_lines hne fun p hp =>
    ⟨h.size ▸ (hfree p hp).lt, h.not_mem_ids (hfree p hp)⟩
  rw [h.size] at ha hsize o
  have hids : Entries.ids (Row.ofList (Arena.newParts L.next parts)).keyed =
      List.range' L.next parts.length := by
    rw [Arena.ids_keyed_ofList, Arena.map_id_newParts]
  have hlen : (Arena.newParts L.next parts).length = parts.length := by
    rw [← List.length_map Part.id, Arena.map_id_newParts, List.length_range']
  -- the new Q-node has an identity that the arena did not have
  have hnew : L.next + parts.length ∉ ls'.map Line.q := by
    rw [List.mem_map]
    rintro ⟨k, hk, heq⟩
    obtain ⟨k₀, hk₀, hq, -, -⟩ := Arena.exists_of_map_bare hbare hk
    have hlt := h.q_lt hk₀
    rw [hq, heq, h.size] at hlt
    exact Nat.not_lt.2 (Nat.le_add_right _ _) hlt
  refine ⟨a', _, ha, o, hsize, ?_, ?_⟩
  · have hkeyed : (Row.ofList (Arena.newParts L.next parts)).keyed ≠ [] := fun hnil => by
      rw [hnil] at hids
      exact hne (List.eq_nil_of_length_eq_zero (List.range'_eq_nil_iff.1 hids.symm))
    have hsound : Line.Sound ⟨L.next + parts.length, none,
        Row.ofList (Arena.newParts L.next parts), parts.length⟩ :=
      ⟨Row.ascending_ofList _, hkeyed, Row.within_ofList hlen.le⟩
    rw [Ledger.enter, ← hids]
    exact (h.records.congr hbare).cons hnew hsound
  · rw [List.map_cons, List.sum_cons, Arena.map_budget_of_bare hbare, Nat.add_comm]
    exact Nat.add_le_add_right h.budget _

/-- A call that the ledger admits has an answer, and the arena still has the lists of the ledger. -/
theorem step (h : Follows r a L ls) (hs : Ledger.Step L call L') :
    ∃ a' new ls', call.run a = .ok (a', new) ∧ L'.named = L.named ++ new ∧ Follows r a' L' ls' := by
  -- the row that a call names is brought to the front of those that are followed
  cases hs with
  | build hne hfree =>
      obtain ⟨a', ls', ha, h'⟩ := h.build hne hfree
      exact ⟨a', _, ls', by rw [RowCall.run, ha]; rfl, rfl, h'⟩
  | insert held hrow hfree =>
      obtain ⟨l, rest, rfl, hids, h⟩ := h.focus hrow
      obtain ⟨a', ls', ha, h'⟩ := h.insert hids hfree held
      exact ⟨a', _, ls', by rw [RowCall.run, ha]; rfl, rfl, h'⟩
  | splice hrow hinner hne =>
      obtain ⟨l, rest, rfl, hids, h⟩ := h.focus hrow
      obtain ⟨k, rest, rfl, rfl, h⟩ := h.focus_second hinner hne
      obtain ⟨a', ha, h'⟩ := h.splice hids
      exact ⟨a', [], _, by rw [RowCall.run, ha]; rfl, (List.append_nil _).symm, h'⟩
  | reverse hrow =>
      obtain ⟨l, rest, rfl, rfl, h⟩ := h.focus hrow
      obtain ⟨a', ha, h'⟩ := h.reverse
      exact ⟨a', [], _, by rw [RowCall.run, ha]; rfl, (List.append_nil _).symm, h'⟩

/-- So do several calls, one after the other. -/
theorem run {calls : List RowCall} (h : Follows r a L ls) (hr : Ledger.Run L calls L') :
    ∃ a' new ls', RowCall.runAll a calls = .ok (a', new) ∧ L'.named = L.named ++ new ∧
      Follows r a' L' ls' := by
  induction hr generalizing a ls with
  | nil L => exact ⟨a, [], ls, rfl, (List.append_nil _).symm, h⟩
  | cons hs _ ih =>
      obtain ⟨a₁, new, ls₁, h₁, hnew, hf⟩ := h.step hs
      obtain ⟨a', more, ls', h', hmore, hf'⟩ := ih hf
      refine ⟨a', new ++ more, ls', ?_, ?_, hf'⟩
      · rw [RowCall.runAll, h₁, ok_bind]
        simp only [h', ok_bind, pure_eq_ok]
      · rw [hmore, hnew, List.append_assoc]

end Follows

/-! ## Reading the lists -/

/-- A Q-node is linked as a list: its sections are listed, the ends are its first and last section,
each section refers to its neighbours in the list and to the Q-node, and the ranks increase within
bounds. -/
structure Arena.LinksList (a : Arena) (q : NodeId) (ids : List NodeId) (bound : Int) : Prop where
  slices : a.slices q = .ok ids
  ends : ∃ first last, a.ends q = .ok (first, last) ∧ ids.head? = some first ∧
    ids.getLast? = some last
  links : ∀ xs s ys, ids = xs ++ s :: ys →
    ∃ k, a.links s = .ok k ∧ k.left = xs.getLast? ∧ k.right = ys.head?
  parent : ∀ s ∈ ids, ∃ c, a.cell s = .ok c ∧ c.parent = some q
  ranks : ∃ ranks, ids.mapM a.rank = .ok ranks ∧ ranks.Pairwise (· < ·) ∧ ∀ k ∈ ranks, |k| ≤ bound

/-- The ranks of several sections. -/
theorem Arena.mapM_rank {a : Arena} {es : Entries} (h : ∀ e ∈ es, a.rank e.2.id = .ok e.1) :
    (Entries.ids es).mapM a.rank = .ok (es.map Prod.fst) := by
  induction es with
  | nil => rfl
  | cons e rest ih =>
      obtain ⟨he, hrest⟩ := List.forall_mem_cons.1 h
      rw [Entries.ids_cons, List.mapM_cons, he, ok_bind, ih hrest]
      rfl

theorem Follows.linksList {r : Option NodeId} {a : Arena} {L : Ledger} {ls : List Line} {q : NodeId}
    {ids : List NodeId} (h : Follows r a L ls) (hrow : L.rows q = some ids) :
    a.LinksList q ids (2 ^ 16 * L.created) := by
  obtain ⟨l, rest, rfl, rfl, h⟩ := h.focus hrow
  obtain ⟨hasc, hne, hwithin⟩ := h.row_sound
  have hcells : cellsOf (l :: rest) = l.row.cellsAt l.q l.parent + cellsOf rest := Arena.cellsOf_cons
  have hbudget : l.budget ≤ L.created := by
    have hle := h.budget
    rw [List.map_cons, List.sum_cons] at hle
    exact le_trans (Nat.le_add_right _ _) hle
  refine ⟨h.owns.slices_row hcells hne, ?_, fun xs s ys hids => ?_, fun s hs => ?_, ?_⟩
  · exact ⟨_, _, h.owns.ends_row hcells, Entries.head?_ids.trans (Row.firstId_eq_some hne),
      Entries.getLast?_ids.trans (Row.lastId_eq_some hne)⟩
  · obtain ⟨es, fs', hkeyed, rfl, hmap⟩ := List.map_eq_append_iff.1 hids
    obtain ⟨e, fs, rfl, rfl, rfl⟩ := List.map_eq_cons_iff.1 hmap
    exact ⟨_, h.owns.links_row hcells hkeyed, Entries.getLast?_ids.symm, Entries.head?_ids.symm⟩
  · obtain ⟨e, he, rfl⟩ := List.mem_map.1 hs
    obtain ⟨es, fs, hkeyed⟩ := List.append_of_mem he
    exact ⟨_, h.owns.cell_row hcells hkeyed, rfl⟩
  · -- the keys stay within the budget of the row, which is a part of all sections that were made
    refine ⟨l.row.keyed.map Prod.fst, Arena.mapM_rank fun e he => ?_, List.pairwise_map.2 hasc,
      fun k hk => ?_⟩
    · obtain ⟨es, fs, hkeyed⟩ := List.append_of_mem he
      exact h.owns.rank_row hcells hkeyed
    · obtain ⟨e, he, rfl⟩ := List.mem_map.1 hk
      obtain ⟨hlow, hhigh⟩ := hwithin.keys e he
      rw [Row.keyGap] at hlow hhigh
      rw [abs_le]
      constructor <;> omega

/-- The rows of Q-nodes in any arena behave as lists, whatever is built, inserted, spliced and
reversed. -/
theorem RowCall.runAll_linksList {a : Arena} {calls : List RowCall} {L : Ledger}
    (h : Ledger.Run { next := a.cells.size } calls L) :
    ∃ a', RowCall.runAll a calls = .ok (a', L.named) ∧
      ∀ q ids, L.rows q = some ids → a'.LinksList q ids (2 ^ 16 * L.created) := by
  obtain ⟨a', new, ls, ha, hnew, hf⟩ := (Follows.start a).run h
  refine ⟨a', ?_, fun q ids hrow => hf.linksList hrow⟩
  rw [ha, hnew, List.nil_append]

/-- A section of a flipped row is replaced by a row of two sections. -/
theorem RowCall.runAll_linksList_flipped :
    ∃ a', RowCall.runAll { cells := Array.replicate 5 { kind := .leaf } }
        [.build [([0], 0), ([0, 1], 1)], .reverse 7, .insert 7 (some 6) (some 5) 2 [1],
          .build [([], 3), ([], 4)], .splice 7 8 11] = .ok (a', [7, 8, 11]) ∧
      a'.LinksList 7 [6, 9, 10, 5] (2 ^ 16 * 5) := by
  have hnone : ∀ (son : NodeId) (q : NodeId) (ids : List NodeId),
      ({ next := 5 } : Ledger).rows q = some ids → son ∉ ids := fun _ _ _ h => nomatch h
  have hfree : ∀ p ∈ [(([0] : List Vertex), (0 : NodeId)), ([0, 1], 1)],
      ({ next := 5 } : Ledger).Free p.2 := by
    simp only [List.forall_mem_cons, List.not_mem_nil, false_imp_iff, implies_true, and_true]
    exact ⟨⟨by decide, hnone 0⟩, ⟨by decide, hnone 1⟩⟩
  have hrun := Ledger.Run.cons (.build (List.cons_ne_nil _ _) hfree) <|
    .cons (@Ledger.Step.reverse _ 7 _ rfl) <|
    .cons (@Ledger.Step.insert _ 7 2 [6] [5] [1] rfl ⟨by decide, Ledger.unlisted_enter
      (Ledger.unlisted_enter (hnone 2) (by decide)) (by decide)⟩) <|
    .cons (@Ledger.Step.build _ [([], 3), ([], 4)] (List.cons_ne_nil _ _) (by
      simp only [List.forall_mem_cons, List.not_mem_nil, false_imp_iff, implies_true, and_true]
      exact ⟨⟨by decide, Ledger.unlisted_enter (Ledger.unlisted_enter (Ledger.unlisted_enter
        (hnone 3) (by decide)) (by decide)) (by decide)⟩, ⟨by decide, Ledger.unlisted_enter
          (Ledger.unlisted_enter (Ledger.unlisted_enter (hnone 4) (by decide)) (by decide))
            (by decide)⟩⟩)) <|
    .cons (@Ledger.Step.splice _ 7 8 11 [6] [5] [9, 10] rfl rfl (by decide)) <| .nil _
  obtain ⟨a', ha, h⟩ :=
    RowCall.runAll_linksList (a := { cells := Array.replicate 5 { kind := .leaf } }) hrun
  exact ⟨a', ha, h 7 [6, 9, 10, 5] rfl⟩

end CliquePath
