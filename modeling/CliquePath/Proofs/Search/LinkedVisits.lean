import CliquePath.Proofs.Search.LinkedGroups
import CliquePath.Proofs.Search.Groups

set_option autoImplicit false

/-!
# Visits over linked groups

This module shows that a search over linked groups makes the same visits as one over plain lists. The
linked groups hold the plain ones in reverse, since they are visited from the end. Each operation on
them has an answer and leaves what the operation on the lists leaves.

While the neighbours of a vertex are moved, a group out of which something was moved stands directly
before its new group, and the two are halves of one division. Between two rounds no group refers to a
new one.
-/

namespace CliquePath

namespace Groups

variable {as bs : List Split} {s : Split} {v : Vertex}

/-- A vertex is moved within the one group that holds it. -/
theorem promote_append (has : ∀ t ∈ as, v ∉ t.kept) (hv : v ∈ s.kept) :
    promote (as ++ s :: bs) v = as ++ s.move v :: bs := by
  induction as with
  | nil => exact if_pos (List.contains_iff_mem.2 hv)
  | cons t rest ih =>
      have ht : ¬ t.kept.contains v = true := fun hin =>
        has t List.mem_cons_self (List.contains_iff_mem.1 hin)
      rw [List.cons_append, promote, if_neg ht, ih fun u hu => has u (List.mem_cons_of_mem _ hu)]
      rfl

/-- A vertex that no group holds is not moved. -/
theorem promote_of_notMem (has : ∀ t ∈ as, v ∉ t.kept) : promote as v = as := by
  induction as with
  | nil => rfl
  | cons t rest ih =>
      have ht : ¬ t.kept.contains v = true := fun hin =>
        has t List.mem_cons_self (List.contains_iff_mem.1 hin)
      rw [promote, if_neg ht, ih fun u hu => has u (List.mem_cons_of_mem _ hu)]

end Groups

namespace LinkedGroups

namespace Shows

variable {p : LinkedGroups} {bound : Nat} {waiting : Vertex → Prop} {as bs blocks : List Block}
  {b : Block} {v : Vertex} {vs ys : List Vertex}

/-! ## Filling and visiting -/

/-- Vertices that no group holds are put at the end of a group. -/
theorem fill (as bs : List Block) (h : Shows bound waiting p (as ++ b :: bs)) (hvs : vs.Nodup)
    (hnew : ∀ v ∈ vs, v ∉ members (as ++ b :: bs)) (hbound : ∀ v ∈ vs, v < bound) :
    ∃ q, p.fill? b.id vs = some q ∧
      Shows bound (fun w => w ∈ vs ∨ waiting w) q
        (as ++ { b with members := b.members ++ vs } :: bs) := by
  induction vs generalizing p b waiting with
  | nil =>
      refine ⟨p, rfl, ?_⟩
      rw [List.append_nil]
      exact h.congr (by simp)
  | cons v rest ih =>
      obtain ⟨hv, hrest⟩ := List.nodup_cons.1 hvs
      obtain ⟨first, hfirst, hshows⟩ :=
        h.append (hnew v List.mem_cons_self) (hbound v List.mem_cons_self)
      obtain ⟨q, hq, hshows'⟩ := ih hshows hrest
        (fun w hw hin => by
          rcases List.mem_cons.1 ((members_concat_perm b).mem_iff.1 hin) with rfl | hin
          · exact hv hw
          · exact hnew w (List.mem_cons_of_mem _ hw) hin)
        fun w hw => hbound w (List.mem_cons_of_mem _ hw)
      refine ⟨q, ?_, ?_⟩
      · rw [fill?, List.foldlM_cons, hfirst]
        exact hq
      · rw [List.append_assoc, List.singleton_append] at hshows'
        exact hshows'.congr fun w => by
          rw [List.mem_cons]
          tauto

/-- A group without vertices is taken out, any other one stays. -/
theorem removeIfEmpty (as : List Block) (h : Shows bound waiting p (as ++ b :: bs)) :
    ∃ q, p.removeIfEmpty? b.id = some q ∧
      Shows bound waiting q (as ++ [b].filter (fun c => !c.members.isEmpty) ++ bs) := by
  obtain ⟨c, hc, hbody⟩ := Option.map_eq_some_iff.1 (h.body b (by simp))
  have hsize : c.size = b.members.length := (congrArg GroupCell.size hbody :)
  -- the stored size is the number of the vertices
  cases hmembers : b.members with
  | nil =>
      obtain ⟨q, hq, hshows⟩ := h.removeGroup
      refine ⟨q, ?_, by simpa [hmembers] using hshows⟩
      rw [removeIfEmpty?, hc, Option.bind_eq_bind, Option.bind_some, if_pos (by simp [hsize, hmembers])]
      exact hq
  | cons w ws =>
      refine ⟨p, ?_, by simpa [hmembers] using h⟩
      rw [removeIfEmpty?, hc, Option.bind_eq_bind, Option.bind_some, if_neg (by simp [hsize, hmembers])]
      rfl

/-- The first vertex of the last group is visited. -/
theorem pop (h : Shows bound (· ∈ members (as ++ [b])) p (as ++ [b])) (hb : b.members = v :: ys) :
    ∃ q, p.pop? = some (v, q) ∧
      Shows bound (· ∈ members as ++ ys) q
        (as ++ [{ b with members := ys }].filter fun c => !c.members.isEmpty) := by
  obtain ⟨c, hc, hbody⟩ := Option.map_eq_some_iff.1 (h.body b (by simp))
  -- the last group is not empty, and its first vertex is stored
  have hhead : c.head = some v := by
    have : c.head = b.members.head? := (congrArg GroupCell.head hbody :)
    rw [this, hb, List.head?_cons]
  have hlast : p.last = some b.id := by
    rw [h.last, List.map_append, List.map_singleton, List.getLast?_concat]
  have hmembers : members (as ++ [b]) = members as ++ v :: ys := by simp [members, hb]
  have hv : v ∈ members (as ++ [b]) := by simp [hmembers]
  have hnodup := h.nodup
  rw [hmembers, List.nodup_middle, List.nodup_cons] at hnodup
  obtain ⟨first, hfirst, hshows⟩ := h.unlink [] ys hb
  obtain ⟨second, hsecond, hshows'⟩ := hshows.setVisited
    (by simpa [members] using hnodup.1) (h.size ▸ h.member_lt hv)
  obtain ⟨q, hq, hshows''⟩ := hshows'.removeIfEmpty as
  refine ⟨q, ?_, ?_⟩
  · simp only [pop?, hlast, hc, hhead, hfirst, hsecond, hq, Option.bind_eq_bind, Option.bind_some]
    rfl
  · rw [List.append_nil] at hshows''
    refine hshows''.congr fun w => ?_
    have hne : w ∈ members as ++ ys → w ≠ v := fun hw heq => hnodup.1 (heq ▸ hw)
    rw [hmembers, List.perm_middle.mem_iff, List.mem_cons]
    tauto

end Shows

/-! ## A round -/

/-- A group while vertices are moved out of it: its place, what is left, and the place of its new group
with the vertices there, once there is one. -/
structure Division where
  id : GroupId
  kept : List Vertex
  behind : Option (GroupId × List Vertex) := none
deriving DecidableEq, Repr

namespace Division

/-- The groups that a division stands for. -/
def blocks (d : Division) : List Block :=
  match d.behind with
  | none => [{ id := d.id, members := d.kept }]
  | some (target, moved) =>
      [{ id := d.id, replacement := some target, members := d.kept },
        { id := target, members := moved }]

/-- What remains of them after the round. -/
def settled (d : Division) : List Block :=
  match d.behind with
  | none => [{ id := d.id, members := d.kept }]
  | some (target, moved) =>
      [{ id := d.id, members := d.kept }].filter (fun c => !c.members.isEmpty) ++
        [{ id := target, members := moved }]

/-- The division as one of plain lists. -/
def split (d : Division) : Split := ⟨(d.behind.map Prod.snd).getD [], d.kept⟩

/-- A vertex is moved, into a group at the given place if there is none yet. -/
def move (d : Division) (fresh : GroupId) (v : Vertex) : Division :=
  { d with
    kept := d.kept.erase v
    behind :=
      match d.behind with
      | none => some (fresh, [v])
      | some (target, moved) => some (target, moved ++ [v]) }

/-- There is a new group only for vertices that were moved. -/
def Moving (d : Division) : Prop := ∀ target moved, d.behind = some (target, moved) → moved ≠ []

variable {d : Division} {fresh : GroupId} {v : Vertex}

theorem split_move : (d.move fresh v).split = d.split.move v := by
  cases hbehind : d.behind <;> simp [split, move, Split.move, hbehind]

theorem moving_move (d : Division) (fresh : GroupId) (v : Vertex) : (d.move fresh v).Moving := by
  intro target moved h
  cases hbehind : d.behind with
  | none =>
      simp only [move, hbehind, Option.some.injEq, Prod.mk.injEq] at h
      simp [← h.2]
  | some b =>
      simp only [move, hbehind, Option.some.injEq, Prod.mk.injEq] at h
      simp [← h.2]

/-- The vertices of a division. -/
theorem members_blocks (d : Division) : members d.blocks = d.split.kept ++ d.split.moved := by
  cases hbehind : d.behind <;> simp [blocks, split, members, hbehind]

/-- After the round the groups are those of the plain lists, the kept vertices in front. -/
theorem map_members_settled (hmoving : d.Moving) (hkept : d.behind = none → d.kept ≠ []) :
    d.settled.map Block.members = d.split.groups.reverse := by
  cases hbehind : d.behind with
  | none => simp [settled, split, Split.groups, hbehind, hkept hbehind]
  | some b =>
      have hne := hmoving b.1 b.2 hbehind
      by_cases hnil : d.kept = [] <;> simp [settled, split, Split.groups, hbehind, hne, hnil]

end Division

/-- All groups that divisions stand for. -/
def blocksOf (ds : List Division) : List Block := ds.flatMap Division.blocks

theorem blocksOf_append (as : List Division) (d : Division) (bs : List Division) :
    blocksOf (as ++ d :: bs) = blocksOf as ++ (d.blocks ++ blocksOf bs) := by
  rw [blocksOf, List.flatMap_append, List.flatMap_cons]
  rfl

theorem members_blocksOf (ds : List Division) :
    members (blocksOf ds) = ds.flatMap fun d => d.split.kept ++ d.split.moved := by
  rw [members, blocksOf, List.flatMap_assoc]
  exact List.flatMap_congr fun d _ => d.members_blocks

section Moving

variable {bound : Nat} {waiting : Vertex → Prop} {as bs ds : List Division} {d : Division}
  {r : Round} {v : Vertex}

/-- The links of the last of several shown groups. -/
theorem Shows.next_eq {p : LinkedGroups} {as bs : List Block} {b : Block} {c : GroupCell}
    (h : Shows bound waiting p (as ++ b :: bs)) (hc : p.groups[b.id]? = some c) :
    c.next = (bs.map Block.id).head? := by
  have hrow := h.row
  rw [List.map_append, List.map_cons] at hrow
  obtain ⟨-, hb, -⟩ := Chained.append.1 hrow
  rw [groupLinks, hc, Option.map_some, Option.some.injEq, Prod.mk.injEq, Option.or_none,
    Option.or_none] at hb
  exact hb.2

/-- The new group of a division is there, or it is put there. -/
theorem exists_replacementOf? (h : Shows bound waiting r.groups (blocksOf (as ++ d :: bs))) :
    ∃ q target moved, (target, moved) = d.behind.getD (r.groups.groups.size, []) ∧
      replacementOf? r d.id = some ({ r with
        groups := q
        touched := r.touched ++ if d.behind.isNone then [d.id] else [] }, target) ∧
      Shows bound waiting q (blocksOf as ++ { id := d.id, replacement := some target, members := d.kept } ::
        { id := target, members := moved } :: blocksOf bs) := by
  rw [blocksOf_append] at h
  -- the first move out of a group puts the new one there
  cases hbehind : d.behind with
  | none =>
      rw [Division.blocks, hbehind, List.singleton_append] at h
      obtain ⟨c, hc, hbody⟩ := Option.map_eq_some_iff.1 (h.body { id := d.id, members := d.kept } (by simp))
      have hreplacement : c.replacement = none := (congrArg GroupCell.replacement hbody :)
      have hnext := h.next_eq hc
      rw [← List.singleton_append, ← List.append_assoc] at h
      obtain ⟨first, hfirst, hshows⟩ := h.insertGroup
        (show _ = some d.id by simp) hnext.symm
      rw [List.append_assoc, List.singleton_append] at hshows
      obtain ⟨q, hq, hshows'⟩ := hshows.setReplacement (some r.groups.groups.size)
      refine ⟨q, r.groups.groups.size, [], rfl, ?_, hshows'⟩
      simp only [replacementOf?, hc, hreplacement, hfirst, hq, Option.bind_eq_bind, Option.bind_some]
      rfl
  | some pair =>
      obtain ⟨target, moved⟩ := pair
      rw [Division.blocks, hbehind] at h
      obtain ⟨c, hc, hbody⟩ := Option.map_eq_some_iff.1
        (h.body { id := d.id, replacement := some target, members := d.kept } (by simp))
      have hreplacement : c.replacement = some target := (congrArg GroupCell.replacement hbody :)
      refine ⟨r.groups, target, moved, rfl, ?_, h⟩
      simp only [replacementOf?, hc, hreplacement, Option.bind_eq_bind, Option.bind_some]
      simp

/-- A vertex that waits is moved. -/
theorem exists_move? (h : Shows bound waiting r.groups (blocksOf (as ++ d :: bs))) (hv : v ∈ d.kept)
    (hwaiting : waiting v) :
    ∃ q, move? r v = some {
        groups := q
        touched := r.touched ++ if d.behind.isNone then [d.id] else []
        moved := r.moved ++ [v] } ∧
      Shows bound waiting q (blocksOf (as ++ d.move r.groups.groups.size v :: bs)) := by
  have hin : v ∈ members (blocksOf (as ++ d :: bs)) := by
    rw [members_blocksOf, List.flatMap_append, List.flatMap_cons]
    simp [Division.split, hv]
  obtain ⟨b, hb, hid, hvb⟩ : ∃ b ∈ blocksOf (as ++ d :: bs), b.id = d.id ∧ v ∈ b.members := by
    rw [blocksOf_append]
    cases hbehind : d.behind with
    | none => exact ⟨{ id := d.id, members := d.kept }, by simp [Division.blocks, hbehind], rfl, hv⟩
    | some pair =>
        exact ⟨{ id := d.id, replacement := some pair.1, members := d.kept },
          by simp [Division.blocks, hbehind], rfl, hv⟩
  obtain ⟨s, hs, hgroup⟩ := h.home b hb v hvb
  obtain ⟨c, hc, rfl⟩ := Option.map_eq_some_iff.1 hs
  have hunvisited : c.visited = false := (h.visited v _ hs).2 hwaiting
  replace hgroup : c.group = some d.id := hgroup.trans (congrArg some hid)
  obtain ⟨first, target, moved, hbehind, hfirst, hshows⟩ := exists_replacementOf? h
  obtain ⟨xs, ys, -, hkept, herase⟩ := List.exists_erase_eq hv
  obtain ⟨second, hsecond, hshows'⟩ := hshows.unlink xs ys hkept
  have hlt : v < bound := h.size ▸ h.member_lt hin
  -- between the two writes no group holds the vertex
  have hout : v ∉ members (blocksOf as ++
      { id := d.id, replacement := some target, members := xs ++ ys } ::
        { id := target, members := moved } :: blocksOf bs) := by
    have hnodup := hshows.nodup
    simp only [members, List.flatMap_append, List.flatMap_cons, hkept, List.append_assoc,
      List.cons_append] at hnodup ⊢
    rw [← List.append_assoc, List.nodup_middle, List.nodup_cons, List.append_assoc] at hnodup
    exact hnodup.1
  rw [← List.singleton_append, ← List.append_assoc] at hshows' hout
  obtain ⟨q, hq, hshows''⟩ := hshows'.append hout hlt
  refine ⟨q, ?_, ?_⟩
  · simp only [move?, hc, hunvisited, hgroup, hfirst, hsecond, hq, Option.bind_eq_bind,
      Option.bind_some, Bool.false_eq_true, if_false]
    rfl
  · rw [List.append_assoc, List.singleton_append] at hshows''
    -- what stands in the row now is what the move makes of the division
    have hblocks : (d.move r.groups.groups.size v).blocks =
        [{ id := d.id, replacement := some target, members := xs ++ ys },
          { id := target, members := moved ++ [v] }] := by
      cases hcase : d.behind with
      | none =>
          rw [hcase, Option.getD_none, Prod.mk.injEq] at hbehind
          simp [Division.blocks, Division.move, hcase, herase, hbehind]
      | some pair =>
          rw [hcase, Option.getD_some] at hbehind
          simp [Division.blocks, Division.move, hcase, herase, ← hbehind]
    rw [blocksOf_append, hblocks]
    refine hshows''.congr fun w => ⟨Or.inr, ?_⟩
    rintro (rfl | hw)
    · exact hwaiting
    · exact hw

/-- A vertex that was visited stays where it is. -/
theorem move?_of_visited {blocks : List Block} (h : Shows bound waiting r.groups blocks)
    (hlt : v < bound) (hwaiting : ¬ waiting v) : move? r v = some r := by
  obtain ⟨s, hs⟩ := exists_state? r.groups (h.size.symm ▸ hlt)
  have hvisited : s.visited = true := by
    rw [← Bool.not_eq_false, h.visited v s hs]
    exact hwaiting
  obtain ⟨c, hc, rfl⟩ := Option.map_eq_some_iff.1 hs
  simp only [move?, hc, Option.bind_eq_bind, Option.bind_some]
  exact if_pos hvisited

end Moving

/-- What a round has done to the groups after some of the vertices: each of them divides as the plain
one does, and those with a new group are the ones touched. -/
structure Midway (bound : Nat) (unvisited : List Vertex) (groups : Groups) (done : List Vertex)
    (r : Round) (ds : List Division) : Prop where
  shows : Shows bound (· ∈ unvisited) r.groups (blocksOf ds)
  perm : (members (blocksOf ds)).Perm unvisited
  splits : (ds.map Division.split).reverse = done.foldl Groups.promote (groups.map Split.ofGroup)
  moving : ∀ d ∈ ds, d.Moving
  kept : ∀ d ∈ ds, d.behind = none → d.kept ≠ []
  taken : ∀ d ∈ ds, ∀ v ∈ d.split.moved, v ∈ done
  touched : r.touched.Perm ((ds.filter fun d => d.behind.isSome).map Division.id)
  moved : r.moved = done.filter unvisited.contains

namespace Midway

variable {bound : Nat} {unvisited : List Vertex} {groups : Groups} {done : List Vertex}
  {r : Round} {ds : List Division} {v : Vertex}

/-- No other group has a vertex that is left in one. -/
theorem not_kept_elsewhere {as bs : List Division} {d : Division}
    (h : Midway bound unvisited groups done r (as ++ d :: bs)) (hv : v ∈ d.kept) :
    ∀ e ∈ as ++ bs, v ∉ e.split.kept := by
  intro e he hve
  have hnodup := h.shows.nodup
  rw [members_blocksOf, List.flatMap_append, List.flatMap_cons] at hnodup
  obtain ⟨-, hright, hleft⟩ := List.nodup_append.1 hnodup
  have hin : v ∈ d.split.kept ++ d.split.moved := List.mem_append_left _ hv
  have hine : v ∈ e.split.kept ++ e.split.moved := List.mem_append_left _ hve
  rcases List.mem_append.1 he with he | he
  · exact hleft v (List.mem_flatMap.2 ⟨e, he, hine⟩) v (List.mem_append_left _ hin) rfl
  · have hright' := (List.nodup_append.1 hright).2.2 v hin v
    exact hright' (List.mem_flatMap.2 ⟨e, he, hine⟩) rfl

/-- A move leaves the same vertices in the groups: the one that is moved goes from the front half of its
group to the end of the other half. -/
theorem perm_move {as bs : List Division} {d : Division} (g : GroupId) (hv : v ∈ d.kept) :
    (members (blocksOf (as ++ d.move g v :: bs))).Perm (members (blocksOf (as ++ d :: bs))) := by
  rw [members_blocksOf, members_blocksOf, List.flatMap_append, List.flatMap_append,
    List.flatMap_cons, List.flatMap_cons, Division.split_move]
  refine List.Perm.append_left _ (List.Perm.append_right _ ?_)
  show (d.kept.erase v ++ (d.split.moved ++ [v])).Perm (d.kept ++ d.split.moved)
  rw [← List.append_assoc]
  exact List.perm_append_comm.trans ((List.perm_cons_erase hv).symm.append_right _)

/-- A group is touched by the first move out of it. -/
theorem touched_move {as bs : List Division} {d : Division} (g : GroupId)
    (h : Midway bound unvisited groups done r (as ++ d :: bs)) :
    (r.touched ++ if d.behind.isNone then [d.id] else []).Perm
      (((as ++ d.move g v :: bs).filter fun d => d.behind.isSome).map Division.id) := by
  have htouched := h.touched
  rw [List.filter_append, List.filter_cons, List.map_append] at htouched ⊢
  have hmove : (d.move g v).behind.isSome = true := by
    -- later moves find the new group there and note nothing
    cases hbehind : d.behind <;> simp [Division.move, hbehind]
  rw [if_pos hmove]
  cases hbehind : d.behind with
  | none =>
      rw [hbehind] at htouched
      simp only [Option.isNone_none, if_true]
      refine (htouched.append_right [d.id]).trans ?_
      exact List.perm_append_singleton d.id _ |>.trans List.perm_middle.symm
  | some pair =>
      rw [hbehind] at htouched
      simp only [Option.isNone_some, Bool.false_eq_true, if_false, List.append_nil]
      exact htouched

/-- A vertex that waits is moved out of its group. -/
theorem step_of_mem (h : Midway bound unvisited groups done r ds) (hv : v ∉ done)
    (hmem : v ∈ unvisited) :
    ∃ r' ds', move? r v = some r' ∧ Midway bound unvisited groups (done ++ [v]) r' ds' := by
  obtain ⟨d, hd, hvd⟩ : ∃ d ∈ ds, v ∈ d.kept := by
    have hin := h.perm.mem_iff.2 hmem
    rw [members_blocksOf, List.mem_flatMap] at hin
    obtain ⟨d, hd, hin⟩ := hin
    exact ⟨d, hd, (List.mem_append.1 hin).resolve_right fun hmoved => hv (h.taken d hd v hmoved)⟩
  obtain ⟨as, bs, rfl⟩ := List.append_of_mem hd
  obtain ⟨q, hq, hshows⟩ := exists_move? h.shows hvd hmem
  refine ⟨_, _, hq, hshows, (perm_move _ hvd).trans h.perm, ?_, ?_, ?_, ?_, touched_move _ h, ?_⟩
  · rw [List.foldl_append, ← h.splits, List.map_append, List.map_append, List.map_cons,
      List.map_cons, List.reverse_append, List.reverse_append, List.reverse_cons,
      List.reverse_cons, List.append_assoc, List.append_assoc, List.singleton_append,
      List.singleton_append, List.foldl_cons, List.foldl_nil, Division.split_move]
    refine (Groups.promote_append (fun t ht => ?_) hvd).symm
    obtain ⟨e, he, rfl⟩ := List.mem_map.1 (List.mem_reverse.1 ht)
    exact h.not_kept_elsewhere hvd e (List.mem_append_right _ he)
  · intro e he
    rcases mem_middle.1 he with rfl | he
    · exact d.moving_move _ v
    · exact h.moving e (mem_middle.2 (Or.inr he))
  · intro e he hnone
    rcases mem_middle.1 he with rfl | he
    · cases hbehind : d.behind <;> simp [Division.move, hbehind] at hnone
    · exact h.kept e (mem_middle.2 (Or.inr he)) hnone
  · intro e he w hw
    rcases mem_middle.1 he with rfl | he
    · rw [Division.split_move] at hw
      rcases List.mem_append.1 hw with hw | hw
      · exact List.mem_append_left _ (h.taken d hd w hw)
      · exact List.mem_append_right _ hw
    · exact List.mem_append_left _ (h.taken e (mem_middle.2 (Or.inr he)) w hw)
  · rw [h.moved, List.filter_append]
    simp [hmem]

/-- A vertex that was visited changes nothing. -/
theorem step_of_notMem (h : Midway bound unvisited groups done r ds) (hlt : v < bound)
    (hmem : v ∉ unvisited) :
    move? r v = some r ∧ Midway bound unvisited groups (done ++ [v]) r ds := by
  refine ⟨move?_of_visited h.shows hlt hmem, h.shows, h.perm, ?_, h.moving, h.kept, ?_, h.touched, ?_⟩
  · rw [List.foldl_append, ← h.splits, List.foldl_cons, List.foldl_nil]
    refine (Groups.promote_of_notMem fun t ht hvt => ?_).symm
    obtain ⟨e, he, rfl⟩ := List.mem_map.1 (List.mem_reverse.1 ht)
    refine hmem (h.perm.subset ?_)
    rw [members_blocksOf]
    exact List.mem_flatMap.2 ⟨e, he, List.mem_append_left _ hvt⟩
  · exact fun d hd w hw => List.mem_append_left _ (h.taken d hd w hw)
  · rw [h.moved, List.filter_append]
    simp [hmem]

theorem step (h : Midway bound unvisited groups done r ds) (hv : v ∉ done) (hlt : v < bound) :
    ∃ r' ds', move? r v = some r' ∧ Midway bound unvisited groups (done ++ [v]) r' ds' := by
  by_cases hmem : v ∈ unvisited
  · exact h.step_of_mem hv hmem
  · exact ⟨r, ds, h.step_of_notMem hlt hmem⟩

theorem run {moving : List Vertex} (h : Midway bound unvisited groups done r ds)
    (hnodup : (done ++ moving).Nodup) (hlt : ∀ v ∈ moving, v < bound) :
    ∃ r' ds', moving.foldlM move? r = some r' ∧
      Midway bound unvisited groups (done ++ moving) r' ds' := by
  induction moving generalizing done r ds with
  | nil => exact ⟨r, ds, rfl, by rwa [List.append_nil]⟩
  | cons v rest ih =>
      have hv : v ∉ done := fun hin => (List.nodup_append.1 hnodup).2.2 v hin v List.mem_cons_self rfl
      obtain ⟨first, ds', hfirst, hmid⟩ := h.step hv (hlt v List.mem_cons_self)
      obtain ⟨r', ds'', hrun, hmid'⟩ := ih hmid (by simpa using hnodup) fun w hw =>
        hlt w (List.mem_cons_of_mem _ hw)
      refine ⟨r', ds'', ?_, by simpa using hmid'⟩
      rw [List.foldlM_cons, hfirst]
      exact hrun

end Midway

/-! ## The end of a round -/

/-- The divisions while some of them are still to be settled. -/
def blocksUntil (touched : List GroupId) (ds : List Division) : List Block :=
  ds.flatMap fun d => if d.id ∈ touched then d.blocks else d.settled

section Settling

variable {bound : Nat} {waiting : Vertex → Prop} {p : LinkedGroups} {as bs ds : List Division}
  {d : Division} {touched : List GroupId} {id : GroupId}

theorem blocksUntil_append (touched : List GroupId) (as : List Division) (d : Division)
    (bs : List Division) : blocksUntil touched (as ++ d :: bs) =
      blocksUntil touched as ++ (if d.id ∈ touched then d.blocks else d.settled) ++
        blocksUntil touched bs := by
  rw [blocksUntil, List.flatMap_append, List.flatMap_cons, List.append_assoc]
  rfl

theorem blocksUntil_cons_of_ne (touched : List GroupId) (h : ∀ d ∈ ds, d.id ≠ id) :
    blocksUntil (id :: touched) ds = blocksUntil touched ds := by
  refine List.flatMap_congr fun d hd => ?_
  have hiff : d.id ∈ id :: touched ↔ d.id ∈ touched := by simp [h d hd]
  simp only [hiff]

/-- A group that got a new one is settled. -/
theorem exists_settle? {A B : List Block} {target : GroupId} {moved : List Vertex}
    (hbehind : d.behind = some (target, moved))
    (h : Shows bound waiting p (A ++ d.blocks ++ B)) :
    ∃ q, settle? p d.id = some q ∧ Shows bound waiting q (A ++ d.settled ++ B) := by
  rw [Division.blocks, hbehind, List.append_assoc, List.cons_append] at h
  obtain ⟨first, hfirst, hshows⟩ := h.setReplacement none
  obtain ⟨q, hq, hshows'⟩ := hshows.removeIfEmpty A
  refine ⟨q, ?_, ?_⟩
  · simp only [settle?, hfirst, Option.bind_eq_bind, Option.bind_some]
    exact hq
  · rw [Division.settled, hbehind]
    simpa only [List.append_assoc, List.cons_append, List.nil_append, List.singleton_append]
      using hshows'

/-- All groups that got a new one are settled, in any order. -/
theorem exists_settleAll? (hids : (ds.map Division.id).Nodup) (hnodup : touched.Nodup)
    (htouched : ∀ id ∈ touched, ∃ d ∈ ds, d.id = id ∧ d.behind.isSome)
    (h : Shows bound waiting p (blocksUntil touched ds)) :
    ∃ q, touched.foldlM settle? p = some q ∧
      Shows bound waiting q (ds.flatMap Division.settled) := by
  induction touched generalizing p with
  | nil =>
      refine ⟨p, rfl, ?_⟩
      have hall : blocksUntil [] ds = ds.flatMap Division.settled :=
        List.flatMap_congr fun d _ => if_neg List.not_mem_nil
      exact hall ▸ h
  | cons id rest ih =>
      obtain ⟨hid, hrest⟩ := List.nodup_cons.1 hnodup
      obtain ⟨d, hd, rfl, hbehind⟩ := htouched id List.mem_cons_self
      obtain ⟨⟨target, moved⟩, hbehind⟩ := Option.isSome_iff_exists.1 hbehind
      obtain ⟨as, bs, rfl⟩ := List.append_of_mem hd
      -- settling one group leaves the others as they are, divided or not
      have hother : ∀ e ∈ as ++ bs, e.id ≠ d.id := by
        rw [List.map_append, List.map_cons, List.nodup_middle, ← List.map_append,
          List.nodup_cons] at hids
        exact fun e he heq => hids.1 (heq ▸ List.mem_map_of_mem he)
      have has := blocksUntil_cons_of_ne rest fun e he =>
        hother e (List.mem_append_left _ he)
      have hbs := blocksUntil_cons_of_ne rest fun e he =>
        hother e (List.mem_append_right _ he)
      rw [blocksUntil_append, if_pos List.mem_cons_self, has, hbs] at h
      obtain ⟨first, hfirst, hshows⟩ := exists_settle? hbehind h
      obtain ⟨q, hq, hshows'⟩ := ih hrest (fun id hin => htouched id (List.mem_cons_of_mem _ hin))
        (by rwa [blocksUntil_append, if_neg hid])
      refine ⟨q, ?_, hshows'⟩
      rw [List.foldlM_cons, hfirst]
      exact hq

end Settling

/-! ## Groups between two rounds -/

/-- The linked groups hold the plain ones in reverse, each vertex of these waits and no other one, and
no group refers to a new one. -/
def Holds (bound : Nat) (p : LinkedGroups) (groups : Groups) : Prop :=
  ∃ blocks : List Block, Shows bound (· ∈ groups.flatten) p blocks ∧
    (∀ b ∈ blocks, b.replacement = none) ∧ (blocks.map Block.members).reverse = groups

namespace Holds

variable {bound n : Nat} {p : LinkedGroups} {groups others : Groups} {group moving : List Vertex}
  {v : Vertex} {g : Graph}

theorem members_perm {blocks : List Block} (h : (blocks.map Block.members).reverse = groups) :
    (members blocks).Perm groups.flatten := by
  rw [← h, members, List.flatMap_def]
  exact (List.reverse_perm _).symm.flatten

theorem nodup_flatten (h : Holds bound p groups) : groups.flatten.Nodup := by
  obtain ⟨blocks, hshows, -, hgroups⟩ := h
  exact (members_perm hgroups).nodup_iff.1 hshows.nodup

/-- The next vertex is taken. -/
theorem pop (h : Holds bound p ((v :: group) :: others)) :
    ∃ q, p.pop? = some (v, q) ∧
      Holds bound q ([group].filter (fun part => !part.isEmpty) ++ others) := by
  obtain ⟨blocks, hshows, hnone, hgroups⟩ := h
  rcases List.eq_nil_or_concat blocks with rfl | ⟨as, b, rfl⟩
  · cases hgroups
  rw [List.concat_eq_append] at hshows hnone hgroups
  rw [List.map_append, List.map_singleton, List.reverse_append, List.reverse_singleton,
    List.singleton_append, List.cons.injEq] at hgroups
  obtain ⟨hb, rfl⟩ := hgroups
  have hmem : ∀ w, w ∈ members (as ++ [b]) ↔
      w ∈ ((v :: group) :: (as.map Block.members).reverse).flatten := fun w =>
    (members_perm (by simp [hb])).mem_iff
  obtain ⟨q, hq, hshows'⟩ := (hshows.congr hmem).pop hb
  refine ⟨q, hq, _, hshows'.congr fun w => ?_, ?_, ?_⟩
  · rw [Groups.flatten_filter_append, List.mem_append, List.mem_append, or_comm,
      (members_perm (show (as.map Block.members).reverse = _ from rfl)).mem_iff]
  · intro c hc
    rcases List.mem_append.1 hc with hc | hc
    · exact hnone c (List.mem_append_left _ hc)
    · rw [List.mem_singleton.1 (List.mem_filter.1 hc).1]
      exact hnone b (by simp)
  · cases group <;> simp

/-- Before a round every group is undivided. -/
theorem midway {blocks : List Block} (hshows : Shows bound (· ∈ groups.flatten) p blocks)
    (hnone : ∀ b ∈ blocks, b.replacement = none)
    (hgroups : (blocks.map Block.members).reverse = groups)
    (hnonempty : ∀ group ∈ groups, group ≠ []) :
    Midway bound groups.flatten groups [] { groups := p }
      (blocks.map fun b => { id := b.id, kept := b.members }) := by
  have hblocks : blocksOf (blocks.map fun b => { id := b.id, kept := b.members }) = blocks := by
    rw [blocksOf, List.flatMap_map]
    -- an undivided group is one block
    have hsingle : ∀ b ∈ blocks,
        ({ id := b.id, kept := b.members } : Division).blocks = [b] := fun b hb => by
      have := hnone b hb
      cases b
      subst this
      rfl
    rw [List.flatMap_congr hsingle]
    simp
  have hnew : ∀ d ∈ blocks.map (fun b => ({ id := b.id, kept := b.members } : Division)),
      d.behind = none ∧ d.kept ∈ groups := by
    intro d hd
    obtain ⟨b, hb, rfl⟩ := List.mem_map.1 hd
    rw [← hgroups]
    exact ⟨rfl, List.mem_reverse.2 (List.mem_map_of_mem hb)⟩
  refine ⟨hblocks.symm ▸ hshows, hblocks.symm ▸ members_perm hgroups, ?_, ?_, ?_, ?_, ?_, rfl⟩
  · rw [List.foldl_nil, ← hgroups, List.map_reverse, List.map_map, List.map_map]
    rfl
  · intro d hd target moved hbehind
    rw [(hnew d hd).1] at hbehind
    cases hbehind
  · exact fun d hd _ => hnonempty _ (hnew d hd).2
  · intro d hd w hw
    rw [Division.split, (hnew d hd).1] at hw
    cases hw
  · have hfilter : (blocks.map fun b => ({ id := b.id, kept := b.members } : Division)).filter
        (fun d => d.behind.isSome) = [] :=
      List.filter_eq_nil_iff.2 fun d hd => by simp [(hnew d hd).1]
    rw [hfilter]
    exact List.Perm.refl _

theorem ids_sublist (ds : List Division) :
    (ds.map Division.id).Sublist ((blocksOf ds).map Block.id) := by
  induction ds with
  | nil => exact List.Sublist.refl _
  | cons d rest ih =>
      rw [blocksOf, List.flatMap_cons, List.map_append, List.map_cons]
      have hhead : ∃ others, d.blocks.map Block.id = d.id :: others := by
        cases hbehind : d.behind <;> simp [Division.blocks, hbehind]
      obtain ⟨others, hothers⟩ := hhead
      rw [hothers, List.cons_append]
      exact (ih.trans (List.sublist_append_right _ _)).cons_cons d.id

/-- A round does what it does to the plain lists. -/
theorem refine (h : Holds bound p groups) (hnonempty : ∀ group ∈ groups, group ≠ [])
    (hmoving : moving.Nodup) (hlt : ∀ v ∈ moving, v < bound) :
    ∃ q, p.refine? moving = some (q, moving.filter groups.flatten.contains) ∧
      Holds bound q (groups.refine moving) := by
  have hnodup := h.nodup_flatten
  obtain ⟨blocks, hshows, hnone, hgroups⟩ := h
  obtain ⟨r, ds, hrun, hmid⟩ := (midway hshows hnone hgroups hnonempty).run (by simpa using hmoving) hlt
  rw [List.nil_append] at hmid
  have hids : (ds.map Division.id).Nodup := hmid.shows.ids.sublist (ids_sublist ds)
  have htouched : ∀ id ∈ r.touched, ∃ d ∈ ds, d.id = id ∧ d.behind.isSome := by
    intro id hid
    obtain ⟨d, hd, rfl⟩ := List.mem_map.1 (hmid.touched.subset hid)
    exact ⟨d, (List.mem_filter.1 hd).1, rfl, (List.mem_filter.1 hd).2⟩
  -- the groups that are noted are those that were divided
  have huntil : blocksUntil r.touched ds = blocksOf ds := by
    refine List.flatMap_congr fun d hd => ?_
    cases hbehind : d.behind with
    | none => simp [Division.blocks, Division.settled, hbehind]
    | some pair =>
        refine if_pos (hmid.touched.mem_iff.2 (List.mem_map_of_mem ?_))
        exact List.mem_filter.2 ⟨hd, by rw [hbehind, Option.isSome_some]⟩
  obtain ⟨q, hq, hshows'⟩ := exists_settleAll? hids
    (hmid.touched.nodup_iff.2 (hids.sublist (List.filter_sublist.map _))) htouched
    (huntil.symm ▸ hmid.shows)
  refine ⟨q, ?_, _, hshows'.congr fun w => ?_, ?_, ?_⟩
  · rw [refine?, hrun, Option.bind_eq_bind, Option.bind_some, hq, hmid.moved]
    rfl
  · exact (Groups.perm_refine hnodup hmoving).mem_iff
  · intro b hb
    obtain ⟨d, -, hb⟩ := List.mem_flatMap.1 hb
    cases hbehind : d.behind with
    | none =>
        rw [Division.settled, hbehind] at hb
        rw [List.mem_singleton.1 hb]
    | some pair =>
        rw [Division.settled, hbehind] at hb
        rcases List.mem_append.1 hb with hb | hb
        · rw [List.mem_singleton.1 (List.mem_filter.1 hb).1]
        · rw [List.mem_singleton.1 hb]
  · rw [Groups.refine, ← hmid.splits, List.map_flatMap, List.reverse_flatMap, ← List.map_reverse,
      List.flatMap_map]
    refine List.flatMap_congr fun d hd => ?_
    have hd := List.mem_reverse.1 hd
    rw [Function.comp_apply, Division.map_members_settled (hmid.moving d hd) (hmid.kept d hd),
      List.reverse_reverse]

end Holds

/-! ## All visits -/

/-- The visits in the given order, each with the neighbours that are visited later. -/
def logOf (g : Graph) : List Vertex → VisitLog
  | [] => []
  | v :: later => (v, (g.neighbors v).filter later.contains) :: logOf g later

theorem map_fst_logOf (g : Graph) (visits : List Vertex) : (logOf g visits).map Prod.fst = visits := by
  induction visits with
  | nil => rfl
  | cons v later ih => rw [logOf, List.map_cons, ih]

/-- The visits over linked groups are those over plain lists. -/
theorem Holds.visit {bound n : Nat} {p : LinkedGroups} {groups : Groups} {g : Graph}
    (h : Holds bound p groups) (htidy : groups.Tidy) (hg : ∀ v, (g.neighbors v).Nodup)
    (hlt : ∀ v, ∀ w ∈ g.neighbors v, w < bound) (hn : groups.flatten.length = n) :
    visit? g n p = some (logOf g (Groups.visit g n groups)) := by
  induction n generalizing p groups with
  | zero => rfl
  | succ n ih =>
      rcases htidy.cases with rfl | ⟨v, group, others, rfl⟩
      · cases hn
      · obtain ⟨first, hfirst, hheld⟩ := h.pop
        have hnonempty : ∀ part ∈ [group].filter (fun part => !part.isEmpty) ++ others, part ≠ [] := by
          intro part hpart
          rcases List.mem_append.1 hpart with hpart | hpart
          · simpa using (List.mem_filter.1 hpart).2
          · exact htidy.nonempty part (List.mem_cons_of_mem _ hpart)
        obtain ⟨q, hq, hheld'⟩ := hheld.refine hnonempty (hg v) (hlt v)
        have hperm := htidy.perm_rest (hg v)
        have hlen : (Groups.rest g v group others).flatten.length = n := by
          rw [hperm.length_eq]
          simpa using hn
        have hvisits := (htidy.rest (hg v)).perm_visit hg hlen.le
        -- the vertices moved in a round are the neighbours that are visited later
        have hmoved : (g.neighbors v).filter
            ([group].filter (fun part => !part.isEmpty) ++ others).flatten.contains =
              (g.neighbors v).filter (Groups.visit g n (Groups.rest g v group others)).contains := by
          refine List.filter_congr fun w _ => ?_
          rw [Groups.flatten_filter_append, Bool.eq_iff_iff, List.contains_iff_mem,
            List.contains_iff_mem, (hvisits.trans hperm).mem_iff]
        rw [Groups.visit_cons, logOf, ← hmoved]
        simp only [visit?, hfirst, hq, Option.bind_eq_bind, Option.bind_some]
        rw [ih hheld' (htidy.rest (hg v)) hlen]
        rfl

end LinkedGroups

/-- The counts that are entered while vertices are moved are those that the visits lead to. -/
theorem HopCounts.stamp_logOf (g : Graph) (visits : List Vertex) (hops : HopCounts) :
    HopCounts.stamp (LinkedGroups.logOf g visits) hops = HopCounts.along g visits hops := by
  induction visits generalizing hops with
  | nil => rfl
  | cons v later ih =>
      rw [LinkedGroups.logOf, HopCounts.stamp, HopCounts.along]
      cases hops.lookup v with
      | none => exact ih hops
      | some count =>
          dsimp only
          rw [ih]
          congr 1
          rw [List.foldl_filter]
          refine List.foldl_ext _ _ _ fun hops w hw => ?_
          -- a neighbour visited before was not moved and has its count already
          by_cases hlater : later.contains w = true
          · have hmoved : ((g.neighbors v).filter later.contains).contains w = true :=
              List.contains_iff_mem.2 (List.mem_filter.2 ⟨hw, hlater⟩)
            rw [if_pos hlater, enter, enter, hmoved, hlater]
          · have hnot : later.contains w = false := by simpa using hlater
            rw [if_neg hlater, enter, hnot, Bool.false_and, if_neg Bool.false_ne_true]

end CliquePath
