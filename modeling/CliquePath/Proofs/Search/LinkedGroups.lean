import CliquePath.Search.LinkedGroups
import Mathlib.Tactic

set_option autoImplicit false

/-!
# What linked groups hold

This module says which groups and which vertices stand in which order in linked groups. A chain is a
list of places each of which refers to the one before it and the one behind it. The groups form one
chain, and the vertices of each group form another.

Joining two places is the only way in which links change. So an insertion, a removal or a move is a
split of a chain and a join, and one lemma about joins carries all of them.
-/

namespace CliquePath

/-! ## Chains -/

/-- The links of a place, if it exists: to the place before it and to the one behind it. -/
abbrev Links := Nat → Option (Option Nat × Option Nat)

/-- Each of the places refers to the one before it and the one behind it. -/
def Chained (links : Links) : Option Nat → List Nat → Option Nat → Prop
  | _, [], _ => True
  | left, x :: rest, right =>
      links x = some (left, rest.head?.or right) ∧ Chained links (some x) rest right

/-- The links of a place after two places were joined. -/
def relink (before after : Option Nat) (x : Nat) (sides : Option Nat × Option Nat) :
    Option Nat × Option Nat :=
  (if some x = after then before else sides.1, if some x = before then after else sides.2)

/-- All links after two places were joined. -/
def Links.join (links : Links) (before after : Option Nat) : Links := fun x =>
  (links x).map (relink before after x)

namespace Chained

variable {links other : Links} {left right before after : Option Nat} {as bs : List Nat} {x : Nat}

theorem append : Chained links left (as ++ bs) right ↔
    Chained links left as (bs.head?.or right) ∧ Chained links (as.getLast?.or left) bs right := by
  induction as generalizing left with
  | nil => simp [Chained]
  | cons a rest ih =>
      have hlast : ((a :: rest).getLast?.or left) = rest.getLast?.or (some a) := by
        cases rest <;> simp [List.getLast?_cons]
      rw [List.cons_append, Chained, Chained, ih, hlast, List.head?_append, Option.or_assoc]
      exact and_assoc.symm

theorem congr (h : Chained links left as right) (hother : ∀ x ∈ as, other x = links x) :
    Chained other left as right := by
  induction as generalizing left with
  | nil => trivial
  | cons a rest ih =>
      refine ⟨(hother a List.mem_cons_self).trans h.1, ih h.2 fun x hx => ?_⟩
      exact hother x (List.mem_cons_of_mem _ hx)

theorem exists_links (h : Chained links left as right) (hx : x ∈ as) : ∃ sides, links x = some sides := by
  obtain ⟨front, back, rfl⟩ := List.append_of_mem hx
  exact ⟨_, (append.1 h).2.1⟩

/-- The places before a join. -/
theorem join_front (h : Chained links left as right) (hnodup : as.Nodup)
    (hbefore : as.getLast? = before) (hafter : ∀ x ∈ as, some x ≠ after) :
    Chained (links.join before after) left as after := by
  induction as generalizing left with
  | nil => trivial
  | cons a rest ih =>
      obtain ⟨ha, hrest⟩ := List.nodup_cons.1 hnodup
      cases rest with
      | nil =>
          obtain rfl : some a = before := hbefore
          refine ⟨?_, trivial⟩
          rw [Links.join, h.1, Option.map_some, relink, if_neg (hafter a List.mem_cons_self)]
          simp
      | cons b rest =>
          have hlast : (b :: rest).getLast? = before := by simpa using hbefore
          -- only the last place of the front is relinked
          have hne : some a ≠ before := by
            rintro rfl
            exact ha (List.mem_of_getLast? hlast)
          refine ⟨?_, ih h.2 hrest hlast fun x hx => hafter x (List.mem_cons_of_mem _ hx)⟩
          rw [Links.join, h.1, Option.map_some, relink, if_neg (hafter a List.mem_cons_self),
            if_neg hne]
          simp

/-- The places behind a join. -/
theorem join_back (h : Chained links left bs right) (hnodup : bs.Nodup)
    (hafter : bs.head? = after) (hbefore : ∀ x ∈ bs, some x ≠ before) :
    Chained (links.join before after) before bs right := by
  cases bs with
  | nil => trivial
  | cons b rest =>
      obtain rfl : some b = after := hafter
      refine ⟨?_, h.2.congr fun x hx => ?_⟩
      · rw [Links.join, h.1, Option.map_some, relink, if_neg (hbefore b List.mem_cons_self)]
        simp
      · have hxb : some x ≠ some b := by
          rintro ⟨⟩
          exact (List.nodup_cons.1 hnodup).1 hx
        obtain ⟨sides, hsides⟩ := exists_links h.2 hx
        rw [Links.join, hsides, Option.map_some, relink, if_neg hxb,
          if_neg (hbefore x (List.mem_cons_of_mem _ hx))]

/-- Two chains become one when the end of the first is joined to the start of the second. -/
theorem join {far : Option Nat} (has : Chained links none as right) (hbs : Chained links left bs far)
    (hnodup : (as ++ bs).Nodup) (hbefore : as.getLast? = before) (hafter : bs.head? = after)
    (hfar : bs = [] → far = none) : Chained (links.join before after) none (as ++ bs) far := by
  obtain ⟨hnodupas, hnodupbs, hdisj⟩ := List.nodup_append.1 hnodup
  have hfront : ∀ x ∈ as, some x ≠ after := by
    rintro x hx rfl
    exact hdisj x hx x (List.mem_of_head? hafter) rfl
  have hback : ∀ x ∈ bs, some x ≠ before := by
    rintro x hx rfl
    exact hdisj x (List.mem_of_getLast? hbefore) x hx rfl
  -- the second chain may be empty
  have hend : after.or far = after := by
    cases bs with
    | nil => rw [hfar rfl, Option.or_none]
    | cons b bs => rw [← hafter, List.head?_cons, Option.some_or]
  rw [append, hafter, hend, hbefore, Option.or_none]
  exact ⟨has.join_front hnodupas hbefore hfront, hbs.join_back hnodupbs hafter hback⟩

/-- A join elsewhere leaves a chain as it is. -/
theorem join_of_notMem (h : Chained links left as right) (hbefore : ∀ x ∈ as, some x ≠ before)
    (hafter : ∀ x ∈ as, some x ≠ after) : Chained (links.join before after) left as right := by
  refine h.congr fun x hx => ?_
  obtain ⟨sides, hsides⟩ := exists_links h hx
  rw [Links.join, hsides, Option.map_some, relink, if_neg (hafter x hx), if_neg (hbefore x hx)]

end Chained

theorem mem_middle {α : Type*} {as bs : List α} {d e : α} :
    e ∈ as ++ d :: bs ↔ e = d ∨ e ∈ as ++ bs := by
  rw [List.perm_middle.mem_iff, List.mem_cons]

namespace LinkedGroups

variable {p q : LinkedGroups} {id other : GroupId} {v w : Vertex} {before after : Option Nat}

/-! ## What can be read -/

/-- The links of the groups. -/
def groupLinks (p : LinkedGroups) : Links := fun id => (p.groups[id]?).map fun c => (c.prev, c.next)

/-- The links of the vertices. -/
def vertexLinks (p : LinkedGroups) : Links := fun v => (p.vertices[v]?).map fun c => (c.prev, c.next)

/-- A group without its links. -/
def body? (p : LinkedGroups) (id : GroupId) : Option GroupCell :=
  (p.groups[id]?).map fun c => { c with prev := none, next := none }

/-- A vertex without its links. -/
def state? (p : LinkedGroups) (v : Vertex) : Option VertexCell :=
  (p.vertices[v]?).map fun c => { c with prev := none, next := none }

theorem vertexLinks_congr (h : q.vertices = p.vertices) : q.vertexLinks = p.vertexLinks := by
  funext v
  rw [vertexLinks, vertexLinks, h]

theorem state?_congr (h : q.vertices = p.vertices) : q.state? = p.state? := by
  funext v
  rw [state?, state?, h]

theorem groupLinks_congr (h : q.groups = p.groups) : q.groupLinks = p.groupLinks := by
  funext v
  rw [groupLinks, groupLinks, h]

theorem body?_congr (h : q.groups = p.groups) : q.body? = p.body? := by
  funext v
  rw [body?, body?, h]

theorem exists_vertexLinks (h : v < p.vertices.size) : ∃ sides, p.vertexLinks v = some sides :=
  ⟨_, by rw [vertexLinks, Array.getElem?_eq_getElem h, Option.map_some]⟩

theorem exists_state? (p : LinkedGroups) (h : v < p.vertices.size) : ∃ c, p.state? v = some c :=
  ⟨_, by rw [state?, Array.getElem?_eq_getElem h, Option.map_some]⟩

theorem lt_size_of_body? {c : GroupCell} (h : p.body? id = some c) : id < p.groups.size := by
  obtain ⟨cell, hcell, -⟩ := Option.map_eq_some_iff.1 h
  exact (Array.getElem?_eq_some_iff.1 hcell).1

theorem lt_size_of_vertexLinks {sides : Option Nat × Option Nat} (h : p.vertexLinks v = some sides) :
    v < p.vertices.size := by
  obtain ⟨cell, hcell, -⟩ := Option.map_eq_some_iff.1 h
  exact (Array.getElem?_eq_some_iff.1 hcell).1

theorem exists_setGroup? (f : GroupCell → GroupCell) (h : id < p.groups.size) :
    ∃ q, p.setGroup? id f = some q ∧
      (∀ x, q.groups[x]? = (p.groups[x]?).map fun c => if x = id then f c else c) ∧
      q.groups.size = p.groups.size ∧ q.vertices = p.vertices ∧ q.last = p.last := by
  refine ⟨{ p with groups := p.groups.setIfInBounds id (f p.groups[id]) }, ?_, fun x => ?_,
    by simp, rfl, rfl⟩
  · rw [setGroup?, Array.getElem?_eq_getElem h]
    rfl
  · by_cases hx : x = id
    · subst hx
      simp [h]
    · simp [hx, Array.getElem?_setIfInBounds_ne (Ne.symm hx)]

theorem exists_setVertex? (f : VertexCell → VertexCell) (h : v < p.vertices.size) :
    ∃ q, p.setVertex? v f = some q ∧
      (∀ x, q.vertices[x]? = (p.vertices[x]?).map fun c => if x = v then f c else c) ∧
      q.vertices.size = p.vertices.size ∧ q.groups = p.groups ∧ q.last = p.last := by
  refine ⟨{ p with vertices := p.vertices.setIfInBounds v (f p.vertices[v]) }, ?_, fun x => ?_,
    by simp, rfl, rfl⟩
  · rw [setVertex?, Array.getElem?_eq_getElem h]
    rfl
  · by_cases hx : x = v
    · subst hx
      simp [h]
    · simp [hx, Array.getElem?_setIfInBounds_ne (Ne.symm hx)]

/-- A write that leaves the links of a group as they are. -/
theorem exists_setBody? (f : GroupCell → GroupCell) (h : id < p.groups.size)
    (hf : ∀ c, (f c).prev = c.prev ∧ (f c).next = c.next ∧
      { f c with prev := none, next := none } = f { c with prev := none, next := none }) :
    ∃ q, p.setGroup? id f = some q ∧ q.groupLinks = p.groupLinks ∧
      (∀ x, q.body? x = (p.body? x).map fun c => if x = id then f c else c) ∧
      q.vertices = p.vertices ∧ q.last = p.last := by
  obtain ⟨q, hq, hgroups, -, hvertices, hlast⟩ := p.exists_setGroup? f h
  refine ⟨q, hq, funext fun x => ?_, fun x => ?_, hvertices, hlast⟩
  · rw [groupLinks, groupLinks, hgroups, Option.map_map]
    refine congrArg (fun links => (p.groups[x]?).map links) (funext fun c => ?_)
    obtain ⟨hprev, hnext, -⟩ := hf c
    by_cases hx : x = id <;> simp [hx, hprev, hnext]
  · rw [body?, body?, hgroups, Option.map_map, Option.map_map]
    refine congrArg (fun body => (p.groups[x]?).map body) (funext fun c => ?_)
    by_cases hx : x = id <;> simp [hx, (hf c).2.2]

/-- A write that leaves the links of a vertex as they are. -/
theorem exists_setState? (f : VertexCell → VertexCell) (h : v < p.vertices.size)
    (hf : ∀ c, (f c).prev = c.prev ∧ (f c).next = c.next ∧
      { f c with prev := none, next := none } = f { c with prev := none, next := none }) :
    ∃ q, p.setVertex? v f = some q ∧ q.vertexLinks = p.vertexLinks ∧
      (∀ x, q.state? x = (p.state? x).map fun c => if x = v then f c else c) ∧
      q.groups = p.groups ∧ q.vertices.size = p.vertices.size ∧ q.last = p.last := by
  obtain ⟨q, hq, hvertices, hsize, hgroups, hlast⟩ := p.exists_setVertex? f h
  refine ⟨q, hq, funext fun x => ?_, fun x => ?_, hgroups, hsize, hlast⟩
  · rw [vertexLinks, vertexLinks, hvertices, Option.map_map]
    refine congrArg (fun links => (p.vertices[x]?).map links) (funext fun c => ?_)
    obtain ⟨hprev, hnext, -⟩ := hf c
    by_cases hx : x = v <;> simp [hx, hprev, hnext]
  · rw [state?, state?, hvertices, Option.map_map, Option.map_map]
    refine congrArg (fun state => (p.vertices[x]?).map state) (funext fun c => ?_)
    by_cases hx : x = v <;> simp [hx, (hf c).2.2]

/-! ## Joins -/

theorem exists_setNextGroup? (before after : Option Nat)
    (hbefore : ∀ x, before = some x → x < p.groups.size) :
    ∃ q, p.setNextGroup? before after = some q ∧
      (∀ x, q.groups[x]? = (p.groups[x]?).map fun c =>
        if some x = before then { c with next := after } else c) ∧
      q.groups.size = p.groups.size ∧ q.vertices = p.vertices ∧ q.last = p.last := by
  cases before with
  | none => exact ⟨p, rfl, by simp, rfl, rfl, rfl⟩
  | some id => simpa [setNextGroup?] using p.exists_setGroup? _ (hbefore id rfl)

theorem exists_setPrevGroup? (before after : Option Nat)
    (hafter : ∀ x, after = some x → x < p.groups.size) :
    ∃ q, p.setPrevGroup? before after = some q ∧
      (∀ x, q.groups[x]? = (p.groups[x]?).map fun c =>
        if some x = after then { c with prev := before } else c) ∧
      q.groups.size = p.groups.size ∧ q.vertices = p.vertices ∧
      q.last = if after = none then before else p.last := by
  cases after with
  | none => exact ⟨{ p with last := before }, rfl, by simp, rfl, rfl, rfl⟩
  | some id =>
      obtain ⟨q, hq, hgroups, hsize, hvertices, hlast⟩ :=
        p.exists_setGroup? (fun c => { c with prev := before }) (hafter id rfl)
      exact ⟨q, hq, by simpa using hgroups, hsize, hvertices, by simpa using hlast⟩

/-- What joining two groups changes. -/
structure JoinsGroups (before after : Option GroupId) (p q : LinkedGroups) : Prop where
  groupLinks : q.groupLinks = p.groupLinks.join before after
  body : q.body? = p.body?
  size : q.groups.size = p.groups.size
  vertices : q.vertices = p.vertices
  last : q.last = if after = none then before else p.last

theorem exists_joinGroups? (before after : Option Nat)
    (hbefore : ∀ x, before = some x → x < p.groups.size)
    (hafter : ∀ x, after = some x → x < p.groups.size) :
    ∃ q, p.joinGroups? before after = some q ∧ JoinsGroups before after p q := by
  obtain ⟨q, hq, hqgroups, hqsize, hqvertices, hqlast⟩ :=
    p.exists_setNextGroup? before after hbefore
  obtain ⟨r, hr, hrgroups, hrsize, hrvertices, hrlast⟩ :=
    q.exists_setPrevGroup? before after (hqsize ▸ hafter)
  refine ⟨r, ?_, ?_, ?_, hrsize.trans hqsize, hrvertices.trans hqvertices, by rw [hrlast, hqlast]⟩
  · rw [joinGroups?, hq]
    exact hr
  · funext x
    rw [Links.join, groupLinks, groupLinks, hrgroups, hqgroups]
    cases p.groups[x]? with
    | none => rfl
    | some c =>
        simp only [Option.map_some, relink]
        split <;> split <;> rfl
  · funext x
    rw [body?, body?, hrgroups, hqgroups]
    cases p.groups[x]? with
    | none => rfl
    | some c =>
        simp only [Option.map_some]
        split <;> split <;> rfl

theorem exists_setNextVertex? (before after : Option Nat)
    (hid : id < p.groups.size)
    (hbefore : ∀ x, before = some x → x < p.vertices.size) :
    ∃ q, p.setNextVertex? id before after = some q ∧
      (∀ x, q.groups[x]? = (p.groups[x]?).map fun c =>
        if x = id ∧ before = none then { c with head := after } else c) ∧
      (∀ x, q.vertices[x]? = (p.vertices[x]?).map fun c =>
        if some x = before then { c with next := after } else c) ∧
      q.groups.size = p.groups.size ∧ q.vertices.size = p.vertices.size ∧ q.last = p.last := by
  cases before with
  | none =>
      obtain ⟨q, hq, hgroups, hsize, hvertices, hlast⟩ :=
        p.exists_setGroup? (fun c => { c with head := after }) hid
      exact ⟨q, hq, by simpa using hgroups, by simp [hvertices], hsize, by rw [hvertices], hlast⟩
  | some v =>
      obtain ⟨q, hq, hvertices, hsize, hgroups, hlast⟩ :=
        p.exists_setVertex? (fun c => { c with next := after }) (hbefore v rfl)
      exact ⟨q, hq, by simp [hgroups], by simpa using hvertices, by rw [hgroups], hsize, hlast⟩

theorem exists_setPrevVertex? (before after : Option Nat)
    (hid : id < p.groups.size)
    (hafter : ∀ x, after = some x → x < p.vertices.size) :
    ∃ q, p.setPrevVertex? id before after = some q ∧
      (∀ x, q.groups[x]? = (p.groups[x]?).map fun c =>
        if x = id ∧ after = none then { c with tail := before } else c) ∧
      (∀ x, q.vertices[x]? = (p.vertices[x]?).map fun c =>
        if some x = after then { c with prev := before } else c) ∧
      q.groups.size = p.groups.size ∧ q.vertices.size = p.vertices.size ∧ q.last = p.last := by
  cases after with
  | none =>
      obtain ⟨q, hq, hgroups, hsize, hvertices, hlast⟩ :=
        p.exists_setGroup? (fun c => { c with tail := before }) hid
      exact ⟨q, hq, by simpa using hgroups, by simp [hvertices], hsize, by rw [hvertices], hlast⟩
  | some v =>
      obtain ⟨q, hq, hvertices, hsize, hgroups, hlast⟩ :=
        p.exists_setVertex? (fun c => { c with prev := before }) (hafter v rfl)
      exact ⟨q, hq, by simp [hgroups], by simpa using hvertices, by rw [hgroups], hsize, hlast⟩

/-- What joining two vertices of a group changes. -/
structure JoinsVertices (id : GroupId) (before after : Option Vertex) (p q : LinkedGroups) :
    Prop where
  groupLinks : q.groupLinks = p.groupLinks
  body : ∀ x, q.body? x = (p.body? x).map fun c =>
    if x = id then
      { c with
        head := if before = none then after else c.head
        tail := if after = none then before else c.tail }
    else c
  vertexLinks : q.vertexLinks = p.vertexLinks.join before after
  state : q.state? = p.state?
  groupsSize : q.groups.size = p.groups.size
  size : q.vertices.size = p.vertices.size
  last : q.last = p.last

theorem exists_joinVertices? (before after : Option Nat)
    (hid : id < p.groups.size)
    (hbefore : ∀ x, before = some x → x < p.vertices.size)
    (hafter : ∀ x, after = some x → x < p.vertices.size) :
    ∃ q, p.joinVertices? id before after = some q ∧ JoinsVertices id before after p q := by
  obtain ⟨q, hq, hqgroups, hqvertices, hqgsize, hqvsize, hqlast⟩ :=
    p.exists_setNextVertex? before after hid hbefore
  obtain ⟨r, hr, hrgroups, hrvertices, hrgsize, hrvsize, hrlast⟩ :=
    q.exists_setPrevVertex? before after (hqgsize ▸ hid) (hqvsize ▸ hafter)
  refine ⟨r, ?_, ?_, ?_, ?_, ?_, hrgsize.trans hqgsize, hrvsize.trans hqvsize, hrlast.trans hqlast⟩
  · rw [joinVertices?, hq]
    exact hr
  · funext x
    rw [groupLinks, groupLinks, hrgroups, hqgroups]
    cases p.groups[x]? with
    | none => rfl
    | some c =>
        simp only [Option.map_some]
        split <;> split <;> rfl
  · intro x
    rw [body?, body?, hrgroups, hqgroups]
    cases p.groups[x]? with
    | none => rfl
    | some c =>
        simp only [Option.map_some]
        by_cases hx : x = id <;> cases before <;> cases after <;> simp [hx]
  · funext x
    rw [Links.join, vertexLinks, vertexLinks, hrvertices, hqvertices]
    cases p.vertices[x]? with
    | none => rfl
    | some c =>
        simp only [Option.map_some, relink]
        split <;> split <;> rfl
  · funext x
    rw [state?, state?, hrvertices, hqvertices]
    cases p.vertices[x]? with
    | none => rfl
    | some c =>
        simp only [Option.map_some]
        split <;> split <;> rfl

/-- A new group stands where it was put, and nothing is in it. -/
theorem exists_insertGroup? {as bs : List GroupId} (hnodup : (as ++ bs).Nodup)
    (hlt : ∀ x ∈ as ++ bs, x < p.groups.size) (hrow : Chained p.groupLinks none (as ++ bs) none)
    (hlast : p.last = (as ++ bs).getLast?) (hbefore : as.getLast? = before)
    (hafter : bs.head? = after) :
    ∃ q, p.insertGroup? before after = some (q, p.groups.size) ∧
      Chained q.groupLinks none (as ++ p.groups.size :: bs) none ∧
      q.last = (as ++ p.groups.size :: bs).getLast? ∧ q.body? p.groups.size = some {} ∧
      (∀ x ∈ as ++ bs, q.body? x = p.body? x) ∧ q.vertices = p.vertices := by
  have hlas : ∀ x ∈ as, x < p.groups.size := fun x hx => hlt x (List.mem_append_left _ hx)
  have hlbs : ∀ x ∈ bs, x < p.groups.size := fun x hx => hlt x (List.mem_append_right _ hx)
  -- First the group stands there without links, then it is joined on both sides.
  obtain ⟨start, hstart⟩ : ∃ start : LinkedGroups, start = { p with groups := p.groups.push {} } :=
    ⟨_, rfl⟩
  have hread : ∀ x, x < p.groups.size → start.groups[x]? = p.groups[x]? := by
    intro x hx
    rw [hstart, Array.getElem?_push, if_neg hx.ne]
  have hnew : start.groups[p.groups.size]? = some {} := by simp [hstart]
  have hsize : start.groups.size = p.groups.size + 1 := by simp [hstart]
  have hlinks : ∀ x, x < p.groups.size → start.groupLinks x = p.groupLinks x := fun x hx => by
    rw [groupLinks, groupLinks, hread x hx]
  obtain ⟨hlow, hhigh⟩ := Chained.append.1 hrow
  replace hlow := hlow.congr fun x hx => hlinks x (hlas x hx)
  replace hhigh := hhigh.congr fun x hx => hlinks x (hlbs x hx)
  have hsingle : Chained start.groupLinks none [p.groups.size] none := by
    refine ⟨?_, trivial⟩
    rw [groupLinks, hnew]
    rfl
  have hnodup' : (as ++ [p.groups.size] ++ bs).Nodup := by
    rw [List.append_assoc, List.singleton_append, List.nodup_middle]
    exact List.nodup_cons.2 ⟨fun hin => (hlt _ hin).ne rfl, hnodup⟩
  have hltbefore : ∀ x, before = some x → x < start.groups.size := by
    rintro x rfl
    exact hsize ▸ Nat.lt_succ_of_lt (hlas x (List.mem_of_getLast? hbefore))
  have hltafter : ∀ x, after = some x → x < start.groups.size := by
    rintro x rfl
    exact hsize ▸ Nat.lt_succ_of_lt (hlbs x (List.mem_of_head? hafter))
  have hltnew : ∀ x, some p.groups.size = some x → x < start.groups.size := by
    rintro x ⟨⟩
    exact hsize ▸ Nat.lt_succ_self _
  obtain ⟨first, hfirst, jfirst⟩ := start.exists_joinGroups? _ _ hltbefore hltnew
  obtain ⟨q, hq, jq⟩ := first.exists_joinGroups? _ _ (jfirst.size ▸ hltnew) (jfirst.size ▸ hltafter)
  have hjoined := hlow.join hsingle (List.nodup_append.1 hnodup').1 hbefore rfl fun _ => rfl
  have hkept : Chained (start.groupLinks.join before (some p.groups.size))
      (as.getLast?.or none) bs none := by
    refine hhigh.join_of_notMem ?_ ?_
    · rintro x hx rfl
      exact (List.nodup_append.1 hnodup).2.2 x (List.mem_of_getLast? hbefore) x hx rfl
    · rintro x hx ⟨⟩
      exact (hlbs _ hx).ne rfl
  rw [List.head?_cons, ← jfirst.groupLinks] at hjoined
  rw [← jfirst.groupLinks] at hkept
  have hall := hjoined.join hkept hnodup' List.getLast?_concat hafter fun _ => rfl
  rw [List.append_assoc, List.singleton_append, ← jq.groupLinks] at hall
  refine ⟨q, ?_, hall, ?_, ?_, fun x hx => ?_, ?_⟩
  · rw [insertGroup?, ← hstart, hfirst, Option.bind_eq_bind, Option.bind_some, hq]
    rfl
  · rw [jq.last, jfirst.last, if_neg (Option.some_ne_none _), hstart, ← hafter]
    cases bs with
    | nil => simp
    | cons b bs => simp [hlast]
  · rw [jq.body, jfirst.body, body?, hnew]
    rfl
  · rw [jq.body, jfirst.body, body?, body?, hread x (hlt x hx)]
  · rw [jq.vertices, jfirst.vertices, hstart]

/-! ## Shown groups -/

/-- A group as it is to be read: its place, the place of its new group, and its vertices in order. -/
structure Block where
  id : GroupId
  replacement : Option GroupId := none
  members : List Vertex := []
deriving DecidableEq, Repr

/-- What stands at the place of the group, apart from the links. -/
def Block.body (b : Block) : GroupCell :=
  { head := b.members.head?
    tail := b.members.getLast?
    size := b.members.length
    replacement := b.replacement }

/-- All vertices of the groups. -/
def members (blocks : List Block) : List Vertex := blocks.flatMap Block.members

theorem members_concat_perm {as bs : List Block} (b : Block) :
    (members (as ++ { b with members := b.members ++ [v] } :: bs)).Perm
      (v :: members (as ++ b :: bs)) := by
  simp only [members, List.flatMap_append, List.flatMap_cons, List.append_assoc,
    List.singleton_append]
  rw [← List.append_assoc, ← List.append_assoc]
  exact List.perm_middle

/-- The linked groups hold the given ones in the given order, the last one to be visited next. The
vertices that wait are those that were not visited. -/
structure Shows (bound : Nat) (waiting : Vertex → Prop) (p : LinkedGroups) (blocks : List Block) :
    Prop where
  ids : (blocks.map Block.id).Nodup
  nodup : (members blocks).Nodup
  row : Chained p.groupLinks none (blocks.map Block.id) none
  last : p.last = (blocks.map Block.id).getLast?
  body : ∀ b ∈ blocks, p.body? b.id = some b.body
  rows : ∀ b ∈ blocks, Chained p.vertexLinks none b.members none
  home : ∀ b ∈ blocks, ∀ v ∈ b.members, ∃ c, p.state? v = some c ∧ c.group = some b.id
  size : p.vertices.size = bound
  visited : ∀ v c, p.state? v = some c → (c.visited = false ↔ waiting v)

namespace Shows

variable {bound : Nat} {waiting : Vertex → Prop} {as bs blocks : List Block} {b : Block}

theorem congr {other : Vertex → Prop} (h : Shows bound waiting p blocks)
    (hother : ∀ v, other v ↔ waiting v) : Shows bound other p blocks :=
  { h with visited := fun v c hc => (h.visited v c hc).trans (hother v).symm }

theorem id_lt (h : Shows bound waiting p blocks) (hb : b ∈ blocks) : b.id < p.groups.size :=
  lt_size_of_body? (h.body b hb)

theorem member_lt (h : Shows bound waiting p blocks) (hv : v ∈ members blocks) :
    v < p.vertices.size := by
  obtain ⟨b, hb, hv⟩ := List.mem_flatMap.1 hv
  obtain ⟨sides, hsides⟩ := (h.rows b hb).exists_links hv
  exact lt_size_of_vertexLinks hsides

/-- Nothing but one group changed, and that one only in what it holds. -/
theorem update (h : Shows bound waiting p (as ++ b :: bs)) (b' : Block) (hid : b'.id = b.id)
    (hnodup : (members (as ++ b' :: bs)).Nodup) (hlinks : q.groupLinks = p.groupLinks)
    (hlast : q.last = p.last)
    (hbody : ∀ x, q.body? x = if x = b.id then some b'.body else p.body? x)
    (hrows : ∀ c ∈ as ++ b' :: bs, Chained q.vertexLinks none c.members none)
    (hhome : ∀ c ∈ as ++ b' :: bs, ∀ v ∈ c.members, ∃ s, q.state? v = some s ∧ s.group = some c.id)
    (hsize : q.vertices.size = bound) {other : Vertex → Prop}
    (hvisited : ∀ v c, q.state? v = some c → (c.visited = false ↔ other v)) :
    Shows bound other q (as ++ b' :: bs) := by
  have hids : (as ++ b' :: bs).map Block.id = (as ++ b :: bs).map Block.id := by
    rw [List.map_append, List.map_append, List.map_cons, List.map_cons, hid]
  refine ⟨hids ▸ h.ids, hnodup, ?_, ?_, ?_, hrows, hhome, hsize, hvisited⟩
  · rw [hlinks, hids]
    exact h.row
  · rw [hlast, hids]
    exact h.last
  · intro c hc
    rw [hbody]
    -- the identities are distinct, so that only one group changed
    by_cases hcb : c.id = b.id
    · have hcb' : c = b' := List.inj_on_of_nodup_map (hids ▸ h.ids) hc (by simp) (hcb.trans hid.symm)
      rw [if_pos hcb, hcb']
    · have hne : c ≠ b' := fun heq => hcb (heq ▸ hid)
      rw [if_neg hcb]
      refine h.body c ?_
      rw [List.mem_append, List.mem_cons] at hc ⊢
      exact hc.imp_right fun hin => Or.inr (hin.resolve_left hne)

/-- Only the groups changed, or only their number and order. -/
theorem of_vertices_eq (h : Shows bound waiting p blocks) (hvertices : q.vertices = p.vertices)
    {others : List Block} (hids : (others.map Block.id).Nodup)
    (hmembers : (members others).Nodup)
    (hheld : ∀ c ∈ others, c.members ≠ [] → ∃ b ∈ blocks, b.id = c.id ∧ b.members = c.members)
    (hrow : Chained q.groupLinks none (others.map Block.id) none)
    (hlast : q.last = (others.map Block.id).getLast?)
    (hbody : ∀ c ∈ others, q.body? c.id = some c.body) : Shows bound waiting q others := by
  have hlinks := vertexLinks_congr hvertices
  have hstate := state?_congr hvertices
  refine ⟨hids, hmembers, hrow, hlast, hbody, fun c hc => ?_, fun c hc v hv => ?_, ?_, ?_⟩
  · -- an empty group has no vertices to be linked
    by_cases hnil : c.members = []
    · rw [hnil]
      trivial
    · obtain ⟨b, hb, -, heq⟩ := hheld c hc hnil
      rw [hlinks, ← heq]
      exact h.rows b hb
  · obtain ⟨b, hb, hid, heq⟩ := hheld c hc (List.ne_nil_of_mem hv)
    rw [hstate, ← hid]
    exact h.home b hb v (heq ▸ hv)
  · rw [hvertices]
    exact h.size
  · rw [hstate]
    exact h.visited

/-- A new empty group. -/
theorem insertGroup (h : Shows bound waiting p (as ++ bs))
    (hbefore : (as.map Block.id).getLast? = before) (hafter : (bs.map Block.id).head? = after) :
    ∃ q, p.insertGroup? before after = some (q, p.groups.size) ∧
      Shows bound waiting q (as ++ { id := p.groups.size } :: bs) := by
  have hids := h.ids
  have hrow := h.row
  have hlast := h.last
  rw [List.map_append] at hids hrow hlast
  have hlt : ∀ x ∈ as.map Block.id ++ bs.map Block.id, x < p.groups.size := by
    intro x hx
    rw [← List.map_append] at hx
    obtain ⟨b, hb, rfl⟩ := List.mem_map.1 hx
    exact h.id_lt hb
  obtain ⟨q, hq, hqrow, hqlast, hqnew, hqbody, hqvertices⟩ :=
    exists_insertGroup? hids hlt hrow hlast hbefore hafter
  have hlist : (as ++ { id := p.groups.size } :: bs).map Block.id =
      as.map Block.id ++ p.groups.size :: bs.map Block.id := by
    rw [List.map_append, List.map_cons]
  refine ⟨q, hq, h.of_vertices_eq hqvertices ?_ ?_ ?_ (hlist ▸ hqrow) (hlist ▸ hqlast) ?_⟩
  · rw [hlist, List.nodup_middle]
    exact List.nodup_cons.2 ⟨fun hin => (hlt _ hin).ne rfl, hids⟩
  · have := h.nodup
    simpa [members] using this
  · intro c hc hne
    rw [List.mem_append, List.mem_cons] at hc
    -- every other group is an old one
    rcases hc with hc | rfl | hc
    · exact ⟨c, List.mem_append_left _ hc, rfl, rfl⟩
    · exact absurd rfl hne
    · exact ⟨c, List.mem_append_right _ hc, rfl, rfl⟩
  · intro c hc
    rw [List.mem_append, List.mem_cons] at hc
    rcases hc with hc | rfl | hc
    · rw [hqbody _ (List.mem_append_left _ (List.mem_map_of_mem hc))]
      exact h.body c (List.mem_append_left _ hc)
    · exact hqnew
    · rw [hqbody _ (List.mem_append_right _ (List.mem_map_of_mem hc))]
      exact h.body c (List.mem_append_right _ hc)

/-- The place of the new group is entered or cleared. -/
theorem setReplacement (h : Shows bound waiting p (as ++ b :: bs)) (target : Option GroupId) :
    ∃ q, p.setGroup? b.id (fun c => { c with replacement := target }) = some q ∧
      Shows bound waiting q (as ++ { b with replacement := target } :: bs) := by
  have hb : b ∈ as ++ b :: bs := by simp
  obtain ⟨q, hq, hlinks, hbody, hvertices, hlast⟩ :=
    p.exists_setBody? (fun c => { c with replacement := target }) (h.id_lt hb)
      fun _ => ⟨rfl, rfl, rfl⟩
  have hheld : ∀ c ∈ as ++ { b with replacement := target } :: bs,
      ∃ d ∈ as ++ b :: bs, d.id = c.id ∧ d.members = c.members := by
    intro c hc
    rw [List.mem_append, List.mem_cons] at hc
    rcases hc with hc | rfl | hc
    · exact ⟨c, List.mem_append_left _ hc, rfl, rfl⟩
    · exact ⟨b, hb, rfl, rfl⟩
    · exact ⟨c, List.mem_append_right _ (List.mem_cons_of_mem _ hc), rfl, rfl⟩
  refine ⟨q, hq, h.update { b with replacement := target } rfl ?_ hlinks hlast
    (fun x => ?_) (fun c hc => ?_) (fun c hc v hv => ?_)
    (hvertices ▸ h.size) (state?_congr hvertices ▸ h.visited)⟩
  · have := h.nodup
    simpa [members] using this
  · -- the cell of the group changes in this field only
    rw [hbody]
    by_cases hx : x = b.id
    · rw [hx, h.body b hb]
      simp [Block.body]
    · simp [hx]
  · obtain ⟨d, hd, -, heq⟩ := hheld c hc
    rw [vertexLinks_congr hvertices, ← heq]
    exact h.rows d hd
  · obtain ⟨d, hd, hid, heq⟩ := hheld c hc
    rw [state?_congr hvertices, ← hid]
    exact h.home d hd v (heq ▸ hv)

/-- A group is taken out. -/
theorem removeGroup (h : Shows bound waiting p (as ++ b :: bs)) :
    ∃ q, p.removeGroup? b.id = some q ∧ Shows bound waiting q (as ++ bs) := by
  have hids := h.ids
  have hrow := h.row
  have hlast := h.last
  rw [List.map_append, List.map_cons] at hids hrow hlast
  -- the links of the group are its two neighbours
  obtain ⟨hlow, hb, hhigh⟩ := Chained.append.1 hrow
  obtain ⟨c, hc, hsides⟩ := Option.map_eq_some_iff.1 hb
  rw [Option.or_none, Option.or_none, Prod.mk.injEq] at hsides
  have hidsub : (as.map Block.id ++ bs.map Block.id).Nodup :=
    hids.sublist ((List.sublist_cons_self _ _).append_left _)
  have hlt : ∀ x ∈ (as ++ bs).map Block.id, x < p.groups.size := by
    intro x hx
    obtain ⟨d, hd, rfl⟩ := List.mem_map.1 hx
    exact h.id_lt (mem_middle.2 (Or.inr hd))
  rw [List.map_append] at hlt
  obtain ⟨q, hq, jq⟩ := p.exists_joinGroups? c.prev c.next
    (fun x hx => hlt x (List.mem_append_left _ (List.mem_of_getLast? (hsides.1 ▸ hx))))
    (fun x hx => hlt x (List.mem_append_right _ (List.mem_of_head? (hsides.2 ▸ hx))))
  refine ⟨q, ?_, h.of_vertices_eq jq.vertices ?_ ?_
    (fun d hd _ => ⟨d, mem_middle.2 (Or.inr hd), rfl, rfl⟩) ?_ ?_ ?_⟩
  · rw [removeGroup?, hc]
    exact hq
  · rwa [List.map_append]
  · have := h.nodup
    simp only [members, List.flatMap_append, List.flatMap_cons] at this ⊢
    exact this.sublist ((List.sublist_append_right _ _).append_left _)
  · rw [jq.groupLinks, List.map_append]
    exact hlow.join hhigh hidsub hsides.1.symm hsides.2.symm fun _ => rfl
  · rw [jq.last, List.map_append, hsides.1, hsides.2]
    cases bs with
    | nil => simp
    | cons d bs => simp [hlast]
  · intro d hd
    rw [jq.body]
    exact h.body d (mem_middle.2 (Or.inr hd))

/-- The vertices of different groups are different. -/
theorem ne_of_mem (h : Shows bound waiting p (as ++ b :: bs)) {c : Block} (hc : c ∈ as ++ bs)
    (hv : v ∈ c.members) (hw : w ∈ b.members) : v ≠ w := by
  have hnodup := h.nodup
  rw [members, List.flatMap_append, List.flatMap_cons, List.nodup_append] at hnodup
  obtain ⟨-, hright, hleft⟩ := hnodup
  rcases List.mem_append.1 hc with hc | hc
  · exact hleft v (List.mem_flatMap.2 ⟨c, hc, hv⟩) w (List.mem_append_left _ hw)
  · exact ((List.nodup_append.1 hright).2.2 w hw v (List.mem_flatMap.2 ⟨c, hc, hv⟩)).symm

/-- A vertex is taken out of its group. -/
theorem unlink (h : Shows bound waiting p (as ++ b :: bs)) (xs ys : List Vertex)
    (hb : b.members = xs ++ v :: ys) :
    ∃ q, p.unlink? v = some q ∧
      Shows bound waiting q (as ++ { b with members := xs ++ ys } :: bs) := by
  have hin : b ∈ as ++ b :: bs := by simp
  have hvb : v ∈ b.members := by simp [hb]
  have hrow := h.rows b hin
  rw [hb] at hrow
  obtain ⟨hlow, hv, hhigh⟩ := Chained.append.1 hrow
  obtain ⟨c, hc, hsides⟩ := Option.map_eq_some_iff.1 hv
  rw [Option.or_none, Option.or_none, Prod.mk.injEq] at hsides
  have hgroup : c.group = some b.id := by
    obtain ⟨s, hs, hgroup⟩ := h.home b hin v hvb
    rw [state?, hc] at hs
    cases hs
    exact hgroup
  have hprev : ∀ x, c.prev = some x → x ∈ b.members := fun x hx => by
    rw [hb]
    exact List.mem_append_left _ (List.mem_of_getLast? (hsides.1 ▸ hx))
  have hnext : ∀ x, c.next = some x → x ∈ b.members := fun x hx => by
    rw [hb]
    exact List.mem_append_right _ (List.mem_cons_of_mem _ (List.mem_of_head? (hsides.2 ▸ hx)))
  have hlt : ∀ x ∈ b.members, x < p.vertices.size := fun x hx =>
    h.member_lt (List.mem_flatMap.2 ⟨b, hin, hx⟩)
  obtain ⟨first, hfirst, jfirst⟩ := p.exists_joinVertices? _ _ (h.id_lt hin)
    (fun x hx => hlt x (hprev x hx)) (fun x hx => hlt x (hnext x hx))
  obtain ⟨q, hq, hlinks, hbody, hvertices, hlast⟩ :=
    first.exists_setBody? (fun c => { c with size := c.size - 1 }) (jfirst.groupsSize ▸ h.id_lt hin)
      fun _ => ⟨rfl, rfl, rfl⟩
  have hnodup : (xs ++ ys).Nodup := by
    have := (List.nodup_flatMap.1 h.nodup).1 b hin
    rw [hb] at this
    exact this.sublist ((List.sublist_cons_self _ _).append_left _)
  refine ⟨q, ?_, h.update { b with members := xs ++ ys } rfl ?_ (hlinks.trans jfirst.groupLinks)
    (hlast.trans jfirst.last) (fun x => ?_) (fun d hd => ?_) (fun d hd w hw => ?_) ?_ ?_⟩
  · rw [unlink?, hc, Option.bind_eq_bind, Option.bind_some, hgroup, Option.bind_eq_bind,
      Option.bind_some, hfirst]
    exact hq
  · have := h.nodup
    simp only [members, List.flatMap_append, List.flatMap_cons, hb] at this ⊢
    exact this.sublist ((((List.sublist_cons_self _ _).append_left _).append_right _).append_left _)
  · rw [hbody, jfirst.body]
    by_cases hx : x = b.id
    · rw [hx, h.body b hin]
      simp only [Option.map_some, if_pos, Block.body, hb, hsides.1, hsides.2]
      -- The ends of the group change only if the vertex was one of them.
      rcases List.eq_nil_or_concat xs with rfl | ⟨xs, x, rfl⟩ <;> cases ys <;> simp
    · simp [hx]
  · rw [vertexLinks_congr hvertices, jfirst.vertexLinks]
    rcases mem_middle.1 hd with rfl | hd
    · exact hlow.join hhigh hnodup hsides.1.symm hsides.2.symm fun _ => rfl
    · refine (h.rows d (mem_middle.2 (Or.inr hd))).join_of_notMem (fun x hx heq => ?_) (fun x hx heq => ?_)
      · exact h.ne_of_mem hd hx (hprev x heq.symm) rfl
      · exact h.ne_of_mem hd hx (hnext x heq.symm) rfl
  · rw [state?_congr hvertices, jfirst.state]
    rcases mem_middle.1 hd with rfl | hd
    · refine h.home b hin w ?_
      rw [hb]
      exact ((List.sublist_cons_self v ys).append_left xs).subset hw
    · exact h.home d (mem_middle.2 (Or.inr hd)) w hw
  · rw [hvertices, jfirst.size]
    exact h.size
  · rw [state?_congr hvertices, jfirst.state]
    exact h.visited

/-- The members of each group are linked in their order when a vertex that no group holds was joined
to the last one of a group. -/
theorem rows_append (h : Shows bound waiting p (as ++ b :: bs)) (hv : v ∉ members (as ++ b :: bs))
    (hlt : v < p.vertices.size) :
    ∀ d ∈ as ++ { b with members := b.members ++ [v] } :: bs,
      Chained ((p.vertexLinks.join b.members.getLast? (some v)).join (some v) none) none d.members
        none := by
  have hin : b ∈ as ++ b :: bs := by simp
  intro d hd
  rcases mem_middle.1 hd with rfl | hd
  · obtain ⟨⟨left, right⟩, hsides⟩ := exists_vertexLinks hlt
    have hnodup : (b.members ++ [v]).Nodup :=
      List.nodup_append.2 ⟨(List.nodup_flatMap.1 h.nodup).1 b hin, List.nodup_singleton v, by
        rintro x hx y hy rfl
        exact hv (List.mem_flatMap.2 ⟨b, hin, List.mem_singleton.1 hy ▸ hx⟩)⟩
    -- the vertex on its own is a chain that is joined to the end of the others
    have hsingle : Chained p.vertexLinks left [v] right := ⟨hsides, trivial⟩
    have hjoined := (h.rows b hin).join hsingle hnodup rfl rfl (fun hnil => nomatch hnil)
    exact hjoined.join_front hnodup List.getLast?_concat fun _ _ heq => nomatch heq
  · have hne : ∀ x ∈ d.members, some x ≠ some v := by
      rintro x hx ⟨⟩
      exact hv (List.mem_flatMap.2 ⟨d, mem_middle.2 (Or.inr hd), hx⟩)
    refine Chained.join_of_notMem ?_ hne fun _ _ heq => nomatch heq
    refine (h.rows d (mem_middle.2 (Or.inr hd))).join_of_notMem (fun x hx heq => ?_) hne
    exact h.ne_of_mem hd hx (List.mem_of_getLast? heq.symm) rfl

/-- The cell of every member names its group when a vertex was noted as a member of one more. -/
theorem home_append {q : LinkedGroups} (h : Shows bound waiting p (as ++ b :: bs))
    (hv : v ∉ members (as ++ b :: bs)) (hlt : v < p.vertices.size)
    (hstate : ∀ x, q.state? x = (p.state? x).map fun c =>
      if x = v then { c with group := some b.id, visited := false } else c) :
    ∀ d ∈ as ++ { b with members := b.members ++ [v] } :: bs, ∀ w ∈ d.members,
      ∃ c, q.state? w = some c ∧ c.group = some d.id := by
  intro d hd w hw
  rw [hstate]
  by_cases hwv : w = v
  · obtain ⟨s, hs⟩ := p.exists_state? hlt
    rcases mem_middle.1 hd with rfl | hd
    · exact ⟨_, by rw [hwv, hs, Option.map_some, if_pos rfl], rfl⟩
    · exact absurd (List.mem_flatMap.2 ⟨d, mem_middle.2 (Or.inr hd), hwv ▸ hw⟩) hv
  · have hold : ∃ c ∈ as ++ b :: bs, c.id = d.id ∧ w ∈ c.members := by
      rcases mem_middle.1 hd with rfl | hd
      · exact ⟨b, by simp, rfl, by simpa [hwv] using hw⟩
      · exact ⟨d, mem_middle.2 (Or.inr hd), rfl, hw⟩
    obtain ⟨c, hc, hid, hwc⟩ := hold
    obtain ⟨s, hs, hgroup⟩ := h.home c hc w hwc
    exact ⟨s, by rw [hs, Option.map_some, if_neg hwv], hgroup.trans (congrArg some hid)⟩

/-- A vertex that no group holds is put at the end of a group. -/
theorem append (h : Shows bound waiting p (as ++ b :: bs)) (hv : v ∉ members (as ++ b :: bs))
    (hbound : v < bound) :
    ∃ q, p.append? b.id v = some q ∧
      Shows bound (fun w => w = v ∨ waiting w) q
        (as ++ { b with members := b.members ++ [v] } :: bs) := by
  have hin : b ∈ as ++ b :: bs := by simp
  obtain ⟨c, hc, hbodyc⟩ := Option.map_eq_some_iff.1 (h.body b hin)
  have htail : c.tail = b.members.getLast? := (congrArg GroupCell.tail hbodyc :)
  have hlt : ∀ x, b.members.getLast? = some x → x < p.vertices.size := fun x hx =>
    h.member_lt (List.mem_flatMap.2 ⟨b, hin, List.mem_of_getLast? hx⟩)
  have hvlt : ∀ x, some v = some x → x < p.vertices.size := by
    rintro x ⟨⟩
    exact h.size ▸ hbound
  obtain ⟨start, hstart, slinks, sstate, sgroups, ssize, slast⟩ :=
    p.exists_setState? (fun c => { c with group := some b.id, visited := false })
      (hvlt v rfl) fun _ => ⟨rfl, rfl, rfl⟩
  obtain ⟨first, hfirst, jfirst⟩ := start.exists_joinVertices? _ _ (sgroups ▸ h.id_lt hin)
    (ssize ▸ hlt) (ssize ▸ hvlt)
  obtain ⟨second, hsecond, jsecond⟩ := first.exists_joinVertices? (some v) none
    (jfirst.groupsSize ▸ sgroups ▸ h.id_lt hin) (jfirst.size ▸ ssize ▸ hvlt)
    (fun _ hx => nomatch hx)
  obtain ⟨q, hq, hlinks, hbody, hvertices, hlast⟩ :=
    second.exists_setBody? (fun c => { c with size := c.size + 1 })
      (jsecond.groupsSize ▸ jfirst.groupsSize ▸ sgroups ▸ h.id_lt hin) fun _ => ⟨rfl, rfl, rfl⟩
  -- the writes to the links leave the other fields of a vertex alone
  have hstate : ∀ x, q.state? x = (p.state? x).map fun c =>
      if x = v then { c with group := some b.id, visited := false } else c := by
    intro x
    rw [state?_congr hvertices, jsecond.state, jfirst.state, sstate]
  refine ⟨q, ?_, h.update { b with members := b.members ++ [v] } rfl ?_ ?_ ?_ (fun x => ?_)
    (fun d hd => ?_) (fun d hd w hw => ?_) ?_ ?_⟩
  · rw [append?, hc, Option.bind_eq_bind, Option.bind_some, hstart, Option.bind_eq_bind,
      Option.bind_some, htail, hfirst, Option.bind_some, hsecond]
    exact hq
  · exact (members_concat_perm b).nodup_iff.2 (List.nodup_cons.2 ⟨hv, h.nodup⟩)
  · rw [hlinks, jsecond.groupLinks, jfirst.groupLinks, groupLinks_congr sgroups]
  · rw [hlast, jsecond.last, jfirst.last, slast]
  · rw [hbody, jsecond.body, jfirst.body, body?_congr sgroups]
    by_cases hx : x = b.id
    · rw [hx, h.body b hin]
      simp only [Option.map_some, if_pos, Block.body, List.getLast?_concat]
      cases b.members <;> simp
    · simp [hx]
  · rw [vertexLinks_congr hvertices, jsecond.vertexLinks, jfirst.vertexLinks, slinks]
    exact h.rows_append hv (hvlt v rfl) d hd
  · exact h.home_append hv (hvlt v rfl) hstate d hd w hw
  · rw [hvertices, jsecond.size, jfirst.size, ssize]
    exact h.size
  · intro w s hs
    rw [hstate] at hs
    obtain ⟨old, hold, rfl⟩ := Option.map_eq_some_iff.1 hs
    by_cases hwv : w = v
    · simp [hwv]
    · simpa [hwv] using h.visited w old hold

/-- A vertex that no group holds has been visited. -/
theorem setVisited (h : Shows bound waiting p blocks) (hv : v ∉ members blocks)
    (hbound : v < bound) :
    ∃ q, p.setVertex? v (fun c => { c with visited := true }) = some q ∧
      Shows bound (fun w => w ≠ v ∧ waiting w) q blocks := by
  obtain ⟨q, hq, hlinks, hstate, hgroups, hsize, hlast⟩ :=
    p.exists_setState? (fun c => { c with visited := true }) (h.size ▸ hbound)
      fun _ => ⟨rfl, rfl, rfl⟩
  refine ⟨q, hq, h.ids, h.nodup, groupLinks_congr hgroups ▸ h.row, hlast.trans h.last,
    body?_congr hgroups ▸ h.body, hlinks ▸ h.rows, fun b hb w hw => ?_, hsize.trans h.size,
    fun w s hs => ?_⟩
  · have hwv : w ≠ v := fun heq => hv (List.mem_flatMap.2 ⟨b, hb, heq ▸ hw⟩)
    obtain ⟨s, hs, hgroup⟩ := h.home b hb w hw
    exact ⟨s, by rw [hstate, hs, Option.map_some, if_neg hwv], hgroup⟩
  · rw [hstate] at hs
    obtain ⟨old, hold, rfl⟩ := Option.map_eq_some_iff.1 hs
    by_cases hwv : w = v
    · simp [hwv]
    · simpa [hwv] using h.visited w old hold

end Shows

end LinkedGroups

end CliquePath
