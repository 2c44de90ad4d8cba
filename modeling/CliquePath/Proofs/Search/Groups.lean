import CliquePath.Search.Groups
import Mathlib.Tactic

set_option autoImplicit false

/-!
# The order of a lexicographic search

This module says in which order a lexicographic breadth-first search visits the vertices of its
groups. Moving the neighbours of a vertex out of their groups divides every group into those
neighbours and the rest. So the vertices of one group always have the same visited neighbours, and a
vertex in an earlier group has the first visited neighbour that tells it from one in a later group.

The search may be given vertices to be visited last. They stay behind all others.
-/

namespace CliquePath

/-- The group divided into the given vertices that it holds and the others. -/
def Split.along (moving group : List Vertex) : Split :=
  ⟨moving.filter group.contains, group.filter fun v => !moving.contains v⟩

namespace Groups

variable {g : Graph} {groups : Groups} {done moving group : List Vertex} {v : Vertex} {n : Nat}

/-! ## One round -/

theorem along_append_of_notMem (hv : v ∉ group) :
    Split.along (done ++ [v]) group = Split.along done group := by
  have hfilter : group.filter (fun w => !(done ++ [v]).contains w) =
      group.filter fun w => !done.contains w := by
    refine List.filter_congr fun w hw => ?_
    have hwv : w ≠ v := fun heq => hv (heq ▸ hw)
    simp [hwv]
  rw [Split.along, Split.along, hfilter, List.filter_append]
  simp [hv]

theorem move_along (hgroup : group.Nodup) (hv : v ∈ group) :
    (Split.along done group).move v = Split.along (done ++ [v]) group := by
  have herase : (group.filter fun w => !done.contains w).erase v =
      group.filter fun w => !(done ++ [v]).contains w := by
    rw [(hgroup.filter _).erase_eq_filter, List.filter_filter]
    refine List.filter_congr fun w _ => ?_
    by_cases hwv : w = v <;> simp [hwv]
  rw [Split.along, Split.along, Split.move, herase, List.filter_append]
  simp [hv]

theorem promote_along (hgroups : groups.flatten.Nodup) (hv : v ∉ done) :
    promote (groups.map (Split.along done)) v = groups.map (Split.along (done ++ [v])) := by
  induction groups with
  | nil => rfl
  | cons group rest ih =>
      rw [List.flatten_cons, List.nodup_append] at hgroups
      obtain ⟨hgroup, hrest, hdisj⟩ := hgroups
      rw [List.map_cons, List.map_cons, promote]
      -- a vertex is in one group only, and moving it changes no other one
      by_cases hmem : v ∈ group
      · have hkept : (Split.along done group).kept.contains v = true := by
          simp [Split.along, hmem, hv]
        rw [if_pos hkept, move_along hgroup hmem]
        congr 1
        refine List.map_congr_left fun other hother => ?_
        refine (along_append_of_notMem fun hvo => ?_).symm
        exact hdisj v hmem v (List.mem_flatten.2 ⟨other, hother, hvo⟩) rfl
      · have hkept : ¬ (Split.along done group).kept.contains v = true := by
          simp [Split.along, hmem]
        rw [if_neg hkept, along_append_of_notMem hmem, ih hrest]

/-- Moving vertices one at a time divides every group at once. -/
theorem refine_eq (hgroups : groups.flatten.Nodup) (hmoving : moving.Nodup) :
    groups.refine moving = groups.flatMap fun group => (Split.along moving group).groups := by
  -- moving one vertex after the other, from any state in between
  have hfold : ∀ moving done : List Vertex, (done ++ moving).Nodup →
      moving.foldl promote (groups.map (Split.along done)) =
        groups.map (Split.along (done ++ moving)) := by
    intro moving
    induction moving with
    | nil => simp
    | cons v rest ih =>
        intro done hnodup
        have hv : v ∉ done := fun hmem =>
          (List.nodup_append.1 hnodup).2.2 v hmem v List.mem_cons_self rfl
        rw [List.foldl_cons, promote_along hgroups hv, ih _ (by simpa using hnodup)]
        simp
  have hstart : groups.map Split.ofGroup = groups.map (Split.along []) := by
    refine List.map_congr_left fun group _ => ?_
    simp [Split.ofGroup, Split.along]
  rw [refine, hstart, hfold moving [] hmoving, List.nil_append, List.flatMap_map]

theorem mem_groups_along {part : List Vertex} :
    part ∈ (Split.along moving group).groups ↔ part ≠ [] ∧
      (part = moving.filter group.contains ∨ part = group.filter fun v => !moving.contains v) := by
  simp [Split.along, Split.groups, and_comm]

theorem perm_along (hgroup : group.Nodup) (hmoving : moving.Nodup) :
    (Split.along moving group).groups.flatten.Perm group := by
  have hflat : (Split.along moving group).groups.flatten =
      moving.filter group.contains ++ group.filter fun v => !moving.contains v := by
    simp only [Split.along, Split.groups]
    rw [List.flatten_filter_not_isEmpty]
    simp
  rw [hflat, List.perm_ext_iff_of_nodup _ hgroup]
  · intro v
    by_cases hv : v ∈ moving <;> simp [hv]
  · refine List.nodup_append.2 ⟨hmoving.filter _, hgroup.filter _, ?_⟩
    rintro v hv w hw rfl
    simp [List.mem_filter] at hv hw
    exact hw.2 hv.1

/-- A round keeps the vertices. -/
theorem perm_refine (hgroups : groups.flatten.Nodup) (hmoving : moving.Nodup) :
    (groups.refine moving).flatten.Perm groups.flatten := by
  rw [refine_eq hgroups hmoving]
  induction groups with
  | nil => simp
  | cons group rest ih =>
      rw [List.flatten_cons, List.nodup_append] at hgroups
      rw [List.flatMap_cons, List.flatten_append, List.flatten_cons]
      exact (perm_along hgroups.1 hmoving).append (ih hgroups.2.1)

theorem ne_nil_of_mem_refine (hgroups : groups.flatten.Nodup) (hmoving : moving.Nodup)
    {part : List Vertex} (hpart : part ∈ groups.refine moving) : part ≠ [] := by
  rw [refine_eq hgroups hmoving] at hpart
  obtain ⟨group, -, hin⟩ := List.mem_flatMap.1 hpart
  exact (mem_groups_along.1 hin).1

/-- What remains when the first vertex of the first group is taken out. -/
theorem next?_cons (v : Vertex) (group : List Vertex) (rest : Groups) :
    next? ((v :: group) :: rest) = some (v, [group].filter (fun p => !p.isEmpty) ++ rest) := by
  cases group with
  | nil => simp [next?]
  | cons w group => simp [next?]

/-! ## All visits -/

/-- The groups are disjoint, without repetition, and none is empty. -/
structure Tidy (groups : Groups) : Prop where
  nodup : groups.flatten.Nodup
  nonempty : ∀ group ∈ groups, group ≠ []

theorem Tidy.cases (h : groups.Tidy) : groups = [] ∨
    ∃ v group rest, groups = (v :: group) :: rest := by
  match groups, h.nonempty with
  | [], _ => exact Or.inl rfl
  | [] :: rest, hne => exact absurd rfl (hne [] List.mem_cons_self)
  | (v :: group) :: rest, _ => exact Or.inr ⟨v, group, rest, rfl⟩

/-- The groups after a visit. -/
def rest (g : Graph) (v : Vertex) (group : List Vertex) (others : Groups) : Groups :=
  Groups.refine ([group].filter (fun p => !p.isEmpty) ++ others) (g.neighbors v)

theorem visit_cons (g : Graph) (n : Nat) (v : Vertex) (group : List Vertex) (others : Groups) :
    visit g (n + 1) ((v :: group) :: others) = v :: visit g n (rest g v group others) := by
  simp only [visit, next?_cons]
  rfl

theorem flatten_filter_append (group : List Vertex) (others : Groups) :
    ([group].filter (fun p => !p.isEmpty) ++ others).flatten = group ++ others.flatten := by
  cases group <;> simp

theorem Tidy.nodup_filter {others : Groups} (h : Tidy ((v :: group) :: others)) :
    ([group].filter (fun p => !p.isEmpty) ++ others).flatten.Nodup := by
  rw [flatten_filter_append]
  have hnodup := h.nodup
  rw [List.flatten_cons, List.cons_append] at hnodup
  exact hnodup.of_cons

theorem Tidy.perm_rest {others : Groups} (h : Tidy ((v :: group) :: others))
    (hg : (g.neighbors v).Nodup) :
    (rest g v group others).flatten.Perm (group ++ others.flatten) := by
  rw [← flatten_filter_append]
  exact perm_refine h.nodup_filter hg

theorem Tidy.rest {others : Groups} (h : Tidy ((v :: group) :: others))
    (hg : (g.neighbors v).Nodup) : Tidy (rest g v group others) := by
  refine ⟨?_, fun part hpart => ne_nil_of_mem_refine h.nodup_filter hg hpart⟩
  rw [(h.perm_rest hg).nodup_iff, ← flatten_filter_append]
  exact h.nodup_filter

/-- Enough visits reach every vertex of the groups once. -/
theorem Tidy.perm_visit (h : groups.Tidy) (hg : ∀ v, (g.neighbors v).Nodup)
    (hn : groups.flatten.length ≤ n) : (visit g n groups).Perm groups.flatten := by
  induction n generalizing groups with
  | zero =>
      rw [visit]
      rw [List.eq_nil_of_length_eq_zero (Nat.le_zero.1 hn)]
  | succ n ih =>
      rcases h.cases with rfl | ⟨v, group, others, rfl⟩
      · simp [visit, next?]
      · have hperm := h.perm_rest (hg v)
        rw [visit_cons, List.flatten_cons, List.cons_append]
        refine List.Perm.cons v ((ih (h.rest (hg v)) ?_).trans hperm)
        rw [hperm.length_eq]
        simpa using hn

/-! ## The order of the visits -/

/-- Two vertices have the same neighbours among the visited ones. -/
def Level (g : Graph) (done : List Vertex) (b c : Vertex) : Prop :=
  ∀ a ∈ done, (b ∈ g.neighbors a ↔ c ∈ g.neighbors a)

/-- The first visited vertex that is a neighbour of only one of the two is one of `b`. -/
def Ahead (g : Graph) (done : List Vertex) (b c : Vertex) : Prop :=
  ∃ l d r, done = l ++ d :: r ∧ b ∈ g.neighbors d ∧ c ∉ g.neighbors d ∧ Level g l b c

variable {a b c : Vertex} {late : Vertex → Prop}

theorem Level.append (h : Level g done b c) (hv : b ∈ g.neighbors v ↔ c ∈ g.neighbors v) :
    Level g (done ++ [v]) b c := by
  intro a ha
  rcases List.mem_append.1 ha with ha | ha
  · exact h a ha
  · rw [List.mem_singleton.1 ha]
    exact hv

theorem Level.ahead (h : Level g done b c) (hb : b ∈ g.neighbors v) (hc : c ∉ g.neighbors v) :
    Ahead g (done ++ [v]) b c :=
  ⟨done, v, [], rfl, hb, hc, h⟩

theorem Ahead.append (h : Ahead g done b c) : Ahead g (done ++ [v]) b c := by
  obtain ⟨l, d, r, rfl, hb, hc, hl⟩ := h
  exact ⟨l, d, r ++ [v], by simp, hb, hc, hl⟩

/-- Vertices of one group have the same visited neighbours. Those of an earlier group are ahead of
those of a later one, or the latter alone are to be visited last. -/
structure Ordered (g : Graph) (late : Vertex → Prop) (done : List Vertex) (groups : Groups) :
    Prop where
  level : ∀ group ∈ groups, ∀ b ∈ group, ∀ c ∈ group, (late b ↔ late c) ∧ Level g done b c
  ahead : groups.Pairwise fun front back => ∀ b ∈ front, ∀ c ∈ back,
    (late b → late c) ∧ ((late c → late b) → Ahead g done b c)

/-- Before the first visit nothing tells the vertices of a group apart. -/
theorem ordered_nil (hlevel : ∀ group ∈ groups, ∀ b ∈ group, ∀ c ∈ group, late b ↔ late c)
    (hlate : groups.Pairwise fun front back => ∀ b ∈ front, ∀ c ∈ back, ¬ late b ∧ late c) :
    groups.Ordered g late [] := by
  refine ⟨fun group hgroup b hb c hc => ⟨hlevel group hgroup b hb c hc, ?_⟩, ?_⟩
  · exact fun a ha => absurd ha List.not_mem_nil
  · refine hlate.imp fun hfront b hb c hc => ?_
    obtain ⟨hnb, hlc⟩ := hfront b hb c hc
    exact ⟨fun _ => hlc, fun hcb => absurd (hcb hlc) hnb⟩

theorem Ordered.refine (h : groups.Ordered g late done) (hgroups : groups.flatten.Nodup)
    (hv : (g.neighbors v).Nodup) :
    (groups.refine (g.neighbors v)).Ordered g late (done ++ [v]) := by
  rw [refine_eq hgroups hv]
  constructor
  · intro part hpart b hb c hc
    obtain ⟨group, hgroup, hpart⟩ := List.mem_flatMap.1 hpart
    rcases (mem_groups_along.1 hpart).2 with rfl | rfl
    · simp only [List.mem_filter, List.contains_iff_mem] at hb hc
      obtain ⟨hlate, hlevel⟩ := h.level group hgroup b hb.2 c hc.2
      exact ⟨hlate, hlevel.append (by simp [hb.1, hc.1])⟩
    · simp only [List.mem_filter, Bool.not_eq_true', List.contains_eq_mem,
        decide_eq_false_iff_not] at hb hc
      obtain ⟨hlate, hlevel⟩ := h.level group hgroup b hb.1 c hc.1
      exact ⟨hlate, hlevel.append (by simp [hb.2, hc.2])⟩
  · rw [List.pairwise_flatMap]
    constructor
    · -- The neighbours that leave a group are ahead of what is left of it.
      intro group hgroup
      refine List.Pairwise.filter _ (List.pairwise_pair.2 ?_)
      intro b hb c hc
      simp only [Split.along, List.mem_filter, Bool.not_eq_true', List.contains_eq_mem,
        decide_eq_true_eq, decide_eq_false_iff_not] at hb hc
      obtain ⟨hlate, hlevel⟩ := h.level group hgroup b hb.2 c hc.1
      exact ⟨hlate.1, fun _ => hlevel.ahead hb.1 hc.2⟩
    · refine h.ahead.imp fun {front back} hfront => ?_
      intro part hpart part' hpart' b hb c hc
      have hsub : ∀ {group part x}, part ∈ (Split.along (g.neighbors v) group).groups →
          x ∈ part → x ∈ group := by
        intro group part x hpart hx
        rcases (mem_groups_along.1 hpart).2 with rfl | rfl
        · simpa using (List.mem_filter.1 hx).2
        · exact (List.mem_filter.1 hx).1
      obtain ⟨hlate, hahead⟩ := hfront b (hsub hpart hb) c (hsub hpart' hc)
      exact ⟨hlate, fun hcb => (hahead hcb).append⟩

theorem Ordered.rest {others : Groups} (h : Ordered g late done ((v :: group) :: others))
    (htidy : Tidy ((v :: group) :: others)) (hv : (g.neighbors v).Nodup) :
    Ordered g late (done ++ [v]) (rest g v group others) := by
  refine Ordered.refine ⟨?_, ?_⟩ htidy.nodup_filter hv
  · intro part hpart b hb c hc
    rcases List.mem_append.1 hpart with hpart | hpart
    · obtain rfl := List.mem_singleton.1 (List.mem_filter.1 hpart).1
      exact h.level _ List.mem_cons_self b (List.mem_cons_of_mem _ hb) c (List.mem_cons_of_mem _ hc)
    · exact h.level part (List.mem_cons_of_mem _ hpart) b hb c hc
  · obtain ⟨hfirst, hothers⟩ := List.pairwise_cons.1 h.ahead
    refine List.pairwise_append.2 ⟨(List.pairwise_singleton _ group).filter _, hothers, ?_⟩
    intro part hpart back hback b hb c hc
    obtain rfl := List.mem_singleton.1 (List.mem_filter.1 hpart).1
    exact hfirst back hback b (List.mem_cons_of_mem _ hb) c hc

/-- At each visit the visited vertex is level with, or ahead of, every vertex visited later. -/
theorem Ordered.visit (h : groups.Ordered g late done) (htidy : groups.Tidy)
    (hg : ∀ v, (g.neighbors v).Nodup) (hn : groups.flatten.length ≤ n) {pre post : List Vertex}
    (hvisit : visit g n groups = pre ++ b :: post) (hc : c ∈ post) :
    (late b → late c) ∧
      ((late c → late b) → Level g (done ++ pre) b c ∨ Ahead g (done ++ pre) b c) := by
  induction n generalizing groups done pre with
  | zero => simp [Groups.visit] at hvisit
  | succ n ih =>
      rcases htidy.cases with rfl | ⟨v, group, others, rfl⟩
      · simp [Groups.visit, next?] at hvisit
      · have htidy' := htidy.rest (hg v)
        have hperm := htidy.perm_rest (hg v)
        have hn' : (Groups.rest g v group others).flatten.length ≤ n := by
          rw [hperm.length_eq]
          simpa using hn
        rw [visit_cons] at hvisit
        -- the vertex visited now, or a later one
        cases pre with
        | nil =>
            rw [List.nil_append, List.cons.injEq] at hvisit
            obtain ⟨rfl, rfl⟩ := hvisit
            rw [(htidy'.perm_visit hg hn').mem_iff, hperm.mem_iff, List.mem_append] at hc
            rw [List.append_nil]
            rcases hc with hc | hc
            · obtain ⟨hlate, hlevel⟩ := h.level _ List.mem_cons_self v List.mem_cons_self c
                (List.mem_cons_of_mem _ hc)
              exact ⟨hlate.1, fun _ => Or.inl hlevel⟩
            · obtain ⟨back, hback, hc⟩ := List.mem_flatten.1 hc
              obtain ⟨hlate, hahead⟩ := (List.pairwise_cons.1 h.ahead).1 back hback v
                List.mem_cons_self c hc
              exact ⟨hlate, fun hcb => Or.inr (hahead hcb)⟩
        | cons w pre =>
            rw [List.cons_append, List.cons.injEq] at hvisit
            obtain ⟨rfl, hvisit⟩ := hvisit
            have := ih (h.rest htidy (hg v)) htidy' hn' hvisit
            simpa using this

/-- The four points of a lexicographic search: an earlier vertex that is a neighbour of `c` and not
of `b`, although `b` is visited before `c`, comes after one that is a neighbour of `b` and not of
`c`. -/
theorem exists_of_level_or (h : Level g done b c ∨ Ahead g done b c) (ha : a ∈ done)
    (hac : c ∈ g.neighbors a) (hab : b ∉ g.neighbors a) :
    ∃ l d r, done = l ++ d :: r ∧ a ∈ r ∧ b ∈ g.neighbors d ∧ c ∉ g.neighbors d := by
  rcases h with h | ⟨l, d, r, rfl, hb, hc, hl⟩
  · exact absurd ((h a ha).2 hac) hab
  · refine ⟨l, d, r, rfl, ?_, hb, hc⟩
    rcases List.mem_append.1 ha with ha | ha
    · exact absurd ((hl a ha).2 hac) hab
    · exact (List.mem_cons.1 ha).resolve_left fun had => hc (had ▸ hac)

end Groups

end CliquePath
