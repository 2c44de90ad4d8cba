import CliquePath.Proofs.Graph.Components
import CliquePath.Proofs.IntervalGraphs
import CliquePath.Proofs.Search.Wave

set_option autoImplicit false

/-!
# What the labels tell

This module shows what the table of labels around every vertex tells. Two labels in the row of a vertex
are equal and not 0 exactly if the two vertices are joined outside its closed neighbourhood and lie in
its own component (`Graph.Consistent.exists_build`).

The rows are computed over positions. `Labelled` is the invariant of the labels of one row: equal labels
stand on what a free path joins. A search from an unlabelled position keeps it (`Labelled.next`). Every
number of a vertex has the position at which the vertex stands, so no lookup fails, and statements about
positions become statements about vertices.
-/

namespace CliquePath

open Relation

namespace Reach

variable {n : Nat} {beside : Fin n → Fin n → Prop} {near : Fin n → Except Breach (List (Fin n))}
variable {blocked : Vector Bool n} {last : Nat} {labels : Vector Nat n} {p q r x y z : Fin n}

/-! ## The labels of a row -/

/-- A path leads from the first position to the second, and no position behind its first is
blocked. -/
abbrev Clearly (beside : Fin n → Fin n → Prop) (blocked : Vector Bool n) : Fin n → Fin n → Prop :=
  Wave.Free beside fun y => !blocked.get y

theorem Clearly.unblocked (hy : blocked.get y = false) (h : Clearly beside blocked y z) :
    blocked.get z = false := by
  cases h with
  | refl => exact hy
  | tail _ hlast => simpa using hlast.2

theorem Clearly.symm (hsymm : ∀ a b, beside a b → beside b a) (hy : blocked.get y = false)
    (h : Clearly beside blocked y z) : Clearly beside blocked z y := by
  induction h with
  | refl => exact .refl
  | @tail a b ha hab ih =>
      have hfree : blocked.get a = false := Clearly.unblocked hy ha
      exact .head ⟨hsymm a b hab.1, by simpa using hfree⟩ ih

/-- The labels up to the last one stand on positions that are not blocked, and a label stands on
everything that a clear path leads to from where it stands, and on nothing else. -/
structure Labelled (beside : Fin n → Fin n → Prop) (blocked : Vector Bool n) (last : Nat)
    (labels : Vector Nat n) : Prop where
  le : ∀ y : Fin n, labels.get y ≤ last
  unblocked : ∀ y : Fin n, labels.get y ≠ 0 → blocked.get y = false
  same : ∀ y z : Fin n, labels.get y ≠ 0 → (labels.get z = labels.get y ↔ Clearly beside blocked y z)

theorem labelled_blank (beside : Fin n → Fin n → Prop) (blocked : Vector Bool n) :
    Labelled beside blocked 0 (Vector.replicate n 0) :=
  have hblank : ∀ y : Fin n, (Vector.replicate n 0).get y = 0 := get_replicate 0
  ⟨fun y => (hblank y).le, fun y hy => absurd (hblank y) hy, fun y _ hy => absurd (hblank y) hy⟩

/-- The next label may be given to everything that clear paths lead to from a position. -/
theorem Labelled.extend {labels' : Vector Nat n} (h : Labelled beside blocked last labels)
    (hsymm : ∀ a b, beside a b → beside b a) (hx : blocked.get x = false)
    (hnew : ∀ y, Clearly beside blocked x y → labels'.get y = last + 1)
    (hkept : ∀ y, ¬Clearly beside blocked x y → labels'.get y = labels.get y) :
    Labelled beside blocked (last + 1) labels' := by
  refine ⟨fun y => ?_, fun y hy => ?_, fun y z hy => ?_⟩
  · by_cases hxy : Clearly beside blocked x y
    · exact (hnew y hxy).le
    · rw [hkept y hxy]
      exact (h.le y).trans (Nat.le_succ last)
  · by_cases hxy : Clearly beside blocked x y
    · exact Clearly.unblocked hx hxy
    · rw [hkept y hxy] at hy
      exact h.unblocked y hy
  · by_cases hxy : Clearly beside blocked x y
    · rw [hnew y hxy]
      constructor
      · intro hz
        by_contra hyz
        have hxz : ¬Clearly beside blocked x z := fun hxz =>
          hyz ((Clearly.symm hsymm hx hxy).trans hxz)
        rw [hkept z hxz] at hz
        exact absurd (h.le z) (by omega)
      · intro hyz
        exact hnew z (hxy.trans hyz)
    · rw [hkept y hxy] at hy ⊢
      by_cases hxz : Clearly beside blocked x z
      · -- The new label differs from the old ones, and no clear path joins their positions.
        rw [hnew z hxz]
        refine iff_of_false (fun heq => absurd (h.le y) (by omega)) fun hyz => hxy ?_
        exact hxz.trans (Clearly.symm hsymm (h.unblocked y hy) hyz)
      · rw [hkept z hxz]
        exact h.same y z hy

/-- A search from a position without a label gives the next label to what clear paths lead to. -/
theorem Labelled.next (h : Labelled beside blocked last labels)
    (hnear : ∀ x, ∃ ys, near x = .ok ys ∧ ∀ y, y ∈ ys ↔ beside x y)
    (hsymm : ∀ a b, beside a b → beside b a) (hx : blocked.get x = false) (hblank : labels.get x = 0) :
    ∃ w, (Wave.start labels (last + 1) x).spread near (fun y => !blocked.get y)
        ⟨last + 1, Nat.succ_ne_zero last⟩ = .ok w ∧
      Labelled beside blocked (last + 1) w.marks ∧
      ∀ y : Fin n, w.marks.get y ≠ 0 ↔ labels.get y ≠ 0 ∨ Clearly beside blocked x y := by
  -- A labelled position on the way would have given its label to the start.
  have hunlabelled : ∀ y, Clearly beside blocked x y → labels.get y = 0 := by
    intro y hxy
    by_contra hlabelled
    exact hlabelled (((h.same y x hlabelled).2 (Clearly.symm hsymm hx hxy)).symm.trans hblank)
  obtain ⟨w, hspread, hmarked, hkept, -⟩ := Wave.exists_spread_start hnear
    (fun y => !blocked.get y) labels x ⟨last + 1, Nat.succ_ne_zero last⟩ hunlabelled
  have hnew : ∀ y, Clearly beside blocked x y → w.marks.get y = last + 1 := hmarked
  refine ⟨w, hspread, h.extend hsymm hx hnew hkept, ?_⟩
  intro y
  by_cases hxy : Clearly beside blocked x y
  · rw [hnew y hxy]
    exact iff_of_true (Nat.succ_ne_zero last) (.inr hxy)
  · rw [hkept y hxy]
    exact (or_iff_left hxy).symm

/-- Labelling from listed positions gives a label to what clear paths lead to from those of them that
are not blocked. -/
theorem exists_labelFrom (hnear : ∀ x, ∃ ys, near x = .ok ys ∧ ∀ y, y ∈ ys ↔ beside x y)
    (hsymm : ∀ a b, beside a b → beside b a) (xs : List (Fin n))
    (h : Labelled beside blocked last labels) :
    ∃ last' labels', labelFrom near blocked last labels xs = .ok labels' ∧
      Labelled beside blocked last' labels' ∧
      ∀ y : Fin n, labels'.get y ≠ 0 ↔
        labels.get y ≠ 0 ∨ ∃ x ∈ xs, blocked.get x = false ∧ Clearly beside blocked x y := by
  induction xs generalizing last labels with
  | nil => exact ⟨last, labels, rfl, h, by simp⟩
  | cons x xs ih =>
      rw [labelFrom]
      by_cases hskip : (blocked.get x || labels.get x != 0) = true
      · obtain ⟨last', labels', hok, hlabelled, hreached⟩ := ih h
        refine ⟨last', labels', by rw [if_pos hskip, hok], hlabelled, fun y => ?_⟩
        rw [hreached]
        simp only [List.exists_mem_cons_iff]
        refine or_congr_right' fun hy => (or_iff_right ?_).symm
        -- What the position that is skipped leads to is blocked or has its label.
        rintro ⟨hfree, hxy⟩
        have hlabel : labels.get x ≠ 0 := by simpa [hfree] using hskip
        exact hy ((h.same x y hlabel).2 hxy ▸ hlabel)
      · have hx : blocked.get x = false ∧ labels.get x = 0 := by simpa using hskip
        obtain ⟨w, hspread, hnext, hmarks⟩ := h.next hnear hsymm hx.1 hx.2
        obtain ⟨last', labels', hok, hlabelled, hreached⟩ := ih hnext
        refine ⟨last', labels', ?_, hlabelled, fun y => ?_⟩
        · rw [if_neg hskip]
          simp only [hspread, hok]
        · rw [hreached, hmarks, or_assoc]
          simp only [List.exists_mem_cons_iff, hx.1, true_and]

theorem blockedBy_iff (p : Fin n) (ys : List (Fin n)) :
    (blockedBy p ys).get y = true ↔ y = p ∨ y ∈ ys := by
  induction ys using List.reverseRecOn with
  | nil =>
      have hfirst := get_set (Vector.replicate n false) p y true
      rw [get_replicate] at hfirst
      rw [blockedBy, List.foldl_nil, hfirst]
      simp
  | append_singleton ys x ih =>
      have hlast : (blockedBy p (ys ++ [x])).get y = if y = x then true else (blockedBy p ys).get y := by
        rw [blockedBy, List.foldl_concat]
        exact get_set (blockedBy p ys) x y true
      rw [hlast, List.mem_append, List.mem_singleton, ← or_assoc, ← ih]
      by_cases hxy : y = x
      · simp [hxy]
      · simp [hxy]

/-- Two labels in the row of `p` are equal and not 0 if the positions lie in the component of `p` and a
path that avoids `p` and everything beside it joins them. -/
theorem exists_row (hnear : ∀ x, ∃ ys, near x = .ok ys ∧ ∀ y, y ∈ ys ↔ beside x y)
    (hsymm : ∀ a b, beside a b → beside b a) (p : Fin n) :
    ∃ labels, row near p = .ok labels ∧ ∀ q r : Fin n,
      labels.get q ≠ 0 ∧ labels.get q = labels.get r ↔
        (q ≠ p ∧ ¬beside p q) ∧ ReflTransGen beside p q ∧
          ReflTransGen (fun a b => beside a b ∧ b ≠ p ∧ ¬beside p b) q r := by
  obtain ⟨ys, hys, hmem⟩ := hnear p
  have hblocked : ∀ y, (blockedBy p ys).get y = false ↔ y ≠ p ∧ ¬beside p y := fun y => by
    rw [← Bool.not_eq_true, blockedBy_iff, hmem, not_or]
  -- The first search marks the component.
  obtain ⟨w, hcomponent, -, -, hreached⟩ := Wave.exists_spread_start hnear (fun _ => true)
    (Vector.replicate n false) p ⟨true, by decide⟩ fun y _ => get_replicate false y
  obtain ⟨last, labels, hlabels, hlabelled, hlabel⟩ :=
    exists_labelFrom hnear hsymm w.reached (labelled_blank beside (blockedBy p ys))
  have hclear : ∀ y z, Clearly beside (blockedBy p ys) y z ↔
      ReflTransGen (fun a b => beside a b ∧ b ≠ p ∧ ¬beside p b) y z := by
    intro y z
    simp only [Clearly, Wave.Free, Bool.not_eq_true', hblocked]
  refine ⟨labels, ?_, fun q r => ?_⟩
  · simp only [row, hys, bind, Except.bind, hcomponent]
    exact hlabels
  · have hshown : labels.get q ≠ 0 ↔ (q ≠ p ∧ ¬beside p q) ∧ ReflTransGen beside p q := by
      have hfree : ∀ y, y ∈ w.reached ↔ ReflTransGen beside p y := by
        intro y
        rw [hreached]
        simp only [Wave.Free, and_true]
      rw [hlabel, ← hblocked]
      simp only [get_replicate, ne_eq, not_true_eq_false, false_or, hfree]
      constructor
      · rintro ⟨x, hpx, hx, hxq⟩
        exact ⟨Clearly.unblocked hx hxq, hpx.trans (hxq.lift id fun a b hab => hab.1)⟩
      · rintro ⟨hq, hpq⟩
        exact ⟨q, hpq, hq, .refl⟩
    constructor
    · rintro ⟨hq, hqr⟩
      obtain ⟨hout, hin⟩ := hshown.1 hq
      exact ⟨hout, hin, (hclear q r).1 ((hlabelled.same q r hq).1 hqr.symm)⟩
    · rintro ⟨hout, hin, hqr⟩
      have hq := hshown.2 ⟨hout, hin⟩
      exact ⟨hq, ((hlabelled.same q r hq).2 ((hclear q r).2 hqr)).symm⟩

/-! ## Positions and vertices -/

/-- Looking up every entry of a list succeeds if each single lookup does. -/
theorem exists_mapM {ε α β : Type} {f : α → Except ε β} {e : β → α} (as : List α)
    (h : ∀ a ∈ as, ∃ b, f a = .ok b ∧ e b = a) : ∃ bs, as.mapM f = .ok bs ∧ bs.map e = as := by
  induction as with
  | nil => exact ⟨[], rfl, rfl⟩
  | cons a as ih =>
      obtain ⟨b, hb, hentry⟩ := h a List.mem_cons_self
      obtain ⟨bs, hbs, hentries⟩ := ih fun a ha => h a (List.mem_cons_of_mem _ ha)
      refine ⟨b :: bs, ?_, by rw [List.map_cons, hentry, hentries]⟩
      rw [List.mapM_cons, hb, hbs]
      rfl

theorem ofFnM_eq_ok {ε β : Type} {f : Fin n → Except ε β} {rows : Fin n → β}
    (h : ∀ p, f p = .ok (rows p)) : Vector.ofFnM f = .ok (Vector.ofFn rows) := by
  obtain rfl : f = fun p => .ok (rows p) := funext h
  clear h
  induction n with
  | zero =>
      rw [Vector.ofFnM_zero]
      exact congrArg Except.ok Vector.eq_empty.symm
  | succ n ih =>
      rw [Vector.ofFnM_succ, ih, Vector.ofFn_succ]
      rfl

/-- The table is made of the rows. -/
theorem build_of_rows {g : Graph}
    {rows : Fin g.vertices.toArray.size → Vector Nat g.vertices.toArray.size}
    (h : ∀ p, row (Reach.near g g.vertices.toArray (denseOf g.bound g.vertices.toArray)) p =
      .ok (rows p)) :
    build g = .ok ⟨g.vertices.toArray, denseOf g.bound g.vertices.toArray,
      (Vector.ofFn rows).flatten⟩ := by
  simp only [build, ofFnM_eq_ok h]
  rfl

variable {ids : Array Vertex} {bound : Nat} {v : Vertex}

/-- The label of a position stands in the row of the other one. -/
theorem label_ofFn {dense : Array (Option (Fin ids.size))}
    (rows : Fin ids.size → Vector Nat ids.size) (p q : Fin ids.size) :
    label ⟨ids, dense, (Vector.ofFn rows).flatten⟩ p q = (rows p).get q := by
  have hpos : 0 < ids.size := Nat.zero_lt_of_lt q.isLt
  have hrow : (p.val * ids.size + q.val) / ids.size = p.val := by
    rw [Nat.mul_comm, Nat.mul_add_div hpos, Nat.div_eq_of_lt q.isLt, Nat.add_zero]
  have hcolumn : (p.val * ids.size + q.val) % ids.size = q.val := Nat.mul_add_mod_of_lt q.isLt
  have hlt : p.val * ids.size + q.val < ids.size * ids.size := index_lt p q
  show (Vector.ofFn rows).flatten[p.val * ids.size + q.val] = _
  rw [Vector.getElem_flatten]
  simp only [hrow, hcolumn, Vector.getElem_ofFn, Fin.eta]
  rfl

/-- Every vertex below the bound gets its position, and no other number gets one. -/
theorem denseOf_eq_some_iff (hlt : ∀ i : Fin ids.size, vertexAt ids i < bound)
    (hinj : ∀ i j : Fin ids.size, vertexAt ids i = vertexAt ids j → i = j) (i : Fin ids.size) :
    (denseOf bound ids)[v]?.join = some i ↔ vertexAt ids i = v := by
  -- The induction is on the positions that were entered so far.
  have hentered : ∀ is : List (Fin ids.size),
      (is.foldl (fun dense i => dense.setIfInBounds (vertexAt ids i) (some i))
        (Array.replicate bound none)).size = bound ∧
      ((is.foldl (fun dense i => dense.setIfInBounds (vertexAt ids i) (some i))
        (Array.replicate bound none))[v]?.join = some i ↔ i ∈ is ∧ vertexAt ids i = v) := by
    intro is
    induction is using List.reverseRecOn with
    | nil =>
        refine ⟨Array.size_replicate, ?_⟩
        rw [List.foldl_nil, Array.getElem?_replicate]
        split <;> simp
    | append_singleton is j ih =>
        obtain ⟨hsize, hfound⟩ := ih
        rw [List.foldl_concat]
        refine ⟨by rw [Array.size_setIfInBounds, hsize], ?_⟩
        rw [Array.getElem?_setIfInBounds, hsize, List.mem_append, List.mem_singleton]
        by_cases hj : vertexAt ids j = v
        · rw [if_pos hj, if_pos (hj ▸ hlt j), Option.join_some, Option.some.injEq]
          constructor
          · rintro rfl
            exact ⟨.inr rfl, hj⟩
          · exact fun h => hinj j i (hj.trans h.2.symm)
        · rw [if_neg hj, hfound]
          refine and_congr_left fun hi => (or_iff_left ?_).symm
          rintro rfl
          exact hj hi
  rw [denseOf, (hentered _).2]
  exact and_iff_right (List.mem_finRange i)

end Reach

open Reach (vertexAt)

namespace Graph

variable {g : Graph}

/-- The vertex lies outside the closed neighbourhood of `p`. -/
abbrev Clear (g : Graph) (p w : Vertex) : Prop := w ∈ g.vertices ∧ w ≠ p ∧ ¬ g.Linked p w

/-- The table shows the graph: it lists the vertices, it finds the position of each, and two labels
around a vertex are equal and not 0 exactly if the two vertices lie in its component and are joined
outside its closed neighbourhood. -/
structure ShownBy (g : Graph) (t : Reach) : Prop where
  ids : t.ids = g.vertices.toArray
  dense : ∀ (v : Vertex) (i : Fin t.size), t.dense[v]?.join = some i ↔ vertexAt t.ids i = v
  label : ∀ p q r, t.label p q ≠ 0 ∧ t.label p q = t.label p r ↔
    Around g.vertices g.Linked (vertexAt t.ids p) (vertexAt t.ids q) (vertexAt t.ids r) ∧
      g.Reaches (vertexAt t.ids p) (vertexAt t.ids q)

/-- The positions number the vertices of the graph, each once. -/
structure NumberedBy (g : Graph) {n : Nat} (f : Fin n → Vertex) : Prop where
  mem : ∀ i, f i ∈ g.vertices
  inj : ∀ i j, f i = f j → i = j
  onto : ∀ v ∈ g.vertices, ∃ i, f i = v

theorem numberedBy_vertexAt {ids : Array Vertex} (hids : ids = g.vertices.toArray) :
    g.NumberedBy (vertexAt ids) := by
  subst hids
  refine ⟨fun i => List.getElem_mem _, fun i j h => ?_, fun v hv => ?_⟩
  · exact Fin.ext ((nodup_vertices g).getElem_inj_iff.1 h)
  · obtain ⟨i, hi, rfl⟩ := List.getElem_of_mem hv
    exact ⟨⟨i, hi⟩, rfl⟩

/-- The neighbours of a vertex all have positions. -/
theorem Consistent.exists_near (hg : g.Consistent) {ids : Array Vertex}
    (h : g.NumberedBy (vertexAt ids)) (x : Fin ids.size) :
    ∃ ys, Reach.near g ids (Reach.denseOf g.bound ids) x = .ok ys ∧
      ∀ y, y ∈ ys ↔ g.Linked (vertexAt ids x) (vertexAt ids y) := by
  have hlookup : ∃ ys, Reach.near g ids (Reach.denseOf g.bound ids) x = .ok ys ∧
      ys.map (vertexAt ids) = g.neighbors (vertexAt ids x) := by
    refine Reach.exists_mapM _ fun v hv => ?_
    obtain ⟨i, hi⟩ := h.onto v (hg.mem_vertices_of_linked hv).2
    have hdense := (Reach.denseOf_eq_some_iff (fun i => lt_bound (h.mem i)) h.inj i).2 hi
    exact ⟨i, by simp only [hdense], hi⟩
  obtain ⟨ys, hys, hentries⟩ := hlookup
  refine ⟨ys, hys, fun y => ?_⟩
  rw [Linked, ← hentries, List.mem_map]
  constructor
  · exact fun hy => ⟨y, hy, rfl⟩
  · rintro ⟨z, hz, heq⟩
    exact h.inj z y heq ▸ hz

section Positions

variable {n : Nat} {f : Fin n → Vertex} {p q r : Fin n}

/-- Paths over positions are the paths of the graph. -/
theorem NumberedBy.reaches_iff (h : g.NumberedBy f) (hg : g.Consistent) :
    ReflTransGen (fun a b => g.Linked (f a) (f b)) p q ↔ g.Reaches (f p) (f q) := by
  constructor
  · intro hpath
    exact hpath.lift f fun a b hab => hab
  · intro hpath
    have himage : ∀ v, g.Reaches (f p) v →
        ∃ i, f i = v ∧ ReflTransGen (fun a b => g.Linked (f a) (f b)) p i := by
      intro v hv
      induction hv with
      | refl => exact ⟨p, rfl, .refl⟩
      | @tail a b _ hab ih =>
          obtain ⟨i, rfl, hpi⟩ := ih
          obtain ⟨j, rfl⟩ := h.onto b (hg.mem_vertices_of_linked hab).2
          exact ⟨j, rfl, hpi.tail hab⟩
    obtain ⟨i, hi, hpi⟩ := himage (f q) hpath
    exact h.inj i q hi ▸ hpi

/-- From a vertex outside a closed neighbourhood, the paths over positions that stay outside join what
is joined around the vertex. -/
theorem NumberedBy.around_iff (h : g.NumberedBy f) (hq : f q ≠ f p ∧ ¬g.Linked (f p) (f q)) :
    ReflTransGen (fun a b => g.Linked (f a) (f b) ∧ b ≠ p ∧ ¬g.Linked (f p) (f b)) q r ↔
      Around g.vertices g.Linked (f p) (f q) (f r) := by
  have hclear : ∀ i, i ≠ p → ¬g.Linked (f p) (f i) → g.Clear (f p) (f i) := fun i hi hno =>
    ⟨h.mem i, fun heq => hi (h.inj i p heq), hno⟩
  constructor
  · intro hpath
    induction hpath with
    | refl => exact Joined.refl ⟨h.mem q, hq⟩
    | tail _ hab ih => exact ih.trans (Joined.step hab.1 ih.right (hclear _ hab.2.1 hab.2.2))
  · intro hjoined
    have himage : ∃ i, f i = f r ∧ ReflTransGen
        (fun a b => g.Linked (f a) (f b) ∧ b ≠ p ∧ ¬g.Linked (f p) (f b)) q i := by
      refine Joined.induct (Q := fun w => ∃ i, f i = w ∧ ReflTransGen
        (fun a b => g.Linked (f a) (f b) ∧ b ≠ p ∧ ¬g.Linked (f p) (f b)) q i)
        hjoined ⟨q, rfl, .refl⟩ ?_
      rintro _ w hvw - hw ⟨i, rfl, hqi⟩
      obtain ⟨j, rfl⟩ := h.onto w hw.1
      exact ⟨j, rfl, hqi.tail ⟨hvw, fun heq => hw.2.1 (heq ▸ rfl), hw.2.2⟩⟩
    obtain ⟨i, hi, hqi⟩ := himage
    exact h.inj i r hi ▸ hqi

end Positions

/-- The table of a graph is built without a failing lookup, and it shows the graph. -/
theorem Consistent.exists_build (hg : g.Consistent) :
    ∃ t, Reach.build g = .ok t ∧ g.ShownBy t := by
  let ids := g.vertices.toArray
  have hnumbered : g.NumberedBy (vertexAt ids) := numberedBy_vertexAt rfl
  have hsymm : ∀ a b : Fin ids.size, g.Linked (vertexAt ids a) (vertexAt ids b) →
      g.Linked (vertexAt ids b) (vertexAt ids a) := fun a b hab => hg.symm _ _ hab
  choose rows hrows hlabels using Reach.exists_row (hg.exists_near hnumbered) hsymm
  refine ⟨⟨ids, Reach.denseOf g.bound ids, (Vector.ofFn rows).flatten⟩,
    Reach.build_of_rows hrows, ⟨rfl, ?_, ?_⟩⟩
  · intro v i
    exact Reach.denseOf_eq_some_iff (fun i => lt_bound (hnumbered.mem i)) hnumbered.inj i
  · intro p q r
    rw [Reach.label_ofFn, Reach.label_ofFn, hlabels, hnumbered.reaches_iff hg]
    constructor
    · rintro ⟨⟨hne, hno⟩, hpq, hqr⟩
      have hq : vertexAt ids q ≠ vertexAt ids p ∧ ¬g.Linked (vertexAt ids p) (vertexAt ids q) :=
        ⟨fun heq => hne (hnumbered.inj q p heq), hno⟩
      exact ⟨(hnumbered.around_iff hq).1 hqr, hpq⟩
    · rintro ⟨hqr, hpq⟩
      have hq := hqr.left.2
      exact ⟨⟨fun heq => hq.1 (heq ▸ rfl), hq.2⟩, hpq, (hnumbered.around_iff hq).2 hqr⟩

end Graph

end CliquePath
