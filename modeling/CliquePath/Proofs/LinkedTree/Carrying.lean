import CliquePath.Proofs.LinkedTree.Absorbing
import CliquePath.Proofs.LinkedTree.Runs

set_option autoImplicit false

/-!
# Vertices carried into rows

This module relates the changes of an opened row in a plan to those of the row that it shows. Sections
get more vertices, a row gets a section at its left end, or it takes the place of a section of an outer
row; in all of these the last section, that of the new vertex, stays at the right end. The slots that
are written at each of these changes name the ends of the new runs.
-/

namespace CliquePath

/-! ## Rows with one more section at the end -/

namespace Row

variable {α β : Type} {R I : Row α} {xs ys : List (Int × α)} {e : Int × α} {a z : α}

theorem ext_keyed {R I : Row α} (hflipped : R.flipped = I.flipped) (hkeyed : R.keyed = I.keyed) :
    R = I := by
  rw [← ofKeyed_keyed R, ← ofKeyed_keyed I, hflipped, hkeyed]

/-- The key that a new entry at the right end gets. -/
def pushKey (R : Row α) : Int := (R.keyed.getLast?.map fun l => l.1 + keyGap).getD 0

theorem keyed_push (R : Row α) (z : α) : (R.push z).keyed = R.keyed ++ [(R.pushKey, z)] := by
  rw [push, insertAt, keyed_withKeyed, ← length_keyed, List.take_length, List.drop_length,
    insertBetween, pushKey]
  cases h : R.keyed.getLast? with
  | none => simp [List.getLast?_eq_none_iff.1 h]
  | some l => simp

@[simp]
theorem flipped_push (R : Row α) (z : α) : (R.push z).flipped = R.flipped := rfl

@[simp]
theorem pushKey_map (f : α → β) (R : Row α) : (R.map f).pushKey = R.pushKey := by
  rw [pushKey, pushKey, keyed_map, List.getLast?_map, Option.map_map]
  rfl

/-- A row whose last entry is that of a pushed one. -/
theorem push_of_keyed {f : α → β} {W : Row β} {z : β} (h : R.map f = W.push z)
    (hR : R.keyed = xs ++ [e]) :
    R.flipped = W.flipped ∧ xs.map (entry f) = W.keyed ∧ e.1 = W.pushKey ∧ f e.2 = z := by
  have hkeyed := congrArg keyed h
  rw [keyed_map, hR, List.map_append, keyed_push] at hkeyed
  obtain ⟨hxs, he⟩ := List.append_inj' hkeyed rfl
  simp only [List.map_cons, List.map_nil, List.cons.injEq, and_true, Prod.mk.injEq] at he
  exact ⟨congrArg Row.flipped h, hxs, he⟩

theorem keyed_insertAt_left (hne : R.keyed ≠ []) (a : α) :
    ∃ k, ∀ z, (R.insertAt 0 a).keyed = (k, a) :: R.keyed ∧
      ((R.push z).insertAt 0 a).keyed = (k, a) :: (R.push z).keyed := by
  obtain ⟨f, rest, hf⟩ := List.exists_cons_of_ne_nil hne
  refine ⟨f.1 - keyGap, fun z => ⟨?_, ?_⟩⟩ <;>
    simp [insertAt, insertBetween, keyed_push, hf]

/-- Entries may be put in at both ends in either order. -/
theorem insertAt_push (hne : R.keyed ≠ []) (a z : α) :
    (R.push z).insertAt 0 a = (R.insertAt 0 a).push z := by
  obtain ⟨k, hk⟩ := keyed_insertAt_left hne a
  have hlast : (R.insertAt 0 a).pushKey = R.pushKey := by
    obtain ⟨ini, l, hl⟩ := (List.eq_nil_or_concat R.keyed).resolve_left hne
    rw [pushKey, pushKey, (hk z).1, hl, List.concat_eq_append, ← List.cons_append,
      List.getLast?_concat, List.getLast?_concat]
  refine ext_keyed rfl ?_
  rw [(hk z).2, keyed_push, keyed_push, (hk z).1, hlast, List.cons_append]

theorem keyed_splice_last (hR : R.keyed = xs ++ [e]) :
    (R.splice xs.length I).keyed = xs ++ spaced e.1 keyGap I.toList := by
  have hget : R.keyed[xs.length]? = some e := by simp [hR]
  rw [splice, hget]
  simp only [keyed_withKeyed, hR, List.take_left', List.drop_append, Nat.add_sub_cancel_left]
  simp [spliceBetween]

/-- An entry at the right end may be put in before or after the last entry is spliced. -/
theorem splice_push (hR : R.keyed = xs ++ [e]) (hne : I.keyed ≠ []) (z : α) :
    R.splice xs.length (I.push z) = (R.splice xs.length I).push z := by
  have hflipped : ∀ I' : Row α, (R.splice xs.length I').flipped = R.flipped := by
    intro I'
    have hget : R.keyed[xs.length]? = some e := by simp [hR]
    rw [splice, hget]
    rfl
  have hkey : (R.splice xs.length I).pushKey = e.1 + I.toList.length * keyGap := by
    obtain ⟨ini, l, hl⟩ := (List.eq_nil_or_concat I.keyed).resolve_left hne
    have hlist : I.toList = ini.map Prod.snd ++ [l.2] := by simp [toList, hl]
    rw [pushKey, keyed_splice_last hR, hlist, spaced_concat, ← List.append_assoc,
      List.getLast?_concat]
    simp only [Option.map_some, Option.getD_some, List.length_append, List.length_singleton]
    push_cast
    ring
  refine ext_keyed (by rw [hflipped, flipped_push, hflipped]) ?_
  rw [keyed_push, keyed_splice_last hR, keyed_splice_last hR, toList_push, spaced_concat, hkey,
    List.append_assoc]

end Row

/-! ## Sections with more vertices -/

/-- The section with more vertices. -/
def Part.add {ν : Type} (vs : List Vertex) (s : Part ν) : Part ν := { s with held := s.held ++ vs }

namespace Row

/-- A row whose last section gets the vertices `link` and whose other sections get `held`. -/
def carried {ν : Type} (flipped : Bool) (ws : List (Int × Part ν)) (e : Int × Part ν)
    (held link : List Vertex) : Row (Part ν) :=
  ofKeyed flipped (ws.map (entry (Part.add held)) ++ [entry (Part.add link) e])

variable {P : Row (Part Plan)} {ws : List (Int × Part Plan)} {e : Int × Part Plan} {flipped : Bool}
variable {held link nbrs : List Vertex} {u : Vertex} {o : Opening}

theorem carried_top : (carried flipped ws e held link).map Part.top =
    carry flipped (ws.map (entry Part.top)) (entry Part.top e) held link := by
  refine ext_keyed rfl ?_
  simp [carried, carry, Entries.mapHeld, Part.add, Part.top, Function.comp_def]

/-- Vertices carried into an open row of a plan are carried into the row that it shows. -/
theorem carried_shown (h : P.map Part.shown = o.close u) (hP : P.keyed = ws ++ [e]) :
    (carried P.flipped ws e held (reached nbrs held)).map Part.shown =
      (o.carry nbrs held).close u := by
  obtain ⟨hflipped, hws, hkey, hlast⟩ := push_of_keyed h hP
  have hmap : (ws.map (entry (Part.add held))).map (entry Part.shown) =
      (o.row.map fun s => { s with held := s.held ++ held }).keyed := by
    rw [keyed_map, ← hws, List.map_map, List.map_map]
    rfl
  refine ext_keyed hflipped ?_
  rw [keyed_map, carried, keyed_ofKeyed, List.map_append, hmap, Opening.close, Opening.carry,
    keyed_push, pushKey_map, ← hkey]
  simp only [List.map_cons, List.map_nil, List.append_cancel_left_eq, List.cons.injEq, and_true,
    Prod.mk.injEq, true_and]
  rw [Section.mk.injEq]
  have hheld := congrArg Section.held hlast
  have hson := congrArg Section.son hlast
  exact ⟨congrArg (· ++ reached nbrs held) hheld, hson⟩

end Row

/-! ## Slots that are written -/

section Marks

variable {slots slots' : Slots} {v : Vertex} {vs held nbrs : List Vertex} {s far near : NodeId}
variable {ss xs ys zs : List (NodeId × List Vertex)} {e : NodeId × List Vertex}

/-- The place of a section with more vertices. -/
abbrev addHeld (vs : List Vertex) (s : NodeId × List Vertex) : NodeId × List Vertex := (s.1, s.2 ++ vs)

theorem hits_add_of_mem (h : v ∈ vs) : hits v (ss.map (addHeld vs)) = ss.map Prod.fst := by
  rw [hits_of_all, List.map_map]
  · rfl
  · intro s hs
    obtain ⟨r, hr, rfl⟩ := List.mem_map.1 hs
    exact List.mem_append_right _ h

theorem hits_add_of_not_mem (h : v ∉ vs) : hits v (ss.map (addHeld vs)) = hits v ss := by
  induction ss with
  | nil => rfl
  | cons s ss ih =>
      have hsame : (s.2 ++ vs).contains v = s.2.contains v := by simp [h]
      simp only [hits, List.map_cons, List.filter_cons, hsame] at ih ⊢
      split <;> simp only [List.map_cons, ih]

/-- The places that hold a vertex which was carried into all sections, the last one excepted unless it
is a neighbour. -/
theorem hits_carried (hv : v ∈ held) (hout : v ∉ e.2) :
    hits v (zs.map (addHeld held) ++ [addHeld (reached nbrs held) e]) =
      zs.map Prod.fst ++ if nbrs.contains v then [e.1] else [] := by
  rw [hits_append, hits_add_of_mem hv]
  congr 1
  by_cases hn : nbrs.contains v = true
  · rw [if_pos hn]
    exact @hits_add_of_mem _ _ [e] (mem_reached.2 ⟨hv, by simpa using hn⟩)
  · rw [if_neg hn]
    have hnot : v ∉ reached nbrs held := fun hr => hn (by simpa using (mem_reached.1 hr).2)
    exact (@hits_add_of_not_mem _ _ [e] hnot).trans (hits_eq_nil.2 (by simpa using hout))

theorem hits_carried_of_not_mem (hv : v ∉ held) :
    hits v (zs.map (addHeld held) ++ [addHeld (reached nbrs held) e]) = hits v (zs ++ [e]) := by
  have hnot : v ∉ reached nbrs held := fun hr => hv (mem_reached.1 hr).1
  rw [hits_append, hits_append, hits_add_of_not_mem hv]
  exact congrArg _ (@hits_add_of_not_mem _ _ [e] hnot)

/-- The ends of a list of sections with one more place at the right end or without it. -/
theorem ends_carried (hfar : (zs.map Prod.fst).head? = some far)
    (hnear : (zs.map Prod.fst).getLast? = some near) (b : Bool) (k : NodeId) :
    (zs.map Prod.fst ++ if b then [k] else []).head? = some far ∧
      (zs.map Prod.fst ++ if b then [k] else []).getLast? = some (if b then k else near) := by
  cases b with
  | false => exact ⟨by rwa [if_neg Bool.false_ne_true, List.append_nil],
      by rwa [if_neg Bool.false_ne_true, if_neg Bool.false_ne_true, List.append_nil]⟩
  | true => exact ⟨by rw [List.head?_append, hfar]; rfl, by simp⟩

/-- The slots after vertices were carried into a row. -/
theorem Slots.Marks.carried (h : slots.Marks (zs ++ [e]))
    (hfar : (zs.map Prod.fst).head? = some far) (hnear : (zs.map Prod.fst).getLast? = some near)
    (hout : ∀ v ∈ held, v ∉ e.2)
    (hin : ∀ v ∈ held, slots'.get v = .span far (if nbrs.contains v then e.1 else near))
    (hother : ∀ v ∉ held, slots'.get v = slots.get v) :
    slots'.Marks (zs.map (addHeld held) ++ [addHeld (reached nbrs held) e]) := by
  intro v f l hf hl
  by_cases hv : v ∈ held
  · obtain ⟨hhead, hlast⟩ := ends_carried hfar hnear (nbrs.contains v) e.1
    rw [hits_carried hv (hout v hv)] at hf hl
    rw [hhead, Option.some.injEq] at hf
    rw [hlast, Option.some.injEq] at hl
    rw [hin v hv, hf, hl]
    exact Or.inl rfl
  · rw [hits_carried_of_not_mem hv] at hf hl
    rw [hother v hv]
    exact h v f l hf hl

/-- The slots after a row took the place of a section of an outer row. -/
theorem Slots.Marks.spliced (hO : slots.Marks (xs ++ (s, held) :: ys)) (hR : slots.Marks (zs ++ [e]))
    (hfar : (zs.map Prod.fst).head? = some far) (hnear : (zs.map Prod.fst).getLast? = some near)
    (hs : ∀ r ∈ xs ++ ys, r.1 ≠ s) (hout : ∀ v ∈ held, v ∉ e.2)
    (hapart : ∀ v, (∃ r ∈ zs ++ [e], v ∈ r.2) → ∀ r ∈ xs ++ ys, v ∉ r.2)
    (hin : ∀ v ∈ held, ∀ f l, (hits v (xs ++ (s, held) :: ys)).head? = some f →
      (hits v (xs ++ (s, held) :: ys)).getLast? = some l → slots'.get v =
        .span (if f = s then far else f) (if l = s then (if nbrs.contains v then e.1 else near) else l))
    (hother : ∀ v ∉ held, slots'.get v = slots.get v) :
    slots'.Marks (xs ++ ((zs.map (addHeld held) ++ [addHeld (reached nbrs held) e]) ++ ys)) := by
  intro v f l hf hl
  simp only [List.forall_mem_append] at hs
  have hplace : ∀ {ss : List (NodeId × List Vertex)} {id : NodeId}, (∀ r ∈ ss, r.1 ≠ s) →
      id ∈ hits v ss → id ≠ s := by
    intro ss id hss hid
    obtain ⟨vs, hr, -⟩ := mem_hits.1 hid
    exact hss _ hr
  -- A vertex of the section runs through it: its ends move if they were at the section.
  by_cases hv : v ∈ held
  · obtain ⟨hhead, hlast⟩ := ends_carried hfar hnear (nbrs.contains v) e.1
    rw [hits_append, hits_append, hits_carried hv (hout v hv)] at hf hl
    have hold : hits v (xs ++ (s, held) :: ys) = hits v xs ++ s :: hits v ys := by
      rw [hits_append]
      simp [hits, hv]
    have hslot := hin v hv
    simp only [hold] at hslot
    rw [List.head?_append, List.head?_append, hhead] at hf
    rw [List.getLast?_append, List.getLast?_append, hlast] at hl
    rw [hslot ((hits v xs).head?.getD s) ((hits v ys).getLast?.getD s)
      (by cases h : (hits v xs).head? <;> simp [List.head?_append, h])
      (by rw [List.getLast?_append, List.getLast?_cons]; simp)]
    left
    congr 1
    · cases hx : (hits v xs).head? with
      | none => simpa [hx] using hf
      | some id =>
          have hne := hplace hs.1 (List.mem_of_head? hx)
          simpa [hx, hne] using hf
    · cases hy : (hits v ys).getLast? with
      | none => simpa [hy] using hl
      | some id =>
          have hne := hplace hs.2 (List.mem_of_getLast? hy)
          simpa [hy, hne] using hl
  · rw [hits_append, hits_append, hits_carried_of_not_mem hv] at hf hl
    rw [hother v hv]
    -- Any other vertex is held in one of the two rows only, where its ends stay the same.
    by_cases hinner : ∃ r ∈ zs ++ [e], v ∈ r.2
    · have hnone := hapart v hinner
      simp only [List.forall_mem_append] at hnone
      rw [hits_eq_nil.2 hnone.1, hits_eq_nil.2 hnone.2, List.nil_append, List.append_nil] at hf hl
      exact hR v f l hf hl
    · have hnil : hits v (zs ++ [e]) = [] := hits_eq_nil.2 fun r hr hvr => hinner ⟨r, hr, hvr⟩
      have hold : hits v (xs ++ (s, held) :: ys) = hits v xs ++ (hits v (zs ++ [e]) ++ hits v ys) := by
        rw [hnil, hits_append, List.nil_append]
        simp [hits, hv]
      rw [← hold] at hf hl
      exact hO v f l hf hl

end Marks

end CliquePath
