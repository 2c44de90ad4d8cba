import CliquePath.Proofs.CliqueTree.Equations
import CliquePath.Proofs.LinkedTree.Steps

set_option autoImplicit false

/-!
# Growth under boughs

This module follows the growth of a node upwards through boughs that are reached as a whole. The
highest of the changed nodes settles below them: what was lifted out of it goes into the P-node
directly above if it is the only child there, and into a new P-node otherwise.
-/

namespace CliquePath

open Plan (ctx)

namespace Sole

variable {α : Type} {test : α → Bool} {entries before after : List α} {x : α}

theorem find_absent (h : ∀ x ∈ entries, test x = false) : find test entries = .absent := by
  have hdrop : (entries.dropWhile fun x => !test x) = [] := by
    simpa [List.dropWhile_eq_nil_iff] using h
  rw [find, hdrop]

theorem find_middle (hbefore : ∀ y ∈ before, test y = false) (hx : test x = true)
    (hafter : ∀ y ∈ after, test y = false) :
    find test (before ++ x :: after) = .one before x after := by
  have hdrop : (before ++ x :: after).dropWhile (fun x => !test x) = x :: after := by
    rw [List.dropWhile_append_of_pos fun y hy => by simp [hbefore y hy]]
    simp [hx]
  have htake : (before ++ x :: after).takeWhile (fun x => !test x) = before := by
    rw [List.takeWhile_append_of_pos fun y hy => by simp [hbefore y hy]]
    simp [hx]
  have hany : after.any test = false := by
    simpa [List.any_eq_false] using hafter
  rw [find, hdrop, htake]
  simp [hany]

end Sole

namespace Bough

variable {b : Bough} {T G : Plan} {nbrs : List Vertex} {u : Vertex} {g : Grown}

/-- All neighbours at a bough or below it are below the node in focus or at the bough. -/
structure Points (nbrs : List Vertex) (b : Bough) (T : Plan) : Prop where
  visible : (b.fill T).Visible
  focus : T.node.meets nbrs = true
  others : ∀ l ∈ b.others, l.2.node.meets nbrs = false

/-- The row of such a bough holds its neighbours at the section above the node in focus. -/
structure Leads (nbrs : List Vertex) (b : Bough) (T : Plan) : Prop extends Points nbrs b T where
  holds : holdsAll (b.owned nbrs) b.held = true

/-- The row that a bough shows around a section. -/
def shownRow (flipped : Bool) (xs : List (Int × Part Plan)) (key : Int) (s : Section Node)
    (ys : List (Int × Part Plan)) : Row (Section Node) :=
  Row.ofKeyed flipped (xs.map (Row.entry Part.shown) ++ (key, s) :: ys.map (Row.entry Part.shown))

theorem node_branch {id : NodeId} {held : List Vertex} {before after : List Plan}
    (h : ((branch id held before after).fill T).Visible) :
    ((branch id held before after).fill T).node =
      .pnode held (before.map Plan.node ++ T.node :: after.map Plan.node) := by
  rw [fill, Plan.node_of_visible h, List.map_append, List.map_cons]

/-- A child of a P-node that shows holds a vertex or is a Q-node. -/
theorem firm_child {id : NodeId} {held : List Vertex} {before after : List Plan}
    (h : ((branch id held before after).fill T).Visible)
    (hproper : ((branch id held before after).fill T).node.Proper) : T.node.Firm := by
  rw [node_branch h] at hproper
  cases hproper with
  | pnode nodup apart sons firm arity proper => exact firm T.node (by simp)

theorem node_inRow {q key id : _} {flipped : Bool} {xs ys : List (Int × Part Plan)}
    {held : List Vertex} (T : Plan) : ((inRow q flipped xs key id held ys).fill T).node =
      .qnode (shownRow flipped xs key ⟨held, T.node⟩ ys) := by
  rw [fill, Plan.node_qnode, shownRow, Row.map, Row.withKeyed_eq, Row.flipped_ofKeyed,
    Row.keyed_ofKeyed, List.map_append, List.map_cons]
  rfl

theorem toList_shownRow {key : Int} {flipped : Bool} {xs ys : List (Int × Part Plan)}
    {s : Section Node} : (shownRow flipped xs key s ys).toList =
      xs.map (fun e => e.2.shown) ++ s :: ys.map fun e => e.2.shown := by
  rw [shownRow, Row.toList, Row.keyed_ofKeyed]
  simp [Function.comp_def]

/-- The node in focus is the only child with neighbours. -/
theorem Points.find_branch {id : NodeId} {held : List Vertex} {before after : List Plan}
    (h : (branch id held before after).Points nbrs T) :
    Sole.find (Node.meets nbrs) (before.map Plan.node ++ T.node :: after.map Plan.node) =
      .one (before.map Plan.node) T.node (after.map Plan.node) := by
  have hothers : ∀ c ∈ before ++ after, c.node.meets nbrs = false :=
    fun c hc => h.others (id, c) (List.mem_map_of_mem hc)
  simp only [List.forall_mem_append] at hothers
  exact Sole.find_middle (by simpa using hothers.1) h.focus (by simpa using hothers.2)

/-- The section above the node in focus is the only one with neighbours below it. -/
theorem Points.find_inRow {q key id : _} {flipped : Bool} {xs ys : List (Int × Part Plan)}
    {held : List Vertex} (h : (inRow q flipped xs key id held ys).Points nbrs T) :
    Sole.find (fun s : Section Node => s.son.meets nbrs)
        (shownRow flipped xs key ⟨held, T.node⟩ ys).toList =
      .one (xs.map fun e => e.2.shown) ⟨held, T.node⟩ (ys.map fun e => e.2.shown) := by
  have hothers : ∀ e ∈ xs ++ ys, e.2.son.node.meets nbrs = false :=
    fun e he => h.others (e.2.id, e.2.son) (List.mem_map_of_mem he)
  simp only [List.forall_mem_append] at hothers
  rw [toList_shownRow]
  exact Sole.find_middle (List.forall_mem_map.2 hothers.1) h.focus (List.forall_mem_map.2 hothers.2)

/-- The row that a bough shows holds the neighbours that the bough owns. -/
theorem owned_shownRow {q key id : _} {flipped : Bool} {xs ys : List (Int × Part Plan)}
    {held : List Vertex} (nbrs : List Vertex) (T : Plan) :
    (shownRow flipped xs key ⟨held, T.node⟩ ys).owned nbrs =
      (inRow q flipped xs key id held ys).owned nbrs := by
  rw [← owned_row nbrs T]
  congr 1
  have hnode := @node_inRow q key id flipped xs ys held T
  rw [fill, Plan.node_qnode, Node.qnode.injEq] at hnode
  exact hnode.symm

/-- The row of the bough holds the neighbours that it owns at the section of the path. -/
theorem Leads.holds_inRow {q key id : _} {flipped : Bool} {xs ys : List (Int × Part Plan)}
    {held : List Vertex} (h : (inRow q flipped xs key id held ys).Leads nbrs T) :
    holdsAll ((shownRow flipped xs key ⟨held, T.node⟩ ys).owned nbrs) held = true := by
  rw [@owned_shownRow q key id flipped xs ys held nbrs T]
  exact h.holds

/-! ## No growth -/

/-- A bough does not open above a node that does not open. -/
theorem Points.opening?_eq_none (h : b.Points nbrs T) (ho : T.node.opening? nbrs = none) :
    (b.fill T).node.opening? nbrs = none := by
  cases b with
  | branch id held before after =>
      rw [node_branch h.visible, Node.opening?_pnode, h.find_branch]
      simp only [ho, Option.map_none]
  | inRow q flipped xs key id held ys =>
      rw [node_inRow, Node.opening?_qnode, h.find_inRow]
      simp only [ho, Option.map_none, ite_self]

/-- A bough does not grow above a node that does not open, and does not grow if the bough is reached as
a whole. -/
theorem Points.grow?_eq_none (h : b.Points nbrs T) (ho : T.node.opening? nbrs = none)
    (hg : isFull nbrs b.held = true → T.node.grow? u nbrs = none) :
    (b.fill T).node.grow? u nbrs = none := by
  cases b with
  | branch id held before after =>
      rw [node_branch h.visible, Node.grow?_pnode, h.find_branch]
      cases hfull : isFull nbrs held with
      | true => simp only [hg hfull, if_true, Option.map_none]
      | false => simp only [ho, Bool.false_eq_true, if_false, Option.map_none]
  | inRow q flipped xs key id held ys =>
      rw [node_inRow, Node.grow?_qnode, h.find_inRow]
      cases hfull : isFull nbrs held with
      | true => simp only [hfull, hg hfull, if_true, Option.map_none, ite_self]
      | false => simp only [hfull, ho, Bool.false_eq_true, if_false, Option.bind_none, ite_self]

/-! ## Growing through a bough -/

theorem set_ofKeyed {α : Type} (flipped : Bool) {es fs : List (Int × α)} {key : Int} (x y : α) {i : Nat}
    (hi : i = es.length) : (Row.ofKeyed flipped (es ++ (key, x) :: fs)).set i y =
      Row.ofKeyed flipped (es ++ (key, y) :: fs) := by
  subst hi
  rw [Row.set, Row.withKeyed_eq, Row.keyed_ofKeyed, Row.flipped_ofKeyed,
    List.modify_eq_take_cons_drop (by simp)]
  simp

/-- What a bough makes of the growth of the node in focus. -/
def regrown : Bough → Grown → Grown
  | branch _ held before after, g =>
      g.underChildren held (before.map Plan.node) (after.map Plan.node)
  | inRow _ flipped xs key _ held ys, g => .plain (.qnode (shownRow flipped xs key ⟨held, g.settle⟩ ys))

/-- A bough that is reached as a whole stays above the change. -/
theorem Leads.grow?_fill (h : b.Leads nbrs T) (hfull : isFull nbrs b.held = true) :
    (b.fill T).node.grow? u nbrs = (T.node.grow? u nbrs).map b.regrown := by
  cases b with
  | branch id held before after =>
      rw [node_branch h.visible, Node.grow?_pnode, h.find_branch]
      simp only [show isFull nbrs held = true from hfull, if_true]
      rfl
  | inRow q flipped xs key id held ys =>
      have hset : ∀ g : Grown, Grown.underSection (shownRow flipped xs key ⟨held, T.node⟩ ys)
          (xs.map fun e => e.2.shown).length ⟨held, T.node⟩ g =
            (inRow q flipped xs key id held ys).regrown g := by
        intro g
        rw [Grown.underSection, regrown, shownRow, set_ofKeyed _ _ _ (by simp)]
        rfl
      rw [node_inRow, Node.grow?_qnode, h.find_inRow]
      simp only [h.holds_inRow, Bool.not_true, Bool.false_eq_true, if_false,
        show isFull nbrs held = true from hfull, if_true]
      congr 1
      funext g
      exact hset g

/-- A node that grew without anything lifted out of it stands below the bough. -/
theorem regrown_plain (h : (b.fill T).Visible) (G : Plan) :
    b.regrown (.plain G.node) = .plain (b.fill G).node := by
  have hG := Plan.visible_fill b T G h
  cases b with
  | branch id held before after =>
      rw [node_branch hG, regrown, Grown.underChildren]
      split
      next hnil =>
        simp only [Bool.and_eq_true, List.isEmpty_iff] at hnil
        simp [hnil.1, hnil.2, Grown.plain]
      next => rfl
  | inRow q flipped xs key id held ys =>
      rw [node_inRow]
      rfl

/-- The only child of a P-node leaves to it what was lifted. -/
theorem regrown_only {id : NodeId} {held : List Vertex} (hne : g.lifted ≠ []) (hG : g.node = G.node) :
    (branch id held [] []).regrown g = .plain (Plan.pnode id (held ++ g.lifted) [G]).node := by
  have hvis : (Plan.pnode id (held ++ g.lifted) [G]).Visible := Or.inl (by simp [hne])
  rw [Plan.node_of_visible hvis]
  simp [regrown, Grown.underChildren, hG]

/-- Elsewhere what was lifted stays above the node. -/
theorem regrown_settle (h : (b.fill T).Visible) (hb : ∀ id held, b ≠ branch id held [] [])
    (hG : g.settle = G.node) : b.regrown g = .plain (b.fill G).node := by
  have hvis := Plan.visible_fill b T G h
  cases b with
  | branch id held before after =>
      rw [node_branch hvis, regrown, Grown.underChildren, hG]
      split
      next hnil =>
        simp only [Bool.and_eq_true, List.isEmpty_iff, List.map_eq_nil_iff] at hnil
        exact absurd (by rw [hnil.1, hnil.2]) (hb id held)
      next => rfl
  | inRow q flipped xs key id held ys =>
      rw [node_inRow, regrown, hG]

end Bough

namespace Plan

variable {T G W : Plan} {bs cs : List Bough} {nbrs lifted : List Vertex} {u : Vertex} {g : Grown}

/-- The boughs above a node lead to it. -/
def Led (nbrs : List Vertex) : Plan → List Bough → Prop
  | _, [] => True
  | T, b :: bs => b.Leads nbrs T ∧ Led nbrs (b.fill T) bs

theorem led_append : T.Led nbrs (bs ++ cs) ↔ T.Led nbrs bs ∧ (T.under bs).Led nbrs cs := by
  induction bs generalizing T with
  | nil => simp [Led, under]
  | cons b bs ih => rw [List.cons_append, Led, ih, Led, and_assoc, under]

/-- A node with the vertices lifted out of it below some boughs. -/
inductive Settles (lifted : List Vertex) (G : Plan) : List Bough → Plan → Prop
  | plain (bs : List Bough) (hnil : lifted = []) : Settles lifted G bs (G.under bs)
  | only (id : NodeId) (held : List Vertex) (bs : List Bough) (hne : lifted ≠ []) :
      Settles lifted G (.branch id held [] [] :: bs) ((pnode id (held ++ lifted) [G]).under bs)
  | fresh (id : NodeId) (bs : List Bough) (hne : lifted ≠ [])
      (hb : ∀ id held, bs.head? ≠ some (.branch id held [] [])) :
      Settles lifted G bs ((pnode id lifted [G]).under bs)

/-- A node that grew without anything lifted out of it stands below boughs that are reached as a
whole. -/
theorem grow?_under_plain (h : T.Led nbrs bs) (hfull : ∀ b ∈ bs, isFull nbrs b.held = true)
    (hg : T.node.grow? u nbrs = some (.plain G.node)) :
    (T.under bs).node.grow? u nbrs = some (.plain (G.under bs).node) := by
  induction bs generalizing T G with
  | nil => exact hg
  | cons b bs ih =>
      refine ih h.2 (fun c hc => hfull c (List.mem_cons_of_mem _ hc)) ?_
      rw [h.1.grow?_fill (hfull b List.mem_cons_self), hg, Option.map_some,
        Bough.regrown_plain h.1.visible]

/-- A node that does not grow keeps boughs that are reached as a whole from growing. -/
theorem grow?_under_none (h : T.Led nbrs bs) (hfull : ∀ b ∈ bs, isFull nbrs b.held = true)
    (hg : T.node.grow? u nbrs = none) : (T.under bs).node.grow? u nbrs = none := by
  induction bs generalizing T with
  | nil => exact hg
  | cons b bs ih =>
      refine ih h.2 (fun c hc => hfull c (List.mem_cons_of_mem _ hc)) ?_
      rw [h.1.grow?_fill (hfull b List.mem_cons_self), hg, Option.map_none]

/-- The growth of a node below boughs that are reached as a whole. -/
theorem Settles.grow? (h : Settles g.lifted G bs W) (hled : T.Led nbrs bs)
    (hfull : ∀ b ∈ bs, isFull nbrs b.held = true) (hg : T.node.grow? u nbrs = some g)
    (hG : g.node = G.node) :
    ((T.under bs).node.grow? u nbrs).map Grown.settle = some W.node := by
  cases h with
  | plain bs hnil =>
      have hplain : g = .plain G.node := by
        cases g
        cases hnil
        cases hG
        rfl
      rw [grow?_under_plain hled hfull (hplain ▸ hg)]
      rfl
  | only id held bs hne =>
      -- What was lifted joins what the P-node holds, whose only child is the grown one.
      rw [List.forall_mem_cons] at hfull
      rw [under, grow?_under_plain (G := .pnode id (held ++ g.lifted) [G]) hled.2 hfull.2 ?_]
      · rfl
      · rw [hled.1.grow?_fill hfull.1, hg, Option.map_some, Bough.regrown_only hne hG]
  | fresh id bs hne hb =>
      -- What was lifted stays in a P-node of its own, where the way goes on as before.
      have hsettle : g.settle = (Plan.pnode id g.lifted [G]).node := by
        rw [node_of_visible (Or.inl hne), Grown.settle, hG]
        simp [hne]
      cases bs with
      | nil => rw [under, hg, Option.map_some, hsettle, under]
      | cons b bs =>
          rw [List.forall_mem_cons] at hfull
          rw [under, grow?_under_plain (G := b.fill (.pnode id g.lifted [G])) hled.2 hfull.2 ?_]
          · rfl
          · rw [hled.1.grow?_fill hfull.1, hg, Option.map_some,
              Bough.regrown_settle hled.1.visible (fun id held heq => hb id held (by rw [heq]; rfl))
                hsettle]

end Plan

end CliquePath
