import CliquePath.Proofs.CliqueTree.History
import CliquePath.Proofs.LinkedTree.Calls
import CliquePath.Proofs.LinkedTree.Refusals
import CliquePath.Proofs.LinkedTree.Trimming

set_option autoImplicit false

/-!
# The clique tree of a linked tree

This module shows that a linked tree follows a clique tree step by step. After any insertions its live
cells stand for a trim plan, and this shows the root of the clique tree to which the same calls lead.
-/

namespace CliquePath

open Cells (one)
open Plan (ctx)

/-- A plan shows the vertices of its parts. -/
theorem Plan.vertices_under {T : Plan} {bs : List Bough} {v : Vertex} (hv : v ∈ T.node.vertices) :
    v ∈ (T.under bs).node.vertices := by
  obtain ⟨p, hp⟩ := (exists_holds_iff T (ctx bs).parent v).2 hv
  exact (exists_holds_iff _ none v).1 ⟨p, holds_under.2 (Or.inl hp)⟩

namespace Work

variable {w w' : Work} {S : Set Vertex} {W : Plan} {u v : Vertex} {nbrs : List Vertex}
variable {root : Option Node}

/-- A plan shows the vertices that are in the tree. -/
theorem Draws.mem_vertices (h : w.Draws S W) : v ∈ W.node.vertices ↔ v ∈ S := by
  rw [← Plan.exists_holds_iff W none, h.agree.mem_iff_exists_holds]

/-- What a tree stands for: nothing as long as it has no vertices, and then a node. -/
inductive Forms (w : Work) (S : Set Vertex) : Option Node → Prop
  | empty (sound : w.Sound S 0) (root : w.arena.root = none) (live : w.arena.live = 0) : Forms w S none
  | plan {W : Plan} (draws : w.Draws S W) (trim : W.Trim) (nonempty : S.Nonempty) :
      Forms w S (some W.node)

/-! ## A vertex without neighbours -/

/-- The first vertex becomes the only leaf. -/
theorem Sound.firstLeaf (h : w.Sound S 0) (hroot : w.arena.root = none) (hlive : w.arena.live = 0)
    (hu : u ∉ S) :
    ∃ w' leaf, w.addIsolated u = .ok w' ∧ w'.Draws (insert u S) (.leaf leaf [u]) := by
  obtain ⟨a, leaf, hnew, o⟩ := newLeaf_owns h.owns u
  rw [add_zero] at o
  have hlife : a.live = w.arena.live + 1 := by
    have ha : (w.newLeaf u).1.arena = a := by rw [hnew]
    exact Arena.live_of_push (ha ▸ Arena.life_alloc w.arena .leaf [u])
  refine ⟨⟨{ a with root := some leaf }, w.slots.put u (.node leaf), w.touched⟩, leaf, ?_, ?_⟩
  · simp only [Work.addIsolated, hroot, hnew, pure_eq_ok]
  · refine ⟨?_, ?_, ?_, ?_, Plan.formed_leaf⟩
    · rw [Plan.cells_leaf]
      exact o.setRoot (some leaf)
    · rw [Plan.count_leaf]
      exact hlife.trans (by rw [hlive])
    · rw [Plan.cells_leaf]
      exact h.agree.newcomer hu fun v r => by simp
    · exact .leaf _ _ _

/-- A vertex without neighbours is put in beside the node that the plan shows. -/
theorem Draws.addBeside (h : w.Draws S W) (htrim : W.Trim) (hS : S.Nonempty) (ht : w.touched = [])
    (hu : u ∉ S) :
    ∃ w' G, w.addIsolated u = .ok w' ∧ w'.Draws (insert u S) G ∧ G.Trim ∧
      G.node = W.node.beside u := by
  have hroot := h.owns.root_eq
  -- Whatever does not take the vertex itself is paired up with it.
  have hpair : ∀ d, w.arena.cell W.id = .ok d → (d.kind.isP && d.held.isEmpty) = false →
      W.node.beside u = .pnode [] [W.node, .leaf [u]] →
      ∃ w' G, w.addIsolated u = .ok w' ∧ w'.Draws (insert u S) G ∧ G.Trim ∧
        G.node = W.node.beside u := by
    intro d hd hp hnode
    obtain ⟨w', top, leaf, h', hshows, htrim'⟩ := @Draws.pairUp _ _ _ [] _ h ht htrim hu
    refine ⟨w', .pnode top [] [W, .leaf leaf [u]], ?_, (hshows [] (by simp)).draws, htrim', ?_⟩
    · simp only [Work.addIsolated, hroot, hd, ok_bind, hp, Bool.false_eq_true, if_false, h', pure_eq_ok]
    · rw [Plan.node_of_visible (Plan.trim_iff.1 htrim').1, hnode]
      simp
  have hcells := h.owns
  cases W with
  | leaf x held =>
      rw [Plan.cells_leaf] at hcells
      have hcell := hcells.cell (add_zero _).symm
      cases held with
      | cons v rest => exact hpair _ hcell rfl (by simp [Node.beside])
      | nil =>
          obtain ⟨v, hv⟩ := hS
          simp [← h.mem_vertices] at hv
  | pnode x held children =>
      rw [Plan.cells_pnode] at hcells
      have hcell := hcells.cell rfl
      have hvis := Plan.node_of_visible (Plan.trim_iff.1 htrim).1
      cases held with
      | cons v rest => exact hpair _ hcell rfl (by rw [hvis]; simp [Node.beside])
      | nil =>
          obtain ⟨w', leaf, h', hshows, htrim'⟩ := @Draws.adoptLeaf _ _ [] _ _ _ _ h ht htrim hu
          refine ⟨w', .pnode x [] (children ++ [Plan.leaf leaf [u]]), ?_, (hshows [] (by simp)).draws,
            htrim', ?_⟩
          · rw [Plan.id_pnode] at hroot
            simp only [Work.addIsolated, hroot, hcell, ok_bind]
            simp [pCell, Kind.isP, h']
          · rw [hvis, Plan.node_of_visible (Plan.trim_iff.1 htrim').1]
            simp [Node.beside]
  | qnode q row =>
      rw [Plan.cells_qnode] at hcells
      have hcell := hcells.cell_of_mem (Multiset.mem_add.2 (Or.inl Row.row_mem_cellsAt))
      refine hpair _ hcell ?_ (by simp [Node.beside])
      cases (row.map Part.top).flipped <;> rfl

/-! ## A vertex with neighbours -/

/-- What comes of putting a vertex into a tree: the tree stands for the node to which the vertex was
attached, or there is no room and no such node, either. -/
inductive Takes (w : Work) (S : Set Vertex) : Option Node → Bool → Prop
  | refused : Takes w S none false
  | taken {node : Node} (forms : w.Forms S (some node)) : Takes w S (some node) true

/-- A vertex with neighbours makes the node that the plan shows grow. The lower part of the path has
changed; now the vertices of the changed row settle, and what no longer shows is trimmed. -/
theorem Draws.grow {T : Plan} {low upper : List Bough} {out : Option NodeId} {w₁ w₂ : Work} {a : Arena}
    {g : Grown} (h : w.Draws S (T.under (low ++ upper))) (htrim : (T.under (low ++ upper)).Trim)
    (hproper : (T.under (low ++ upper)).node.Proper) (hu : u ∉ S) (hnodup : nbrs.Nodup)
    (hfocus : T.node.meets nbrs = true) (hled : (T.under low).Led nbrs upper)
    (hfull : ∀ b ∈ upper, isFull nbrs b.held = true) (hg : (T.under low).node.grow? u nbrs = some g)
    (hgrew : w₁.Grew (insert u S) upper g out) (hhoist : w₁.hoist? out = .ok w₂)
    (hsimplify : w₂.arena.simplify (w₂.arena.cells.size + w₂.touched.length) w₂.touched = .ok a) :
    ∃ G, Draws { w₂ with arena := a } (insert u S) G ∧ G.Trim ∧
      ((T.under (low ++ upper)).node.grow? u nbrs).map Grown.settle = some G.node := by
  obtain ⟨v, hv, hvT⟩ := Node.meets_iff.1 hfocus
  have habsent : u ∉ (T.under (low ++ upper)).node.vertices :=
    fun hmem => hu (h.mem_vertices.1 hmem)
  rw [Plan.under_append] at htrim hproper habsent ⊢
  have hgrows := (Plan.proper_focus hproper).grows hnodup
    (Node.meets_iff.2 ⟨v, hv, Plan.vertices_under hvT⟩)
    (fun hmem => habsent (Plan.vertices_under hmem)) hg
  -- What grew settles below the boughs above it, and so the whole node has grown.
  obtain ⟨w', W, h', hrests⟩ := hgrew.settle htrim hgrows.sound.proper
  cases hhoist.symm.trans h'
  obtain ⟨G, hG, hsettles⟩ := hrests.settles
  have hW := hsettles.grow? hled hfull hg hG.symm
  obtain ⟨whole, hwhole, hnode⟩ := Option.map_eq_some_iff.1 hW
  have hproperW : W.node.Proper := hnode ▸ (hproper.grows hnodup
    (Node.meets_iff.2 ⟨v, hv, Plan.vertices_under (Plan.vertices_under hvT)⟩) habsent hwhole).sound.settle
  -- Trimming does not change what the plan shows.
  obtain ⟨a', W', ha', hdraws, htrim', hshown⟩ := hrests.draws.simplify hrests.slack hproperW
    (fun t ht => by
      obtain ⟨e, he, rfl⟩ := Multiset.mem_map.1 (hrests.touched t ht)
      exact hrests.draws.owns.mem_lt he) (Nat.le_add_left _ _)
  cases hsimplify.symm.trans ha'
  exact ⟨W', hdraws, htrim', hshown ▸ hW⟩

/-- An accepted path ends in boughs that are reached as a whole, and the node below them answers for the
vertex. -/
theorem Passes.answers {p : Pass} {T : Plan} {bs : List Bough} {steps : List Step}
    {r : Option (Option NodeId)} (h : Passes p T bs) (hdraws : w.Draws S (T.under bs))
    (htrim : (T.under bs).Trim) (hproper : (T.under bs).node.Proper) (ht : w.touched = [])
    (hu : p.vertex ∉ S) (hnodup : p.nbrs.Nodup) (hr : p.Reads (T.under bs))
    (hholds : w.pathHolds p (Ctx.steps (ctx bs) T.id) = .ok true)
    (hsteps : w.lowerPath p (Ctx.steps (ctx bs) T.id) = .ok steps)
    (hplace : w.place p steps = .ok (w', r)) :
    ∃ low upper, bs = low ++ upper ∧ (T.under low).Led p.nbrs upper ∧
      (∀ b ∈ upper, isFull p.nbrs b.held = true) ∧
        w'.Answers (insert p.vertex S) upper ((T.under low).node.grow? p.vertex p.nbrs) r := by
  have hall := Except.ok.inj ((hdraws.pathHolds_eq hproper hr).symm.trans hholds)
  have hled := Plan.led_of_holds htrim h.focus h.others (List.all_eq_true.1 hall)
  obtain ⟨low, upper, rfl, hlower, hfull, hlowest⟩ := hdraws.lowerPath_eq p
  -- the boughs above the highest partial one are reached as a whole, and the path stops below them
  cases hsteps.symm.trans hlower
  rw [Plan.led_append] at hled
  rw [Plan.under_append] at htrim hproper
  exact ⟨low, upper, rfl, hled.2, hfull,
    hdraws.place ht htrim.focus (Plan.proper_focus hproper) hr h hled.1 hlowest hnodup hu hplace⟩

/-- A vertex that is put in with neighbours makes the node of the plan grow, or the node does not grow. -/
theorem Draws.addAdjacent {done : Bool} (h : w.Draws S W) (htrim : W.Trim) (hproper : W.node.Proper)
    (ht : w.touched = []) (hu : u ∉ S) (hn : ∀ v ∈ nbrs, v ∈ S) (hne : nbrs ≠ []) (hnodup : nbrs.Nodup)
    (h' : w.addAdjacent u nbrs = .ok (w', done)) :
    w'.Takes (insert u S) ((W.node.grow? u nbrs).map Grown.settle) done := by
  obtain ⟨p, hpass, h'⟩ := Arena.exists_of_bind h'
  obtain ⟨path?, hpath, h'⟩ := Arena.exists_of_bind h'
  obtain ⟨rfl, rfl, howners⟩ := pass_eq hpass
  obtain ⟨hsound, hreads⟩ := h.reads hn hpass
  -- each of the four ways in which the vertex can be refused is one in which the node does not grow
  cases path? with
  | none =>
      cases h'
      obtain ⟨v, hv⟩ := List.exists_mem_of_ne_nil _ hne
      have hmeets : W.node.meets p.nbrs = true := Node.meets_iff.2 ⟨v, hv, h.mem_vertices.2 (hn v hv)⟩
      rw [(h.refuses_of_path? (u := p.vertex) htrim hreads hmeets hpath).1]
      exact .refused
  | some path =>
      have howned : p.owners ≠ [] := fun heq => hne (by rw [← howners, heq, List.map_nil])
      obtain ⟨bs, T, rfl, rfl, hpasses⟩ := h.path_eq hsound hreads howned hpath
      obtain ⟨holds, hholds, h'⟩ := Arena.exists_of_bind h'
      cases holds with
      | false =>
          cases h'
          rw [(hpasses.refuses_of_pathHolds (u := p.vertex) h htrim hproper hreads hholds).1]
          exact .refused
      | true =>
          obtain ⟨steps, hsteps, h'⟩ := Arena.exists_of_bind h'
          obtain ⟨⟨w₁, placed?⟩, hplace, h'⟩ := Arena.exists_of_bind h'
          obtain ⟨low, upper, rfl, hled, hfull, hanswers⟩ :=
            hpasses.answers h htrim hproper ht hu hnodup hreads hholds hsteps hplace
          generalize hg : (T.under low).node.grow? p.vertex p.nbrs = grown? at hanswers
          cases hanswers with
          | refused =>
              cases h'
              rw [Plan.under_append, Plan.grow?_under_none hled hfull hg]
              exact .refused
          | grew hgrew =>
              obtain ⟨w₂, hhoist, h'⟩ := Arena.exists_of_bind h'
              obtain ⟨a, hsimplify, h'⟩ := Arena.exists_of_bind h'
              cases h'
              -- the upper boughs only pass the grown node on
              obtain ⟨G, hG, htrimG, hgrown⟩ := h.grow htrim hproper hu hnodup hpasses.focus hled hfull
                hg hgrew hhoist hsimplify
              rw [hgrown]
              exact .taken (.plan hG htrimG (Set.insert_nonempty _ _))

/-! ## Any vertex -/

theorem Forms.sound (h : w.Forms S root) : ∃ M, w.Sound S M := by
  cases h with
  | empty sound => exact ⟨0, sound⟩
  | plan draws =>
      have howns := draws.whole.owns
      have htrees := draws.whole.trees
      rw [← draws.owns.root_eq] at howns
      refine ⟨_, howns, ?_, draws.agree⟩
      rwa [draws.owns.root_eq]

/-- The vertices of `S` are those with a slot. -/
theorem Forms.placed (h : w.Forms S root) : w.slots.get v ≠ .absent ↔ v ∈ S := by
  cases h with
  | empty sound => exact sound.agree.placed v
  | plan draws => exact draws.agree.placed v

/-- A tree takes in a vertex just as the vertex is attached to the root for which the tree stands. -/
theorem Forms.add {done : Bool} (h : w.Forms S root) (hproper : ∀ node, root = some node → node.Proper)
    (ht : w.touched = []) (hu : u ∉ S) (hn : ∀ v ∈ nbrs, v ∈ S) (hnodup : nbrs.Nodup)
    (h' : w.add u nbrs = .ok (w', done)) :
    w'.Takes (insert u S) (CliqueTree.attach? root u nbrs) done := by
  have hS : (insert u S).Nonempty := Set.insert_nonempty u S
  by_cases hnil : nbrs = []
  · subst hnil
    obtain ⟨w₁, h₁, h'⟩ := Arena.exists_of_bind h'
    cases h'
    cases h with
    | empty sound hroot live =>
        obtain ⟨w₂, leaf, h₂, hdraws⟩ := sound.firstLeaf hroot live hu
        cases h₁.symm.trans h₂
        have hattach : CliqueTree.attach? none u [] = some (Plan.leaf leaf [u]).node := by
          rw [Plan.node_leaf]; rfl
        rw [hattach]
        exact .taken (.plan hdraws Plan.trim_leaf hS)
    | @plan W draws trim nonempty =>
        obtain ⟨w₂, G, h₂, hdraws, htrim, hG⟩ := draws.addBeside trim nonempty ht hu
        cases h₁.symm.trans h₂
        have hattach : CliqueTree.attach? (some W.node) u [] = some G.node := by rw [hG]; rfl
        rw [hattach]
        exact .taken (.plan hdraws htrim hS)
  · rw [Work.add, if_neg (by simpa using hnil)] at h'
    cases h with
    | empty sound =>
        -- A tree without vertices has no neighbours in it.
        obtain ⟨v, hv⟩ := List.exists_mem_of_ne_nil _ hnil
        obtain ⟨r, hr⟩ := sound.agree.mem_iff_exists_holds.1 (hn v hv)
        exact absurd hr Cells.holds_zero
    | plan draws trim nonempty =>
        rw [CliqueTree.attach?, if_neg (by simpa using hnil)]
        exact draws.addAdjacent trim (hproper _ rfl) ht hu hn hnil hnodup h'

end Work

namespace LinkedTree

variable {t t' : LinkedTree} {ct : CliqueTree} {g : Graph} {u : Vertex} {calls : List Call}

/-- The linked tree stands for the clique tree. -/
def Mirrors (t : LinkedTree) (ct : CliqueTree) : Prop :=
  (Work.mk t.arena t.slots []).Forms {v | v ∈ ct.placed} ct.root

/-- The new trees stand for one another. -/
theorem mirrors_new (b : Nat) : (new b).Mirrors .empty := by
  obtain ⟨M, h⟩ := (sound_new b).tree
  have hzero : M = 0 := Multiset.card_eq_zero.1 (Nat.le_zero.1 h.owns.card_le)
  subst hzero
  refine .empty ⟨h.owns, h.trees, ?_⟩ rfl (by simp [new, Arena.live, Arena.life])
  simpa [CliqueTree.empty] using h.agree

theorem Mirrors.contains_iff (h : t.Mirrors ct) (v : Vertex) : t.contains v = true ↔ v ∈ ct.placed := by
  rw [LinkedTree.contains, bne_iff_ne]
  exact Work.Forms.placed h

theorem Mirrors.contains_eq (h : t.Mirrors ct) : t.contains = ct.contains := by
  funext v
  rw [Bool.eq_iff_iff, h.contains_iff, CliqueTree.contains, List.contains_iff_mem]

/-- What a linked tree and a clique tree answer to the same call, and where it leads them: both fail
alike and stay what they are, or both find no room, or both take in the vertex. -/
inductive Follows (ct : CliqueTree) (t' : LinkedTree) :
    Except Failure Insertion → Except Failure Placement → Prop
  | failed (failure : Failure) (mirrors : t'.Mirrors ct) : Follows ct t' (.error failure) (.error failure)
  | rejected : Follows ct t' (.ok .rejected) (.ok .noRoom)
  | inserted {ct' : CliqueTree} (mirrors : t'.Mirrors ct') : Follows ct t' (.ok .inserted) (.ok (.placed ct'))

/-- A linked tree answers as the clique tree does for which it stands. -/
theorem Mirrors.insert (h : t.Mirrors ct) (hsound : ct.Sound) (hnodup : (g.neighbors u).Nodup) :
    Follows ct (t.insert g u).2 (t.insert g u).1 (ct.insert g u) := by
  have hbound : ∀ b, LinkedTree.contains { t with bound := b } = t.contains := fun _ => rfl
  have hcontains := h.contains_eq
  simp only [LinkedTree.insert, CliqueTree.insert, hbound, hcontains]
  cases hlive : g.contains u with
  | false => exact .failed _ h
  | true =>
      cases hc : ct.contains u with
      | true => exact .failed _ h
      | false =>
          have hu : u ∉ ct.placed := by simpa [CliqueTree.contains] using hc
          have hn : ∀ v ∈ (g.neighbors u).filter ct.contains, v ∈ ct.placed := fun v hv => by
            simpa [CliqueTree.contains] using (List.mem_filter.1 hv).2
          have hproper : ∀ node, ct.root = some node → node.Proper := by
            intro node hroot
            have hnode := hsound.proper
            rwa [CliqueTree.node, hroot] at hnode
          -- No step fails, so there is an answer.
          obtain ⟨M, hM⟩ := Work.Forms.sound h
          obtain ⟨w', done, hadd, -⟩ := hM.add rfl hu hn
          have htakes := Work.Forms.add h hproper rfl hu hn (hnodup.filter _) hadd
          simp only [Bool.not_true, Bool.false_eq_true, if_false, hadd]
          generalize CliqueTree.attach? ct.root u ((g.neighbors u).filter ct.contains) = root? at htakes
          cases htakes with
          | refused => exact .rejected
          | taken forms =>
              refine .inserted ?_
              have hset : {v | v ∈ u :: ct.placed} = Insert.insert u {v | v ∈ ct.placed} := by
                ext v
                simp
              rw [Mirrors, hset]
              cases forms with
              | plan draws trim nonempty =>
                  exact .plan ⟨draws.owns, draws.live, draws.agree, draws.runs, draws.formed⟩ trim nonempty

/-- The insertions as a clique tree records them, the latest first. -/
def recorded (calls : List Call) : CliqueTree.Calls := calls.reverse.map fun c => (c.graph, c.vertex)

/-- After several calls that took in their vertices, the linked tree stands for the clique tree to which
the same calls lead. -/
theorem Mirrors.run {earlier : List Call} (h : t.Mirrors ct)
    (hct : CliqueTree.After (recorded earlier) ct) (hgraphs : ∀ c ∈ calls, c.graph.Reachable)
    (hall : ∀ answer ∈ t.answers calls, answer = .ok .inserted) :
    ∃ ct', CliqueTree.After (recorded (earlier ++ calls)) ct' ∧ (t.after calls).Mirrors ct' := by
  induction calls generalizing t ct earlier with
  | nil => exact ⟨ct, by simpa using hct, h⟩
  | cons c rest ih =>
      rw [List.forall_mem_cons] at hgraphs
      rw [answers, List.forall_mem_cons] at hall
      -- the clique tree takes the same step, since its answer follows the one of the linked tree
      have hfollows := h.insert hct.keeps.sound (hgraphs.1.consistent.nodup c.vertex)
      rw [hall.1] at hfollows
      obtain ⟨ct', hins, hmirrors⟩ : ∃ ct', ct.insert c.graph c.vertex = .ok (.placed ct') ∧
          (t.insert c.graph c.vertex).2.Mirrors ct' := by
        generalize ct.insert c.graph c.vertex = placement at hfollows
        cases hfollows with
        | inserted mirrors => exact ⟨_, rfl, mirrors⟩
      have hafter : CliqueTree.After (recorded (earlier ++ [c])) ct' := by
        have hrecorded : recorded (earlier ++ [c]) = (c.graph, c.vertex) :: recorded earlier := by
          simp [recorded]
        rw [hrecorded]
        exact .insert hct hgraphs.1 hins
      obtain ⟨ct'', hct'', hrest⟩ := ih hmirrors hafter hgraphs.2 hall.2
      exact ⟨ct'', by simpa using hct'', hrest⟩

end LinkedTree

end CliquePath
