import CliquePath.Proofs.CliqueTree.Equations
import CliquePath.Proofs.Renaming.Carries
import CliquePath.Proofs.Renaming.Row

set_option autoImplicit false

/-!
# Clique trees of a renamed graph

This module shows that insertion into a clique tree follows a renaming. A node is renamed in every
list of vertices that it holds; the shape of the tree and the keys of its rows stay. Each function
on the path of the neighbours gets one lemma, in the order in which the functions are defined, and
the two recursions down the path are inductions on the node. The intervals read off two
corresponding trees are equal.
-/

namespace CliquePath

variable {ι : Vertex → Vertex}

/-- The node with the vertices renamed. -/
def Node.rename (ι : Vertex → Vertex) : Node → Node
  | .leaf held => .leaf (held.map ι)
  | .pnode held children => .pnode (held.map ι) (children.attach.map fun ⟨c, _⟩ => c.rename ι)
  | .qnode row => .qnode
      ⟨row.cells.attach.map fun ⟨c, _⟩ => (c.1, ⟨c.2.held.map ι, c.2.son.rename ι⟩), row.flipped⟩
termination_by node => sizeOf node
decreasing_by
  · have := List.sizeOf_lt_of_mem ‹c ∈ children›
    simp_wf
    omega
  · have := Section.sizeOf_son_lt (Row.mem_toList.2 ⟨c.1, ‹c ∈ row.cells›⟩)
    simp_wf
    omega

/-- The section with the vertices renamed. -/
def Section.rename (ι : Vertex → Vertex) (s : Section Node) : Section Node :=
  ⟨s.held.map ι, s.son.rename ι⟩

/-- The row with the vertices renamed. -/
abbrev Row.rename (ι : Vertex → Vertex) (row : Row (Section Node)) : Row (Section Node) :=
  row.map (Section.rename ι)

namespace Node

@[simp]
theorem rename_leaf (held : List Vertex) : (leaf held).rename ι = .leaf (held.map ι) := by
  rw [rename]

@[simp]
theorem rename_pnode (held : List Vertex) (children : List Node) :
    (pnode held children).rename ι = .pnode (held.map ι) (children.map (rename ι)) := by
  rw [rename]
  simp [List.map_subtype]

@[simp]
theorem rename_qnode (row : Row (Section Node)) :
    (qnode row).rename ι = .qnode (row.rename ι) := by
  rw [rename, Row.rename, Row.map_eq]
  exact congrArg (fun cells => qnode ⟨cells, row.flipped⟩)
    (@List.attach_map_val _ _ row.cells (Row.entry (Section.rename ι)))

theorem vertices_rename (node : Node) : (node.rename ι).vertices = node.vertices.map ι := by
  induction node using Node.induction with
  | hleaf held => simp
  | hpnode held children ih =>
      have hchildren : children.flatMap (fun c => (c.rename ι).vertices) =
          children.flatMap fun c => c.vertices.map ι := List.flatMap_congr ih
      simp only [rename_pnode, vertices_pnode, List.flatMap_map, List.map_append,
        List.map_flatMap, hchildren]
  | hqnode row ih =>
      have hsons : row.toList.flatMap (fun s => s.held.map ι ++ (s.son.rename ι).vertices) =
          row.toList.flatMap fun s => s.held.map ι ++ s.son.vertices.map ι :=
        List.flatMap_congr fun s hs => by rw [ih s hs]
      simp only [rename_qnode, vertices_qnode, Row.toList_map, List.flatMap_map, List.map_flatMap,
        List.map_append, Section.rename, hsons]

theorem bundle_rename (held : List Vertex) (children : List Node) :
    bundle (held.map ι) (children.map (rename ι)) = (bundle held children).rename ι := by
  rcases held with _ | ⟨v, held⟩
  · rcases children with _ | ⟨c, _ | ⟨d, children⟩⟩ <;> simp [bundle]
  · simp [bundle]

theorem beside_rename (node : Node) (u : Vertex) :
    (node.rename ι).beside (ι u) = (node.beside u).rename ι := by
  cases node with
  | leaf held => cases held <;> simp [beside]
  | pnode held children => cases held <;> simp [beside]
  | qnode row => simp [beside]

end Node

section Injective

variable (hι : Function.Injective ι)

include hι

/-! ## The neighbours within a place -/

theorem contains_map_comp (nbrs : List Vertex) :
    (fun v => (nbrs.map ι).contains v) ∘ ι = fun v => nbrs.contains v :=
  funext fun v => contains_map hι nbrs v

theorem reached_rename (nbrs held : List Vertex) :
    reached (nbrs.map ι) (held.map ι) = (reached nbrs held).map ι := by
  rw [reached, List.filter_map, contains_map_comp hι, reached]

theorem missed_rename (nbrs held : List Vertex) :
    missed (nbrs.map ι) (held.map ι) = (missed nbrs held).map ι := by
  have htest : (fun v => !(nbrs.map ι).contains v) ∘ ι = fun v => !nbrs.contains v :=
    funext fun v => congrArg (! ·) (contains_map hι nbrs v)
  rw [missed, List.filter_map, htest, missed]

theorem isFull_rename (nbrs held : List Vertex) :
    isFull (nbrs.map ι) (held.map ι) = isFull nbrs held := by
  rw [isFull, List.all_map, contains_map_comp hι, isFull]

theorem partsBeyond_rename (nbrs left right : List Vertex) :
    partsBeyond (nbrs.map ι) (left.map ι) (right.map ι) = partsBeyond nbrs left right := by
  rw [partsBeyond, missed_rename hι, List.any_map, contains_map_comp hι, partsBeyond]

theorem holdsAll_rename (vs held : List Vertex) :
    holdsAll (vs.map ι) (held.map ι) = holdsAll vs held := by
  rw [holdsAll, List.all_map, contains_map_comp hι, holdsAll]

theorem Node.meets_rename (nbrs : List Vertex) (node : Node) :
    (node.rename ι).meets (nbrs.map ι) = node.meets nbrs := by
  rw [meets, vertices_rename, List.any_map, contains_map_comp hι, meets]

theorem Section.contains_rename (s : Section Node) (v : Vertex) :
    (s.rename ι).held.contains (ι v) = s.held.contains v :=
  contains_map hι s.held v

namespace Row

theorem owned_rename (row : Row (Section Node)) (nbrs : List Vertex) :
    (row.rename ι).owned (nbrs.map ι) = (row.owned nbrs).map ι := by
  have htest : (fun v => (row.rename ι).toList.any fun s => s.held.contains v) ∘ ι =
      fun v => row.toList.any fun s => s.held.contains v := by
    funext v
    simp only [Function.comp_apply, toList_map, List.any_map]
    exact congrArg row.toList.any (funext fun s => s.contains_rename hι v)
  rw [owned, List.filter_map, htest, owned]

theorem spanOf?_rename (row : Row (Section Node)) (v : Vertex) :
    (row.rename ι).spanOf? (ι v) = row.spanOf? v := by
  rw [spanOf?, span?_map, spanOf?]
  exact congrArg row.span? (funext fun s => s.contains_rename hι v)

theorem sharedPositions_rename (row : Row (Section Node)) (vs : List Vertex) :
    (row.rename ι).sharedPositions (vs.map ι) = row.sharedPositions vs := by
  have hspans : (vs.map ι).filterMap (row.rename ι).spanOf? = vs.filterMap row.spanOf? := by
    rw [List.filterMap_map]
    exact congrArg (fun f => vs.filterMap f) (funext fun v => row.spanOf?_rename hι v)
  have hwhole : (row.rename ι).span? (fun _ => true) = row.span? fun _ => true :=
    span?_map _ _ _
  have hshared : (row.rename ι).sharedSpan? (vs.map ι) = row.sharedSpan? vs := by
    simp only [sharedSpan?, hspans, hwhole]
  simp only [sharedPositions, hshared, positions_map]

end Row

end Injective

/-! ## Opening a path -/

/-- The opened row with the vertices renamed. -/
def Opening.rename (ι : Vertex → Vertex) (o : Opening) : Opening :=
  ⟨o.row.rename ι, o.link.map ι⟩

namespace Opening

variable (hι : Function.Injective ι)

include hι

theorem ofPlace_rename (nbrs held : List Vertex) {below below' : List Vertex → Node}
    (hbelow : ∀ vs, below' (vs.map ι) = (below vs).rename ι) :
    ofPlace (nbrs.map ι) (held.map ι) below' = (ofPlace nbrs held below).rename ι := by
  simp only [ofPlace, reached_rename hι, missed_rename hι, hbelow, rename]
  rw [Row.rename, ← Row.ofList_map]
  rfl

theorem ofRow?_rename (nbrs : List Vertex) (row : Row (Section Node)) :
    ofRow? (nbrs.map ι) (row.rename ι) = (ofRow? nbrs row).map (rename ι) := by
  have hend : ∀ s? : Option (Section Node),
      (((s?.map (Section.rename ι)).map fun s => holdsAll ((row.owned nbrs).map ι) s.held).getD
        false) = (s?.map fun s => holdsAll (row.owned nbrs) s.held).getD false := by
    intro s?
    cases s? with
    | none => rfl
    | some s => exact holdsAll_rename hι _ _
  simp only [ofRow?, Row.owned_rename hι, Row.toList_map, List.getLast?_map, List.head?_map, hend]
  split
  · rfl
  · split
    · simp only [Option.map_some, rename, Row.rename, Row.reverse_map]
    · rfl

theorem carry_rename (nbrs held : List Vertex) (o : Opening) :
    (o.rename ι).carry (nbrs.map ι) (held.map ι) = (o.carry nbrs held).rename ι := by
  simp only [carry, rename, reached_rename hι, List.map_append, Row.rename, Row.map_eq,
    List.map_map]
  refine congrArg (fun cells => Opening.mk ⟨cells, o.row.flipped⟩ _) ?_
  exact List.map_congr_left fun e _ => by simp [Section.rename]

theorem foldChildren_rename (nbrs held : List Vertex) (others : List Node) (o : Opening) :
    (o.rename ι).foldChildren (nbrs.map ι) (held.map ι) (others.map (Node.rename ι)) =
      (o.foldChildren nbrs held others).rename ι := by
  cases others with
  | nil => exact carry_rename hι nbrs held o
  | cons first others =>
      -- the new section has no vertices, so that only its son is renamed
      have hsection : (⟨[], .bundle [] (first.rename ι :: others.map (Node.rename ι))⟩ :
          Section Node) = Section.rename ι ⟨[], .bundle [] (first :: others)⟩ := by
        have hbundle := Node.bundle_rename (ι := ι) [] (first :: others)
        simp only [List.map_nil, List.map_cons] at hbundle
        simp [Section.rename, hbundle]
      simp only [foldChildren, List.map_cons, hsection]
      rw [← carry_rename hι]
      simp only [rename, Row.rename, Row.insertAt_map]

theorem foldLast_rename (nbrs : List Vertex) (outer : Row (Section Node)) (s : Section Node)
    (o : Opening) : (o.rename ι).foldLast (nbrs.map ι) (outer.rename ι) (s.rename ι) =
      (o.foldLast nbrs outer s).rename ι := by
  have hsize : (outer.rename ι).size = outer.size := by simp [Row.map_eq, Row.size]
  have hcarry := carry_rename hι nbrs s.held o
  simp only [foldLast, Section.rename, hsize, hcarry]
  simp only [rename, Row.rename, Row.splice_map]

omit hι in
theorem close_rename (u : Vertex) (o : Opening) :
    (o.rename ι).close (ι u) = (o.close u).rename ι := by
  have hnew : (⟨o.link.map ι, .leaf [ι u]⟩ : Section Node) =
      Section.rename ι ⟨o.link, .leaf [u]⟩ := by simp [Section.rename]
  simp only [close, rename, hnew, Row.rename, Row.push_map]

theorem closeInto_rename (u : Vertex) (nbrs : List Vertex) (outer : Row (Section Node)) (i : Nat)
    (s : Section Node) (o : Opening) :
    (o.rename ι).closeInto (ι u) (nbrs.map ι) (outer.rename ι) i (s.rename ι) =
      (o.closeInto u nbrs outer i s).rename ι := by
  have hcarry := carry_rename hι nbrs s.held o
  simp only [closeInto, Section.rename, hcarry, close_rename, Row.rename, Row.splice_map]

end Opening

namespace Node

variable (hι : Function.Injective ι)

include hι

theorem find_children_rename (nbrs : List Vertex) (children : List Node) :
    Sole.find (meets (nbrs.map ι)) (children.map (rename ι)) =
      (Sole.find (meets nbrs) children).map (rename ι) := by
  rw [Sole.find_map]
  exact congrArg (fun test => (Sole.find test children).map (rename ι))
    (funext fun c => meets_rename hι nbrs c)

theorem find_sections_rename (nbrs : List Vertex) (row : Row (Section Node)) :
    Sole.find (fun s : Section Node => s.son.meets (nbrs.map ι)) (row.rename ι).toList =
      (Sole.find (fun s : Section Node => s.son.meets nbrs) row.toList).map (Section.rename ι) := by
  rw [Row.toList_map, Sole.find_map]
  exact congrArg (fun test => (Sole.find test row.toList).map (Section.rename ι))
    (funext fun s => meets_rename hι nbrs s.son)

theorem opening?_rename (nbrs : List Vertex) (node : Node) :
    (node.rename ι).opening? (nbrs.map ι) = (node.opening? nbrs).map (Opening.rename ι) := by
  induction node using Node.induction with
  | hleaf held =>
      rw [rename_leaf, opening?_leaf, opening?_leaf, Option.map_some,
        Opening.ofPlace_rename hι nbrs held fun vs => (rename_leaf vs).symm]
  | hpnode held children ih =>
      rw [rename_pnode, opening?_pnode, find_children_rename hι, opening?_pnode]
      cases hfind : Sole.find (meets nbrs) children with
      | absent =>
          simp only [Sole.map, Option.map_some]
          rw [Opening.ofPlace_rename hι nbrs held fun vs => bundle_rename vs children]
      | several => rfl
      | one before c after =>
          simp only [Sole.map, ih c (Sole.mem_of_find hfind), Option.map_map, ← List.map_append]
          refine congrArg (fun f => (c.opening? nbrs).map f) (funext fun o => ?_)
          exact Opening.foldChildren_rename hι nbrs held (before ++ after) o
  | hqnode row ih =>
      rw [rename_qnode, opening?_qnode, find_sections_rename hι, opening?_qnode]
      cases hfind : Sole.find (fun s : Section Node => s.son.meets nbrs) row.toList with
      | absent => exact Opening.ofRow?_rename hι nbrs row
      | several => rfl
      | one before s after =>
          have hson := ih s (Sole.mem_of_find hfind)
          -- the outer row may be turned first
          have hfold : ∀ outer : Row (Section Node),
              ((s.son.rename ι).opening? (nbrs.map ι)).map
                  (Opening.foldLast (nbrs.map ι) (outer.rename ι) (s.rename ι)) =
                ((s.son.opening? nbrs).map (Opening.foldLast nbrs outer s)).map
                  (Opening.rename ι) := by
            intro outer
            rw [hson, Option.map_map, Option.map_map]
            exact congrArg (fun f => (s.son.opening? nbrs).map f)
              (funext fun o => Opening.foldLast_rename hι nbrs outer s o)
          have hholds : holdsAll ((row.owned nbrs).map ι) (s.rename ι).held =
              holdsAll (row.owned nbrs) s.held := holdsAll_rename hι _ _
          have hreverse : (row.rename ι).reverse = row.reverse.rename ι := Row.reverse_map _ _
          simp only [Sole.map, Row.owned_rename hι, hholds, List.isEmpty_map, hreverse]
          split
          · rfl
          · split
            · exact hfold row.reverse
            · split
              · exact hfold row
              · rfl

end Node

/-! ## Growing a node -/

/-- What a node becomes, with the vertices renamed. -/
def Grown.rename (ι : Vertex → Vertex) (g : Grown) : Grown := ⟨g.lifted.map ι, g.node.rename ι⟩

namespace Grown

theorem plain_rename (node : Node) : plain (node.rename ι) = (plain node).rename ι := rfl

theorem settle_rename (g : Grown) : (g.rename ι).settle = g.settle.rename ι := by
  cases hlifted : g.lifted <;> simp [settle, rename, hlifted]

theorem underChildren_rename (held : List Vertex) (before after : List Node) (g : Grown) :
    underChildren (held.map ι) (before.map (Node.rename ι)) (after.map (Node.rename ι))
      (g.rename ι) = (underChildren held before after g).rename ι := by
  have hsettle := settle_rename (ι := ι) g
  simp only [underChildren, List.isEmpty_map, hsettle]
  split
  · simp [plain, rename]
  · simp [plain, rename]

theorem underSection_rename (row : Row (Section Node)) (i : Nat) (s : Section Node) (g : Grown) :
    underSection (row.rename ι) i (s.rename ι) (g.rename ι) =
      (underSection row i s g).rename ι := by
  have hsection : (⟨s.held.map ι, g.settle.rename ι⟩ : Section Node) =
      Section.rename ι ⟨s.held, g.settle⟩ := rfl
  simp only [underSection, Section.rename, settle_rename]
  rw [hsection, Row.rename, Row.set_map, ← Row.rename, ← Node.rename_qnode, plain_rename]

variable (hι : Function.Injective ι)

include hι

theorem common_rename (row : Row (Section Node)) : common (row.rename ι) = (common row).map ι := by
  simp only [common, Row.toList_map]
  cases row.toList with
  | nil => rfl
  | cons first rest =>
      have htest : (fun v => (rest.map (Section.rename ι)).all fun s => s.held.contains v) ∘ ι =
          fun v => rest.all fun s => s.held.contains v := by
        funext v
        rw [Function.comp_apply, List.all_map]
        exact congrArg rest.all (funext fun s => s.contains_rename hι v)
      simp only [List.map_cons, Section.rename, List.filter_map]
      exact congrArg (fun test => (first.held.filter test).map ι) htest

theorem ofRow_rename (row : Row (Section Node)) : ofRow (row.rename ι) = (ofRow row).rename ι := by
  have hkept : ∀ s : Section Node, (s.rename ι).held.filter
        (fun v => !((common row).map ι).contains v) =
      (s.held.filter fun v => !(common row).contains v).map ι := by
    intro s
    rw [Section.rename, List.filter_map]
    exact congrArg (fun test => (s.held.filter test).map ι)
      (funext fun v => congrArg (! ·) (contains_map hι (common row) v))
  simp only [ofRow]
  rw [common_rename hι]
  simp only [rename, Node.rename_qnode, Row.rename, Row.map_eq, List.map_map]
  refine congrArg (fun cells => Grown.mk _ (.qnode ⟨cells, row.flipped⟩)) ?_
  refine List.map_congr_left fun e _ => ?_
  simp only [Function.comp_apply, Row.entry, hkept]
  rfl

end Grown

namespace Node

variable (hι : Function.Injective ι)

include hι

theorem growLeaf_rename (u : Vertex) (nbrs held : List Vertex) :
    growLeaf (ι u) (nbrs.map ι) (held.map ι) = (growLeaf u nbrs held).rename ι := by
  simp only [growLeaf, isFull_rename hι, reached_rename hι, missed_rename hι]
  split <;> simp

theorem growChildren_rename (u : Vertex) (nbrs held : List Vertex) (children : List Node) :
    growChildren (ι u) (nbrs.map ι) (held.map ι) (children.map (rename ι)) =
      (growChildren u nbrs held children).rename ι := by
  simp only [growChildren, isFull_rename hι, reached_rename hι, missed_rename hι]
  split <;> simp

theorem gapFits_rename (nbrs : List Vertex) (sections : List (Section Node)) :
    gapFits (nbrs.map ι) (sections.map (Section.rename ι)) = gapFits nbrs sections := by
  funext i
  simp only [gapFits, List.getElem?_map]
  cases sections[i - 1]? with
  | none => rfl
  | some l =>
      cases sections[i]? with
      | none => rfl
      | some r => simp only [Option.map_some, Section.rename, partsBeyond_rename hι]

theorem gap?_rename (nbrs : List Vertex) (sections : List (Section Node)) (low high : Nat) :
    gap? (nbrs.map ι) (sections.map (Section.rename ι)) low high = gap? nbrs sections low high := by
  simp only [gap?, gapFits_rename hι, List.length_map]

theorem growRow?_rename (u : Vertex) (nbrs : List Vertex) (row : Row (Section Node)) :
    growRow? (ι u) (nbrs.map ι) (row.rename ι) = (growRow? u nbrs row).map (Grown.rename ι) := by
  -- the section that is found has the same number
  have hfound : ((row.sharedPositions (row.owned nbrs)).findSome? fun i =>
        (row.rename ι).toList[i]?.bind fun s =>
          if s.held.length = (row.owned nbrs).length then some (i, s) else none) =
      ((row.sharedPositions (row.owned nbrs)).findSome? fun i =>
        row.toList[i]?.bind fun s =>
          if s.held.length = (row.owned nbrs).length then some (i, s) else none).map
        (Prod.map id (Section.rename ι)) := by
    rw [List.map_findSome?]
    refine congrArg (fun f => (row.sharedPositions (row.owned nbrs)).findSome? f)
      (funext fun i => ?_)
    simp only [Row.toList_map, List.getElem?_map, Function.comp_apply]
    cases row.toList[i]? with
    | none => rfl
    | some s =>
        simp only [Option.map_some, Option.bind_some, Section.rename, List.length_map]
        split <;> rfl
  simp only [growRow?, Row.owned_rename hι, Row.sharedPositions_rename hι, List.length_map, hfound]
  -- a section with exactly the owned neighbours takes the vertex in; otherwise a new one needs a gap
  cases (row.sharedPositions (row.owned nbrs)).findSome? fun i =>
        row.toList[i]?.bind fun s =>
          if s.held.length = (row.owned nbrs).length then some (i, s) else none with
  | some found =>
      simp only [Option.map_some, Prod.map, id_eq]
      rw [← Grown.underSection_rename, ← Grown.plain_rename, ← beside_rename]
      rfl
  | none =>
      simp only [Option.map_none]
      cases (row.sharedPositions (row.owned nbrs)).head? with
      | none => rfl
      | some low =>
          cases (row.sharedPositions (row.owned nbrs)).getLast? with
          | none => rfl
          | some high =>
              have hnew : (⟨(row.owned nbrs).map ι, .leaf [ι u]⟩ : Section Node) =
                  Section.rename ι ⟨row.owned nbrs, .leaf [u]⟩ := by simp [Section.rename]
              simp only [Row.toList_map, gap?_rename hι, hnew, Option.map_map]
              refine congrArg (fun f => (gap? nbrs row.toList low high).map f) (funext fun i => ?_)
              rw [Function.comp_apply, ← Grown.ofRow_rename hι, Row.insertAt_map]

theorem closeRow?_rename (u : Vertex) (nbrs : List Vertex) (row : Row (Section Node))
    (before : List (Section Node)) (s : Section Node) (after : List (Section Node)) (o : Opening) :
    closeRow? (ι u) (nbrs.map ι) (row.rename ι) (before.map (Section.rename ι)) (s.rename ι)
        (after.map (Section.rename ι)) (o.rename ι) =
      (closeRow? u nbrs row before s after o).map (Row.rename ι) := by
  -- turning and renaming a row commute
  have hreverse : (row.rename ι).reverse = row.reverse.rename ι := Row.reverse_map _ _
  have hparts : ∀ t : Section Node, partsBeyond (nbrs.map ι) (s.rename ι).held (t.rename ι).held =
      partsBeyond nbrs s.held t.held := fun t => partsBeyond_rename hι nbrs s.held t.held
  simp only [closeRow?, List.getLast?_map, List.head?_map, List.length_map, hreverse,
    Opening.closeInto_rename hι]
  cases before.getLast? with
  | none => rfl
  | some l =>
      cases after.head? with
      | none => rfl
      | some r =>
          simp only [Option.map_some, hparts]
          split
          · rfl
          · split <;> rfl

/-- A node grows alike under a renaming. -/
theorem grow?_rename (u : Vertex) (nbrs : List Vertex) (node : Node) :
    (node.rename ι).grow? (ι u) (nbrs.map ι) = (node.grow? u nbrs).map (Grown.rename ι) := by
  induction node using Node.induction with
  | hleaf held =>
      rw [rename_leaf, grow?_leaf, grow?_leaf, growLeaf_rename hι]
      rfl
  | hpnode held children ih =>
      rw [rename_pnode, grow?_pnode, find_children_rename hι, grow?_pnode]
      cases hfind : Sole.find (meets nbrs) children with
      | absent =>
          simp only [Sole.map, growChildren_rename hι]
          rfl
      | several => rfl
      | one before c after =>
          simp only [Sole.map, isFull_rename hι, ih c (Sole.mem_of_find hfind),
            opening?_rename hι, ← List.map_append, Option.map_map]
          split
          · rw [Option.map_map]
            refine congrArg (fun f => (c.grow? u nbrs).map f) (funext fun g => ?_)
            exact Grown.underChildren_rename held before after g
          · rw [Option.map_map]
            refine congrArg (fun f => (c.opening? nbrs).map f) (funext fun o => ?_)
            simp only [Function.comp_apply]
            rw [Opening.foldChildren_rename hι, Opening.close_rename, Grown.ofRow_rename hι]
  | hqnode row ih =>
      rw [rename_qnode, grow?_qnode, find_sections_rename hι, grow?_qnode]
      cases hfind : Sole.find (fun s : Section Node => s.son.meets nbrs) row.toList with
      | absent => exact growRow?_rename hι u nbrs row
      | several => rfl
      | one before s after =>
          -- the answers below the section correspond by induction, those of the tests by injectivity
          have hson : (s.rename ι).son.grow? (ι u) (nbrs.map ι) =
              (s.son.grow? u nbrs).map (Grown.rename ι) := ih s (Sole.mem_of_find hfind)
          have hopening : (s.rename ι).son.opening? (nbrs.map ι) =
              (s.son.opening? nbrs).map (Opening.rename ι) := opening?_rename hι nbrs s.son
          have hholds : holdsAll ((row.owned nbrs).map ι) (s.rename ι).held =
              holdsAll (row.owned nbrs) s.held := holdsAll_rename hι _ _
          have hfull : isFull (nbrs.map ι) (s.rename ι).held = isFull nbrs s.held :=
            isFull_rename hι _ _
          simp only [Sole.map, Row.owned_rename hι, hholds, hfull, hson, hopening,
            List.length_map]
          split
          · rfl
          · split
            · rw [Option.map_map, Option.map_map]
              refine congrArg (fun f => (s.son.grow? u nbrs).map f) (funext fun g => ?_)
              exact Grown.underSection_rename row before.length s g
            · cases s.son.opening? nbrs with
              | none => rfl
              | some o =>
                  simp only [Option.map_some, Option.bind_some, closeRow?_rename hι,
                    Option.map_map]
                  refine congrArg (fun f => (closeRow? u nbrs row before s after o).map f)
                    (funext fun r => ?_)
                  exact Grown.ofRow_rename hι r

end Node

/-! ## Trees -/

namespace CliqueTree

/-- The tree with the vertices renamed. -/
def rename (ι : Vertex → Vertex) (t : CliqueTree) : CliqueTree :=
  ⟨t.root.map (Node.rename ι), t.placed.map ι⟩

theorem isolated_rename (root : Option Node) (u : Vertex) :
    isolated (root.map (Node.rename ι)) (ι u) = (isolated root u).rename ι := by
  cases root with
  | none => simp [isolated]
  | some node => exact Node.beside_rename node u

theorem attach?_rename (hι : Function.Injective ι) (root : Option Node) (u : Vertex)
    (nbrs : List Vertex) : attach? (root.map (Node.rename ι)) (ι u) (nbrs.map ι) =
      (attach? root u nbrs).map (Node.rename ι) := by
  simp only [attach?, List.isEmpty_map, isolated_rename]
  split
  · rfl
  · cases root with
    | none => rfl
    | some node =>
        simp only [Option.map_some, Option.bind_some, Node.grow?_rename hι, Option.map_map]
        exact congrArg (fun f => (node.grow? u nbrs).map f)
          (funext fun g => Grown.settle_rename g)

end CliqueTree

/-- What becomes of a tree, with the vertices renamed. -/
def Placement.rename (ι : Vertex → Vertex) : Placement → Placement
  | .placed tree => .placed (tree.rename ι)
  | .noRoom => .noRoom

namespace CliqueTree

variable {c g : Graph}

/-- A call of `insert` with corresponding arguments has a corresponding outcome. -/
theorem insert_rename (h : Graph.Carries ι c g) (t : CliqueTree) (u : Vertex) :
    SameAnswer (Placement.rename ι) (t.insert c u) ((t.rename ι).insert g (ι u)) := by
  have hcontains : ∀ v, (t.rename ι).contains (ι v) = t.contains v := fun v =>
    contains_map h.injective t.placed v
  -- the neighbours that are placed correspond, in the same order
  have hnbrs : (g.neighbors (ι u)).filter (t.rename ι).contains =
      ((c.neighbors u).filter t.contains).map ι := by
    rw [h.neighbors, List.filter_map]
    exact congrArg (fun test => ((c.neighbors u).filter test).map ι) (funext hcontains)
  have hroot : (t.rename ι).root = t.root.map (Node.rename ι) := rfl
  simp only [insert, h.contains, hcontains, hnbrs, hroot, attach?_rename h.injective]
  split
  · exact .error _ _
  · split
    · exact .error _ _
    · cases attach? t.root u ((c.neighbors u).filter t.contains) with
      | none => exact .ok Placement.noRoom
      | some root => exact .ok (Placement.placed ⟨some root, u :: t.placed⟩)

end CliqueTree

end CliquePath
