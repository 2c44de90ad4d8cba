import CliquePath.GraphFile.Writer
import CliquePath.Text.Lines
import CliquePath.Proofs.Graph.Edits
import CliquePath.Proofs.Graph.Positions

set_option autoImplicit false

/-!
# What a graph file says

This module defines the sheet of a graph file: the labels of the vertices and the edges, in the
order of their lines. A sheet stands between a text and a graph. Writing a graph is writing the
lines of its sheet, and reading a text is finding the graph that the sheet on it describes, so the
two can be compared on sheets alone.

A graph that a sheet describes has its vertices numbered from 0 on and its edges in the order of the
sheet. Reading adds one vertex or one edge at a time, and `Describes.push` and `Describes.join`
carry the description from one line to the next.
-/

namespace CliquePath.GraphFile

/-- The labels in the order of the vertices, and the edges in their order. An edge is written with
the positions of its ends, counted from 0. -/
@[ext]
structure Sheet where
  labels : List String
  edges : List (Vertex × Vertex)
deriving DecidableEq, Repr

/-- The edges as lower and higher ends. -/
def sortedEdges (es : List (Vertex × Vertex)) : List (Vertex × Vertex) :=
  es.map fun e => sortedEnds e.1 e.2

/-- An increasing renaming takes lower ends to lower ends. -/
theorem map_sortedEdges {ι : Vertex → Vertex} (hι : StrictMono ι) (es : List (Vertex × Vertex)) :
    (sortedEdges es).map (Prod.map ι ι) = sortedEdges (es.map (Prod.map ι ι)) := by
  rw [sortedEdges, sortedEdges, List.map_map, List.map_map]
  refine List.map_congr_left fun e _ => ?_
  simp only [Function.comp_apply, sortedEnds, Prod.map_fst, Prod.map_snd, hι.lt_iff_lt]
  split <;> rfl

namespace Sheet

/-- The line of a label. -/
def labelText (label : String) : List Char := '\x7b' :: label.toList ++ ['\x7d']

/-- The line of an edge, its ends counted from 1. -/
def edgeText (e : Vertex × Vertex) : List Char :=
  Text.numeral (e.1 + 1) ++ ' ' :: Text.numeral (e.2 + 1)

/-- The lines of the file. -/
def lines (s : Sheet) : List (List Char) :=
  [Heading.nodes.text.toList, Text.numeral s.labels.length] ++
    s.labels.map labelText ++
    [[], Heading.edges.text.toList, Text.numeral s.edges.length] ++
    s.edges.map edgeText

/-- The text of the file. -/
def text (s : Sheet) : String := String.ofList (s.lines.flatMap fun line => line ++ ['\n'])

/-- The edge joins two vertices of the sheet that none of its edges joins. -/
structure Admits (s : Sheet) (e : Vertex × Vertex) : Prop where
  left : e.1 < s.labels.length
  right : e.2 < s.labels.length
  ne : e.1 ≠ e.2
  fresh : sortedEnds e.1 e.2 ∉ sortedEdges s.edges

/-- The sheet can stand in a file: no label breaks its line, a block of memory holds the vertices, the
number of edges fits into 64 bits, and the edges are those of a graph. -/
structure WellFormed (s : Sheet) : Prop where
  labels : ∀ label ∈ s.labels, '\n' ∉ label.toList
  vertexCount : FitsBlock s.labels.length
  edgeCount : s.edges.length < UInt64.size
  ends : ∀ e ∈ s.edges, e.1 < s.labels.length ∧ e.2 < s.labels.length ∧ e.1 ≠ e.2
  distinct : (sortedEdges s.edges).Nodup

variable {s : Sheet} {g h : Graph} {e : Vertex × Vertex} {i u v : Vertex}

/-- What fits into a block of memory is counted by 64 bits. -/
theorem lt_size_of_fitsBlock {n : Nat} (h : FitsBlock n) : n < UInt64.size := by
  unfold FitsBlock maxBlock at h
  unfold UInt64.size at h ⊢
  omega

/-- The last edge of a sheet is admitted by the edges before it. -/
theorem WellFormed.admits {labels : List String} {edges : List (Vertex × Vertex)}
    (h : WellFormed ⟨labels, edges ++ [e]⟩) : Admits ⟨labels, edges⟩ e := by
  obtain ⟨hleft, hright, hne⟩ := h.ends e (by simp)
  refine ⟨hleft, hright, hne, fun hdone => ?_⟩
  have hdistinct := h.distinct
  rw [sortedEdges, List.map_append, List.nodup_append] at hdistinct
  exact hdistinct.2.2 _ hdone _ (by simp) rfl

theorem WellFormed.front {labels : List String} {edges : List (Vertex × Vertex)}
    (h : WellFormed ⟨labels, edges ++ [e]⟩) : WellFormed ⟨labels, edges⟩ := by
  have hedges := (List.prefix_append edges [e]).sublist
  refine ⟨h.labels, h.vertexCount, ?_, fun d hd => h.ends d (hedges.subset hd), ?_⟩
  · exact Nat.lt_of_le_of_lt hedges.length_le h.edgeCount
  · exact h.distinct.sublist (hedges.map _)

/-! ## The lines of the text -/

/-- A line that ends in a word of the format ends in no carriage return. -/
theorem getLast?_append_word (cs : List Char) {word : List Char} (hword : Text.IsWord word) :
    (cs ++ word).getLast? ≠ some '\r' := by
  intro hlast
  rw [List.getLast?_append_of_ne_nil _ hword.ne_nil] at hlast
  have hblank := hword.not_blank _ (List.mem_of_getLast? hlast)
  exact absurd hblank (by decide)

theorem newline_not_mem_numeral (n : Nat) : '\n' ∉ Text.numeral n := by
  intro hfeed
  have hblank := (Text.isWord_numeral n).not_blank _ hfeed
  exact absurd hblank (by decide)

/-- The brace that ends the line of a label is a word. -/
theorem isWord_brace : Text.IsWord ['\x7d'] := by
  have hbrace : Text.isBlank '\x7d' = false := rfl
  exact ⟨List.cons_ne_nil _ _, by simpa using hbrace⟩

/-- No line of a sheet holds a line end. -/
theorem WellFormed.lines_unbroken (hs : s.WellFormed) :
    ∀ line ∈ s.lines, '\n' ∉ line ∧ line.getLast? ≠ some '\r' := by
  intro line hline
  simp only [Sheet.lines, List.mem_append, List.mem_cons, List.not_mem_nil, or_false,
    List.mem_map] at hline
  rcases hline with ((((rfl | rfl) | ⟨label, hlabel, rfl⟩) | rfl | rfl | rfl) | ⟨e, -, rfl⟩)
  · decide
  · exact ⟨newline_not_mem_numeral _, getLast?_append_word [] (Text.isWord_numeral _)⟩
  · -- Only here the sheet matters: a label must not break its line.
    refine ⟨?_, getLast?_append_word ('\x7b' :: label.toList) isWord_brace⟩
    simp [labelText, hs.labels label hlabel]
  · decide
  · decide
  · exact ⟨newline_not_mem_numeral _, getLast?_append_word [] (Text.isWord_numeral _)⟩
  · refine ⟨by simp [edgeText, newline_not_mem_numeral], ?_⟩
    have hlast := getLast?_append_word (Text.numeral (e.1 + 1) ++ [' '])
      (Text.isWord_numeral (e.2 + 1))
    simpa [edgeText] using hlast

/-- The text of a sheet falls into its lines. -/
theorem lines_text (hs : s.WellFormed) : Text.lines s.text.toList = s.lines := by
  rw [Sheet.text, String.toList_ofList]
  exact Text.lines_flatMap_newline hs.lines_unbroken

/-! ## The graph of a sheet -/

/-- The graph has the vertices and the edges of the sheet, in their order. -/
structure Describes (s : Sheet) (g : Graph) : Prop where
  reachable : g.Reachable
  bound : g.bound = s.labels.length
  label? : ∀ i, g.label? i = s.labels[i]?
  edgeSet : g.edgeSet = (sortedEdges s.edges).reverse

theorem Describes.contains_iff (hs : s.Describes g) :
    g.contains i = true ↔ i < s.labels.length := by
  have hlabel : g.contains i = (g.label? i).isSome := by simp [Graph.contains, Graph.label?]
  rw [hlabel, hs.label?]
  simp

theorem Describes.vertices (hs : s.Describes g) :
    g.vertices = List.range s.labels.length := by
  rw [← hs.bound]
  exact Graph.vertices_eq_range fun i hi => hs.contains_iff.2 (hs.bound ▸ hi)

theorem Describes.hasEdge_eq_false_iff (hs : s.Describes g) :
    g.hasEdge u v = false ↔ sortedEnds u v ∉ sortedEdges s.edges := by
  rw [Graph.hasEdge, hs.edgeSet, ← Bool.not_eq_true, List.contains_iff_mem, List.mem_reverse]

/-- The ends of an edge are two vertices. -/
theorem Describes.ends (hs : s.Describes g) (he : e ∈ s.edges) :
    e.1 < s.labels.length ∧ e.2 < s.labels.length ∧ e.1 ≠ e.2 := by
  have hmem : sortedEnds e.1 e.2 ∈ g.edgeSet := by
    rw [hs.edgeSet, List.mem_reverse]
    exact List.mem_map_of_mem he
  have hlinked : g.Linked e.1 e.2 :=
    (Graph.mem_edgeSet_iff hs.reachable.consistent rfl).1 hmem
  obtain ⟨hleft, hright⟩ := hs.reachable.consistent.mem_vertices_of_linked hlinked
  rw [hs.vertices, List.mem_range] at hleft hright
  refine ⟨hleft, hright, fun heq => ?_⟩
  exact hs.reachable.consistent.irrefl e.1 (by rwa [← heq] at hlinked)

/-- The neighbours of a vertex are the other ends of its edges. -/
theorem Describes.neighbors (hs : s.Describes g) (v : Vertex) :
    g.neighbors v = s.edges.filterMap (Graph.partner? v) := by
  rw [hs.reachable.chronicled.listed, hs.edgeSet, List.reverse_reverse, sortedEdges]
  exact Graph.filterMap_partner?_sortedEnds (fun e he => (hs.ends he).2.2) v

theorem Describes.wellFormed (hs : s.Describes g)
    (hlabels : ∀ label ∈ s.labels, '\n' ∉ label.toList)
    (hvertices : FitsBlock s.labels.length) (hedges : s.edges.length < UInt64.size) :
    s.WellFormed := by
  refine ⟨hlabels, hvertices, hedges, fun e he => hs.ends he, ?_⟩
  have hdistinct := hs.reachable.chronicled.distinct
  rwa [hs.edgeSet, List.nodup_reverse] at hdistinct

/-! ## One line more -/

theorem describes_empty : Describes ⟨[], []⟩ Graph.empty :=
  ⟨.empty, rfl, fun i => by simp [Graph.label?], rfl⟩

theorem Describes.push (hs : s.Describes g) (label : String) :
    Describes ⟨s.labels ++ [label], s.edges⟩ (g.push label) := by
  refine ⟨.push label hs.reachable, by simp [hs.bound], fun i => ?_, hs.edgeSet⟩
  rw [Graph.label?, Graph.record?_push, hs.bound]
  by_cases hi : i = s.labels.length
  · simp [hi]
  · rw [if_neg hi, ← Graph.label?, hs.label?]
    -- Past the new label there is nothing on either side.
    rcases Nat.lt_or_gt_of_ne hi with hlt | hgt
    · rw [List.getElem?_append_left hlt]
    · rw [List.getElem?_eq_none (Nat.le_of_lt hgt), List.getElem?_eq_none (by simpa using hgt)]

/-- Adding an edge succeeds exactly if the sheet admits it. -/
theorem Describes.connect_eq_ok_iff (hs : s.Describes g) :
    g.connect u v = (.ok (), h) ↔ s.Admits (u, v) ∧ h = g.join u v := by
  have hadmits : s.Admits (u, v) ↔ g.contains u = true ∧ g.contains v = true ∧ u ≠ v ∧
      g.hasEdge u v = false := by
    rw [hs.contains_iff, hs.contains_iff, hs.hasEdge_eq_false_iff]
    exact ⟨fun h => ⟨h.left, h.right, h.ne, h.fresh⟩, fun h => ⟨h.1, h.2.1, h.2.2.1, h.2.2.2⟩⟩
  rw [hadmits, Graph.connect]
  rcases Graph.insertEdge_cases g u v with ⟨hu, hins⟩ | ⟨-, hv, hins⟩ | ⟨-, -, heq, hins⟩ |
    ⟨-, -, -, hedge, hins⟩ | ⟨hu, hv, hne, hedge, hins⟩
  · simp [hins, hu]
  · simp [hins, hv]
  · subst heq
    simp [hins]
  · simp [hins, hedge]
  · simp [hins, hu, hv, hne, hedge, eq_comm]

theorem Describes.join (hs : s.Describes g) (he : s.Admits e) :
    Describes ⟨s.labels, s.edges ++ [e]⟩ (g.join e.1 e.2) := by
  have hconnect : g.connect e.1 e.2 = (.ok (), g.join e.1 e.2) :=
    hs.connect_eq_ok_iff.2 ⟨he, rfl⟩
  refine ⟨.connect hs.reachable (congrArg Prod.snd hconnect), ?_, fun i => ?_, ?_⟩
  · rw [Graph.bound_join, hs.bound]
  · rw [← hs.label?, Graph.label?, Graph.record?_join he.ne, Graph.label?, Option.map_map]
    refine congrArg (fun f => (g.record? i).map f) (funext fun r => ?_)
    rw [Function.comp_apply]
    split
    · rfl
    · split <;> rfl
  · rw [Graph.edgeSet_join (hs.hasEdge_eq_false_iff.2 he.fresh), hs.edgeSet]
    simp [sortedEdges]

end Sheet

end CliquePath.GraphFile
