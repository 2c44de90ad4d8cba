import CliquePath.Text.Numeral
import CliquePath.Proofs.GraphFile.Sheet

set_option autoImplicit false

/-!
# The layout of a graph file

This module says of a list of lines, without a word about reading, whether it is a graph file and,
if it is none, what is missing or which line is the first that does not fit.

The rules go from line to line. `NodesBegun` and `EdgesBegun` hold of the lines up to some line of
the two sections, `Asks` says what the next line has to be, and `Fits` whether it is. From there two
facts follow. Every list of lines is a file, has a first line that does not fit, or is unfinished
(`layout_cases`), and every list of lines from which a file or an unfinished list goes on is
unfinished itself (`Unfinished.of_isPrefix`, `EdgesBegun.unfinished_of_isPrefix`).
-/

namespace CliquePath.GraphFile

/-! ## Single lines -/

/-- The line is the heading, with blanks around it at most. -/
def IsHeading (heading : Heading) (line : List Char) : Prop :=
  Text.trim line = heading.text.toList

instance (heading : Heading) (line : List Char) : Decidable (IsHeading heading line) :=
  inferInstanceAs (Decidable (Text.trim line = heading.text.toList))

/-- The line is a count, with blanks around it at most. -/
def CountLine (line : List Char) (n : Nat) : Prop := Text.readNumeral? (Text.trim line) = some n

/-- The line is a label in braces, with blanks around them at most. -/
def LabelLine (line : List Char) (label : String) : Prop :=
  Text.trim line = Sheet.labelText label

/-- The line is two numbers, the positions of the ends of the edge counted from 1. -/
def EdgeLine (line : List Char) (e : Vertex × Vertex) : Prop :=
  ∃ a b, Text.words line = [a, b] ∧ Text.readNumeral? a = some (e.1 + 1) ∧
    Text.readNumeral? b = some (e.2 + 1)

/-! ## Line after line -/

/-- The lines end in the heading, which stands on none of the lines before. -/
inductive Headed (heading : Heading) : List (List Char) → Prop where
  | intro {front : List (List Char)} {line : List Char}
      (hfront : ∀ l ∈ front, ¬IsHeading heading l) (hline : IsHeading heading line) :
      Headed heading (front ++ [line])

/-- The lines end in the section of the vertices: after the heading and the count `n`, they have the
lines of these labels so far. -/
inductive NodesBegun : List (List Char) → Nat → List String → Prop where
  | count {front : List (List Char)} {line : List Char} {n : Nat}
      (hfront : Headed .nodes front) (hline : CountLine line n) :
      NodesBegun (front ++ [line]) n []
  | label {front : List (List Char)} {line : List Char} {n : Nat} {labels : List String}
      {label : String} (hfront : NodesBegun front n labels) (hmore : labels.length < n)
      (hline : LabelLine line label) :
      NodesBegun (front ++ [line]) n (labels ++ [label])

/-- The lines end in the section of the edges: after all labels of the sheet, the heading and the
count `m`, they have the lines of the edges of the sheet so far. -/
inductive EdgesBegun : List (List Char) → Nat → Sheet → Prop where
  | count {nodes gap : List (List Char)} {line : List Char} {m : Nat} {labels : List String}
      (hnodes : NodesBegun nodes labels.length labels) (hgap : Headed .edges gap)
      (hline : CountLine line m) :
      EdgesBegun (nodes ++ gap ++ [line]) m ⟨labels, []⟩
  | edge {front : List (List Char)} {line : List Char} {m : Nat} {s : Sheet}
      {e : Vertex × Vertex} (hfront : EdgesBegun front m s) (hmore : s.edges.length < m)
      (hline : EdgeLine line e) (hadmits : s.Admits e) :
      EdgesBegun (front ++ [line]) m ⟨s.labels, s.edges ++ [e]⟩

/-- The lines are a graph file, up to the last line that the two counts announce. -/
def IsFile (lines : List (List Char)) (s : Sheet) : Prop :=
  ∃ front, front <+: lines ∧ EdgesBegun front s.edges.length s

/-- The lines fit so far, and the next one has to be the given item. The sheet holds what was
said. -/
inductive Asks : List (List Char) → Sheet → Item → Prop where
  | vertexCount {lines : List (List Char)} (h : Headed .nodes lines) :
      Asks lines ⟨[], []⟩ .vertexCount
  | vertexLabel {lines : List (List Char)} {n : Nat} {labels : List String}
      (h : NodesBegun lines n labels) (hmore : labels.length < n) :
      Asks lines ⟨labels, []⟩ .vertexLabel
  | edgeCount {nodes gap : List (List Char)} {labels : List String}
      (hnodes : NodesBegun nodes labels.length labels) (hgap : Headed .edges gap) :
      Asks (nodes ++ gap) ⟨labels, []⟩ .edgeCount
  | edge {lines : List (List Char)} {m : Nat} {s : Sheet} (h : EdgesBegun lines m s)
      (hmore : s.edges.length < m) :
      Asks lines s .edge

/-- The line is the item. A line of an edge has to fit the lines before it. -/
def Fits (s : Sheet) : Item → List Char → Prop
  | .vertexCount, line => ∃ n, CountLine line n
  | .vertexLabel, line => ∃ label, LabelLine line label
  | .edgeCount, line => ∃ n, CountLine line n
  | .edge, line => ∃ e, EdgeLine line e ∧ s.Admits e

/-- Line `k`, counted from 1, is the first line that breaks the format: it is not the item that the
lines before it ask for. -/
def FirstMisfit (lines : List (List Char)) (k : Nat) : Prop :=
  ∃ front line s item, front ++ [line] <+: lines ∧ k = front.length + 1 ∧ Asks front s item ∧
    ¬Fits s item line

/-- The lines fit and end before the line of the heading, or never come to it. -/
inductive LacksHeading : List (List Char) → Heading → Prop where
  | nodes {lines : List (List Char)} (h : ∀ line ∈ lines, ¬IsHeading .nodes line) :
      LacksHeading lines .nodes
  | edges {nodes gap : List (List Char)} {labels : List String}
      (hnodes : NodesBegun nodes labels.length labels)
      (hgap : ∀ line ∈ gap, ¬IsHeading .edges line) :
      LacksHeading (nodes ++ gap) .edges

/-- The lines fit and end where the item has to follow. -/
def EndsEarly (lines : List (List Char)) (item : Item) : Prop := ∃ s, Asks lines s item

/-- The lines announce more vertices than a block of memory can hold. -/
def Oversized (lines : List (List Char)) : Prop :=
  ∃ front n, front <+: lines ∧ NodesBegun front n [] ∧ ¬FitsBlock n

/-- The lines fit, and more have to follow. -/
def Unfinished (lines : List (List Char)) : Prop :=
  (∃ heading, LacksHeading lines heading) ∨ ∃ item, EndsEarly lines item

variable {lines front : List (List Char)} {line : List Char} {s : Sheet} {item : Item}
variable {heading : Heading} {labels : List String} {n m k : Nat}

/-! ## One line more -/

theorem NodesBegun.length_le (h : NodesBegun lines n labels) : labels.length ≤ n := by
  cases h with
  | count => exact Nat.zero_le n
  | label hfront hmore hline => simpa using hmore

theorem EdgesBegun.length_le (h : EdgesBegun lines m s) : s.edges.length ≤ m := by
  cases h with
  | count => exact Nat.zero_le m
  | edge hfront hmore hline hadmits => simpa using hmore

/-- With the last label, the section of the edges is due. -/
theorem NodesBegun.unfinished (h : NodesBegun lines n labels) : Unfinished lines := by
  rcases Nat.eq_or_lt_of_le h.length_le with rfl | hmore
  · have hlacks := LacksHeading.edges h (List.forall_mem_nil _)
    rw [List.append_nil] at hlacks
    exact .inl ⟨_, hlacks⟩
  · exact .inr ⟨_, _, .vertexLabel h hmore⟩

theorem EdgesBegun.isFile_or_unfinished (h : EdgesBegun lines m s) :
    IsFile lines s ∨ Unfinished lines := by
  rcases Nat.eq_or_lt_of_le h.length_le with rfl | hmore
  · exact .inl ⟨lines, List.prefix_rfl, h⟩
  · exact .inr (.inr ⟨_, s, .edge h hmore⟩)

/-- A line without the heading leaves it lacking, and the heading asks for its count. -/
theorem LacksHeading.concat (h : LacksHeading lines heading) (line : List Char) :
    Unfinished (lines ++ [line]) := by
  by_cases hline : IsHeading heading line
  · cases h with
    | nodes h => exact .inr ⟨_, _, .vertexCount (.intro h hline)⟩
    | edges hnodes hgap =>
        rw [List.append_assoc]
        exact .inr ⟨_, _, .edgeCount hnodes (.intro hgap hline)⟩
  · have hlast : ∀ l ∈ [line], ¬IsHeading heading l := List.forall_mem_singleton.2 hline
    cases h with
    | nodes h => exact .inl ⟨_, .nodes (List.forall_mem_append.2 ⟨h, hlast⟩)⟩
    | edges hnodes hgap =>
        rw [List.append_assoc]
        exact .inl ⟨_, .edges hnodes (List.forall_mem_append.2 ⟨hgap, hlast⟩)⟩

/-- The item that was asked for takes the file one line further. -/
theorem Asks.concat (h : Asks lines s item) (hline : Fits s item line) :
    (∃ s, IsFile (lines ++ [line]) s) ∨ Unfinished (lines ++ [line]) := by
  cases h with
  | vertexCount h =>
      obtain ⟨n, hn⟩ := hline
      exact .inr (NodesBegun.count h hn).unfinished
  | vertexLabel h hmore =>
      obtain ⟨label, hlabel⟩ := hline
      exact .inr (h.label hmore hlabel).unfinished
  | edgeCount hnodes hgap =>
      obtain ⟨m, hm⟩ := hline
      exact (EdgesBegun.count hnodes hgap hm).isFile_or_unfinished.imp_left fun h => ⟨_, h⟩
  | edge h hmore =>
      obtain ⟨e, he, hadmits⟩ := hline
      exact (h.edge hmore he hadmits).isFile_or_unfinished.imp_left fun h => ⟨_, h⟩

/-- Every list of lines is a file, has a first line that does not fit, or is unfinished. -/
theorem layout_cases (lines : List (List Char)) :
    (∃ s, IsFile lines s) ∨ Unfinished lines ∨ ∃ k, FirstMisfit lines k := by
  -- Only while the lines are unfinished the next line matters.
  induction lines using List.reverseRecOn with
  | nil => exact .inr (.inl (.inl ⟨_, .nodes (List.forall_mem_nil _)⟩))
  | append_singleton lines line ih =>
      have hprefix := List.prefix_append lines [line]
      rcases ih with ⟨s, front, hfront, hs⟩ | (⟨heading, h⟩ | ⟨item, s, h⟩) |
        ⟨k, front, misfit, s, item, hfront, hk, h⟩
      · exact .inl ⟨s, front, hfront.trans hprefix, hs⟩
      · exact .inr (.inl (h.concat line))
      · by_cases hline : Fits s item line
        · exact (h.concat hline).imp_right .inl
        · exact .inr (.inr ⟨_, lines, line, s, item, List.prefix_rfl, rfl, h, hline⟩)
      · exact .inr (.inr ⟨k, front, misfit, s, item, hfront.trans hprefix, hk, h⟩)

/-! ## One line less -/

theorem Headed.lacksHeading_dropLast (h : Headed heading lines) :
    ∀ line ∈ lines.dropLast, ¬IsHeading heading line := by
  cases h with
  | intro hfront hline => rwa [List.dropLast_concat]

theorem NodesBegun.unfinished_dropLast (h : NodesBegun lines n labels) :
    Unfinished lines.dropLast := by
  cases h with
  | count hfront hline =>
      rw [List.dropLast_concat]
      exact .inr ⟨_, _, .vertexCount hfront⟩
  | label hfront hmore hline =>
      rw [List.dropLast_concat]
      exact hfront.unfinished

theorem EdgesBegun.unfinished_dropLast (h : EdgesBegun lines m s) :
    Unfinished lines.dropLast := by
  cases h with
  | count hnodes hgap hline =>
      rw [List.dropLast_concat]
      exact .inr ⟨_, _, .edgeCount hnodes hgap⟩
  | edge hfront hmore hline hadmits =>
      rw [List.dropLast_concat]
      exact .inr ⟨_, _, .edge hfront hmore⟩

theorem Asks.unfinished_dropLast (h : Asks lines s item) : Unfinished lines.dropLast := by
  cases h with
  | vertexCount h => exact .inl ⟨_, .nodes h.lacksHeading_dropLast⟩
  | vertexLabel h hmore => exact h.unfinished_dropLast
  | edgeCount hnodes hgap =>
      cases hgap with
      | intro hfront hline =>
          rw [← List.append_assoc, List.dropLast_concat]
          exact .inl ⟨_, .edges hnodes hfront⟩
  | edge h hmore => exact h.unfinished_dropLast

theorem LacksHeading.unfinished_dropLast (h : LacksHeading lines heading) :
    Unfinished lines.dropLast := by
  cases h with
  | nodes h => exact .inl ⟨_, .nodes fun line hline => h line (List.mem_of_mem_dropLast hline)⟩
  | @edges nodes gap labels hnodes hgap =>
      rcases List.eq_nil_or_concat gap with rfl | ⟨front, line, rfl⟩
      · rw [List.append_nil]
        exact hnodes.unfinished_dropLast
      · rw [List.concat_eq_append] at hgap ⊢
        rw [← List.append_assoc, List.dropLast_concat]
        exact .inl ⟨_, .edges hnodes (List.forall_mem_append.1 hgap).1⟩

theorem Unfinished.dropLast (h : Unfinished lines) : Unfinished lines.dropLast := by
  rcases h with ⟨heading, h⟩ | ⟨item, s, h⟩
  · exact h.unfinished_dropLast
  · exact h.unfinished_dropLast

/-- Lines that an unfinished list goes on from are unfinished. -/
theorem Unfinished.of_isPrefix (h : Unfinished lines) (hfront : front <+: lines) :
    Unfinished front := by
  induction lines using List.reverseRecOn with
  | nil => rwa [List.prefix_nil.1 hfront]
  | append_singleton lines line ih =>
      rcases List.prefix_concat_iff.1 hfront with rfl | hfront
      · exact h
      · have hlast := h.dropLast
        rw [List.dropLast_concat] at hlast
        exact ih hlast hfront

/-- Lines that the last line of a file is cut off from are unfinished. -/
theorem EdgesBegun.unfinished_of_isPrefix (h : EdgesBegun lines m s) (hfront : front <+: lines)
    (hne : front ≠ lines) : Unfinished front := by
  refine h.unfinished_dropLast.of_isPrefix ?_
  rcases List.eq_nil_or_concat lines with rfl | ⟨lines, line, rfl⟩
  · exact hfront
  · rw [List.concat_eq_append] at hfront hne ⊢
    rw [List.dropLast_concat]
    exact (List.prefix_concat_iff.1 hfront).resolve_left hne

/-! ## The number of vertices -/

/-- Among the lines of a text there is only one first heading. -/
theorem Headed.eq_of_isPrefix {front' : List (List Char)} (h : Headed heading front)
    (h' : Headed heading front') (hle : front.length ≤ front'.length) (hfront : front <+: lines)
    (hfront' : front' <+: lines) : front = front' := by
  have hprefix := List.prefix_of_prefix_length_le hfront hfront' hle
  cases h with
  | @intro before line hbefore hline =>
      cases h' with
      | @intro before' line' hbefore' hline' =>
          rcases List.prefix_concat_iff.1 hprefix with heq | hshort
          · exact heq
          · -- The heading would stand before the line that is the first to have it.
            exact absurd hline (hbefore' line (hshort.subset (by simp)))

/-- Before the first label there are the heading and the number of vertices. -/
theorem NodesBegun.exists_headed (h : NodesBegun front n []) :
    ∃ heads line, front = heads ++ [line] ∧ Headed .nodes heads ∧ CountLine line n := by
  generalize hlabels : [] = labels at h
  cases h with
  | count hheads hline => exact ⟨_, _, rfl, hheads, hline⟩
  | label => simp at hlabels

/-- The lines announce one number of vertices. -/
theorem NodesBegun.eq_of_isPrefix {front' : List (List Char)} {n' : Nat}
    (h : NodesBegun front n []) (h' : NodesBegun front' n' []) (hfront : front <+: lines)
    (hfront' : front' <+: lines) : n = n' := by
  obtain ⟨heads, line, rfl, hheads, hline⟩ := h.exists_headed
  obtain ⟨heads', line', rfl, hheads', hline'⟩ := h'.exists_headed
  have hsame : heads = heads' := by
    have hprefix := (List.prefix_append heads [line]).trans hfront
    have hprefix' := (List.prefix_append heads' [line']).trans hfront'
    rcases Nat.le_total heads.length heads'.length with hle | hle
    · exact hheads.eq_of_isPrefix hheads' hle hprefix hprefix'
    · exact (hheads'.eq_of_isPrefix hheads hle hprefix' hprefix).symm
  subst hsame
  -- The line behind the heading holds one number.
  have hlines := List.prefix_of_prefix_length_le hfront hfront' (by simp)
  rw [List.prefix_append_right_inj] at hlines
  obtain rfl : line = line' := by simpa using hlines
  exact Option.some.inj (hline.symm.trans hline')

theorem NodesBegun.not_oversized (h : NodesBegun front n []) (hfits : FitsBlock n)
    (hfront : front <+: lines) : ¬Oversized lines := by
  rintro ⟨front', n', hfront', h', hno⟩
  exact hno (h.eq_of_isPrefix h' hfront hfront' ▸ hfits)

/-- Fewer lines announce no more. -/
theorem Oversized.of_isPrefix (h : Oversized front) (hfront : front <+: lines) :
    Oversized lines := by
  obtain ⟨before, n, hbefore, hbegun, hno⟩ := h
  exact ⟨before, n, hbefore.trans hfront, hbegun, hno⟩

/-! ## The lines of a sheet -/

theorem isHeading_text (heading : Heading) : IsHeading heading heading.text.toList := by
  cases heading <;> decide

theorem not_isHeading_nil (heading : Heading) : ¬IsHeading heading [] := by
  cases heading <;> decide

theorem countLine_numeral (hn : n < UInt64.size) : CountLine (Text.numeral n) n := by
  rw [CountLine, Text.trim_of_word (Text.isWord_numeral n), Text.readNumeral?_numeral hn]

theorem labelLine_labelText (label : String) : LabelLine (Sheet.labelText label) label := by
  have hend : Text.trimEnd (Sheet.labelText label) = Sheet.labelText label :=
    Text.trimEnd_append_word ('\x7b' :: label.toList) Sheet.isWord_brace
  rw [LabelLine, Text.trim, hend]
  exact Text.trimStart_cons (by decide) _

theorem edgeLine_edgeText {e : Vertex × Vertex} (hleft : e.1 + 1 < UInt64.size)
    (hright : e.2 + 1 < UInt64.size) : EdgeLine (Sheet.edgeText e) e := by
  refine ⟨_, _, ?_, Text.readNumeral?_numeral hleft, Text.readNumeral?_numeral hright⟩
  rw [Sheet.edgeText, Text.words_append_cons (Text.isWord_numeral _) (by decide),
    Text.words_of_word (Text.isWord_numeral _)]

/-- The lines of labels, as many as were announced or fewer. -/
theorem nodesBegun_lines (hn : n < UInt64.size) (hle : labels.length ≤ n) :
    NodesBegun (Heading.nodes.text.toList :: Text.numeral n :: labels.map Sheet.labelText) n
      labels := by
  induction labels using List.reverseRecOn with
  | nil =>
      have hheaded : Headed .nodes ([] ++ [Heading.nodes.text.toList]) :=
        .intro (List.forall_mem_nil _) (isHeading_text _)
      exact NodesBegun.count hheaded (countLine_numeral hn)
  | append_singleton labels label ih =>
      have hmore : labels.length < n := by simpa using hle
      rw [List.map_append]
      exact (ih (Nat.le_of_lt hmore)).label hmore (labelLine_labelText label)

/-- The lines of edges, as many as were announced or fewer. -/
theorem edgesBegun_lines (hs : s.WellFormed) (hm : m < UInt64.size) (hle : s.edges.length ≤ m) :
    EdgesBegun (Heading.nodes.text.toList :: Text.numeral s.labels.length ::
      s.labels.map Sheet.labelText ++ [[], Heading.edges.text.toList] ++
      [Text.numeral m] ++ s.edges.map Sheet.edgeText) m s := by
  obtain ⟨labels, edges⟩ := s
  induction edges using List.reverseRecOn with
  | nil =>
      have hheaded : Headed .edges ([[]] ++ [Heading.edges.text.toList]) :=
        .intro (List.forall_mem_singleton.2 (not_isHeading_nil _)) (isHeading_text _)
      rw [List.map_nil, List.append_nil]
      exact .count (nodesBegun_lines (Sheet.lt_size_of_fitsBlock hs.vertexCount) Nat.le.refl) hheaded (countLine_numeral hm)
  | append_singleton edges e ih =>
      have hmore : edges.length < m := by simpa using hle
      have hadmits : Sheet.Admits ⟨labels, edges⟩ e := hs.admits
      have hline : EdgeLine (Sheet.edgeText e) e :=
        edgeLine_edgeText (Nat.lt_of_le_of_lt hadmits.left (Sheet.lt_size_of_fitsBlock hs.vertexCount))
          (Nat.lt_of_le_of_lt hadmits.right (Sheet.lt_size_of_fitsBlock hs.vertexCount))
      rw [List.map_append, ← List.append_assoc]
      exact (ih hs.front (Nat.le_of_lt hmore)).edge hmore hline hadmits

/-- The lines of a sheet are a file with nothing after it. -/
theorem edgesBegun_of_wellFormed (hs : s.WellFormed) : EdgesBegun s.lines s.edges.length s := by
  have hbegun := edgesBegun_lines hs hs.edgeCount Nat.le.refl
  simpa [Sheet.lines] using hbegun

/-- A well-formed sheet announces the vertices that it has. -/
theorem not_oversized_of_wellFormed (hs : s.WellFormed) : ¬Oversized s.lines := by
  have hempty : ([] : List String).length ≤ s.labels.length := Nat.zero_le _
  have hbegun := nodesBegun_lines (Sheet.lt_size_of_fitsBlock hs.vertexCount) hempty
  refine hbegun.not_oversized hs.vertexCount ?_
  simp [Sheet.lines]

/-! ## What the lines bound -/

/-- The number of vertices was announced before the first label. -/
theorem NodesBegun.exists_count (h : NodesBegun lines n labels) :
    ∃ front, front <+: lines ∧ NodesBegun front n [] := by
  induction h with
  | count hfront hline => exact ⟨_, List.prefix_rfl, .count hfront hline⟩
  | label hfront hmore hline ih =>
      obtain ⟨front, hprefix, hbegun⟩ := ih
      exact ⟨front, hprefix.trans (List.prefix_append _ _), hbegun⟩

theorem EdgesBegun.exists_count (h : EdgesBegun lines m s) :
    ∃ front, front <+: lines ∧ NodesBegun front s.labels.length [] := by
  induction h with
  | count hnodes hgap hline =>
      obtain ⟨front, hprefix, hbegun⟩ := hnodes.exists_count
      rw [List.append_assoc]
      exact ⟨front, hprefix.trans (List.prefix_append _ _), hbegun⟩
  | edge hfront hmore hline hadmits ih =>
      obtain ⟨front, hprefix, hbegun⟩ := ih
      exact ⟨front, hprefix.trans (List.prefix_append _ _), hbegun⟩

/-- The vertices of a file that is not oversized fit into a block of memory. -/
theorem EdgesBegun.fitsBlock (h : EdgesBegun front m s) (hfront : front <+: lines)
    (hno : ¬Oversized lines) : FitsBlock s.labels.length := by
  obtain ⟨before, hbefore, hbegun⟩ := h.exists_count
  by_contra hlarge
  exact hno ⟨before, _, hbefore.trans hfront, hbegun, hlarge⟩

theorem EdgesBegun.lt_size (h : EdgesBegun lines m s) : m < UInt64.size := by
  induction h with
  | count hnodes hgap hline => exact Text.lt_of_readNumeral? hline
  | edge hfront hmore hline hadmits ih => exact ih

/-- A label is part of its line. -/
theorem LabelLine.subset {label : String} (h : LabelLine line label) : label.toList ⊆ line := by
  have htrim : Text.trim line ⊆ line := fun _ hc =>
    Text.trimEnd_subset line (Text.trimStart_subset _ hc)
  intro c hc
  apply htrim
  rw [show Text.trim line = _ from h]
  simp [Sheet.labelText, hc]

theorem NodesBegun.newline_not_mem (h : NodesBegun lines n labels)
    (hfeed : ∀ line ∈ lines, '\n' ∉ line) : ∀ label ∈ labels, '\n' ∉ label.toList := by
  induction h with
  | count hfront hline => exact List.forall_mem_nil _
  | label hfront hmore hline ih =>
      obtain ⟨hlines, hlast⟩ := List.forall_mem_append.1 hfeed
      refine List.forall_mem_append.2 ⟨ih hlines, List.forall_mem_singleton.2 fun hnewline => ?_⟩
      exact List.forall_mem_singleton.1 hlast (hline.subset hnewline)

theorem EdgesBegun.newline_not_mem (h : EdgesBegun lines m s)
    (hfeed : ∀ line ∈ lines, '\n' ∉ line) : ∀ label ∈ s.labels, '\n' ∉ label.toList := by
  induction h with
  | count hnodes hgap hline =>
      rw [List.append_assoc] at hfeed
      exact hnodes.newline_not_mem (List.forall_mem_append.1 hfeed).1
  | edge hfront hmore hline hadmits ih => exact ih (List.forall_mem_append.1 hfeed).1

end CliquePath.GraphFile
