import CliquePath.GraphFile.Reader
import CliquePath.Proofs.GraphFile.Layout

set_option autoImplicit false

/-!
# Reading follows the layout

This module shows that reading goes through the layout of a graph file step by step. After lines
that fit so far, reading goes on with the item that they ask for, and the graph at that point is the
one that the sheet of those lines describes (`scanLines_of_nodesBegun`, `scanLines_of_edgesBegun`).
So a file is read, and reading fails at the first line that does not fit, at the end of lines that
ask for more, and where a heading is lacking.

Two facts about texts are drawn from that. The text of a well-formed sheet is read, whatever its
labels hold besides line feeds, and gives a graph that the sheet describes. And every graph that is
read, out of any text, is described by a well-formed sheet: what a text may have besides, such as
lines in front of a heading, blanks around numbers or leading zeros, leaves no trace in the graph.
-/

namespace CliquePath.GraphFile

open Sheet
open Text (Line)

/-- The number of the line that the fault is on. A fault at the end of the text is on none. -/
def Fault.line? : Fault → Option Nat
  | .noHeading _ => none
  | .endsEarly _ => none
  | .notACount line _ => some line
  | .notALabel line _ => some line
  | .notAnEdge line _ => some line
  | .notAPosition line _ _ => some line
  | .refusedEdge line _ => some line

/-- The section of the edges of `n` vertices, read from the line after the last label on. -/
def readEdgeSection (n : Nat) (g : Graph) (lines : List Line) : Except Fault Graph := do
  let lines ← skipTo .edges lines
  let (m, lines) ← readCount .edgeCount lines
  readEdges n m g lines

/-- What follows the heading of the vertices. -/
def readSections (lines : List Line) : Except Fault Graph := do
  let (n, lines) ← readCount .vertexCount lines
  readGraph n lines

/-- The graph in the given lines, if there is room for any number of vertices. -/
def scanLines (lines : List Line) : Except Fault Graph := do
  let (n, lines) ← readVertexCount lines
  readGraph n lines

/-- The graph in a text, if there is room for any number of vertices. -/
def scan (text : String) : Except Fault Graph := scanLines (Text.numberedLines text.toList)

variable {g h : Graph} {s : Sheet} {heading : Heading} {expected item : Item} {fault : Fault}
variable {line : Line} {front rest lines : List Line} {texts : List (List Char)}
variable {labels : List String} {label : String} {e : Vertex × Vertex} {n m : Nat}

/-- A step that succeeds comes after steps that succeeded. -/
theorem bind_eq_ok_iff {ε α β : Type} {x : Except ε α} {f : α → Except ε β} {b : β} :
    x >>= f = .ok b ↔ ∃ a, x = .ok a ∧ f a = .ok b := by
  cases x with
  | error e => simp [bind, Except.bind]
  | ok a => simp [bind, Except.bind]

/-- A run fails in its first step or in those after it. -/
theorem bind_eq_error_iff {ε α β : Type} {x : Except ε α} {f : α → Except ε β} {failure : ε} :
    x >>= f = .error failure ↔
      x = .error failure ∨ ∃ a, x = .ok a ∧ f a = .error failure := by
  cases x with
  | error e => simp [bind, Except.bind]
  | ok a => simp [bind, Except.bind]

/-- Lines whose texts end in a given one end in a line with that text. -/
theorem exists_concat_of_map_text {text : List Char}
    (h : lines.map Line.text = texts ++ [text]) :
    ∃ front line, lines = front ++ [line] ∧ front.map Line.text = texts ∧ line.text = text := by
  obtain ⟨front, last, rfl, hfront, hlast⟩ := List.map_eq_append_iff.1 h
  obtain ⟨line, rfl, hline⟩ := List.map_eq_singleton_iff.1 hlast
  exact ⟨front, line, rfl, hfront, hline⟩

/-! ## Headings and counts -/

theorem skipTo_append (h : ∀ text ∈ front.map Line.text, ¬IsHeading heading text)
    (rest : List Line) : skipTo heading (front ++ rest) = skipTo heading rest := by
  induction front with
  | nil => rfl
  | cons line front ih =>
      obtain ⟨hline, hfront⟩ := List.forall_mem_cons.1 h
      exact (if_neg hline).trans (ih hfront)

theorem skipTo_of_headed (h : Headed heading (front.map Line.text)) (rest : List Line) :
    skipTo heading (front ++ rest) = .ok rest := by
  generalize htexts : front.map Line.text = texts at h
  obtain ⟨hbefore, hline⟩ := h
  obtain ⟨before, line, rfl, rfl, rfl⟩ := exists_concat_of_map_text htexts
  rw [List.append_assoc, skipTo_append hbefore]
  exact if_pos hline

theorem headed_of_skipTo (h : skipTo heading lines = .ok rest) :
    ∃ front, lines = front ++ rest ∧ Headed heading (front.map Line.text) := by
  induction lines with
  | nil => cases h
  | cons line others ih =>
      rw [skipTo] at h
      split at h
      next hline =>
        cases h
        refine ⟨[line], rfl, ?_⟩
        rw [List.map_singleton, ← List.nil_append [line.text]]
        exact .intro (List.forall_mem_nil _) hline
      next hline =>
        obtain ⟨front, rfl, hheaded⟩ := ih h
        refine ⟨line :: front, rfl, ?_⟩
        rw [List.map_cons]
        generalize front.map Line.text = texts at hheaded ⊢
        obtain ⟨hbefore, hlast⟩ := hheaded
        rw [← List.cons_append]
        exact .intro (List.forall_mem_cons.2 ⟨hline, hbefore⟩) hlast

theorem skipTo_eq_error (h : ∀ text ∈ lines.map Line.text, ¬IsHeading heading text) :
    skipTo heading lines = .error (.noHeading heading) := by
  rw [← List.append_nil lines, skipTo_append h]
  rfl

theorem readCount_of_countLine (h : CountLine line.text n) (rest : List Line) :
    readCount expected (line :: rest) = .ok (n, rest) := by
  have hnumber : Text.readNumeral? (Text.trim (Text.trimEnd line.text)) = some n := by
    rw [Text.trim_trimEnd]
    exact h
  simp [readCount, nextLine, bind, Except.bind, hnumber]

theorem countLine_of_readCount (h : readCount expected lines = .ok (n, rest)) :
    ∃ line, lines = line :: rest ∧ CountLine line.text n := by
  cases lines with
  | nil => cases h
  | cons line others =>
      simp only [readCount, nextLine, bind, Except.bind, Text.trim_trimEnd] at h
      split at h
      next => cases h
      next number hnumber =>
        cases h
        exact ⟨line, rfl, hnumber⟩

theorem readCount_of_not_countLine (h : ¬∃ n, CountLine line.text n) (rest : List Line) :
    readCount expected (line :: rest) =
      .error (.notACount line.number (String.ofList (Text.trimEnd line.text))) := by
  have hnone : Text.readNumeral? (Text.trim (Text.trimEnd line.text)) = none := by
    rw [Text.trim_trimEnd, Option.eq_none_iff_forall_not_mem]
    exact fun n hn => h ⟨n, hn⟩
  simp [readCount, nextLine, bind, Except.bind, hnone]

/-! ## Labels -/

/-- Only one brace is taken off at either end. -/
theorem label?_eq_some_iff {text cs : List Char} :
    label? (Text.trimEnd text) = some cs ↔ Text.trim text = '\x7b' :: cs ++ ['\x7d'] := by
  rw [label?, Text.trim]
  split
  next rest hstart =>
    rw [hstart, List.cons_append, List.cons_inj_right]
    constructor
    · intro h
      obtain ⟨hlast, hcs⟩ := Option.ite_none_right_eq_some.1 h
      rw [← Option.some.inj hcs, List.dropLast_append_getLast? _ hlast]
    · rintro rfl
      simp
  next hstart =>
    refine iff_of_false (fun h => ?_) (hstart _)
    cases h

theorem readLabels_of_labelLine (h : LabelLine line.text label) (rest : List Line) :
    readLabels (n + 1) g (line :: rest) = readLabels n (g.push label) rest := by
  have hlabel := label?_eq_some_iff.2 h
  simp [readLabels, nextLine, bind, Except.bind, hlabel]

theorem readLabels_of_not_labelLine (h : ¬∃ label, LabelLine line.text label) (rest : List Line) :
    readLabels (n + 1) g (line :: rest) =
      .error (.notALabel line.number (String.ofList (Text.trimEnd line.text))) := by
  have hnone : label? (Text.trimEnd line.text) = none := by
    rw [Option.eq_none_iff_forall_not_mem]
    intro cs hcs
    refine h ⟨String.ofList cs, ?_⟩
    rw [LabelLine, labelText, String.toList_ofList]
    exact label?_eq_some_iff.1 hcs
  simp [readLabels, nextLine, bind, Except.bind, hnone]

/-! ## Edges -/

theorem readPair?_eq_some_iff {text : List Char} :
    readPair? text = some (m, n) ↔ ∃ a b, Text.words text = [a, b] ∧
      Text.readNumeral? a = some m ∧ Text.readNumeral? b = some n := by
  unfold readPair?
  split
  next a b hwords =>
    cases ha : Text.readNumeral? a <;> cases hb : Text.readNumeral? b <;> simp [hwords, ha, hb]
  next hwords =>
    refine ⟨nofun, ?_⟩
    rintro ⟨a, b, htwo, -⟩
    exact absurd htwo (hwords a b)

theorem vertexAt_eq_ok_iff {count number index v : Nat} :
    vertexAt count number index = .ok v ↔ index = v + 1 ∧ v < count := by
  unfold vertexAt
  split
  next hrange =>
    constructor
    · intro h
      obtain rfl : index - 1 = v := Except.ok.inj h
      omega
    · rintro ⟨rfl, -⟩
      rfl
  next hrange =>
    refine ⟨nofun, fun h => absurd ?_ hrange⟩
    omega

theorem vertexAt_eq_error {count number index : Nat}
    (h : vertexAt count number index = .error fault) : fault.line? = some number := by
  unfold vertexAt at h
  split at h
  · cases h
  · cases h
    rfl

/-- The edge on a line is added exactly if the sheet of the lines before admits it. -/
theorem readEdge_eq_ok_iff (hs : s.Describes g) : readEdge s.labels.length g line = .ok h ↔
    ∃ e, EdgeLine line.text e ∧ s.Admits e ∧ h = g.join e.1 e.2 := by
  unfold readEdge
  constructor
  · intro hread
    split at hread
    next => cases hread
    next a b hpair =>
      -- Three steps can fail: the left number, the right number and the joining.
      obtain ⟨u, hu, hright⟩ := bind_eq_ok_iff.1 hread
      obtain ⟨v, hv, hjoin⟩ := bind_eq_ok_iff.1 hright
      obtain ⟨rfl, -⟩ := vertexAt_eq_ok_iff.1 hu
      obtain ⟨rfl, -⟩ := vertexAt_eq_ok_iff.1 hv
      split at hjoin
      next => cases hjoin
      next joined hconnect =>
        cases hjoin
        obtain ⟨hadmits, hjoined⟩ := hs.connect_eq_ok_iff.1 hconnect
        exact ⟨(u, v), readPair?_eq_some_iff.1 hpair, hadmits, hjoined⟩
  · rintro ⟨e, hline, hadmits, rfl⟩
    have hpair := readPair?_eq_some_iff.2 hline
    have hleft : vertexAt s.labels.length line.number (e.1 + 1) = .ok e.1 :=
      vertexAt_eq_ok_iff.2 ⟨rfl, hadmits.left⟩
    have hright : vertexAt s.labels.length line.number (e.2 + 1) = .ok e.2 :=
      vertexAt_eq_ok_iff.2 ⟨rfl, hadmits.right⟩
    have hconnect := hs.connect_eq_ok_iff.2 ⟨hadmits, rfl⟩
    simp [hpair, hleft, hright, hconnect, bind, Except.bind]

/-- Whatever is wrong about the edge on a line, the fault names the line. -/
theorem readEdge_eq_error {count : Nat} (hread : readEdge count g line = .error fault) :
    fault.line? = some line.number := by
  unfold readEdge at hread
  split at hread
  next =>
    cases hread
    rfl
  next a b hpair =>
    rcases bind_eq_error_iff.1 hread with hu | ⟨u, -, hread⟩
    · exact vertexAt_eq_error hu
    rcases bind_eq_error_iff.1 hread with hv | ⟨v, -, hread⟩
    · exact vertexAt_eq_error hv
    split at hread
    next =>
      cases hread
      rfl
    next => cases hread

theorem edgeLine_trimEnd {text : List Char} :
    EdgeLine (Text.trimEnd text) e ↔ EdgeLine text e := by
  rw [EdgeLine, Text.words_trimEnd, EdgeLine]

theorem readEdges_of_edgeLine (hs : s.Describes g) (hline : EdgeLine line.text e)
    (hadmits : s.Admits e) (rest : List Line) :
    readEdges s.labels.length (m + 1) g (line :: rest) =
      readEdges s.labels.length m (g.join e.1 e.2) rest := by
  have hread : readEdge s.labels.length g { line with text := Text.trimEnd line.text } =
      .ok (g.join e.1 e.2) :=
    (readEdge_eq_ok_iff hs).2 ⟨e, edgeLine_trimEnd.2 hline, hadmits, rfl⟩
  simp [readEdges, nextLine, bind, Except.bind, hread]

theorem readEdges_of_misfit (hs : s.Describes g) (hline : ¬Fits s .edge line.text)
    (rest : List Line) : ∃ fault, readEdges s.labels.length (m + 1) g (line :: rest) =
      .error fault ∧ fault.line? = some line.number := by
  cases hread : readEdge s.labels.length g { line with text := Text.trimEnd line.text } with
  | ok h =>
      obtain ⟨e, he, hadmits, -⟩ := (readEdge_eq_ok_iff hs).1 hread
      exact absurd ⟨e, edgeLine_trimEnd.1 he, hadmits⟩ hline
  | error fault =>
      have hnumber := readEdge_eq_error hread
      refine ⟨fault, ?_, hnumber⟩
      simp [readEdges, nextLine, bind, Except.bind, hread]

/-! ## Lines that fit so far -/

theorem scanLines_of_headed (h : Headed .nodes (front.map Line.text)) (rest : List Line) :
    scanLines (front ++ rest) = readSections rest := by
  rw [scanLines, readVertexCount, skipTo_of_headed h]
  rfl

/-- The lines of the labels add one vertex each. -/
theorem scanLines_of_nodesBegun (h : NodesBegun (front.map Line.text) n labels) :
    ∃ g, Describes ⟨labels, []⟩ g ∧ ∀ rest, scanLines (front ++ rest) =
      (do let (g, rest) ← readLabels (n - labels.length) g rest
          readEdgeSection n g rest) := by
  -- The induction is on the rules of the section, and the graph grows with each label.
  generalize htexts : front.map Line.text = texts at h
  induction h generalizing front with
  | count hfront hline =>
      obtain ⟨before, line, rfl, rfl, rfl⟩ := exists_concat_of_map_text htexts
      refine ⟨.empty, describes_empty, fun rest => ?_⟩
      rw [List.append_assoc, List.singleton_append, scanLines_of_headed hfront, readSections,
        readCount_of_countLine hline]
      rfl
  | @label _ _ n labels label hfront hmore hline ih =>
      obtain ⟨before, line, rfl, hbefore, rfl⟩ := exists_concat_of_map_text htexts
      obtain ⟨g, hg, hread⟩ := ih hbefore
      refine ⟨g.push label, hg.push label, fun rest => ?_⟩
      have hleft : n - labels.length = n - (labels ++ [label]).length + 1 := by
        rw [List.length_append, List.length_singleton]
        omega
      rw [List.append_assoc, List.singleton_append, hread, hleft, readLabels_of_labelLine hline]

/-- After the last label the section of the edges is read. -/
theorem scanLines_of_nodeSection (h : NodesBegun (front.map Line.text) labels.length labels) :
    ∃ g, Describes ⟨labels, []⟩ g ∧
      ∀ rest, scanLines (front ++ rest) = readEdgeSection labels.length g rest := by
  obtain ⟨g, hg, hread⟩ := scanLines_of_nodesBegun h
  refine ⟨g, hg, fun rest => ?_⟩
  rw [hread, Nat.sub_self]
  rfl

/-- The lines of the edges add one edge each. -/
theorem scanLines_of_edgesBegun (h : EdgesBegun (front.map Line.text) m s) :
    ∃ g, s.Describes g ∧ ∀ rest, scanLines (front ++ rest) =
      readEdges s.labels.length (m - s.edges.length) g rest := by
  -- The graph that the vertices gave is the one that the first edge is added to.
  generalize htexts : front.map Line.text = texts at h
  induction h generalizing front with
  | count hnodes hgap hline =>
      obtain ⟨before, line, rfl, hbefore, rfl⟩ := exists_concat_of_map_text htexts
      obtain ⟨nodes, gap, rfl, rfl, rfl⟩ := List.map_eq_append_iff.1 hbefore
      obtain ⟨g, hg, hread⟩ := scanLines_of_nodeSection hnodes
      refine ⟨g, hg, fun rest => ?_⟩
      rw [List.append_assoc, List.append_assoc, List.singleton_append, hread]
      simp [readEdgeSection, bind, Except.bind, skipTo_of_headed hgap, readCount_of_countLine hline]
  | @edge _ _ m s e hfront hmore hline hadmits ih =>
      obtain ⟨before, line, rfl, hbefore, rfl⟩ := exists_concat_of_map_text htexts
      obtain ⟨g, hg, hread⟩ := ih hbefore
      refine ⟨g.join e.1 e.2, hg.join hadmits, fun rest => ?_⟩
      have hleft : m - s.edges.length = m - (s.edges ++ [e]).length + 1 := by
        rw [List.length_append, List.length_singleton]
        omega
      rw [List.append_assoc, List.singleton_append, hread, hleft,
        readEdges_of_edgeLine hg hline hadmits]

/-! ## How reading ends -/

theorem scanLines_of_isFile (h : IsFile (lines.map Line.text) s) :
    ∃ g, scanLines lines = .ok g ∧ s.Describes g := by
  obtain ⟨before, ⟨after, htexts⟩, hbefore⟩ := h
  obtain ⟨front, rest, rfl, rfl, -⟩ := List.map_eq_append_iff.1 htexts.symm
  obtain ⟨g, hg, hread⟩ := scanLines_of_edgesBegun hbefore
  refine ⟨g, ?_, hg⟩
  rw [hread, Nat.sub_self]
  rfl

theorem scanLines_of_lacksHeading (h : LacksHeading (lines.map Line.text) heading) :
    scanLines lines = .error (.noHeading heading) := by
  generalize htexts : lines.map Line.text = texts at h
  cases h with
  | nodes h =>
      subst htexts
      rw [scanLines, readVertexCount, skipTo_eq_error h]
      rfl
  | edges hnodes hgap =>
      obtain ⟨nodes, gap, rfl, rfl, rfl⟩ := List.map_eq_append_iff.1 htexts
      obtain ⟨g, -, hread⟩ := scanLines_of_nodeSection hnodes
      rw [hread, readEdgeSection, skipTo_eq_error hgap]
      rfl

/-- Where an item is asked for, reading fails at the end of the lines and on a line that is
something else. -/
theorem scanLines_of_asks (h : Asks (front.map Line.text) s item) :
    scanLines front = .error (.endsEarly item) ∧
      ∀ (line : Line) (rest : List Line), ¬Fits s item line.text →
        ∃ fault, scanLines (front ++ line :: rest) = .error fault ∧
          fault.line? = some line.number := by
  -- What is asked for depends on the texts of the lines only; their numbers come in with the fault.
  generalize htexts : front.map Line.text = texts at h
  rw [← List.append_nil front]
  cases h with
  | vertexCount h =>
      subst htexts
      have hread := scanLines_of_headed h
      refine ⟨hread [], fun line rest hline => ?_⟩
      rw [List.append_nil, hread, readSections, readCount_of_not_countLine hline]
      exact ⟨_, rfl, rfl⟩
  | @vertexLabel _ n labels h hmore =>
      subst htexts
      -- Some labels are left to read, so the next line has to be one.
      obtain ⟨g, -, hread⟩ := scanLines_of_nodesBegun h
      have hleft : n - labels.length = n - labels.length - 1 + 1 := by omega
      refine ⟨?_, fun line rest hline => ?_⟩
      · rw [hread, hleft]
        rfl
      · rw [List.append_nil, hread, hleft, readLabels_of_not_labelLine hline]
        exact ⟨_, rfl, rfl⟩
  | edgeCount hnodes hgap =>
      obtain ⟨nodes, gap, rfl, rfl, rfl⟩ := List.map_eq_append_iff.1 htexts
      obtain ⟨g, -, hread⟩ := scanLines_of_nodeSection hnodes
      refine ⟨?_, fun line rest hline => ?_⟩
      · rw [List.append_assoc, hread, readEdgeSection, skipTo_of_headed hgap]
        rfl
      · rw [List.append_nil, List.append_assoc, hread]
        simp [readEdgeSection, bind, Except.bind, skipTo_of_headed hgap,
          readCount_of_not_countLine hline, Fault.line?]
  | edge h hmore =>
      subst htexts
      obtain ⟨g, hg, hread⟩ := scanLines_of_edgesBegun h
      obtain ⟨left, hleft⟩ := Nat.exists_eq_add_one_of_ne_zero (Nat.sub_ne_zero_of_lt hmore)
      refine ⟨?_, fun line rest hline => ?_⟩
      · rw [hread, hleft]
        rfl
      · rw [List.append_nil, hread, hleft]
        exact readEdges_of_misfit hg hline rest

/-! ## Room for the vertices -/

theorem readVertexCount_of_nodesBegun (h : NodesBegun (front.map Line.text) n [])
    (rest : List Line) : readVertexCount (front ++ rest) = .ok (n, rest) := by
  obtain ⟨heads, text, htexts, hheads, hline⟩ := h.exists_headed
  obtain ⟨before, line, rfl, rfl, rfl⟩ := exists_concat_of_map_text htexts
  rw [List.append_assoc, List.singleton_append, readVertexCount, skipTo_of_headed hheads]
  show readCount .vertexCount (line :: rest) = _
  exact readCount_of_countLine hline rest

theorem nodesBegun_of_readVertexCount (h : readVertexCount lines = .ok (n, rest)) :
    ∃ front, lines = front ++ rest ∧ NodesBegun (front.map Line.text) n [] := by
  obtain ⟨behind, hskip, hcount⟩ := bind_eq_ok_iff.1 h
  obtain ⟨heads, rfl, hheads⟩ := headed_of_skipTo hskip
  obtain ⟨line, rfl, hline⟩ := countLine_of_readCount hcount
  refine ⟨heads ++ [line], by simp, ?_⟩
  rw [List.map_append]
  exact .count hheads hline

/-- A number of vertices that no block of memory can hold ends the program. -/
theorem readLines_of_oversized (h : Oversized (lines.map Line.text)) :
    readLines lines = .error .capacityOverflow := by
  obtain ⟨texts, n, ⟨after, htexts⟩, hbegun, hlarge⟩ := h
  obtain ⟨front, rest, rfl, rfl, -⟩ := List.map_eq_append_iff.1 htexts.symm
  simp only [readLines, readVertexCount_of_nodesBegun hbegun, reserve, if_neg hlarge]
  rfl

/-- Apart from that, the room makes no difference. -/
theorem readLines_of_not_oversized (h : ¬Oversized (lines.map Line.text)) :
    readLines lines = .ok (scanLines lines) := by
  rw [readLines, scanLines]
  cases hcount : readVertexCount lines with
  | error fault => rfl
  | ok counted =>
      obtain ⟨n, rest⟩ := counted
      obtain ⟨front, rfl, hbegun⟩ := nodesBegun_of_readVertexCount hcount
      have hfits : FitsBlock n := by
        by_contra hlarge
        refine h ⟨_, n, ?_, hbegun, hlarge⟩
        rw [List.map_append]
        exact List.prefix_append _ _
      simp only [reserve, if_pos hfits]
      rfl

/-! ## Texts -/

variable {text : String} {k : Nat}

theorem read_of_oversized (h : Oversized (Text.lines text.toList)) :
    read text = .error .capacityOverflow := by
  rw [← Text.map_text_numberedLines] at h
  exact readLines_of_oversized h

theorem read_of_not_oversized (h : ¬Oversized (Text.lines text.toList)) :
    read text = .ok (scan text) := by
  rw [← Text.map_text_numberedLines] at h
  exact readLines_of_not_oversized h

/-- A text from which a graph is read is not oversized. -/
theorem not_oversized_of_read {answer : Except Fault Graph} (h : read text = .ok answer) :
    ¬Oversized (Text.lines text.toList) := by
  intro hlarge
  rw [read_of_oversized hlarge] at h
  cases h

theorem scan_of_read {answer : Except Fault Graph} (h : read text = .ok answer) :
    scan text = answer := by
  rw [read_of_not_oversized (not_oversized_of_read h)] at h
  exact Except.ok.inj h

theorem scan_of_isFile (h : IsFile (Text.lines text.toList) s) :
    ∃ g, scan text = .ok g ∧ s.Describes g := by
  rw [← Text.map_text_numberedLines] at h
  exact scanLines_of_isFile h

theorem scan_of_lacksHeading (h : LacksHeading (Text.lines text.toList) heading) :
    scan text = .error (.noHeading heading) := by
  rw [← Text.map_text_numberedLines] at h
  exact scanLines_of_lacksHeading h

theorem scan_of_endsEarly (h : EndsEarly (Text.lines text.toList) item) :
    scan text = .error (.endsEarly item) := by
  obtain ⟨s, h⟩ := h
  rw [← Text.map_text_numberedLines] at h
  exact (scanLines_of_asks h).1

theorem scan_of_firstMisfit (h : FirstMisfit (Text.lines text.toList) k) :
    ∃ fault, scan text = .error fault ∧ fault.line? = some k := by
  obtain ⟨texts, misfit, s, item, ⟨after, htexts⟩, rfl, hasks, hmisfit⟩ := h
  rw [← Text.map_text_numberedLines, List.append_assoc, List.singleton_append] at htexts
  obtain ⟨front, others, hlines, rfl, hothers⟩ := List.map_eq_append_iff.1 htexts.symm
  obtain ⟨line, rest, rfl, rfl, -⟩ := List.map_eq_cons_iff.1 hothers
  obtain ⟨fault, hread, hline⟩ := (scanLines_of_asks hasks).2 line rest hmisfit
  refine ⟨fault, ?_, ?_⟩
  · rw [scan, hlines, hread]
  · rw [hline, Text.number_of_numberedLines_eq hlines, List.length_map]

/-- Reading ends in one of four ways, one for each way in which lines can be laid out. -/
theorem scan_cases (text : String) :
    (∃ s g, IsFile (Text.lines text.toList) s ∧ scan text = .ok g ∧ s.Describes g) ∨
    (∃ heading, LacksHeading (Text.lines text.toList) heading ∧
      scan text = .error (.noHeading heading)) ∨
    (∃ item, EndsEarly (Text.lines text.toList) item ∧ scan text = .error (.endsEarly item)) ∨
    ∃ k fault, FirstMisfit (Text.lines text.toList) k ∧ scan text = .error fault ∧
      fault.line? = some k := by
  rcases layout_cases (Text.lines text.toList) with
    ⟨s, hs⟩ | (⟨heading, hlacks⟩ | ⟨item, hends⟩) | ⟨k, hmisfit⟩
  · obtain ⟨g, hread, hg⟩ := scan_of_isFile hs
    exact .inl ⟨s, g, hs, hread, hg⟩
  · exact .inr (.inl ⟨heading, hlacks, scan_of_lacksHeading hlacks⟩)
  · exact .inr (.inr (.inl ⟨item, hends, scan_of_endsEarly hends⟩))
  · obtain ⟨fault, hread, hline⟩ := scan_of_firstMisfit hmisfit
    exact .inr (.inr (.inr ⟨k, fault, hmisfit, hread, hline⟩))

/-- The text of a well-formed sheet is read. -/
theorem exists_read_text (hs : s.WellFormed) : ∃ g, read s.text = .ok (.ok g) ∧ s.Describes g := by
  have hfile : IsFile (Text.lines s.text.toList) s := by
    rw [lines_text hs]
    exact ⟨s.lines, List.prefix_rfl, edgesBegun_of_wellFormed hs⟩
  have hfits : ¬Oversized (Text.lines s.text.toList) := by
    rw [lines_text hs]
    exact not_oversized_of_wellFormed hs
  obtain ⟨g, hscan, hg⟩ := scan_of_isFile hfile
  exact ⟨g, by rw [read_of_not_oversized hfits, hscan], hg⟩

/-- A text that is read is a file. -/
theorem exists_isFile_of_scan (h : scan text = .ok g) :
    ∃ s, IsFile (Text.lines text.toList) s ∧ s.Describes g := by
  rcases scan_cases text with ⟨s, g', hs, hread, hg⟩ | ⟨heading, -, hread⟩ | ⟨item, -, hread⟩ |
    ⟨k, fault, -, hread, -⟩
  all_goals rw [h] at hread
  · obtain rfl := Except.ok.inj hread
    exact ⟨s, hs, hg⟩
  all_goals cases hread

/-- Every graph that is read is described by a sheet. -/
theorem exists_sheet_of_read (h : read text = .ok (.ok g)) :
    ∃ s : Sheet, s.WellFormed ∧ s.Describes g := by
  obtain ⟨s, ⟨front, hfront, hs⟩, hg⟩ := exists_isFile_of_scan (scan_of_read h)
  -- A label is part of a line, and lines hold no line feeds.
  have hfeed := hs.newline_not_mem fun line hline =>
    Text.newline_not_mem_of_mem_lines (hfront.subset hline)
  have hfits := hs.fitsBlock hfront (not_oversized_of_read h)
  exact ⟨s, hg.wellFormed hfeed hfits hs.lt_size, hg⟩

end CliquePath.GraphFile
