import CliquePath.Proofs.GraphFile.Reading
import CliquePath.Proofs.Graph.EditRuns
import CliquePath.Proofs.Search.EdgeTour

set_option autoImplicit false

/-!
# A graph file is read back

This module shows that a graph comes back from its file, without its holes. The text that is written
is that of a sheet: the labels in the order of the vertices and the edges of the tour, each vertex
named by its position. The tour lists every edge once, so the sheet is well-formed, its text is
read, and the graph that it describes has the labels and the edges of the graph that was written.
-/

namespace CliquePath.GraphFile

open Sheet

variable {g h : Graph} {i v : Vertex}

/-- The labels and the edges that a file of the graph lists. -/
def sheet (g : Graph) : Sheet :=
  ⟨g.vertices.map fun v => (g.label? v).getD "", g.edgeTour.map g.position⟩

/-- The graph can be kept in a file: no label breaks its line, a block of memory holds its vertices, and
the number of its edges has 64 bits. The counts of every graph in memory are like that. -/
structure Fileable (g : Graph) : Prop where
  labels : ∀ v ∈ g.vertices, ∀ label ∈ g.label? v, '\n' ∉ label.toList
  vertexCount : FitsBlock g.vertices.length
  edgeCount : g.edgeCount < UInt64.size

/-- Counts are never too large while the numbers of the vertices have 32 bits. -/
theorem fileable_of_bound (hg : g.Reachable) (hbound : g.bound ≤ UInt32.size)
    (hlabels : ∀ v ∈ g.vertices, ∀ label ∈ g.label? v, '\n' ∉ label.toList) : Fileable g := by
  have hvertices : g.vertices.length ≤ g.bound := by
    have hle := List.length_filter_le g.contains (List.range g.bound)
    rwa [List.length_range] at hle
  -- The lower end of an edge is none of the last vertex and those past it.
  have hpairs : g.edgeSet ⊆ List.range (g.bound - 1) ×ˢ List.range g.bound := by
    rintro ⟨a, b⟩ he
    have hlt := hg.chronicled.sorted _ he
    have hright := Graph.lt_bound (hg.chronicled.mem_vertices hg.consistent he).2
    have hleft : a < g.bound - 1 := Nat.lt_of_lt_of_le hlt (Nat.le_sub_one_of_lt hright)
    exact List.mem_product.2 ⟨List.mem_range.2 hleft, List.mem_range.2 hright⟩
  have hedges : g.edgeCount ≤ (g.bound - 1) * g.bound := by
    have hle := (List.subperm_of_subset hg.chronicled.distinct hpairs).length_le
    rwa [List.length_product, List.length_range, List.length_range] at hle
  refine ⟨hlabels, ?_, ?_⟩
  · have hfits : 4 * UInt32.size ≤ maxBlock := by decide
    exact (Nat.mul_le_mul_left 4 (hvertices.trans hbound)).trans hfits
  · have hless : (g.bound - 1) * g.bound ≤ (UInt32.size - 1) * UInt32.size :=
      Nat.mul_le_mul (Nat.sub_le_sub_right hbound 1) hbound
    exact Nat.lt_of_le_of_lt (hedges.trans hless) (by decide)

theorem length_edgeTour (hg : g.Reachable) : g.edgeTour.length = g.edgeCount := by
  have hlength := (hg.chronicled.perm_edgeTour hg.consistent).length_eq
  rwa [List.length_map] at hlength

/-- What is written is the text of the sheet. -/
theorem write_eq (hg : g.Reachable) : write g = (sheet g).text := by
  have hlabels : g.vertices.map (labelLine g) = (sheet g).labels.map labelText := by
    rw [sheet, List.map_map]
    rfl
  have hedges : g.edgeTour.map (edgeLine g) = (sheet g).edges.map edgeText := by
    rw [sheet, List.map_map]
    rfl
  have hlines : fileLines g = (sheet g).lines := by
    rw [fileLines, Sheet.lines, hlabels, hedges, sheet, List.length_map, List.length_map,
      length_edgeTour hg]
  rw [write, hlines, Sheet.text]

theorem mem_vertices_of_mem_edgeTour (hg : g.Reachable) {e : Vertex × Vertex}
    (he : e ∈ g.edgeTour) : e.1 ∈ g.vertices ∧ e.2 ∈ g.vertices :=
  hg.consistent.mem_vertices_of_linked (hg.consistent.linked_of_mem_edgeTour he)

/-- The positions on the sheet stand for the edges of the tour. -/
theorem map_nthVertex_edges (hg : g.Reachable) :
    (sheet g).edges.map (Prod.map g.nthVertex g.nthVertex) = g.edgeTour :=
  Graph.map_nthVertex_position fun _ he => mem_vertices_of_mem_edgeTour hg he

theorem wellFormed_sheet (hg : g.Reachable) (hf : Fileable g) : (sheet g).WellFormed := by
  refine ⟨?_, ?_, ?_, ?_, ?_⟩
  · intro label hlabel
    obtain ⟨v, hv, rfl⟩ := List.mem_map.1 hlabel
    obtain ⟨r, hr⟩ := Graph.contains_iff.1 (Graph.mem_vertices.1 hv)
    have hsome : g.label? v = some r.label := by rw [Graph.label?, hr]; rfl
    rw [hsome]
    exact hf.labels v hv _ hsome
  · rw [sheet, List.length_map]
    exact hf.vertexCount
  · rw [sheet, List.length_map, length_edgeTour hg]
    exact hf.edgeCount
  · intro e he
    obtain ⟨d, hd, rfl⟩ := List.mem_map.1 he
    obtain ⟨hleft, hright⟩ := mem_vertices_of_mem_edgeTour hg hd
    have hlinked := hg.consistent.linked_of_mem_edgeTour hd
    rw [sheet, List.length_map]
    refine ⟨List.idxOf_lt_length_iff.2 hleft, List.idxOf_lt_length_iff.2 hright, fun heq => ?_⟩
    have hends := (List.idxOf_inj hleft).1 heq
    exact hg.consistent.irrefl d.1 (by rwa [← hends] at hlinked)
  · -- Two lines that name one edge would stand for one edge of the tour.
    have htour : (sortedEdges g.edgeTour).Nodup :=
      (hg.chronicled.perm_edgeTour hg.consistent).nodup_iff.2 hg.chronicled.distinct
    rw [← map_nthVertex_edges hg, ← map_sortedEdges (Graph.strictMono_nthVertex g)] at htour
    exact htour.of_map

/-! ## The graph that is read -/

/-- The list of neighbours of a vertex that was read follows the tour. -/
theorem map_nthVertex_neighbors (hg : g.Reachable) (hd : (sheet g).Describes h) (v : Vertex) :
    (h.neighbors v).map g.nthVertex = g.edgeTour.filterMap (Graph.partner? (g.nthVertex v)) := by
  rw [hd.neighbors, ← map_nthVertex_edges hg, List.filterMap_map, List.map_filterMap]
  refine congrArg (fun f => (sheet g).edges.filterMap f) (funext fun e => ?_)
  exact (Graph.partner?_map (Graph.strictMono_nthVertex g).injective v e).symm

/-- Two vertices that were read are neighbours if the vertices at their positions are. -/
theorem linked_nthVertex_iff (hg : g.Reachable) (hd : (sheet g).Describes h) (v w : Vertex) :
    g.Linked (g.nthVertex v) (g.nthVertex w) ↔ h.Linked v w := by
  have hperm := hg.chronicled.perm_partners_edgeTour hg.consistent (g.nthVertex v)
  rw [Graph.Linked, ← hperm.mem_iff, ← map_nthVertex_neighbors hg hd,
    List.mem_map_of_injective (Graph.strictMono_nthVertex g).injective, Graph.Linked]

theorem label?_nthVertex (hd : (sheet g).Describes h) (hi : i < g.vertices.length) :
    h.label? i = g.label? g.vertices[i] := by
  have hlive := Graph.mem_vertices.1 (List.getElem_mem hi)
  obtain ⟨r, hr⟩ := Graph.contains_iff.1 hlive
  rw [hd.label?]
  simp [sheet, hi, Graph.label?, hr]

/-- Every graph is read back from the file that is written of it: the vertices get the numbers from
0 on, each with the label of the vertex at its position, whatever that label holds besides line
feeds, and two of them are joined exactly if the vertices at their positions are. -/
theorem read_write (hg : g.Reachable) (hf : Fileable g) : ∃ h, read (write g) = .ok (.ok h) ∧
    h.Reachable ∧ h.bound = g.vertices.length ∧ h.vertices = List.range g.vertices.length ∧
    (∀ i (hi : i < g.vertices.length), h.label? i = g.label? g.vertices[i]) ∧
    ∀ i j (hi : i < g.vertices.length) (hj : j < g.vertices.length),
      h.adjacent i j = g.adjacent g.vertices[i] g.vertices[j] ∧
      h.hasEdge i j = g.hasEdge g.vertices[i] g.vertices[j] := by
  obtain ⟨h, hread, hd⟩ := exists_read_text (wellFormed_sheet hg hf)
  have hlength : (sheet g).labels.length = g.vertices.length := List.length_map _
  -- Numbers in the file are positions among the vertices.
  have hlinked : ∀ i j (hi : i < g.vertices.length) (hj : j < g.vertices.length),
      h.Linked i j ↔ g.Linked g.vertices[i] g.vertices[j] := by
    intro i j hi hj
    rw [← Graph.nthVertex_of_lt hi, ← Graph.nthVertex_of_lt hj, linked_nthVertex_iff hg hd]
  refine ⟨h, by rw [write_eq hg, hread], hd.reachable, hd.bound.trans hlength, ?_, ?_, ?_⟩
  · rw [hd.vertices, hlength]
  · exact fun i hi => label?_nthVertex hd hi
  · intro i j hi hj
    constructor
    · rw [Bool.eq_iff_iff, Graph.adjacent_iff, Graph.adjacent_iff]
      exact hlinked i j hi hj
    · rw [Bool.eq_iff_iff, hd.reachable.consistent.edge, hg.consistent.edge]
      exact hlinked i j hi hj

/-- A cycle of four vertices with one chord, on labels that look like other parts of a file. The
vertex 1 was removed. -/
def oddlyLabeled : Graph :=
  Graph.built [.push "#edges section", .pushNumbered, .push "\x7bx\x7d\x7d \r", .push "",
    .push " 4 1 ", .connect 4 0, .connect 1 2, .connect 0 2, .connect 3 2, .connect 3 4,
    .connect 2 4, .eraseVertex 1]

theorem read_write_oddlyLabeled : oddlyLabeled.Reachable ∧ Fileable oddlyLabeled ∧
    ∃ h, read (write oddlyLabeled) = .ok (.ok h) ∧ h.vertices = [0, 1, 2, 3] ∧
      h.label? 0 = some "#edges section" ∧ h.label? 1 = some "\x7bx\x7d\x7d \r" ∧
      h.adjacent 1 3 = true ∧ h.adjacent 0 2 = false := by
  have hreach : oddlyLabeled.Reachable := Graph.reachable_built _
  have hfileable : Fileable oddlyLabeled := fileable_of_bound hreach (by decide) (by decide)
  obtain ⟨h, hread, -, -, hvertices, hlabels, hedges⟩ := read_write hreach hfileable
  refine ⟨hreach, hfileable, h, hread, hvertices, ?_, ?_, ?_, ?_⟩
  · exact (hlabels 0 (by decide)).trans (by decide)
  · exact (hlabels 1 (by decide)).trans (by decide)
  · exact (hedges 1 3 (by decide) (by decide)).1.trans (by decide)
  · exact (hedges 0 2 (by decide) (by decide)).1.trans (by decide)

end CliquePath.GraphFile
