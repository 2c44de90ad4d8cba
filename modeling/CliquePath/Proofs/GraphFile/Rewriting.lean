import CliquePath.Proofs.GraphFile.RoundTrip
import CliquePath.Proofs.Renaming.EdgeTour

set_option autoImplicit false

/-!
# Writing again what was read

This module shows that a file that was written is written again to the character. The graph that is
read from it retraces the one that was written: its edges came in the order of the tour, so its own
tour meets the same vertices at every step, and both graphs have one sheet. So whatever text a graph
was read from, one conversion settles the text for good.
-/

namespace CliquePath.GraphFile

open Sheet

variable {g h : Graph} {i : Vertex}

/-- The graph that was read has the edges of the tour in their order. -/
theorem retraces (hg : g.Reachable) (hd : (sheet g).Describes h) :
    Graph.Retraces g.nthVertex h g := by
  refine ⟨⟨Graph.strictMono_nthVertex g, ?_, linked_nthVertex_iff hg hd⟩, ?_⟩
  · rw [hd.vertices, sheet, List.length_map]
    exact Graph.vertices_eq_map_nthVertex g
  · exact map_nthVertex_neighbors hg hd

/-- In a graph without holes every vertex is its own position. -/
theorem idxOf_vertices {v : Vertex} {n : Nat} (hvertices : h.vertices = List.range n)
    (hv : v ∈ h.vertices) : h.vertices.idxOf v = v := by
  have hlt : v < (List.range n).length := by
    rw [List.length_range]
    exact List.mem_range.1 (hvertices ▸ hv)
  have hidx := List.nodup_range.idxOf_getElem v hlt
  rwa [List.getElem_range, ← hvertices] at hidx

/-- The graph that was read has the sheet that it was read from. -/
theorem sheet_of_describes (hg : g.Reachable) (hd : (sheet g).Describes h) :
    sheet h = sheet g := by
  have hlabels : (sheet h).labels = (sheet g).labels := by
    rw [sheet, hd.vertices]
    refine List.ext_getElem (by simp) fun i hi hi' => ?_
    simp [hd.label?, hi']
  -- The graph that was read has no holes, so it is listed as it is.
  have hown : (sheet h).edges = h.edgeTour := by
    conv_rhs => rw [← List.map_id h.edgeTour]
    refine List.map_congr_left fun e he => ?_
    obtain ⟨hleft, hright⟩ := mem_vertices_of_mem_edgeTour hd.reachable he
    rw [Graph.position, idxOf_vertices hd.vertices hleft, idxOf_vertices hd.vertices hright, id]
  have hedges : (sheet h).edges = (sheet g).edges := by
    -- Both lists of positions stand for the tour of the graph that was written.
    have hι := (Graph.strictMono_nthVertex g).injective
    apply List.map_injective_iff.2 (hι.prodMap hι)
    calc (sheet h).edges.map (Prod.map g.nthVertex g.nthVertex)
        = h.edgeTour.map (Prod.map g.nthVertex g.nthVertex) := by rw [hown]
      _ = g.edgeTour :=
        ((retraces hg hd).edgeTour_eq hd.reachable.consistent hg.consistent).symm
      _ = (sheet g).edges.map (Prod.map g.nthVertex g.nthVertex) :=
        (map_nthVertex_edges hg).symm
  exact Sheet.ext hlabels hedges

theorem fileable_of_describes {s : Sheet} (hs : s.WellFormed) (hd : s.Describes g) :
    Fileable g := by
  refine ⟨fun v _ label hlabel => ?_, ?_, ?_⟩
  · rw [hd.label?] at hlabel
    exact hs.labels label (List.mem_of_getElem? hlabel)
  · rw [hd.vertices, List.length_range]
    exact hs.vertexCount
  · rw [Graph.edgeCount, hd.edgeSet, List.length_reverse, sortedEdges, List.length_map]
    exact hs.edgeCount

/-- What was written and read again is written the same. -/
theorem write_read_write (hg : g.Reachable) (hf : Fileable g) :
    ∃ h, read (write g) = .ok (.ok h) ∧ write h = write g := by
  obtain ⟨h, hread, hd⟩ := exists_read_text (wellFormed_sheet hg hf)
  refine ⟨h, by rw [write_eq hg, hread], ?_⟩
  rw [write_eq hd.reachable, sheet_of_describes hg hd, write_eq hg]

/-- Rewriting a file changes nothing from the second time on: what is written of a graph is written
again from the graph that it is read as, and so is the conversion of any text that is read. -/
theorem rewriting_idempotent :
    (∀ g : Graph, g.Reachable → Fileable g →
      ∃ h, read (write g) = .ok (.ok h) ∧ write h = write g) ∧
    ∀ (text : String) (g : Graph), read text = .ok (.ok g) →
      ∃ h, read (write g) = .ok (.ok h) ∧ write h = write g := by
  refine ⟨fun g hg hf => write_read_write hg hf, fun text g hread => ?_⟩
  obtain ⟨s, hs, hd⟩ := exists_sheet_of_read hread
  exact write_read_write hd.reachable (fileable_of_describes hs hd)

/-- A text with lines in front, carriage returns, blanks and a sign. -/
def untidyText : String :=
  "saved by hand\r\n#nodes section \r\n 03\r\n\x7bAda\x7d\n  \x7bBrook\x7d\t\n\x7bCyd\x7d\n" ++
    "#edges section\n+2\n3  2\n2 1\n"

theorem rewriting_idempotent_untidyText :
    (∃ h, read (write oddlyLabeled) = .ok (.ok h) ∧ write h = write oddlyLabeled) ∧
      ∃ g h, read untidyText = .ok (.ok g) ∧ g.Reachable ∧ read (write g) = .ok (.ok h) ∧
        write h = write g := by
  have hreach : oddlyLabeled.Reachable := Graph.reachable_built _
  have hfileable : Fileable oddlyLabeled := fileable_of_bound hreach (by decide) (by decide)
  obtain ⟨hgraphs, htexts⟩ := rewriting_idempotent
  have hread : read untidyText = .ok (.ok (Graph.built [.push "Ada", .push "Brook", .push "Cyd",
      .connect 2 1, .connect 1 0])) := by rfl
  obtain ⟨h, hagain, hsame⟩ := htexts _ _ hread
  exact ⟨hgraphs _ hreach hfileable, _, h, hread, Graph.reachable_built _, hagain, hsame⟩

end CliquePath.GraphFile
