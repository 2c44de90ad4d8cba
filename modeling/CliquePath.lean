import CliquePath.Failure
import CliquePath.Interval
import CliquePath.Graph.Basic
import CliquePath.Graph.Lemmas
import CliquePath.Graph.Forest
import CliquePath.Graph.Components
import CliquePath.Graph.Anchors
import CliquePath.Search.Groups
import CliquePath.Search.Ranking
import CliquePath.Search.Detour
import CliquePath.Search.LinkedGroups
import CliquePath.Search.Reach
import CliquePath.Marks
import CliquePath.Elimination
import CliquePath.AsteroidalTriple
import CliquePath.Representation
import CliquePath.Row
import CliquePath.Sole
import CliquePath.CliqueTree.Node
import CliquePath.CliqueTree.Arrangement
import CliquePath.CliqueTree.Neighbors
import CliquePath.CliqueTree.Opening
import CliquePath.CliqueTree.Growth
import CliquePath.CliqueTree.Basic
import CliquePath.LinkedTree.Arena
import CliquePath.LinkedTree.Slices
import CliquePath.LinkedTree.Path
import CliquePath.LinkedTree.Templates
import CliquePath.LinkedTree.Basic
import CliquePath.LinkedTree.Readout
import CliquePath.Recognition
import CliquePath.Text.Blank
import CliquePath.Text.Lines
import CliquePath.Text.Numeral
import CliquePath.Search.EdgeTour
import CliquePath.GraphFile.Format
import CliquePath.GraphFile.Reader
import CliquePath.GraphFile.Writer
import CliquePath.Json
import CliquePath.Report
import CliquePath.CommandLine.Arguments
import CliquePath.CommandLine.Directory
import CliquePath.CommandLine.Run
import CliquePath.Main
import CliquePath.Proofs.Row.Keys
import CliquePath.Proofs.Row.Pattern
import CliquePath.Proofs.AsteroidalTriple
import CliquePath.Proofs.Buildup
import CliquePath.Proofs.CliqueTree.Correctness
import CliquePath.Proofs.Recognition
import CliquePath.Proofs.Search.LastVertex
import CliquePath.Proofs.Search.ShortestDetour
import CliquePath.Proofs.Search.DetourExactness
import CliquePath.Proofs.Representation.Exactness
import CliquePath.Proofs.Chordality
import CliquePath.Proofs.AsteroidalSearch
import CliquePath.Proofs.LinkedTree.Calls
import CliquePath.Proofs.LinkedTree.RowLists
import CliquePath.Proofs.LinkedTree.Recorded
import CliquePath.Proofs.Graph.EditRuns
import CliquePath.Proofs.Renaming.Compact
import CliquePath.Proofs.CliqueTree.Cliques
import CliquePath.Proofs.Search.Lexicographic
import CliquePath.Proofs.Elimination.Exactness
import CliquePath.Proofs.GraphFile.Rewriting
import CliquePath.Proofs.GraphFile.Exactness
import CliquePath.Proofs.Graph.AnchoredComponents
import CliquePath.Proofs.StoredIntervals
import CliquePath.Proofs.Search.StackOrder
import CliquePath.Proofs.Search.DepthFirst
import CliquePath.Proofs.CommandLine.Arguments
import CliquePath.Proofs.CommandLine.Calls
import CliquePath.Proofs.Search.SeededSweep
