import CliquePath.AsteroidalTriple
import CliquePath.Elimination
import CliquePath.LinkedTree.Readout
import CliquePath.Representation

set_option autoImplicit false

/-!
# Recognition of interval graphs

This module decides whether a graph is the overlap graph of intervals. The outcome is an interval
for every vertex or a certificate against: a chordless cycle, or, in a chordal graph, an asteroidal
triple. The vertices of a chordal graph are put into a linked tree in the order of a lexicographic
breadth-first search; the graph is an interval graph exactly when none is rejected.
-/

namespace CliquePath

/-- The outcome of a recognition. -/
inductive Verdict where
  /-- An interval graph, with an elimination order and an interval for every vertex. -/
  | represented (order : List Vertex) (intervals : Assignment)
  /-- A graph with a chordless cycle of at least four vertices. -/
  | hole (cycle : List Vertex)
  /-- A chordal graph with an asteroidal triple. -/
  | asteroidal (triple : AsteroidalTriple)
deriving DecidableEq, Repr

/-- The outcome is that of an interval graph. -/
def Verdict.isInterval : Verdict → Bool
  | .represented _ _ => true
  | _ => false

/-- What a recognition does beyond deciding. -/
structure Options where
  /-- Compare the intervals with the graph before giving them out. -/
  checkIntervals : Bool := true
  /-- Give the paths of an asteroidal triple. -/
  givePaths : Bool := true
deriving DecidableEq, Repr

namespace Options

/-- Everything is checked and given. -/
def full : Options := {}

/-- The intervals are not compared with the graph. -/
def unchecked : Options := { checkIntervals := false }

end Options

/-- What becomes of vertices that are put into a tree of some kind: the tree of all of them, or the first
vertex that was rejected. -/
inductive Buildup (Tree : Type) where
  | complete (tree : Tree)
  | stuck (v : Vertex)
deriving Repr

namespace LinkedTree

/-- Puts the vertices of a list into a tree, from left to right, up to the first rejected one. -/
def insertAll (g : Graph) : LinkedTree → List Vertex → Except Failure (Buildup LinkedTree)
  | t, [] => .ok (.complete t)
  | t, v :: rest =>
      match t.insert g v with
      | (.error e, _) => .error e
      | (.ok .rejected, _) => .ok (.stuck v)
      | (.ok .inserted, t') => insertAll g t' rest

end LinkedTree

namespace Graph

/-- Puts all vertices into a linked tree in the order of a forward search. -/
def linkedTree (g : Graph) : Except Failure (Buildup LinkedTree) :=
  (LinkedTree.new g.bound).insertAll g (g.lexRanking .forward).order

/-- The outcome for intervals that were read from a tree of all vertices. -/
def represented (g : Graph) (options : Options) (order : List Vertex) (intervals : Assignment) :
    Except Failure Verdict :=
  match if options.checkIntervals then g.markedDisagreement? intervals else none with
  | some (u, v) => .error (.internal (.intervalsDisagree u v))
  | none => .ok (.represented order intervals)

/-- The outcome for a graph with the given elimination order. -/
def recognizeChordal (g : Graph) (options : Options) (order : List Vertex) :
    Except Failure Verdict := do
  match ← g.linkedTree with
  | .stuck v =>
      match g.asteroidalTriple v options.givePaths with
      | .error breach => .error (.internal breach)
      | .ok triple => .ok (.asteroidal triple)
  | .complete tree =>
      match tree.intervals with
      | .error fault => .error (.internal (.tree fault))
      | .ok intervals => g.represented options order intervals

/-- Decides whether a graph is an interval graph. -/
def recognize (g : Graph) (options : Options := {}) : Except Failure Verdict :=
  match g.elimination with
  | .error breach => .error (.internal breach)
  | .ok (.hole cycle) => .ok (.hole cycle)
  | .ok (.order vertices) => g.recognizeChordal options vertices

/-- Stores the intervals of an outcome; an outcome without intervals stores none. -/
def store (g : Graph) : Verdict → Graph
  | .represented _ intervals => intervals.foldl (fun g e => g.storeInterval e.1 e.2) g
  | _ => g

/-- Decides whether a graph is an interval graph and stores the intervals in it. Intervals that were
stored before are forgotten whatever the outcome. -/
def recognizeAndStore (g : Graph) (options : Options) : Except Failure Verdict × Graph :=
  let cleared := g.forgetIntervals
  match cleared.recognize options with
  | .error e => (.error e, cleared)
  | .ok outcome => (.ok outcome, cleared.store outcome)

end Graph

end CliquePath
