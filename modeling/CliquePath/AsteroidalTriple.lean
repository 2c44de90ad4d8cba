import CliquePath.Search.Detour
import CliquePath.Search.Reach

set_option autoImplicit false

/-!
# Asteroidal triples

This module finds three vertices of which each two are joined by a path that avoids the third and
its neighbours. Three vertices have such paths exactly when each of them sees the other two in one
component of what is left when its closed neighbourhood is taken out. The search runs over positions
and looks up labels; only the paths are searched for in the graph.
-/

namespace CliquePath

/-- Three vertices, and either no paths or the paths from the first to the second, from the second
to the third and from the third to the first. -/
structure AsteroidalTriple where
  first : Vertex
  second : Vertex
  third : Vertex
  paths : List (List Vertex) := []
deriving DecidableEq, Repr

/-- The first pair of a list, in the order of its entries, that satisfies the test. -/
def firstPair? {α : Type} (test : α → α → Bool) : List α → Option (α × α)
  | [] => none
  | a :: rest =>
      match rest.find? (test a) with
      | some b => some (a, b)
      | none => firstPair? test rest

/-- The first triple of a list, in the order of its entries, that satisfies the test. -/
def firstTriple? {α : Type} (test : α → α → α → Bool) : List α → Option (α × α × α)
  | [] => none
  | a :: rest =>
      match firstPair? (test a) rest with
      | some (b, c) => some (a, b, c)
      | none => firstTriple? test rest

namespace Reach

variable (t : Reach)

/-- Both positions were reached from `p`, with one label. -/
def seesBoth (p q r : Fin t.size) : Bool :=
  t.label p q != 0 && t.label p q == t.label p r

/-- Each of the three positions sees the other two in one component. -/
def isAsteroidal (a b c : Fin t.size) : Bool :=
  t.seesBoth a b c && t.seesBoth b a c && t.seesBoth c a b

/-- The first triple of positions that begins with `x`. -/
def tripleFrom? (x : Fin t.size) : Option (Fin t.size × Fin t.size × Fin t.size) :=
  (firstPair? (fun y z => y != x && z != x && t.isAsteroidal x y z) (List.finRange t.size)).map
    fun pair => (x, pair)

/-- The first triple of positions that begins with the position of the vertex `x`, if it has one. -/
def tripleThrough? (x : Vertex) : Option (Fin t.size × Fin t.size × Fin t.size) :=
  t.dense[x]?.join.bind t.tripleFrom?

/-- The first triple of positions in ascending order. -/
def tripleAnywhere? : Option (Fin t.size × Fin t.size × Fin t.size) :=
  firstTriple? t.isAsteroidal (List.finRange t.size)

/-- The first triple that begins with `x`, if there is one; otherwise the first triple in ascending
order. -/
def triple? (x : Vertex) : Option (Fin t.size × Fin t.size × Fin t.size) :=
  (t.tripleThrough? x).or t.tripleAnywhere?

/-- The vertices at three positions. -/
def verticesAt (found : Fin t.size × Fin t.size × Fin t.size) : Vertex × Vertex × Vertex :=
  (vertexAt t.ids found.1, vertexAt t.ids found.2.1, vertexAt t.ids found.2.2)

end Reach

namespace Graph

/-- The three paths that show a triple to be asteroidal. -/
def triplePaths (g : Graph) (a b c : Vertex) : Except Breach (List (List Vertex)) := do
  let ab ← Detour.path g ⟨c, a, b⟩
  let bc ← Detour.path g ⟨a, b, c⟩
  let ca ← Detour.path g ⟨b, c, a⟩
  return [ab, bc, ca]

/-- Finds an asteroidal triple, one that contains `x` if there is one, with its paths on request. -/
def asteroidalTriple (g : Graph) (x : Vertex) (givePaths : Bool) :
    Except Breach AsteroidalTriple := do
  let reach ← Reach.build g
  match reach.triple? x with
  | none => .error .noAsteroidalTriple
  | some found =>
      let (first, second, third) := reach.verticesAt found
      let paths ← if givePaths then g.triplePaths first second third else .ok []
      return { first, second, third, paths }

end Graph

end CliquePath
