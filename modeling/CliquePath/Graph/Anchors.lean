import CliquePath.Graph.Basic

set_option autoImplicit false

/-!
# Anchors of vertices

This module computes the connected components of a graph with one array that is changed while it is
read. The array gives every vertex number an anchor, and following the anchors from a number leads
to the anchor of its component. The way there is followed twice: once to find its end, and once more
to make the end the anchor of every number on the way.

An array does not tell that following its anchors ever ends. But a way that ends passes no number
twice, so a loop that has not ended after as many steps as the array has entries never ends. Such a
loop has no answer, nor has one that leaves the array, and neither has the computation around them.

The answer is that of `Graph.components`, which reads the classes of a forest.
-/

namespace CliquePath

/-- The anchor of each vertex number. -/
abbrev Anchors := Array Nat

namespace Anchors

/-- Every number below the bound is its own anchor. -/
def alone (bound : Nat) : Anchors := Array.range bound

/-- The number at which following the anchors from a number ends, if it does within `n` steps. -/
def climbWithin? (a : Anchors) : Nat → Nat → Option Nat
  | 0, _ => none
  | n + 1, v =>
      match a[v]? with
      | none => none
      | some next => if next = v then some v else climbWithin? a n next

/-- Makes `root` the anchor of every number on the way from a number to `root`, if the way has at
most `n` steps. -/
def shortenWithin? (root : Nat) : Nat → Anchors → Nat → Option Anchors
  | 0, _, _ => none
  | n + 1, a, v =>
      match a[v]? with
      | none => none
      | some next =>
          if next = root then some a else shortenWithin? root n (a.setIfInBounds v root) next

/-- The number at which following the anchors from `v` ends. -/
def climb? (a : Anchors) (v : Nat) : Option Nat := a.climbWithin? a.size v

/-- Makes `root` the anchor of every number on the way from `v` to `root`. -/
def shorten? (a : Anchors) (root v : Nat) : Option Anchors := shortenWithin? root a.size a v

/-- The end of the way from `v`, and the anchors with that way shortened. -/
def find? (a : Anchors) (v : Nat) : Option (Nat × Anchors) := do
  let root ← a.climb? v
  let shortened ← a.shorten? root v
  return (root, shortened)

/-- Makes the lower one of the ends of the ways from two numbers the anchor of the other end. -/
def merge? (a : Anchors) (u v : Nat) : Option Anchors := do
  let (r, a) ← a.find? u
  let (s, a) ← a.find? v
  return if r < s then a.setIfInBounds s r else if s < r then a.setIfInBounds r s else a

end Anchors

/-- The lists of vertices collected so far. -/
structure Collection where
  anchors : Anchors
  /-- The place of the list for each number at which ways end. -/
  places : Array (Option Nat)
  lists : List (List Vertex) := []

/-- Nothing is collected yet. -/
def Collection.start (anchors : Anchors) (bound : Nat) : Collection :=
  { anchors, places := Array.replicate bound none }

/-- Puts a vertex at the end of the list for the end of its way, which may be a new list. -/
def Collection.add? (c : Collection) (v : Vertex) : Option Collection := do
  let (root, anchors) ← c.anchors.find? v
  match ← c.places[root]? with
  | some i =>
      let list ← c.lists[i]?
      return { c with anchors, lists := c.lists.set i (list ++ [v]) }
  | none =>
      return { anchors, places := c.places.setIfInBounds root (some c.lists.length),
               lists := c.lists ++ [[v]] }

namespace Graph

/-- The anchors after the edges from a vertex to vertices that are not lower were taken in. -/
def mergeFrom? (g : Graph) (a : Anchors) (u : Vertex) : Option Anchors :=
  (g.neighbors u).foldlM (fun a v => if v < u then some a else a.merge? u v) a

/-- The anchors after all edges were taken in. -/
def anchors? (g : Graph) : Option Anchors :=
  g.vertices.foldlM g.mergeFrom? (.alone g.bound)

/-- The connected components, collected by the ends of the ways from the vertices. -/
def anchoredComponents? (g : Graph) : Option (List (List Vertex)) := do
  let anchors ← g.anchors?
  let c ← g.vertices.foldlM Collection.add? (.start anchors g.bound)
  return c.lists

end Graph

end CliquePath
