import CliquePath.Proofs.Graph.Linked
import Mathlib.Order.Monotone.Basic

set_option autoImplicit false

/-!
# Renaming the vertices of a graph

This module says when an increasing renaming of numbers carries one graph to another: it takes the
vertices to the vertices and every list of neighbours, in its order, to the list of the renamed
vertex. Questions about single vertices and the list of all edges then agree on the two graphs.

What is computed from the graphs agrees as well, step by step; the modules beside this one show that
for the searches, the components, the clique tree and the recognition. What does not depend on the
order of the neighbours agrees under the weaker `Embeds`. Two computations that may fail are
compared by `SameAnswer`.
-/

namespace CliquePath

/-- Both computations fail, or the second gives the image of what the first gives. -/
inductive SameAnswer {ε α β : Type} (f : α → β) : Except ε α → Except ε β → Prop
  | ok (a : α) : SameAnswer f (.ok a) (.ok (f a))
  | error (d e : ε) : SameAnswer f (.error d) (.error e)

theorem SameAnswer.cases {ε α β : Type} {f : α → β} {x : Except ε α} {y : Except ε β}
    (h : SameAnswer f x y) :
    (∃ a, x = .ok a ∧ y = .ok (f a)) ∨ ∃ d e, x = .error d ∧ y = .error e := by
  cases h with
  | ok a => exact Or.inl ⟨a, rfl, rfl⟩
  | error d e => exact Or.inr ⟨d, e, rfl, rfl⟩

theorem contains_map {ι : Vertex → Vertex} (hι : Function.Injective ι) (vs : List Vertex)
    (v : Vertex) : (vs.map ι).contains (ι v) = vs.contains v := by
  rw [Bool.eq_iff_iff, List.contains_iff_mem, List.contains_iff_mem,
    List.mem_map_of_injective hι]

theorem beq_map {ι : Vertex → Vertex} (hι : Function.Injective ι) (v w : Vertex) :
    (ι v == ι w) = (v == w) := by
  rw [Bool.eq_iff_iff, beq_iff_eq, beq_iff_eq, hι.eq_iff]

namespace Graph

/-- The renaming takes the first graph to the second. A list of neighbours may change its order. -/
structure Embeds (ι : Vertex → Vertex) (c g : Graph) : Prop where
  mono : StrictMono ι
  vertices : g.vertices = c.vertices.map ι
  linked_iff : ∀ v w, g.Linked (ι v) (ι w) ↔ c.Linked v w

/-- The renaming takes the first graph to the second and keeps every order. -/
structure Carries (ι : Vertex → Vertex) (c g : Graph) : Prop where
  mono : StrictMono ι
  vertices : g.vertices = c.vertices.map ι
  neighbors : ∀ v, g.neighbors (ι v) = (c.neighbors v).map ι
  vertexCount : g.vertexCount = c.vertexCount
  edgeCount : g.edgeCount = c.edgeCount

namespace Carries

variable {ι : Vertex → Vertex} {c g : Graph} (h : Carries ι c g)

include h

theorem injective : Function.Injective ι := h.mono.injective

theorem contains (v : Vertex) : g.contains (ι v) = c.contains v := by
  rw [Bool.eq_iff_iff, ← mem_vertices, ← mem_vertices, h.vertices,
    List.mem_map_of_injective h.injective]

theorem adjacent (v w : Vertex) : g.adjacent (ι v) (ι w) = c.adjacent v w := by
  rw [Graph.adjacent, h.neighbors, contains_map h.injective, Graph.adjacent]

theorem linked_iff (v w : Vertex) : g.Linked (ι v) (ι w) ↔ c.Linked v w := by
  rw [Linked, Linked, h.neighbors, List.mem_map_of_injective h.injective]

theorem embeds : Embeds ι c g := ⟨h.mono, h.vertices, h.linked_iff⟩

theorem edges : g.edges = c.edges.map (Prod.map ι ι) := by
  rw [Graph.edges, h.vertices, List.flatMap_map, Graph.edges, List.map_flatMap]
  refine congrArg (fun f => c.vertices.flatMap f) (funext fun v => ?_)
  have hless : (fun w => decide (ι v < w)) ∘ ι = fun w => decide (v < w) := by
    funext w
    simp [h.mono.lt_iff_lt]
  rw [h.neighbors, List.filter_map, hless, List.map_map, List.map_map]
  rfl

end Carries

end Graph

end CliquePath
