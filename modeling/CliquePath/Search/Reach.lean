import CliquePath.Graph.Basic

set_option autoImplicit false

/-!
# What each vertex sees of its component

This module labels, around every vertex, the components of what is left of its own component when its
closed neighbourhood is taken out. The vertices of the graph are numbered anew without holes; such a
number is a position. The labels stand in one table with a row for each position, and the label 0
means that a position was not reached: it lies in the closed neighbourhood or in another component.

Both searches behind a row go breadth first over a queue. The first one collects the component, the
second one starts anew at every collected position that has no label yet and gives it the next label.
-/

namespace CliquePath

/-- A search that is under way over `n` positions. A position was reached if its mark is not the
default one. -/
structure Wave (α : Type) (n : Nat) where
  marks : Vector α n
  /-- The positions whose neighbours are still to be looked at. -/
  queue : List (Fin n)
  /-- The positions that were put into the queue, the earliest first. -/
  reached : List (Fin n)

namespace Wave

variable {α : Type} {n : Nat} [Inhabited α] [DecidableEq α]

/-- A search that starts at one position, with the marks that are there already. -/
def start (marks : Vector α n) (mark : α) (p : Fin n) : Wave α n :=
  { marks := marks.set p mark, queue := [p], reached := [p] }

/-- The position may be entered and has no mark yet. -/
def isOpen (may : Fin n → Bool) (w : Wave α n) (y : Fin n) : Bool :=
  may y && w.marks.get y == default

/-- Marks a position and puts it at the end of the queue, if it is open. -/
def enter (may : Fin n → Bool) (mark : α) (w : Wave α n) (y : Fin n) : Wave α n :=
  if w.isOpen may y then
    { marks := w.marks.set y mark, queue := w.queue ++ [y], reached := w.reached ++ [y] }
  else w

/-- The number of positions that are in the queue or can still come into it. -/
def weight (w : Wave α n) : Nat := w.marks.count default + w.queue.length

/-- A position that comes into the queue was open before. -/
theorem weight_enter (may : Fin n → Bool) {mark : α} (hmark : mark ≠ default) (w : Wave α n)
    (y : Fin n) : (w.enter may mark y).weight = w.weight := by
  unfold enter
  split
  next hopen =>
    have hblank : w.marks[y.val] = default := beq_iff_eq.1 (Bool.and_eq_true_iff.1 hopen).2
    have hpos : 0 < w.marks.count default :=
      Vector.count_pos_iff.2 (hblank ▸ Vector.getElem_mem y.isLt)
    simp only [weight, Vector.count_set, hblank, BEq.rfl, beq_iff_eq, hmark, if_true, if_false,
      List.length_append, List.length_singleton]
    omega
  next => rfl

theorem weight_foldl_enter (may : Fin n → Bool) {mark : α} (hmark : mark ≠ default)
    (ys : List (Fin n)) (w : Wave α n) : (ys.foldl (enter may mark) w).weight = w.weight := by
  induction ys generalizing w with
  | nil => rfl
  | cons y ys ih => rw [List.foldl_cons, ih, weight_enter may hmark]

/-- Looks at the neighbours of the queued positions until the queue is empty. -/
def spread (near : Fin n → Except Breach (List (Fin n))) (may : Fin n → Bool)
    (mark : { a : α // a ≠ default }) (w : Wave α n) : Except Breach (Wave α n) :=
  match _ : w.queue with
  | [] => .ok w
  | x :: rest =>
      match near x with
      | .error breach => .error breach
      | .ok ys => spread near may mark (ys.foldl (enter may mark.val) { w with queue := rest })
termination_by w.weight
decreasing_by
  rw [weight_foldl_enter may mark.property]
  simp [weight, *]

end Wave

/-- The vertices of a graph by position, the position of each vertex, and the table of labels. -/
structure Reach where
  ids : Array Vertex
  /-- The position of each vertex number, if it is a vertex. -/
  dense : Array (Option (Fin ids.size))
  /-- The rows of all positions one after the other. -/
  labels : Vector Nat (ids.size * ids.size)

namespace Reach

variable {n : Nat}

/-- The vertex at a position. -/
def vertexAt (ids : Array Vertex) (p : Fin ids.size) : Vertex := ids[p]

/-- The position of each vertex number below the bound. -/
def denseOf (bound : Nat) (ids : Array Vertex) : Array (Option (Fin ids.size)) :=
  (List.finRange ids.size).foldl (fun dense i => dense.setIfInBounds (vertexAt ids i) (some i))
    (Array.replicate bound none)

/-- The positions of the neighbours of the vertex at a position. -/
def near (g : Graph) (ids : Array Vertex) (dense : Array (Option (Fin ids.size)))
    (x : Fin ids.size) : Except Breach (List (Fin ids.size)) :=
  (g.neighbors (vertexAt ids x)).mapM fun v =>
    match dense[v]?.join with
    | none => .error (.unnumbered v)
    | some y => .ok y

/-- Gives the next label to what a search reaches from each of the listed positions that is not
blocked and has no label yet. -/
def labelFrom (near : Fin n → Except Breach (List (Fin n))) (blocked : Vector Bool n) :
    Nat → Vector Nat n → List (Fin n) → Except Breach (Vector Nat n)
  | _, row, [] => .ok row
  | last, row, start :: rest =>
      if blocked.get start || row.get start != 0 then labelFrom near blocked last row rest
      else
        let label : { a : Nat // a ≠ default } := ⟨last + 1, Nat.succ_ne_zero last⟩
        match (Wave.start row label.val start).spread near (fun y => !blocked.get y) label with
        | .error breach => .error breach
        | .ok wave => labelFrom near blocked (last + 1) wave.marks rest

/-- The closed neighbourhood of a position with the given neighbours. -/
def blockedBy (p : Fin n) (ys : List (Fin n)) : Vector Bool n :=
  ys.foldl (fun blocked (y : Fin n) => blocked.set y true) ((Vector.replicate n false).set p true)

/-- The row of a position. Only its own component is searched; the other positions keep the label
0. -/
def row (near : Fin n → Except Breach (List (Fin n))) (p : Fin n) :
    Except Breach (Vector Nat n) := do
  let blocked := blockedBy p (← near p)
  let component ← (Wave.start (Vector.replicate n false) true p).spread near (fun _ => true)
    ⟨true, by decide⟩
  labelFrom near blocked 0 (Vector.replicate n 0) component.reached

/-- The table of a graph. -/
def build (g : Graph) : Except Breach Reach := do
  let ids := g.vertices.toArray
  let dense := denseOf g.bound ids
  let rows ← Vector.ofFnM (row (near g ids dense))
  return { ids, dense, labels := rows.flatten }

/-- The number of positions. -/
abbrev size (t : Reach) : Nat := t.ids.size

theorem index_lt (p q : Fin n) : p.val * n + q.val < n * n := by
  have hrow : (p.val + 1) * n ≤ n * n := Nat.mul_le_mul_right n p.isLt
  rw [Nat.succ_mul] at hrow
  exact Nat.lt_of_lt_of_le (Nat.add_lt_add_left q.isLt _) hrow

/-- The label of `q` in the row of `p`. -/
def label (t : Reach) (p q : Fin t.size) : Nat :=
  t.labels.get ⟨p.val * t.size + q.val, index_lt p q⟩

end Reach

end CliquePath
