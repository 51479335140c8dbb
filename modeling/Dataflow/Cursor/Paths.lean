import Dataflow.Cursor.Basic
import Dataflow.Topology.Paths

/-!
# Splitting selections into paths

Each selection of the wrapped cursor must have one root and one leaf. It is
replaced by its paths from the root to the leaf, the shortest first, or the
longest first when asked. A path takes along every selected scope between
consecutive elements.
-/
namespace Dataflow

/-- Mirrors `PathIterator`. -/
structure PathCursor (σ : Type) where
  inner : σ
  longestFirst : Bool
  /-- Paths of the current selection that were not taken yet. -/
  queue : List Selection
  pairs : List (ElementId × ElementId)
  deriving Repr

namespace PathCursor

def new {σ : Type} (inner : σ) (longestFirst : Bool) : PathCursor σ := ⟨inner, longestFirst, [], []⟩

/-- The consecutive pairs of a path. -/
def hops (path : List ElementId) : List (ElementId × ElementId) := path.zip path.tail

/-- A path with the selected scopes along it. -/
def along (g : Graph) (s : Selection) (path : List ElementId) : Selection where
  elements := .ofList path
  scopes := .ofList <| (hops path).flatMap fun (a, b) =>
    (g.scopesBetween a b).filter fun scope => decide (scope ∈ s.scopes)

/-- The paths from the one root to the one leaf, with that pair. Mirrors `decompose`. -/
def decompose (g : Graph) (longestFirst : Bool) (s : Selection) :
    Except CursorError (List Selection × (ElementId × ElementId)) :=
  let t := (s.view g).topology
  match t.roots.toList, t.leaves.toList with
  | [source], [sink] =>
    let paths := t.paths source sink
    .ok ((if longestFirst then paths.reverse else paths).map (along g s), (source, sink))
  | roots, leaves => .error (.notSingleSourceSink roots.length leaves.length)

variable {σ : Type} [Cursor σ]

/-- Decomposes up to `budget` selections of the wrapped cursor, until there is a
path to take. Mirrors `fill`. -/
def fill : (budget : Nat) → PathCursor σ → Except CursorError Unit × PathCursor σ
  | 0, c => (.ok (), c)
  | budget + 1, c =>
    if !c.queue.isEmpty then (.ok (), c)
    else
      match Cursor.hasNext c.inner with
      | (false, inner) => (.ok (), { c with inner })
      | (true, inner) =>
        match Cursor.next inner with
        | (.error e, inner) => (.error e, { c with inner })
        | (.ok s, inner) =>
          match decompose (Cursor.graph inner) c.longestFirst s with
          | .error e => (.error e, { c with inner })
          | .ok (queue, pair) => fill budget { c with inner, queue, pairs := c.pairs ++ [pair] }

/-- Mirrors `next` of `PathIterator`. -/
def next (c : PathCursor σ) : Except CursorError Selection × PathCursor σ :=
  match c.fill (Cursor.capacity c.inner + 1) with
  | (.error e, c) => (.error e, c)
  | (.ok (), c) =>
    match c.queue with
    | [] => (.error .exhausted, c)
    | s :: queue => (.ok s, { c with queue })

/-- Mirrors `has_next` of `PathIterator`. -/
def hasNext (c : PathCursor σ) : Bool × PathCursor σ :=
  if !c.queue.isEmpty then (true, c)
  else
    let (more, inner) := Cursor.hasNext c.inner
    (more, { c with inner })

/-- No view of a graph of `n` elements has more paths between two of them. -/
def pathBound (n : Nat) : Nat := 1 <<< (n * (n + 1))

instance : Cursor (PathCursor σ) where
  graph c := Cursor.graph c.inner
  domain c := Cursor.domain c.inner
  hasNext := hasNext
  next := next
  captured _ _ := ∅
  pairs := pairs
  capacity c := c.queue.length + Cursor.capacity c.inner * pathBound (Cursor.graph c.inner).size

end PathCursor
end Dataflow
