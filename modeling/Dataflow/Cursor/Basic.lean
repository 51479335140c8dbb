import Dataflow.Selection
import Dataflow.Motif.Basic

/-!
# Cursors

A cursor carves a graph into selections, one at a time, and never changes the
graph. It may be asked whether there is a next selection, and for it; asking may
cache work in the state but does not consume anything.

`Cursor` is a class on the type of the state, so that a cursor can wrap another.
`Cursor.capacity` bounds what is still to come, which is what lets `drain` end.
-/
namespace Dataflow

/-- Mirrors `IteratorError`. -/
inductive CursorError where
  | exhausted
  | notSingleSourceSink (sources sinks : Nat)
  /-- The cursor ranges over something that was removed. -/
  | dead (ref : DeadRef)
  deriving DecidableEq, Repr

def CursorError.message : CursorError → String
  | exhausted => "no more subgraphs"
  | notSingleSourceSink sources sinks =>
    "path decomposition only supports single source and single sink graphs, found " ++
      s!"{sources} sources and {sinks} sinks"
  | dead ref => ref.message?.getD ""

/-- Mirrors `SubGraphIterator`. -/
class Cursor (σ : Type) where
  graph : σ → Graph
  /-- The part of the graph that is carved up. -/
  domain : σ → Selection
  hasNext : σ → Bool × σ
  next : σ → Except CursorError Selection × σ
  /-- The elements of the latest selection under a capture. -/
  captured : σ → Capture → IdSet
  /-- The pairs of root and leaf that were split into paths, in order. -/
  pairs : σ → List (ElementId × ElementId)
  /-- At least as many as the selections still to come. -/
  capacity : σ → Nat

namespace Cursor

variable {σ : Type} [Cursor σ]

/-- Takes up to `budget` selections. -/
def take : (budget : Nat) → σ → Except CursorError (List Selection) × σ
  | 0, c => (.ok [], c)
  | budget + 1, c =>
    match hasNext c with
    | (false, c) => (.ok [], c)
    | (true, c) =>
      match next c with
      | (.error e, c) => (.error e, c)
      | (.ok s, c) =>
        match take budget c with
        | (.error e, c) => (.error e, c)
        | (.ok rest, c) => (.ok (s :: rest), c)

/-- Takes every remaining selection. Mirrors `drain`. -/
def drain (c : σ) : Except CursorError (List Selection) × σ := take (capacity c + 1) c

end Cursor

/-! ## One selection -/

/-- Yields one given selection. Mirrors `OnceIterator`. -/
structure OnceCursor where
  graph : Graph
  domain : Selection
  yielded : Bool
  deriving DecidableEq, Repr

def OnceCursor.new (g : Graph) (s : Selection) : OnceCursor := ⟨g, s, false⟩

instance : Cursor OnceCursor where
  graph := OnceCursor.graph
  domain := OnceCursor.domain
  hasNext c := (!c.yielded, c)
  next c := if c.yielded then (.error .exhausted, c) else (.ok c.domain, { c with yielded := true })
  captured _ _ := ∅
  pairs _ := []
  capacity c := if c.yielded then 0 else 1

end Dataflow
