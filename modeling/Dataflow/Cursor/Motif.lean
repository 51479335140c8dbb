import Dataflow.Cursor.Basic
import Dataflow.Contraction
import Dataflow.Motif.Matcher

/-!
# One selection per match

The selection of a match is the part of the view behind the matched vertices.
The elements behind the primary capture are then excluded, so no later match
anchors on them; the other captures may be shared.
-/
namespace Dataflow

/-- Mirrors `MotifIterator`. -/
structure MotifCursor where
  contraction : Contraction
  matcher : Matcher
  firstOnly : Bool
  /-- Elements that no later match may anchor on. -/
  exclusions : IdSet
  /-- A match that was found and not yet taken. -/
  pending : Option Match
  /-- The latest match taken. -/
  last : Option Match
  deriving Repr

namespace MotifCursor

/-- Matches a motif over a view, contracted by a test if one is given. -/
def new (view : View) (test : Option VertexTest) (motif : Motif) (firstOnly : Bool) :
    Except MotifError MotifCursor :=
  (Matcher.ofMotif motif).map fun matcher =>
    { contraction := test.elim view.uncontracted view.contract, matcher, firstOnly,
      exclusions := ∅, pending := none, last := none }

/-- Looks for the next match unless one is pending. Mirrors `advance`. -/
def advance (c : MotifCursor) : MotifCursor :=
  match c.pending with
  | some _ => c
  | none =>
    { c with pending := c.matcher.firstMatch? c.contraction.target c.exclusions c.firstOnly }

/-- The elements behind a capture of the latest match. Mirrors `annotations_for`. -/
def captured (c : MotifCursor) (capture : Capture) : IdSet :=
  c.last.elim ∅ fun m => c.contraction.expand (m.captured capture)

/-- Takes a match: its selection, and the state without its primary elements. -/
def accept (c : MotifCursor) (m : Match) : Selection × MotifCursor :=
  (c.contraction.selection m.vertices,
    { c with
      pending := none
      last := some m
      exclusions := c.exclusions ∪ c.contraction.expand m.primary })

/-- Mirrors `next` of `MotifIterator`. -/
def next (c : MotifCursor) : Except CursorError Selection × MotifCursor :=
  let c := c.advance
  match c.pending with
  | none => (.error .exhausted, c)
  | some m =>
    match c.contraction.view.graph.deadScope? c.contraction.view.mask.scopes with
    | some ref => (.error (.dead ref), c)
    | none =>
      let (s, c) := c.accept m
      (.ok s, c)

instance : Cursor MotifCursor where
  graph c := c.contraction.view.graph
  domain c := c.contraction.view.mask
  hasNext c := let c := c.advance; (c.pending.isSome, c)
  next := next
  captured := captured
  pairs _ := []
  capacity c := c.contraction.topology.vertices.size

end MotifCursor
end Dataflow
