import Dataflow.Motif.Basic

/-!
# Matching a motif

An assignment sends motif vertices to distinct vertices of a target. It is grown
from the anchor outwards along the search order: each motif vertex after the
first has an assigned neighbour, whose neighbours in the target are the
candidates for it. Every motif edge between assigned vertices must have a scope
that passes its test.

There is at most one match per anchor. It holds what all complete assignments
around that anchor hold together, or, on request, the first of them alone.
-/
namespace Dataflow

/-- What was matched around one anchor, in the vertices of the target. -/
structure Match where
  anchor : ElementId
  vertices : IdSet
  scopes : IdSet
  primary : IdSet
  secondary : IdSet
  included : IdSet
  deriving DecidableEq, Repr

def Match.captured (m : Match) : Capture → IdSet
  | .primary => m.primary
  | .secondary => m.secondary
  | .included => m.included

/-- Motif vertices with the target vertices they are sent to. -/
abbrev Assignment := List (Nat × ElementId)

/-- The edges of the target from `a` to `b` whose scope passes the test. -/
def Target.scopesBetween (t : Target) (a b : ElementId) (test : ScopeTest) : List ScopeId :=
  (t.edgesOut a).filterMap fun (s, w) =>
    if w = b ∧ (t.graph.scope? s).any test.admits then some s else none

/-- A usable motif with its anchor and search order. Mirrors `Matcher`. -/
structure Matcher where
  motif : Motif
  primary : Nat
  order : List Nat
  deriving Repr

def Matcher.ofMotif (m : Motif) : Except MotifError Matcher :=
  m.validate.map fun primary => ⟨m, primary, m.searchOrder primary⟩

namespace Matcher

variable (m : Matcher) (t : Target)

/-- The vertex passes the test of the motif vertex `p`. -/
def admits (p : Nat) (v : ElementId) : Bool := (m.motif.nodes[p]?).any fun n => n.test.holds t v

/-- The neighbours, in the target, of an assigned neighbour of `p`. Mirrors `candidates`. -/
def candidates (a : Assignment) (p : Nat) : List ElementId :=
  ((m.motif.incident p).findSome? fun e =>
    match (if e.target = p then a.lookup e.origin else none) with
    | some origin => some (t.successors origin).toList
    | none =>
      match (if e.origin = p then a.lookup e.target else none) with
      | some target => some (t.predecessors target).toList
      | none => none).getD []

/-- With `p` sent to `v`, every motif edge between `p` and an assigned vertex has
a counterpart. Mirrors `edges_hold`. -/
def edgesHold (a : Assignment) (p : Nat) (v : ElementId) : Bool :=
  let sent := (p, v) :: a
  (m.motif.incident p).all fun e =>
    match sent.lookup e.origin, sent.lookup e.target with
    | some origin, some target => !(t.scopesBetween origin target e.test).isEmpty
    | _, _ => true

/-- `v` can take the place of `p` beside what is assigned. -/
def fits (a : Assignment) (p : Nat) (v : ElementId) : Bool :=
  !(a.any fun sent => sent.2 == v) && m.admits t p v && m.edgesHold t a p v

/-- The complete assignments that extend `a` to the given motif vertices, in the
order of the search. -/
def extensions : List Nat → Assignment → List Assignment
  | [], a => [a]
  | p :: rest, a =>
    ((m.candidates t a p).filter (m.fits t a p)).flatMap fun v => extensions rest ((p, v) :: a)

/-- The complete assignments around an anchor. Mirrors `extend`, run to its end. -/
def assignments (anchor : ElementId) : List Assignment :=
  if m.edgesHold t [] m.primary anchor then
    m.extensions t m.order.tail [(m.primary, anchor)]
  else []

/-- The target vertices of the motif vertices with that capture. -/
def capturedBy (c : Capture) (a : Assignment) : IdSet :=
  .ofList <| a.filterMap fun (p, v) =>
    if (m.motif.nodes[p]?.bind MotifNode.capture) = some c then some v else none

/-- The scopes that stand for the motif edges. -/
def scopesOf (a : Assignment) : IdSet :=
  .ofList <| m.motif.edges.flatMap fun e =>
    match a.lookup e.origin, a.lookup e.target with
    | some origin, some target => t.scopesBetween origin target e.test
    | _, _ => []

/-- Mirrors `record`, over all assignments of an anchor: what they hold together. -/
def merge (anchor : ElementId) (as : List Assignment) : Match where
  anchor
  vertices := .unionOf as fun a => .ofList (a.map Prod.snd)
  scopes := .unionOf as (m.scopesOf t)
  primary := .unionOf as (m.capturedBy .primary)
  secondary := .unionOf as (m.capturedBy .secondary)
  included := .unionOf as (m.capturedBy .included)

/-- The match at an anchor, from its first assignment or from all of them. Mirrors `match_at`. -/
def matchAt? (firstOnly : Bool) (anchor : ElementId) : Option Match :=
  match m.assignments t anchor with
  | [] => none
  | a :: rest => some (m.merge t anchor (if firstOnly then [a] else a :: rest))

/-- The vertices that pass the primary test and hold nothing excluded. Mirrors `anchors`. -/
def anchors (exclusions : IdSet) : List ElementId :=
  t.vertices.toList.filter fun v => (t.members v).disjoint exclusions && m.admits t m.primary v

/-- The matches, one per anchor that has one. Mirrors `find_matches_on_primary`. -/
def allMatches (exclusions : IdSet) (firstOnly : Bool) : List Match :=
  (m.anchors t exclusions).filterMap (m.matchAt? t firstOnly)

/-- The match at the smallest anchor that has one. Mirrors `find_first_match`. -/
def firstMatch? (exclusions : IdSet) (firstOnly : Bool) : Option Match :=
  (m.anchors t exclusions).findSome? (m.matchAt? t firstOnly)

end Matcher
end Dataflow
