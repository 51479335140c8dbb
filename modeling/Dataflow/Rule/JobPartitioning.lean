import Dataflow.Rule.Boundary
import Dataflow.Cursor.Motif

/-!
# Job partitioning

A step runs at most one grouping. Over the graph contracted by processing
elements, four shapes put two groupings in reach of one step:

```text
grouping → grouping
grouping → processing → grouping
processing → { grouping, grouping }
{ grouping, grouping } → processing
```

The grouping captured as secondary is cut away, with a boundary on each matched
scope that touches it. A grouping keeps its every chain: a cut that would enter
the chain moves to every scope that leaves it.
-/
namespace Dataflow
namespace JobPartitioning

def grouping (capture : Capture) : MotifNode := ⟨.kind .grouping, some capture⟩

def processing (capture : Option Capture) : MotifNode := ⟨.kind .processing, capture⟩

def arc (origin target : Nat) : MotifEdge := ⟨origin, target, .any⟩

/-- The shapes, in the order in which they are tried. Mirrors `motifs`. -/
def motifs : List Motif :=
  [⟨[grouping .primary, grouping .secondary], [arc 0 1]⟩,
    ⟨[grouping .primary, processing none, grouping .secondary], [arc 0 1, arc 1 2]⟩,
    ⟨[processing (some .primary), grouping .included, grouping .secondary], [arc 0 1, arc 0 2]⟩,
    ⟨[processing (some .primary), grouping .included, grouping .secondary], [arc 1 0, arc 2 0]⟩]

/-- The scopes that are cut in place of `s`: those that leave the every chain it
enters, or `s` itself. At most `budget` everies are passed. Mirrors `past_every_chain`,
which has no budget and does not return where everies feed each other in a circle;
a graph that passes verification has no such circle. -/
def pastChain (g : Graph) : (budget : Nat) → ScopeId → List ScopeId
  | 0, s => [s]
  | budget + 1, s =>
    match g.scope? s with
    | none => [s]
    | some scope =>
      if g.hasKind Kind.isEvery scope.target ∧ g.outgoing scope.target ≠ [] then
        (g.outgoing scope.target).flatMap (pastChain g budget)
      else [s]

/-- A scope with an end among `elements`. -/
def touches (g : Graph) (elements : IdSet) (s : ScopeId) : Bool :=
  (g.scope? s).any fun scope => decide (scope.origin ∈ elements) || decide (scope.target ∈ elements)

/-- The scopes to cut for a match: those that touch the elements behind its secondary
grouping, moved past every chains. -/
def cutAt (g : Graph) (secondary : IdSet) (m : Match) : List ScopeId :=
  (m.scopes.toList.filter (touches g secondary)).flatMap (pastChain g g.size)

/-- The target of a scope was removed. -/
def leadsNowhere? (g : Graph) (s : ScopeId) : Option DeadRef :=
  (g.scope? s).bind fun scope =>
    if g.contains scope.target then none else some (.element scope.target g.name)

/-- The scopes to cut for the first match of one of the shapes. -/
def cutAmong (g : Graph) : List Motif → Except PlanError (Option IdSet)
  | [] => .ok none
  | motif :: rest =>
    match MotifCursor.new (.whole g) (some (.kind .processing)) motif true with
    | .error e => .error (.motif e)
    | .ok c =>
      match Cursor.hasNext c with
      | (false, _) => cutAmong g rest
      | (true, c) =>
        match Cursor.next c with
        | (.error e, _) => .error (.cursor e)
        | (.ok _, c) =>
          match c.last.elim [] (cutAt g (Cursor.captured c .secondary)) with
          | [] => cutAmong g rest
          | cut =>
            match cut.findSome? (leadsNowhere? g) with
            | some ref => .error (.dead ref)
            | none => .ok (some (.ofList cut))

/-- Mirrors `find_cut`. -/
def findCut (g : Graph) : Except PlanError (Option IdSet) := cutAmong g motifs

/-- Mirrors `apply` of `JobPartitionRule`. -/
def apply (scheme : String) (g : Graph) : Outcome Bool :=
  match findCut g with
  | .error e => (.error e, g)
  | .ok none => (.ok false, g)
  | .ok (some cut) => (.ok true, g.cutScopes scheme cut)

end JobPartitioning
end Dataflow
