import Dataflow.Rule.Boundary
import Dataflow.Topology.Reach

/-!
# Join isolation

The accumulated inputs of a hash join are read into memory before the streamed
one flows. Such an input is cut with a boundary when what feeds it,
back to the nearest taps, holds a grouping or meets what feeds another
input of the join.
-/
namespace Dataflow
namespace JoinIsolation

variable (g : Graph)

/-- `id` and what feeds it, in the order of the search. Taps are kept
and not passed. Mirrors `upstream_region`. -/
def feeding (id : ElementId) : List ElementId :=
  let goesOn := fun v => !g.hasKind Kind.isTap v && !Graph.isExtent v
  let inputs := fun v => ((g.edgesIn v).map Prod.snd).filter fun p => !Graph.isExtent p
  explore (fun v => if goesOn v then inputs v else []) (g.size + 1) [id] [id]

/-- The inputs of an element with the region that feeds each. -/
def regions (join : ElementId) : List (ScopeId × IdSet) :=
  (g.edgesIn join).map fun (s, origin) => (s, .ofList (feeding g origin))

/-- An accumulated input whose region holds a grouping or meets another one. -/
def isIncompatible (regions : List (ScopeId × IdSet)) (input : ScopeId × IdSet) : Bool :=
  let (s, region) := input
  !(g.scope? s).any Scope.isStreamed &&
    (region.toList.any (g.hasKind Kind.isGrouping) ||
      regions.any fun (other, theirs) => other != s && !region.disjoint theirs)

/-- The first incompatible input of a join. Mirrors `incompatible_input_of`. -/
def incompatibleInputOf (join : ElementId) : Option ScopeId :=
  ((regions g join).find? (isIncompatible g (regions g join))).map Prod.fst

/-- A removed element that feeds a join. -/
def removedFeeding? (join : ElementId) : Option DeadRef :=
  ((g.edgesIn join).findSome? fun (_, origin) =>
    (feeding g origin).find? fun e => !g.contains e).map (.element · g.name)

def joins : List ElementId := g.elements.toList.filter fun id =>
  g.hasKind (fun k => match k with | .hashJoin _ => true | _ => false) id

/-- The first accumulated input that needs a tap of its own. Mirrors `incompatible_input`. -/
def incompatibleInput : Except PlanError (Option ScopeId) :=
  match (joins g).findSome? fun join =>
    match removedFeeding? g join with
    | some ref => some (Except.error (PlanError.dead ref))
    | none => (incompatibleInputOf g join).map .ok
  with
  | none => .ok none
  | some found => found.map some

/-- Mirrors `apply` of `JoinCompatibilityRule`. -/
def apply (scheme : String) (g : Graph) : Outcome Bool :=
  match incompatibleInput g with
  | .error e => (.error e, g)
  | .ok none => (.ok false, g)
  | .ok (some s) => (.ok true, g.boundaryOn scheme s)

end JoinIsolation
end Dataflow
