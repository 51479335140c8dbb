import Dataflow.Rule.Boundary
import Dataflow.Topology.Paths

/-!
# Split insertion

A processing element with several outgoing scopes whose branches meet again at a
grouping is written out to a boundary directly behind it. Elements that are fed
by boundaries and groupings alone are left as they are. Routes are counted per
scope, so two parallel scopes into a self-join are two routes; they end at taps.
-/
namespace Dataflow
namespace SplitInsertion

variable (g : Graph)

/-- A processing element with several outgoing scopes. Mirrors `is_split`. -/
def isSplit (id : ElementId) : Bool :=
  g.hasKind Kind.isProcessing id && decide (1 < (g.outgoing id).length)

/-- Fed, and fed by boundaries and groupings alone. Mirrors `follows_boundary`. -/
def followsBoundary (id : ElementId) : Bool :=
  let inputs := (g.predecessors id).toList
  !inputs.isEmpty && inputs.all (g.hasKind fun k => k.isBoundary || k.isGrouping)

/-- Some grouping among the listed elements is reached along several routes from
`id`. The elements come in topological order. Counts are kept in machine words, and one
that outgrows its word ends the search. -/
def meets (id : ElementId) (routes : Tally) : List ElementId → Except PlanError Bool
  | [] => .ok false
  | v :: rest =>
    let count := routes.get v
    if count = 0 then meets id routes rest
    else if v ≠ id ∧ g.hasKind Kind.isGrouping v ∧ 1 < count then .ok true
    else if v ≠ id ∧ g.hasKind Kind.isTap v then meets id routes rest
    else
      match routes.addAll? ((g.edgesOut v).map Prod.snd) count with
      | none => .error (.dead .overflow)
      | some routes => meets id routes rest

/-- Mirrors `reconverges`: some grouping is reached from `id` along several routes. -/
def reconverges (order : List ElementId) (id : ElementId) : Except PlanError Bool :=
  meets g id [(id, 1)] (order.dropWhile (· != id))

/-- A split that needs a boundary. -/
def isPoint (order : List ElementId) (id : ElementId) : Except PlanError Bool :=
  if isSplit g id && !followsBoundary g id then reconverges g order id else .ok false

/-- The splits among `ids` that need a boundary. -/
def pointsAmong (order : List ElementId) : (ids : List ElementId) →
    Except PlanError (List ElementId)
  | [] => .ok []
  | id :: rest => do
    let here ← isPoint g order id
    let points ← pointsAmong order rest
    return if here then id :: points else points

/-- Mirrors `split_points`: the splits that need a boundary, in topological order. -/
def splitPoints : Except PlanError (List ElementId) :=
  match g.topology.order with
  | .error e => .error (.cycle e)
  | .ok order => pointsAmong g order order

/-- Mirrors `apply` of `SplitInsertionRule`. -/
def apply (scheme : String) (g : Graph) : Outcome Bool :=
  match splitPoints g with
  | .error e => (.error e, g)
  | .ok [] => (.ok false, g)
  | .ok (id :: _) => (.ok true, g.boundaryAfter scheme id)

end SplitInsertion
end Dataflow
