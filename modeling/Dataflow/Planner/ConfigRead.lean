import Dataflow.Json.Member
import Dataflow.Json.Read
import Dataflow.Planner.Config

/-!
# Reading planner configurations

A configuration is a JSON object whose keys are all optional, or an array of up
to five values in the order of the keys. Keys that mean nothing are refused.
-/
namespace Dataflow
namespace PlannerConfig

/-- The keys in their order. -/
def keys : List String :=
  ["max_rule_iterations", "normalize_heterogeneous_sources", "collapse_adjacent_boundaries",
    "temp_scheme", "multi_edge_remainder"]

/-- A configuration from what is given for each key. -/
def ofValues? (given : String → Option (Option Json)) : Option PlannerConfig := do
  let flag := fun key byDefault => do Json.orDefault byDefault Json.bool? (← given key)
  return {
    maxRuleIterations :=
      ← Json.orDefault default.maxRuleIterations (Json.natBelow? (Nat.pow 2 64))
        (← given "max_rule_iterations")
    normalizeHeterogeneousSources :=
      ← flag "normalize_heterogeneous_sources" default.normalizeHeterogeneousSources
    collapseAdjacentBoundaries :=
      ← flag "collapse_adjacent_boundaries" default.collapseAdjacentBoundaries
    tempScheme :=
      ← Json.orDefault default.tempScheme Json.string? (← given "temp_scheme")
    multiEdgeRemainder := ← flag "multi_edge_remainder" default.multiEdgeRemainder }

def ofJson? : Json → Option PlannerConfig
  | .object ms =>
    if ms.all fun m => m.1.any keys.contains then ofValues? (Json.Members.optional ms) else none
  | .array items =>
    if items.length ≤ keys.length then ofValues? fun key => some ((keys.zip items).lookup key)
    else none
  | _ => none

def parse? (source : String) : Option PlannerConfig := (Json.parse? source).bind ofJson?

end PlannerConfig
end Dataflow
