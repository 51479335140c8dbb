/-!
# Planner configuration
-/
namespace Dataflow

structure PlannerConfig where
  /-- How often each rule may be applied. -/
  maxRuleIterations : Nat
  /-- Cut incompatible taps away from groupings that they share. -/
  normalizeHeterogeneousSources : Bool
  /-- Replace a boundary by the tap that directly follows it. -/
  collapseAdjacentBoundaries : Bool
  /-- The scheme of the boundaries that the planner inserts. -/
  tempScheme : String
  /-- Keep parallel links with what no step claims. -/
  multiEdgeRemainder : Bool
  deriving DecidableEq, Repr

def PlannerConfig.default : PlannerConfig := ⟨1000, true, true, "sequence", false⟩

instance : Inhabited PlannerConfig := ⟨.default⟩

end Dataflow
