import Dataflow.Planner.Reshape
import Dataflow.Step.Build

/-!
# Planning

A plan is a reshaped graph together with its steps.
-/
namespace Dataflow

structure Plan where
  /-- The graph after every rule, fields resolved. -/
  graph : Graph
  steps : StepGraph
  /-- What verification warned about. -/
  warnings : Diagnostics
  deriving DecidableEq, Repr

/-- Cuts a reshaped graph into steps. -/
def PlannerConfig.partition (c : PlannerConfig) (g : Graph) : Except PhaseFailure StepGraph :=
  (Phase.stepPartitioning.run (fun g => (StepGraph.build g c.multiEdgeRemainder, g)) g).map Prod.fst

/-- Reshapes a graph and cuts it into steps. Mirrors `plan`. -/
def PlannerConfig.plan (c : PlannerConfig) (rules : TapRules) (g : Graph) :
    Except PhaseFailure Plan := do
  let (graph, warnings) ← c.reshape rules g
  let steps ← c.partition graph
  return ⟨graph, steps, warnings⟩

end Dataflow
