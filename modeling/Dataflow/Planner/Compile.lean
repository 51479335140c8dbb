import Dataflow.Definition.Build
import Dataflow.Planner.Plan

/-!
# Compiling a definition

The graph of a definition is planned. Either the definition is refused, or a
phase fails.
-/
namespace Dataflow

inductive CompileError where
  | definition (e : DefinitionError)
  | phase (f : PhaseFailure)
  deriving DecidableEq, Repr

namespace CompileError

def message : CompileError → String
  | definition e => e.message
  | phase f => f.message

/-- The error with whatever it carries, as shown to a user. -/
def render : CompileError → String
  | definition e => s!"error: {e.message}\n"
  | phase f => f.render

end CompileError

/-- Builds the graph of a definition and plans it. Mirrors `compile`. -/
def PlannerConfig.compile (c : PlannerConfig) (rules : TapRules) (d : Definition) :
    Except CompileError Plan := do
  let g ← d.toGraph.mapError .definition
  (c.plan rules g).mapError .phase

end Dataflow
