import Dataflow.Diagnostics.Verify
import Dataflow.Planner.Config
import Dataflow.Planner.Phase
import Dataflow.Resolution.Resolve
import Dataflow.Rule.Fixpoint

/-!
# Reshaping a graph for planning

A graph is verified, then each rule is applied to its fixed point, then
fields are resolved. Boundaries are collapsed after that, since a boundary gives
way only to a tap that takes its fields; if one did, fields are resolved again.
-/
namespace Dataflow
namespace PlannerConfig

variable (c : PlannerConfig) (rules : TapRules)

/-- The rules that run before fields are resolved, in their order. -/
def shapingRules : List (Phase × Rule) :=
  [(.splitInsertion, .splitInsertion c.tempScheme),
    (.jobPartitioning, .jobPartitioning c.tempScheme),
    (.joinIsolation, .joinIsolation c.tempScheme)] ++
  (if c.normalizeHeterogeneousSources then
    [(.sourceNormalization, .sourceNormalization c.tempScheme rules)] else []) ++
  [(.passThrough, .passThrough)]

/-- Mirrors `fixpoint` of the planner: one rule applied to its fixed point, with a count of its
changes. -/
def settle (phase : Phase) (rule : Rule) (g : Graph) : Except PhaseFailure (Nat × Graph) :=
  phase.run (rule.fixpoint c.maxRuleIterations) g

/-- Applies rules to their fixed points, one after the other. -/
def settleAll : List (Phase × Rule) → Graph → Except PhaseFailure Graph
  | [], g => .ok g
  | (phase, rule) :: rest, g =>
    match c.settle phase rule g with
    | .error f => .error f
    | .ok (_, g) => settleAll rest g

/-- Resolves the fields of every scope. -/
def resolve (g : Graph) : Except PhaseFailure Graph :=
  (Phase.fieldResolution.run Graph.resolveFields g).map Prod.snd

/-- Collapses boundaries if asked to, and resolves fields again after a change. -/
def collapse (g : Graph) : Except PhaseFailure Graph :=
  if c.collapseAdjacentBoundaries then
    match c.settle .boundaryCollapse (.boundaryCollapse rules) g with
    | .error f => .error f
    | .ok (0, g) => .ok g
    | .ok (_, g) => resolve g
  else .ok g

/-- What verification has to say about a graph without errors. -/
def verify (g : Graph) : Except PhaseFailure Diagnostics :=
  match g.verify rules with
  | .error ref => .error ⟨.verify, .dead ref, g⟩
  | .ok ds => if ds.hasErrors then .error ⟨.verify, .verification ds, g⟩ else .ok ds

/-- Every every still follows its grouping. -/
def checkChains (g : Graph) : Except PhaseFailure Unit :=
  (Phase.everyChains.run (fun g => (g.checkEveryChains, g)) g).map Prod.fst

/-- The reshaped graph with its fields resolved, and the warnings of
verification. Mirrors `rewrite`. -/
def reshape (g : Graph) : Except PhaseFailure (Graph × Diagnostics) := do
  let warnings ← verify rules g
  let g ← c.settleAll (c.shapingRules rules) g
  let g ← resolve g
  let g ← c.collapse rules g
  checkChains g
  return (g, warnings)

end PlannerConfig
end Dataflow
