import Dataflow.Graph.Dump
import Dataflow.Planner.Error

/-!
# Phases

The planner runs in phases. A failure says which phase it happened in and keeps
the graph as it stood then.
-/
namespace Dataflow

/-- The phases in the order in which the planner runs them. -/
inductive Phase where
  | verify
  | splitInsertion
  | jobPartitioning
  | joinIsolation
  | sourceNormalization
  | passThrough
  | fieldResolution
  | boundaryCollapse
  | everyChains
  | stepPartitioning
  deriving DecidableEq, Repr

def Phase.label : Phase → String
  | verify => "verify"
  | splitInsertion => "split-insertion"
  | jobPartitioning => "job-partitioning"
  | joinIsolation => "join-compatibility"
  | sourceNormalization => "heterogeneous-sources"
  | passThrough => "pass-through"
  | fieldResolution => "field-resolution"
  | boundaryCollapse => "boundary-collapse"
  | everyChains => "every-chains"
  | stepPartitioning => "step-partitioning"

structure PhaseFailure where
  phase : Phase
  error : PlanError
  graph : Graph
  deriving DecidableEq, Repr

namespace PhaseFailure

def message (f : PhaseFailure) : String := s!"{f.phase.label} failed: {f.error.message}"

/-- The problems found by verification, if that is what failed. -/
def diagnostics? (f : PhaseFailure) : Option Diagnostics :=
  match f.error with
  | .verification ds => some ds
  | _ => none

/-- The error line, then what verification found or the graph as it stood. -/
def render (f : PhaseFailure) : String :=
  let details := match f.diagnostics? with
    | some ds => ds.render f.graph true
    | none => s!"\ngraph when {f.phase.label} failed:\n" ++ f.graph.dump ⟨false, true⟩
  s!"error: {f.message}\n" ++ details

end PhaseFailure

/-- Runs one phase; a failure keeps the graph as the phase left it. Mirrors `phase`. -/
def Phase.run {α : Type} (phase : Phase) (work : Graph → Outcome α) (g : Graph) :
    Except PhaseFailure (α × Graph) :=
  match work g with
  | (.ok a, g) => .ok (a, g)
  | (.error e, g) => .error ⟨phase, e, g⟩

end Dataflow
