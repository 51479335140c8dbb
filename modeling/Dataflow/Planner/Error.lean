import Dataflow.Cursor.Basic
import Dataflow.Diagnostics.Basic
import Dataflow.Resolution.Output
import Dataflow.Topology.Order

/-!
# What can go wrong while planning
-/
namespace Dataflow

/-- Mirrors `PlanErrorKind`. -/
inductive PlanError where
  | verification (diagnostics : Diagnostics)
  | cycle (e : CycleError)
  | nonTermination (rule : String) (limit : Nat)
  | fields (e : FieldError)
  | motif (e : MotifError)
  | cursor (e : CursorError)
  | detachedEvery (every fedBy : String)
  | incompatibleFeeds (grouping : String)
  | unplaced (element : String)
  | unschedulable (step : String) (groupings : Nat)
  /-- A scope leads to or from an element that was removed. -/
  | dead (ref : DeadRef)
  deriving DecidableEq, Repr

def PlanError.message : PlanError → String
  | verification ds => s!"pipeline failed verification with {ds.errorCount} error(s)"
  | cycle e => e.message
  | nonTermination rule limit =>
    s!"rule `{rule}` did not reach a fixed point within {limit} iterations"
  | fields e => e.message
  | motif e => s!"invalid motif: {e.message}"
  | cursor e => e.message
  | detachedEvery every fedBy => s!"`{every}` is fed by `{fedBy}` instead of a grouping"
  | incompatibleFeeds grouping =>
    s!"taps feeding `{grouping}` stay incompatible after normalization"
  | unplaced element => s!"`{element}` is not part of any step"
  | unschedulable step groupings =>
    s!"step `{step}` holds {groupings} groupings, at most one can run per step"
  | dead ref => ref.message?.getD ""

/-- The result of an operation on a graph, with the graph as it then stands. -/
abbrev Outcome (α : Type) := Except PlanError α × Graph

end Dataflow
