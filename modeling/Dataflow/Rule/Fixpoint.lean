import Dataflow.Rule.SplitInsertion
import Dataflow.Rule.JobPartitioning
import Dataflow.Rule.JoinIsolation
import Dataflow.Rule.SourceNormalization
import Dataflow.Rule.PassThrough
import Dataflow.Rule.BoundaryCollapse

/-!
# Reaching a fixed point

A rule makes one change at a time and says whether the graph changed.
`Rule.fixpoint` applies it until it reports no change, within a budget; a rule
that needs more is said not to terminate.
-/
namespace Dataflow

/-- Mirrors `RewriteRule`. -/
inductive Rule where
  | splitInsertion (scheme : String)
  | jobPartitioning (scheme : String)
  | joinIsolation (scheme : String)
  | sourceNormalization (scheme : String) (rules : TapRules)
  | passThrough
  | boundaryCollapse (rules : TapRules)

namespace Rule

def name : Rule → String
  | splitInsertion _ => "split-insertion"
  | jobPartitioning _ => "job-partitioning"
  | joinIsolation _ => "join-compatibility"
  | sourceNormalization _ _ => "heterogeneous-sources"
  | passThrough => "pass-through"
  | boundaryCollapse _ => "boundary-collapse"

/-- Makes one change and says whether there was one to make. -/
def apply : Rule → Graph → Outcome Bool
  | splitInsertion scheme => SplitInsertion.apply scheme
  | jobPartitioning scheme => JobPartitioning.apply scheme
  | joinIsolation scheme => JoinIsolation.apply scheme
  | sourceNormalization scheme rules => SourceNormalization.apply scheme rules
  | passThrough => PassThrough.apply
  | boundaryCollapse rules => BoundaryCollapse.apply rules

/-- Applies the rule up to `budget` times; `changes` counts those before. -/
def iterate (r : Rule) (limit : Nat) : (budget changes : Nat) → Graph → Outcome Nat
  | 0, _, g => (.error (.nonTermination r.name limit), g)
  | budget + 1, changes, g =>
    match r.apply g with
    | (.error e, g) => (.error e, g)
    | (.ok false, g) => (.ok changes, g)
    | (.ok true, g) => iterate r limit budget (changes + 1) g

/-- Mirrors `apply_to_fixpoint`: applies the rule until it reports no change, and counts the
changes. -/
def fixpoint (r : Rule) (limit : Nat) (g : Graph) : Outcome Nat := r.iterate limit limit 0 g

end Rule
end Dataflow
