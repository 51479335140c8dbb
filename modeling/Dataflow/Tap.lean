import Dataflow.Fields

/-!
# Taps

A tap is an endpoint of a pipeline: a source, a sink, or an intermediate file
that the planner puts between two steps. Planning reads no data; of a tap it
looks at the scheme, the declared fields and whether it can read back what it
wrote. The platform's opinion on taps comes in as `TapRules`.
-/
namespace Dataflow

structure Tap where
  scheme : String
  identifier : String
  fields : Fields
  symmetrical : Bool
  deriving DecidableEq, Repr

/-- An intermediate tap; field resolution fills in its fields. -/
def Tap.temporary (scheme identifier : String) : Tap := ⟨scheme, identifier, .unknown, true⟩

/-- The platform's answers about taps. -/
structure TapRules where
  /-- Can the tap be read back exactly as it was written? -/
  symmetrical : Tap → Bool
  /-- Can one unit of work read both taps? -/
  compatible : Tap → Tap → Bool

/-- Symmetry as the tap declares it, compatibility by equal schemes. -/
def TapRules.byScheme : TapRules := ⟨Tap.symmetrical, fun a b => a.scheme == b.scheme⟩

end Dataflow
