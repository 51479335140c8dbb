import Dataflow.Element

/-!
# Why a definition is refused
-/
namespace Dataflow

inductive DefinitionError where
  /-- The text is no definition at all. -/
  | malformed
  | empty (pipeline : String)
  | duplicateStage (stage : String)
  | unknownInput (stage input : String)
  | sourceWithInputs (stage : String)
  | missingInputs (stage : String)
  | sinkArity (stage : String) (count : Nat)
  | invalidRole (stage : String) (role : Role)
  | fields (stage : String) (e : DuplicateFields)
  deriving DecidableEq, Repr

def Role.title : Role → String
  | function => "Function"
  | filter => "Filter"
  | aggregator => "Aggregator"
  | buffer => "Buffer"
  | assertion => "Assertion"

def DefinitionError.message : DefinitionError → String
  | malformed => "malformed pipeline definition: the text does not describe a pipeline"
  | empty pipeline => s!"pipeline `{pipeline}` has no stages"
  | duplicateStage stage => s!"stage `{stage}` is defined more than once"
  | unknownInput stage input => s!"stage `{stage}` reads from unknown stage `{input}`"
  | sourceWithInputs stage => s!"source `{stage}` cannot read from other stages"
  | missingInputs stage => s!"stage `{stage}` has no inputs"
  | sinkArity stage count => s!"sink `{stage}` must have exactly one input, found {count}"
  | invalidRole stage role => s!"stage `{stage}` cannot use role `{role.title}`"
  | fields stage e => s!"stage `{stage}`: {e.message}"

end Dataflow
