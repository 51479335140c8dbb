import Dataflow.Element

/-!
# Pipeline definitions

A definition is a flat list of named stages, each naming the stages that it
reads from. Stages may be listed in any order.
-/
namespace Dataflow

structure TapDef where
  scheme : String
  identifier : String
  /-- `none` if the tap does not declare its fields. -/
  fields : Option (List String)
  symmetrical : Bool
  deriving DecidableEq, Repr

structure OperationDef where
  operation : String
  /-- `none` stands for the usual role of the stage. -/
  role : Option Role
  /-- `none` selects every incoming field. -/
  arguments : Option (List String)
  declared : List String
  output : Output
  deriving DecidableEq, Repr

structure JoinDef where
  keys : List String
  joiner : Joiner
  declared : Option (List String)
  deriving DecidableEq, Repr

inductive StageKind where
  | source (tap : TapDef)
  | sink (tap : TapDef)
  | pipe
  | each (op : OperationDef)
  | every (op : OperationDef)
  | merge
  | groupBy (keys : List String)
  | coGroup (join : JoinDef)
  | hashJoin (join : JoinDef)
  deriving DecidableEq, Repr

structure StageDef where
  name : String
  /-- The names of the stages that it reads from, by input position. -/
  inputs : List String
  kind : StageKind
  deriving DecidableEq, Repr

/-- Mirrors `PipelineDef`. -/
structure Definition where
  name : String
  stages : List StageDef
  deriving DecidableEq, Repr

end Dataflow
