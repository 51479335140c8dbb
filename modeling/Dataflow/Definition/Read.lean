import Dataflow.Definition.Basic
import Dataflow.Definition.Error
import Dataflow.Json.Member
import Dataflow.Json.Read

/-!
# Reading definitions

A definition is written in JSON, as an object with `name` and `stages` or as an
array of the two. Keys that nothing looks for are ignored. What stands beside
`name` and `stages` is skipped unread; the stages themselves must be sound to
the last value.
-/
namespace Dataflow

open Json (Members)

def Role.ofName? : String → Option Role
  | "function" => some .function
  | "filter" => some .filter
  | "aggregator" => some .aggregator
  | "buffer" => some .buffer
  | "assertion" => some .assertion
  | _ => none

def Output.ofName? : String → Option Output
  | "results" => some .results
  | "all" => some .all
  | "swap" => some .swap
  | _ => none

def Joiner.ofName? : String → Option Joiner
  | "inner" => some .inner
  | "outer" => some .outer
  | "left" => some .left
  | "right" => some .right
  | _ => none

def Joiner.ofJson? : Json → Option Joiner
  | .object [(some "custom", v)] => v.string?.map custom
  | v => v.choice?.bind ofName?

def TapDef.ofMembers? (ms : Members) : Option TapDef := do
  return {
    scheme := ← (← ms.required "scheme").string?
    identifier := ← (← ms.required "identifier").string?
    fields := ← Json.nullable Json.strings? (← ms.optional "fields")
    symmetrical := ← Json.orDefault true Json.bool? (← ms.optional "symmetrical") }

def OperationDef.ofMembers? (ms : Members) : Option OperationDef := do
  return {
    operation := ← (← ms.required "operation").string?
    role := ← Json.nullable (·.choice?.bind Role.ofName?) (← ms.optional "role")
    arguments := ← Json.nullable Json.strings? (← ms.optional "arguments")
    declared := ← Json.orDefault [] Json.strings? (← ms.optional "declared")
    output := ← Json.orDefault .results (·.choice?.bind Output.ofName?) (← ms.optional "output") }

def JoinDef.ofMembers? (ms : Members) : Option JoinDef := do
  return {
    keys := ← (← ms.required "keys").strings?
    joiner := ← Json.orDefault .inner Joiner.ofJson? (← ms.optional "joiner")
    declared := ← Json.nullable Json.strings? (← ms.optional "declared") }

namespace StageKind

/-- The stage types; a type may also be given by its place in this list. -/
def typeNames : List String :=
  ["source", "sink", "pipe", "each", "every", "merge", "group_by", "co_group", "hash_join"]

def typeName? : Json → Option String
  | .string text => text
  | v => (v.natBelow? typeNames.length).bind (typeNames[·]?)

/-- The kind of a stage of the given type, from the keys that belong to it. -/
def ofMembers? (ms : Members) : String → Option StageKind
  | "source" => (TapDef.ofMembers? ms).map source
  | "sink" => (TapDef.ofMembers? ms).map sink
  | "pipe" => some pipe
  | "each" => (OperationDef.ofMembers? ms).map each
  | "every" => (OperationDef.ofMembers? ms).map every
  | "merge" => some merge
  | "group_by" => do return groupBy (← (← ms.required "keys").strings?)
  | "co_group" => (JoinDef.ofMembers? ms).map coGroup
  | "hash_join" => (JoinDef.ofMembers? ms).map hashJoin
  | _ => none

end StageKind

namespace StageDef

def ofMembers? (ms : Members) : Option StageDef := do
  return {
    name := ← (← ms.required "name").string?
    inputs := ← Json.orDefault [] Json.strings? (← ms.optional "inputs")
    kind := ← StageKind.ofMembers? ms (← StageKind.typeName? (← ms.required "type")) }

def ofJson? : Json → Option StageDef
  | .object ms => ofMembers? ms
  | _ => none

end StageDef

namespace Definition

/-- How deep values may nest in the stages of a definition. -/
def stagesDepth : Nat := 126

def ofParts? (name stages : Json) : Option Definition := do
  guard (stages.isSound stagesDepth)
  match stages with
  | .array items => return { name := ← name.string?, stages := ← items.mapM StageDef.ofJson? }
  | _ => none

def ofJson? : Json → Option Definition
  | .array [name, stages] => ofParts? name stages
  | .object ms => do
    guard (ms.all (·.1.isSome))
    ofParts? (← Members.required ms "name") (← Members.required ms "stages")
  | _ => none

/-- The definition that a text holds. Mirrors `from_json` of `PipelineDef`. -/
def parse (source : String) : Except DefinitionError Definition :=
  match (Json.parse? source).bind ofJson? with
  | some d => .ok d
  | none => .error .malformed

end Definition
end Dataflow
