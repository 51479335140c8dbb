import Dataflow.Definition.Basic
import Dataflow.Definition.Error
import Dataflow.Graph.Edit

/-!
# From a definition to a graph

Every stage becomes an element, in the order of the definition, and then every
input a scope. A definition is refused at the first stage that is not well
formed, and only then for an input that names no stage.
-/
namespace Dataflow

namespace StageDef

variable (s : StageDef)

/-- Sources have no inputs, sinks one, and every other stage at least one. Mirrors `check_arity`. -/
def checkArity : Except DefinitionError Unit :=
  match s.kind, s.inputs.length with
  | .source _, 0 => .ok ()
  | .source _, _ => .error (.sourceWithInputs s.name)
  | .sink _, 1 => .ok ()
  | .sink _, count => .error (.sinkArity s.name count)
  | _, 0 => .error (.missingInputs s.name)
  | _, _ => .ok ()

/-- The names as a field set; they must not repeat. -/
def fieldsOf (names : List String) : Except DefinitionError Fields :=
  (Fields.ofNames? names).mapError (.fields s.name)

def optionalFieldsOf : Option (List String) → Except DefinitionError (Option Fields)
  | none => .ok none
  | some names => (s.fieldsOf names).map some

def tapOf (d : TapDef) : Except DefinitionError Tap := do
  let fields ← s.optionalFieldsOf d.fields
  return ⟨d.scheme, d.identifier, fields.getD .unknown, d.symmetrical⟩

/-- An operation whose role is one of `allowed`; the first of them is the usual one. -/
def operationOf (d : OperationDef) (usual : Role) (allowed : List Role) :
    Except DefinitionError Operation := do
  let role := d.role.getD usual
  if role ∉ allowed then throw (.invalidRole s.name role)
  let declared ← s.fieldsOf d.declared
  let arguments ← s.optionalFieldsOf d.arguments
  return ⟨d.operation, role, arguments, declared, d.output⟩

def joinOf (d : JoinDef) : Except DefinitionError Join := do
  let keys ← s.fieldsOf d.keys
  let declared ← s.optionalFieldsOf d.declared
  return ⟨keys, d.joiner, declared⟩

/-- Mirrors `element_kind`. -/
def elementKind : Except DefinitionError Kind :=
  match s.kind with
  | .source d => .source <$> s.tapOf d
  | .sink d => .sink <$> s.tapOf d
  | .pipe => .ok .pipe
  | .each d => .each <$> s.operationOf d .function [.function, .filter, .assertion]
  | .every d => .every <$> s.operationOf d .aggregator [.aggregator, .buffer, .assertion]
  | .merge => .ok .merge
  | .groupBy keys => (fun keys => .group .groupBy (.on keys)) <$> s.fieldsOf keys
  | .coGroup d => .group .coGroup <$> s.joinOf d
  | .hashJoin d => .hashJoin <$> s.joinOf d

end StageDef

/-- A scope to be added. -/
structure Wire where
  origin : ElementId
  target : ElementId
  ordinal : Nat
  deriving DecidableEq, Repr

namespace Definition

variable (d : Definition)

/-- The elements of the stages; `taken` are the names of the stages before. -/
def elementsOf (taken : List String) : List StageDef → Except DefinitionError (List Element)
  | [] => .ok []
  | s :: rest => do
    if s.name ∈ taken then throw (.duplicateStage s.name)
    s.checkArity
    let kind ← s.elementKind
    return ⟨s.name, kind⟩ :: (← elementsOf (s.name :: taken) rest)

/-- The place where the first stage stands, behind the two extents. -/
def firstId : ElementId := 2

/-- The element of the stage of that name. -/
def idOf? (name : String) : Option ElementId :=
  (d.stages.findIdx? fun s => s.name == name).map (firstId + ·)

def inputWire (stage : String) (id : ElementId) (input : String × Nat) :
    Except DefinitionError Wire :=
  match d.idOf? input.1 with
  | some origin => .ok ⟨origin, id, input.2⟩
  | none => .error (.unknownInput stage input.1)

/-- The scope that ties a source or a sink to its extent. -/
def extentWire (id : ElementId) : StageKind → List Wire
  | .source _ => [⟨Graph.head, id, 0⟩]
  | .sink _ => [⟨id, Graph.tail, 0⟩]
  | _ => []

/-- The scopes of the stage at `id`. -/
def wiresOf (id : ElementId) (s : StageDef) : Except DefinitionError (List Wire) := do
  let inputs ← s.inputs.zipIdx.mapM (d.inputWire s.name id)
  return extentWire id s.kind ++ inputs

/-- Every scope of the graph, in the order of the stages. -/
def wires : Except DefinitionError (List Wire) := do
  let perStage ← d.stages.zipIdx.mapM fun (s, i) => d.wiresOf (firstId + i) s
  return perStage.flatten

/-- Mirrors `from_definition`. -/
def toGraph : Except DefinitionError Graph := do
  if d.stages.isEmpty then throw (.empty d.name)
  let elements ← elementsOf [] d.stages
  let wires ← d.wires
  let g := elements.foldl (fun g e => (g.addElement e).2) (Graph.empty d.name)
  return wires.foldl (fun g w => (g.addScope w.origin w.target w.ordinal).2) g

end Definition
end Dataflow
