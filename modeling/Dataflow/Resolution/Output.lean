import Dataflow.Element

/-!
# The fields an element passes on

`outputFields` says which fields an element puts on its outgoing scopes, given
those on its inputs in order, or why it cannot. Unknown fields pass every check
that would need to know them.
-/
namespace Dataflow

inductive FieldError where
  | missingArguments (element : String) (missing : List String)
  | missingKeys (element : String) (missing : List String)
  | duplicateOutput (element : String) (duplicates : DuplicateFields)
  | inputMismatch (element : String) (input : Nat) (expected found : Fields)
  | declaredWidth (element : String) (declared found : Nat)
  | sinkFields (element : String) (missing : List String)
  deriving DecidableEq, Repr

def FieldError.message : FieldError → String
  | missingArguments element missing =>
    s!"`{element}` selects {(Fields.known missing).render} missing from its input"
  | missingKeys element missing =>
    s!"`{element}` groups on {(Fields.known missing).render} missing from its input"
  | duplicateOutput element duplicates => s!"`{element}` produces {duplicates.message}"
  | inputMismatch element input expected found =>
    s!"`{element}` receives {found.render} on input {input}, expected {expected.render}"
  | declaredWidth element declared found =>
    s!"`{element}` declares {declared} fields but its inputs carry {found}"
  | sinkFields element missing =>
    s!"sink `{element}` writes {(Fields.known missing).render} missing from its input"

namespace Resolution

/-- The selector names nothing that the input lacks. -/
def require (error : List String → FieldError) (input selector : Fields) :
    Except FieldError Unit :=
  match input.missing selector with
  | [] => .ok ()
  | missing => .error (error missing)

/-- The one layout of the inputs whose fields are known; the first one sets it.
`position` counts the inputs before the list. -/
def agreedFrom (name : String) (position : Nat) (expected : Fields) :
    List Fields → Except FieldError Fields
  | [] => .ok expected
  | found :: rest =>
    if !found.isKnown then agreedFrom name (position + 1) expected rest
    else if !expected.isKnown then agreedFrom name (position + 1) found rest
    else if expected.sameLayout found then agreedFrom name (position + 1) expected rest
    else .error (.inputMismatch name position expected found)

/-- Inputs that must share one layout. Mirrors `agreed`. -/
def agreed (name : String) (inputs : List Fields) : Except FieldError Fields :=
  agreedFrom name 0 .unknown inputs

/-- Every input carries the keys. Mirrors `check_keys`. -/
def checkKeys (name : String) (keys : Fields) : List Fields → Except FieldError Unit
  | [] => .ok ()
  | input :: rest => do
    require (.missingKeys name) input keys
    checkKeys name keys rest

/-- The common width of the inputs together, if every one is known. -/
def totalWidth : List Fields → Option Nat
  | [] => some 0
  | input :: rest =>
    match input.width?, totalWidth rest with
    | some n, some m => some (n + m)
    | _, _ => none

/-- One input after the other. -/
def concatenated : Fields → List Fields → Except DuplicateFields Fields
  | joined, [] => .ok joined
  | joined, input :: rest =>
    match joined.append? input with
    | .error e => .error e
    | .ok joined => concatenated joined rest

/-- A join concatenates its inputs, unless it declares the result or leaves it to
a custom joiner. Mirrors `join_output`. -/
def joined (name : String) (j : Join) (inputs : List Fields) : Except FieldError Fields := do
  checkKeys name j.keys inputs
  if j.defers then return .unknown
  match j.declared with
  | some declared =>
    match totalWidth inputs, declared.width? with
    | some found, some width =>
      if found = width then return declared else throw (.declaredWidth name width found)
    | _, _ => return declared
  | none => (concatenated .none inputs).mapError (.duplicateOutput name)

/-- Mirrors `operation_output`: what an operation passes on. Filters and assertions pass their
input. -/
def operated (name : String) (op : Operation) (input : Fields) : Except FieldError Fields := do
  if let some arguments := op.arguments then
    require (.missingArguments name) input arguments
  if op.role = .filter ∨ op.role = .assertion then return input
  match op.output with
  | .results => return op.declared
  | .all => (input.append? op.declared).mapError (.duplicateOutput name)
  | .swap =>
    let rest := op.arguments.elim .none input.subtract
    (rest.append? op.declared).mapError (.duplicateOutput name)

/-- A sink passes on what it declares, or else what it was given. -/
def written (name : String) (tap : Tap) (input : Fields) : Except FieldError Fields := do
  require (.sinkFields name) input tap.fields
  return if tap.fields.isKnown then tap.fields else input

/-- The fields that an element puts on its outgoing scopes. Mirrors `output_fields`. -/
def outputFields (name : String) (kind : Kind) (inputs : List Fields) :
    Except FieldError Fields :=
  let first := inputs.headD .unknown
  match kind with
  | .extent _ => .ok .unknown
  | .source tap => .ok tap.fields
  | .sink tap => written name tap first
  | .boundary _ | .pipe => .ok first
  | .each op | .every op => operated name op first
  | .merge => agreed name inputs
  | .group .groupBy j => do
    checkKeys name j.keys inputs
    agreed name inputs
  | .group .coGroup j | .hashJoin j => joined name j inputs

end Resolution
end Dataflow
