import Dataflow.Graph.Basic

/-!
# Diagnostics

Verification reports problems of a pipeline at the elements they concern. The
kinds are listed by priority: a cycle or a disconnected element makes the later
checks meaningless, and the placement of operators and the contracts of taps
assume a sound shape. `Diagnostics.sorted` lists messages in that order, then by
element.
-/
namespace Dataflow

inductive Severity where
  | error
  | warning
  deriving DecidableEq, Repr

def Severity.label : Severity → String
  | error => "error"
  | warning => "warning"

inductive DiagnosticKind where
  | cycle
  | notOnPath
  | everyWithoutGrouping
  | bufferNotAlone
  | joinArity
  | splitAfterBoundary
  | asymmetricReadBack
  | deferredJoinFields
  deriving DecidableEq, Repr

namespace DiagnosticKind

/-- The priority; lower comes first. -/
def rank : DiagnosticKind → Nat
  | cycle => 0
  | notOnPath => 1
  | everyWithoutGrouping => 2
  | bufferNotAlone => 3
  | joinArity => 4
  | splitAfterBoundary => 5
  | asymmetricReadBack => 6
  | deferredJoinFields => 7

def severity : DiagnosticKind → Severity
  | deferredJoinFields => .warning
  | _ => .error

/-- Mirrors `default_hint`. -/
def hint? : DiagnosticKind → Option String
  | everyWithoutGrouping => some "add a group_by or co_group in front of it"
  | bufferNotAlone => some "a buffer must be the only every after its grouping"
  | splitAfterBoundary => some "move the split upstream of the boundary"
  | deferredJoinFields =>
    some "declare the joiner's output fields to have them checked downstream"
  | _ => none

/-- The message without a detail. Mirrors `fallback_message`. -/
def plain : DiagnosticKind → String
  | cycle => "pipeline contains a cycle"
  | notOnPath => "element does not lie on a path from a source to a sink"
  | everyWithoutGrouping => "every must directly follow a grouping or another every"
  | bufferNotAlone => "buffer shares its grouping with another every"
  | joinArity => "join needs at least two inputs"
  | splitAfterBoundary => "split directly after a boundary cannot be scheduled"
  | asymmetricReadBack => "sink is read back but cannot return what it wrote"
  | deferredJoinFields => "join output fields are left to a custom joiner"

/-- The message about a detail. Mirrors `custom_message`. -/
def detailed (detail : String) : DiagnosticKind → String
  | joinArity => s!"join needs at least two inputs, found {detail}"
  | deferredJoinFields => s!"join output fields are left to joiner `{detail}`"
  | k => s!"{k.plain}: {detail}"

def message (k : DiagnosticKind) (detail : Option String) : String :=
  detail.elim k.plain fun d => k.detailed d

end DiagnosticKind

/-- A note on another element. -/
structure Related where
  element : ElementId
  message : String
  deriving DecidableEq, Repr

structure Diagnostic where
  kind : DiagnosticKind
  element : ElementId
  message : String
  related : List Related
  hints : List String
  deriving DecidableEq, Repr

/-- A diagnostic with the message and the hint of its kind. -/
def Diagnostic.report (kind : DiagnosticKind) (element : ElementId)
    (detail : Option String) (related : List Related) : Diagnostic :=
  ⟨kind, element, kind.message detail, related, kind.hint?.toList⟩

def Diagnostic.severity (d : Diagnostic) : Severity := d.kind.severity

structure Diagnostics where
  /-- In the order in which they were reported. -/
  messages : List Diagnostic
  deriving DecidableEq, Repr

namespace Diagnostics

def empty : Diagnostics := ⟨[]⟩

instance : Inhabited Diagnostics := ⟨empty⟩

def append (a b : Diagnostics) : Diagnostics := ⟨a.messages ++ b.messages⟩

variable (ds : Diagnostics)

def isEmpty : Bool := ds.messages.isEmpty

def size : Nat := ds.messages.length

def count (s : Severity) : Nat := ds.messages.countP fun d => d.severity == s

def errorCount : Nat := ds.count .error

def warningCount : Nat := ds.count .warning

def hasErrors : Bool := ds.messages.any fun d => d.severity == .error

def hasWarnings : Bool := ds.messages.any fun d => d.severity == .warning

/-- By priority, then by element; otherwise in the order of the reports. -/
def sorted : List Diagnostic :=
  ds.messages.mergeSort fun a b =>
    decide (a.kind.rank < b.kind.rank ∨ (a.kind.rank = b.kind.rank ∧ a.element ≤ b.element))

/-- How an element is called: by its name while it is live. -/
def call (g : Graph) (id : ElementId) : String :=
  (g.element? id).elim s!"e{id}" fun e => s!"`{e.name}`"

def renderOne (g : Graph) (showHints : Bool) (d : Diagnostic) : String :=
  let notes := d.related.map fun r => s!"  note: {call g r.element}: {r.message}\n"
  let hints := if showHints then d.hints.map fun h => s!"  hint: {h}\n" else []
  let first := s!"{d.severity.label}: {call g d.element}: {d.message}\n"
  "".intercalate (first :: notes ++ hints)

/-- The messages as text, each with its notes and, on request, its hints. Mirrors `render`. -/
def render (g : Graph) (showHints : Bool) : String :=
  "".intercalate (ds.sorted.map (renderOne g showHints))

end Diagnostics
end Dataflow
