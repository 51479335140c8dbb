import Dataflow.Planner.Error

/-!
# Field resolution

Fills in the fields of every scope, in topological order, so that the inputs of
an element are resolved before the element itself. A boundary takes the fields
that are written to it. A failure leaves resolved what came before it.
-/
namespace Dataflow
namespace Resolution

/-- The fields on the inputs of an element, in order. -/
def inputFields (g : Graph) (id : ElementId) : List Fields :=
  (g.incoming id).map fun s => ((g.scope? s).bind Scope.fields).getD .unknown

/-- Puts the output of an element on its tap, if it is a boundary, and on every
scope that leaves it. -/
def label (g : Graph) (id : ElementId) (output : Fields) : Graph :=
  let g := if g.hasKind Kind.isBoundary id then g.setTapFields id output else g
  (g.outgoing id).foldl (fun g s => g.setFields s output) g

/-- Resolves elements one after the other. -/
def resolveEach : List ElementId → Graph → Outcome Unit
  | [], g => (.ok (), g)
  | id :: rest, g =>
    match g.element? id with
    | none => resolveEach rest g
    | some e =>
      match outputFields e.name e.kind (inputFields g id) with
      | .error error => (.error (.fields error), g)
      | .ok output => resolveEach rest (label g id output)

end Resolution

/-- Resolves the fields of every scope. Mirrors `resolve_fields`. -/
def Graph.resolveFields (g : Graph) : Outcome Unit :=
  match g.topology.order with
  | .error e => (.error (.cycle e), g)
  | .ok order => Resolution.resolveEach order g.clearFields

end Dataflow
