import Dataflow.Graph.Basic

/-!
# The text form of a graph

One line per live element, in id order: its id, its label and name, the scheme
and identifier of its tap, and where its scopes lead.

```text
e2: source docs (text:in/docs) → e3
e4: group-by by-word → e5, e6#1
e1: tail → ∅
```

`#n` marks a scope that arrives at input position `n > 0`.
-/
namespace Dataflow
namespace Graph

structure DumpOptions where
  /-- Start with a line that names the pipeline. -/
  header : Bool
  /-- Follow each target with the fields of its scope. -/
  fields : Bool
  deriving DecidableEq, Repr

/-- An element without its id and scopes. -/
def describe (e : Element) : String :=
  if e.kind.isExtent then e.kind.label
  else match e.kind.tap? with
    | some tap => s!"{e.kind.label} {e.name} ({tap.scheme}:{tap.identifier})"
    | none => s!"{e.kind.label} {e.name}"

/-- The scopes that leave `id`, by target, ordinal and id. -/
def scopesByTarget (g : Graph) (id : ElementId) : List (ScopeId × Scope) :=
  ((g.outgoing id).filterMap fun s => (g.scope? s).map (s, ·)).mergeSort fun (i, a) (j, b) =>
    decide (List.le [a.target, a.ordinal, i] [b.target, b.ordinal, j])

def describeScope (showFields : Bool) (s : Scope) : String :=
  let position := if s.ordinal > 0 then s!"#{s.ordinal}" else ""
  let fields := if showFields then " " ++ s.fields.elim "[-]" Fields.render else ""
  s!"e{s.target}{position}{fields}"

def describeScopes (g : Graph) (showFields : Bool) (id : ElementId) : String :=
  match g.scopesByTarget id with
  | [] => "∅"
  | scopes => ", ".intercalate (scopes.map fun (_, s) => describeScope showFields s)

/-- Mirrors `dump`. -/
def dump (g : Graph) (options : DumpOptions) : String :=
  let header := if options.header then [s!"pipeline {g.name}\n"] else []
  let lines := g.elements.toList.filterMap fun id => (g.element? id).map fun e =>
    s!"e{id}: {describe e} → {g.describeScopes options.fields id}\n"
  "".intercalate (header ++ lines)

end Graph
end Dataflow
