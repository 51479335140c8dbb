import Dataflow.Graph.Basic

/-!
# Editing an element graph

Additions give out the next id; removals leave holes; the rewirings move scopes
from one end to another without changing their ids. A scope that is moved loses
its resolved fields.

The edits here are total: an id that the graph does not hold is left alone. The
same edits with such ids refused are in `Dataflow.Graph.Checked`.
-/
namespace Dataflow
namespace Graph

def modifyNode (g : Graph) (id : ElementId) (f : Node → Node) : Graph :=
  { g with nodes := g.nodes.modify id f }

def setScope (g : Graph) (id : ScopeId) (s : Option Scope) : Graph :=
  { g with scopes := g.scopes.set id s }

/-! ## Additions -/

/-- Mirrors `add_element`. -/
def addElement (g : Graph) (e : Element) : ElementId × Graph :=
  (g.nodes.length, { g with nodes := g.nodes ++ [(⟨some e, [], []⟩ : Node)] })

/-- Mirrors `add_scope`. -/
def addScope (g : Graph) (origin target : ElementId) (ordinal : Nat) : ScopeId × Graph :=
  let id := g.scopes.length
  let g := { g with scopes := g.scopes ++ [some (⟨origin, target, ordinal, none⟩ : Scope)] }
  let g := g.modifyNode origin fun n => { n with outgoing := n.outgoing ++ [id] }
  let g := g.modifyNode target fun n => { n with incoming := n.incoming ++ [id] }
  (id, g)

/-- The position after the last input of `id`. -/
def nextOrdinal (g : Graph) (id : ElementId) : Nat :=
  ((g.incoming id).getLast?).elim 0 fun s => g.ordinalOf s + 1

/-- Makes `origin` the next input of `target`. Mirrors `connect`. -/
def connect (g : Graph) (origin target : ElementId) : ScopeId × Graph :=
  g.addScope origin target (g.nextOrdinal target)

/-- A source, reading from `head`. Mirrors `add_source`. -/
def addSource (g : Graph) (name : String) (tap : Tap) : ElementId × Graph :=
  let (id, g) := g.addElement ⟨name, .source tap⟩
  (id, (g.addScope head id 0).2)

/-- A sink, fed by `input` and writing into `tail`. Mirrors `add_sink`. -/
def addSink (g : Graph) (name : String) (tap : Tap) (input : ElementId) : ElementId × Graph :=
  let (id, g) := g.addElement ⟨name, .sink tap⟩
  let (_, g) := g.addScope input id 0
  (id, (g.addScope id tail 0).2)

/-- Makes each of `inputs` an input of `id`, at consecutive positions. -/
def addInputs (g : Graph) (id : ElementId) (inputs : List ElementId) : Graph :=
  inputs.zipIdx.foldl (fun g (input, ordinal) => (g.addScope input id ordinal).2) g

/-- An element fed by `inputs` in their order. Mirrors `add_stage`. -/
def addStage (g : Graph) (name : String) (kind : Kind) (inputs : List ElementId) :
    ElementId × Graph :=
  let (id, g) := g.addElement ⟨name, kind⟩
  (id, g.addInputs id inputs)

/-! ## Removals -/

/-- Mirrors `remove_scope`. -/
def removeScope (g : Graph) (id : ScopeId) : Option Scope × Graph :=
  match g.scope? id with
  | none => (none, g)
  | some s =>
    let g := g.setScope id none
    let g := g.modifyNode s.origin fun n => { n with outgoing := n.outgoing.filter (· != id) }
    let g := g.modifyNode s.target fun n => { n with incoming := n.incoming.filter (· != id) }
    (some s, g)

def removeScopes (g : Graph) (ids : List ScopeId) : Graph :=
  ids.foldl (fun g s => (g.removeScope s).2) g

/-- Removes an element and every scope that touches it. Mirrors `remove_element`. -/
def removeElement (g : Graph) (id : ElementId) : Option Element × Graph :=
  match g.element? id with
  | none => (none, g)
  | some e =>
    let g := g.removeScopes (g.outgoing id ++ g.arrivals id)
    (some e, g.modifyNode id fun n => { n with element := none })

/-! ## Rewirings -/

/-- Lets a scope end at `target`, at the given position. Mirrors `retarget`. -/
def retarget (g : Graph) (id : ScopeId) (target : ElementId) (ordinal : Nat) : Graph :=
  match g.scope? id with
  | none => g
  | some s =>
    let g := g.modifyNode s.target fun n => { n with incoming := n.incoming.filter (· != id) }
    let g := g.modifyNode target fun n => { n with incoming := n.incoming ++ [id] }
    g.setScope id (some { s with target, ordinal, fields := none })

/-- Lets a scope start at `origin`. Mirrors `reorigin`. -/
def reorigin (g : Graph) (id : ScopeId) (origin : ElementId) : Graph :=
  match g.scope? id with
  | none => g
  | some s =>
    let g := g.modifyNode s.origin fun n => { n with outgoing := n.outgoing.filter (· != id) }
    let g := g.modifyNode origin fun n => { n with outgoing := n.outgoing ++ [id] }
    g.setScope id (some { s with origin, fields := none })

/-- Lets every scope that leaves `id` start at `origin` instead. -/
def moveOutgoing (g : Graph) (id origin : ElementId) : Graph :=
  (g.outgoing id).foldl (fun g s => g.reorigin s origin) g

/-- Puts `e` directly behind `id`: every scope that left `id` now leaves the new
element, which `id` alone feeds. Mirrors `insert_after`. -/
def insertAfter (g : Graph) (id : ElementId) (e : Element) : ElementId × Graph :=
  let (inserted, g) := g.addElement e
  let g := g.moveOutgoing id inserted
  (inserted, (g.addScope id inserted 0).2)

/-- Splits a scope with `e`: the scope ends at the new element, and a fresh scope
goes on to the old target at the old position. Mirrors `insert_on_scope`. -/
def insertOnScope (g : Graph) (id : ScopeId) (e : Element) : ElementId × Graph :=
  let (inserted, after) := g.addElement e
  match g.scope? id with
  | none => (inserted, after)
  | some s =>
    let after := after.retarget id inserted 0
    (inserted, (after.addScope inserted s.target s.ordinal).2)

/-- Moves one input of a replaced element to `replacement`, or drops it where it
would become a self loop. -/
def spliceInput (replacement : ElementId) (g : Graph) (id : ScopeId) : Graph :=
  match g.scope? id with
  | none => g
  | some s =>
    if s.origin = replacement then (g.removeScope id).2
    else g.retarget id replacement s.ordinal

/-- Moves one output of a replaced element to `replacement`, or drops it where it
would become a self loop. -/
def spliceOutput (replacement : ElementId) (g : Graph) (id : ScopeId) : Graph :=
  match g.scope? id with
  | none => g
  | some s =>
    if s.target = replacement then (g.removeScope id).2
    else g.reorigin id replacement

/-- Splices every scope of `old` onto `replacement` and removes `old`. Scopes
between the two are dropped. Mirrors `replace_element`. -/
def replaceElement (g : Graph) (old replacement : ElementId) : Graph :=
  let g := (g.arrivals old).foldl (spliceInput replacement) g
  let g := (g.outgoing old).foldl (spliceOutput replacement) g
  (g.removeElement old).2

/-- Splices out an element with a single input, wiring that input to every
output in its place. Says whether there was a single input. Mirrors `remove_pass_through`. -/
def removePassThrough (g : Graph) (id : ElementId) : Bool × Graph :=
  match g.arrivals id with
  | [input] =>
    let g := match g.scope? input with
      | none => g
      | some s => g.moveOutgoing id s.origin
    (true, (g.removeElement id).2)
  | _ => (false, g)

/-! ## Names and fields -/

def boundaryName (n : Nat) : String := "boundary-" ++ toString n

/-- The first number after `boundaryCount` whose boundary name is free. Among
one more candidates than there are elements one must be. -/
def nextBoundaryNumber (g : Graph) : Nat :=
  (((List.range (g.size + 1)).map (g.boundaryCount + 1 + ·)).find? fun n =>
    (g.find (boundaryName n)).isNone).getD (g.boundaryCount + g.size + 1)

/-- Draws a fresh name for a boundary. Mirrors `next_boundary_name`. -/
def nextBoundaryName (g : Graph) : String × Graph :=
  let n := g.nextBoundaryNumber
  (boundaryName n, { g with boundaryCount := n })

/-- Forgets every resolved field contract. Mirrors `clear_fields`. -/
def clearFields (g : Graph) : Graph :=
  { g with scopes := g.scopes.map (Option.map fun s => { s with fields := none }) }

def setFields (g : Graph) (id : ScopeId) (fields : Fields) : Graph :=
  { g with scopes := g.scopes.modify id (Option.map fun s => { s with fields := some fields }) }

def setTapFields (g : Graph) (id : ElementId) (fields : Fields) : Graph :=
  g.modifyNode id fun n =>
    { n with element := n.element.map fun e => { e with kind := e.kind.withTapFields fields } }

end Graph
end Dataflow
