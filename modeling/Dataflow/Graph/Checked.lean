import Dataflow.Graph.Edit

/-!
# References that must resolve

Reading an element or a scope that was removed is refused, and so are reaching for
a place beyond the arena and counting past a machine word. `DeadRef` says what was
refused. The edits
below are those of `Dataflow.Graph.Edit`, step by step, with every reference on the
way looked up: the caller's ids and those that the edit finds in the arenas.
-/
namespace Dataflow

/-- A reference that does not resolve, or a sum that does not fit. -/
inductive DeadRef where
  | element (id : ElementId) (graph : String)
  | scope (id : ScopeId) (graph : String)
  /-- An id that the element arena never gave out. -/
  | slot (id : ElementId)
  /-- A sum that outgrows its machine word. -/
  | overflow
  deriving DecidableEq, Repr

/-- The wording, for the references that have one. -/
def DeadRef.message? : DeadRef → Option String
  | element id graph => some s!"element e{id} is not in graph `{graph}`"
  | scope id graph => some s!"scope s{id} is not in graph `{graph}`"
  | slot _ | overflow => none

namespace Graph

def element (g : Graph) (id : ElementId) : Except DeadRef Element :=
  match g.element? id with
  | some e => .ok e
  | none => .error (.element id g.name)

def scope (g : Graph) (id : ScopeId) : Except DeadRef Scope :=
  match g.scope? id with
  | some s => .ok s
  | none => .error (.scope id g.name)

/-- The first of `ids` that is no live scope, as a failed reference. -/
def deadScope? (g : Graph) (ids : IdSet) : Option DeadRef :=
  (ids.toList.find? fun s => !g.containsScope s).map (.scope · g.name)

namespace Checked

/-- Each id must lie below `bound`. -/
def within (bound : Nat) (ids : List ElementId) : Except DeadRef Unit :=
  match ids.find? fun id => decide (bound ≤ id) with
  | none => .ok ()
  | some id => .error (.slot id)

/-- Changes what is kept at a place of the arena. -/
def modifyNode (g : Graph) (id : ElementId) (f : Node → Node) : Except DeadRef Graph := do
  within g.size [id]
  return g.modifyNode id f

/-- Sorting the inputs of `id` looks at each of their scopes. -/
def incoming (g : Graph) (id : ElementId) : Except DeadRef (List ScopeId) :=
  match (g.arrivals id).find? fun s => !g.containsScope s with
  | none => .ok (g.incoming id)
  | some s => .error (.scope s g.name)

/-! ## Additions -/

def addScope (g : Graph) (origin target : ElementId) (ordinal : Nat) :
    Except DeadRef (ScopeId × Graph) := do
  let id := g.scopes.length
  let g := { g with scopes := g.scopes ++ [some (⟨origin, target, ordinal, none⟩ : Scope)] }
  let g ← modifyNode g origin fun n => { n with outgoing := n.outgoing ++ [id] }
  let g ← modifyNode g target fun n => { n with incoming := n.incoming ++ [id] }
  return (id, g)

def connect (g : Graph) (origin target : ElementId) : Except DeadRef (ScopeId × Graph) := do
  let _ ← incoming g target
  addScope g origin target (g.nextOrdinal target)

def addSource (g : Graph) (name : String) (tap : Tap) : Except DeadRef (ElementId × Graph) := do
  let (id, g) := g.addElement ⟨name, .source tap⟩
  let (_, g) ← addScope g head id 0
  return (id, g)

/-- The input may be the new sink itself. -/
def addSink (g : Graph) (name : String) (tap : Tap) (input : ElementId) :
    Except DeadRef (ElementId × Graph) := do
  let (id, g) := g.addElement ⟨name, .sink tap⟩
  let (_, g) ← addScope g input id 0
  let (_, g) ← addScope g id tail 0
  return (id, g)

def addInputs (g : Graph) (id : ElementId) (inputs : List ElementId) : Except DeadRef Graph :=
  inputs.zipIdx.foldlM (fun g (input, ordinal) => do
    let (_, g) ← addScope g input id ordinal
    return g) g

/-- The inputs may include the new element itself. -/
def addStage (g : Graph) (name : String) (kind : Kind) (inputs : List ElementId) :
    Except DeadRef (ElementId × Graph) := do
  let (id, g) := g.addElement ⟨name, kind⟩
  let g ← addInputs g id inputs
  return (id, g)

/-! ## Removals -/

def removeScope (g : Graph) (id : ScopeId) : Except DeadRef (Option Scope × Graph) :=
  match g.scope? id with
  | none => .ok (none, g)
  | some s => do
    let g := g.setScope id none
    let g ← modifyNode g s.origin fun n => { n with outgoing := n.outgoing.filter (· != id) }
    let g ← modifyNode g s.target fun n => { n with incoming := n.incoming.filter (· != id) }
    return (some s, g)

def removeScopes (g : Graph) (ids : List ScopeId) : Except DeadRef Graph :=
  ids.foldlM (fun g s => do
    let (_, g) ← removeScope g s
    return g) g

def removeElement (g : Graph) (id : ElementId) : Except DeadRef (Option Element × Graph) :=
  match g.element? id with
  | none => .ok (none, g)
  | some e => do
    let g ← removeScopes g (g.outgoing id ++ g.arrivals id)
    let g ← modifyNode g id fun n => { n with element := none }
    return (some e, g)

/-! ## Rewirings -/

def retarget (g : Graph) (id : ScopeId) (target : ElementId) (ordinal : Nat) :
    Except DeadRef Graph := do
  let s ← g.scope id
  let g ← modifyNode g s.target fun n => { n with incoming := n.incoming.filter (· != id) }
  let g ← modifyNode g target fun n => { n with incoming := n.incoming ++ [id] }
  return g.setScope id (some { s with target, ordinal, fields := none })

def reorigin (g : Graph) (id : ScopeId) (origin : ElementId) : Except DeadRef Graph := do
  let s ← g.scope id
  let g ← modifyNode g s.origin fun n => { n with outgoing := n.outgoing.filter (· != id) }
  let g ← modifyNode g origin fun n => { n with outgoing := n.outgoing ++ [id] }
  return g.setScope id (some { s with origin, fields := none })

def moveOutgoing (g : Graph) (id origin : ElementId) : Except DeadRef Graph := do
  within g.size [id]
  (g.outgoing id).foldlM (fun g s => reorigin g s origin) g

/-- The element may be put behind itself. -/
def insertAfter (g : Graph) (id : ElementId) (e : Element) :
    Except DeadRef (ElementId × Graph) := do
  let (inserted, g) := g.addElement e
  let g ← moveOutgoing g id inserted
  let (_, g) ← addScope g id inserted 0
  return (inserted, g)

def insertOnScope (g : Graph) (id : ScopeId) (e : Element) :
    Except DeadRef (ElementId × Graph) := do
  let s ← g.scope id
  let (inserted, g) := g.addElement e
  let g ← retarget g id inserted 0
  let (_, g) ← addScope g inserted s.target s.ordinal
  return (inserted, g)

def spliceInput (replacement : ElementId) (g : Graph) (id : ScopeId) : Except DeadRef Graph := do
  let s ← g.scope id
  if s.origin = replacement then
    let (_, g) ← removeScope g id
    return g
  else retarget g id replacement s.ordinal

def spliceOutput (replacement : ElementId) (g : Graph) (id : ScopeId) : Except DeadRef Graph := do
  let s ← g.scope id
  if s.target = replacement then
    let (_, g) ← removeScope g id
    return g
  else reorigin g id replacement

/-- The replacement is looked at only if `old` has a scope to move. -/
def replaceElement (g : Graph) (old replacement : ElementId) : Except DeadRef Graph := do
  within g.size [old]
  let g ← (g.arrivals old).foldlM (spliceInput replacement) g
  let g ← (g.outgoing old).foldlM (spliceOutput replacement) g
  let (_, g) ← removeElement g old
  return g

def removePassThrough (g : Graph) (id : ElementId) : Except DeadRef (Bool × Graph) := do
  within g.size [id]
  match g.arrivals id with
  | [input] =>
    let s ← g.scope input
    let g ← moveOutgoing g id s.origin
    let (_, g) ← removeElement g id
    return (true, g)
  | _ => return (false, g)

/-! ## Fields -/

def setFields (g : Graph) (id : ScopeId) (fields : Fields) : Except DeadRef Graph := do
  let _ ← g.scope id
  return g.setFields id fields

/-- Says whether the element has a tap. -/
def setTapFields (g : Graph) (id : ElementId) (fields : Fields) :
    Except DeadRef (Bool × Graph) := do
  let e ← g.element id
  return (e.kind.isTap, g.setTapFields id fields)

end Checked
end Graph
end Dataflow
