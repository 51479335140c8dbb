import Dataflow.IdSet
import Dataflow.Element

/-!
# The element graph

Elements and the scopes between them live in two arenas addressed by number.
Removal leaves a hole, so an id stays valid for everything that was not
removed, and is never given out twice. Every graph owns the two extents, at
the ids `Graph.head` and `Graph.tail`.

A node keeps the scopes that leave and enter it; a scope keeps its two ends,
its input position at the target (the ordinal) and the fields it carries once
they are resolved.

Ids, ordinals and the number of boundary names drawn are natural numbers. They
stand for 32-bit words, and what is said of them is said of arenas, ordinals
and draws that stay below `2 ^ 32`.

* `Graph.element?`, `Graph.scope?`: what stands at an id;
* `Graph.outgoing`, `Graph.incoming`: the scopes at an element, in insertion
  order and by ordinal.
-/
namespace Dataflow

abbrev ElementId := Nat

abbrev ScopeId := Nat

/-- A directed edge and the field contract along it. -/
structure Scope where
  origin : ElementId
  target : ElementId
  /-- Input position at the target; zero is the streamed side of a join. -/
  ordinal : Nat
  /-- `none` until fields are resolved. -/
  fields : Option Fields
  deriving DecidableEq, Repr

def Scope.isStreamed (s : Scope) : Bool := s.ordinal == 0

/-- A place in the arena: an element, or the hole it left, with its scopes. -/
structure Node where
  element : Option Element
  outgoing : List ScopeId
  incoming : List ScopeId
  deriving DecidableEq, Repr

/-- Mirrors `ElementGraph`. -/
structure Graph where
  name : String
  nodes : List Node
  scopes : List (Option Scope)
  /-- How many boundary names have been drawn. -/
  boundaryCount : Nat
  deriving DecidableEq, Repr

namespace Graph

def head : ElementId := 0

def tail : ElementId := 1

/-- `id` is one of the two extents. -/
def isExtent (id : ElementId) : Bool := id == head || id == tail

/-- The extents and nothing else. -/
def empty (name : String) : Graph where
  name
  nodes := [⟨some ⟨"head", .extent .head⟩, [], []⟩, ⟨some ⟨"tail", .extent .tail⟩, [], []⟩]
  scopes := []
  boundaryCount := 0

instance : Inhabited Graph := ⟨empty ""⟩

/-! ## Lookup -/

/-- The number of places in the element arena, holes included. -/
def size (g : Graph) : Nat := g.nodes.length

def element? (g : Graph) (id : ElementId) : Option Element := g.nodes[id]?.bind Node.element

def kind? (g : Graph) (id : ElementId) : Option Kind := (g.element? id).map Element.kind

def scope? (g : Graph) (id : ScopeId) : Option Scope := g.scopes[id]?.join

/-- `id` is a live element. -/
def contains (g : Graph) (id : ElementId) : Bool := (g.element? id).isSome

/-- `id` is a live scope. -/
def containsScope (g : Graph) (id : ScopeId) : Bool := (g.scope? id).isSome

/-- `id` is a live element of a kind that satisfies `p`. -/
def hasKind (g : Graph) (p : Kind → Bool) (id : ElementId) : Bool := (g.kind? id).any p

/-- The name of a live element. -/
def nameOf (g : Graph) (id : ElementId) : String := (g.element? id).elim "" Element.name

/-- The live elements. -/
def elements (g : Graph) : IdSet := .below g.nodes.length g.contains

/-- The live scopes. -/
def liveScopes (g : Graph) : IdSet := .below g.scopes.length g.containsScope

/-- The live elements, extents aside. -/
def innerElements (g : Graph) : IdSet := g.elements.filter fun id => !isExtent id

/-- The live scopes with their contents, ascending. -/
def scopeList (g : Graph) : List (ScopeId × Scope) :=
  g.liveScopes.toList.filterMap fun s => (g.scope? s).map (s, ·)

/-- The first live element of that name, extents aside. Mirrors `find`. -/
def find (g : Graph) (name : String) : Option ElementId :=
  g.innerElements.toList.find? fun id => g.nameOf id == name

/-- The scopes that leave `id`, in insertion order. Mirrors `outgoing`. -/
def outgoing (g : Graph) (id : ElementId) : List ScopeId := g.nodes[id]?.elim [] Node.outgoing

/-- The scopes that enter `id`, in the order in which they came to it. -/
def arrivals (g : Graph) (id : ElementId) : List ScopeId := g.nodes[id]?.elim [] Node.incoming

def ordinalOf (g : Graph) (s : ScopeId) : Nat := (g.scope? s).elim 0 Scope.ordinal

/-- The scopes that enter `id`, by ordinal and then by id. Mirrors `incoming`. -/
def incoming (g : Graph) (id : ElementId) : List ScopeId :=
  (g.arrivals id).mergeSort fun s t =>
    decide (g.ordinalOf s < g.ordinalOf t ∨ (g.ordinalOf s = g.ordinalOf t ∧ s ≤ t))

/-- The scopes leaving `id`, each with its target. -/
def edgesOut (g : Graph) (id : ElementId) : List (ScopeId × ElementId) :=
  (g.outgoing id).filterMap fun s => (g.scope? s).map fun scope => (s, scope.target)

/-- The scopes entering `id`, each with its origin. -/
def edgesIn (g : Graph) (id : ElementId) : List (ScopeId × ElementId) :=
  (g.incoming id).filterMap fun s => (g.scope? s).map fun scope => (s, scope.origin)

/-- Every scope from `a` to `b`, parallel ones included. Mirrors `scopes_between`. -/
def scopesBetween (g : Graph) (a b : ElementId) : List ScopeId :=
  (g.edgesOut a).filterMap fun (s, t) => if t = b then some s else none

end Graph

end Dataflow
