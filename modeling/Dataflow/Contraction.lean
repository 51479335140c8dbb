import Dataflow.Motif.Test
import Dataflow.UnionFind

/-!
# Contraction

Contracting a view by a vertex test merges every two adjacent elements that both
pass it. The vertices of the result are groups; each is named by its smallest
element, so a contracted vertex is addressed like an element. An edge joins two
groups if a scope of the view does; scopes inside a group vanish.

Groups come from adjacency alone, so the result may have a cycle where the view
has none: with `a → b → c` and `a → c`, contracting `a` and `c` but not `b`
leaves `{a, c}` and `b` feeding each other.
-/
namespace Dataflow

/-- Mirrors `ContractedGraph`: a view, and the name of the group of each of its vertices. -/
structure Contraction where
  view : View
  names : List (ElementId × ElementId)
  deriving DecidableEq, Repr

namespace View

/-- The edges of the view that lead from one of the candidates to another. -/
def links (v : View) (candidates : IdSet) : List (ElementId × ElementId) :=
  candidates.toList.flatMap fun a =>
    (v.edgesOut a).filterMap fun (_, b) => if b ∈ candidates then some (a, b) else none

/-- Every vertex is a group of its own. Mirrors `identity` of `ContractedGraph`. -/
def uncontracted (v : View) : Contraction := ⟨v, Parents.singletons v.topology.vertices.toList⟩

/-- Merges adjacent vertices that pass the test. Mirrors `new` of `ContractedGraph`. -/
def contract (v : View) (test : VertexTest) : Contraction :=
  let vertices := v.topology.vertices
  let candidates := vertices.filter fun id => test.holds v.target id
  let parents := (Parents.singletons vertices.toList).unionAll (v.links candidates)
  ⟨v, parents.roots vertices.toList⟩

end View

namespace Contraction

variable (c : Contraction)

/-- The name of the group that holds an element. Mirrors `representative`. -/
def representative? (id : ElementId) : Option ElementId := c.names.lookup id

/-- The group named `r`; none if `r` names no group. Mirrors `members`. -/
def members (r : ElementId) : IdSet :=
  .ofList <| c.names.filterMap fun (id, name) => if name = r then some id else none

/-- Every element behind the given vertices. Mirrors `expand`. -/
def expand (vertices : IdSet) : IdSet := .unionOf vertices.toList c.members

/-- A scope with both ends among `elements`. -/
def isWithin (g : Graph) (elements : IdSet) (s : ScopeId) : Bool :=
  (g.scope? s).any fun scope => decide (scope.origin ∈ elements) && decide (scope.target ∈ elements)

/-- The part of the view behind the given vertices. Mirrors `as_sub_graph`. -/
def selection (vertices : IdSet) : Selection :=
  let elements := c.expand vertices
  ⟨elements, c.view.mask.scopes.filter (isWithin c.view.graph elements)⟩

/-- Names each end by its group and drops what stays inside `r`. Mirrors `lift`. -/
def lift (r : ElementId) (edges : List (ScopeId × ElementId)) : List (ScopeId × ElementId) :=
  edges.filterMap fun (s, e) =>
    match c.representative? e with
    | some other => if other = r then none else some (s, other)
    | none => none

def edgesOut (r : ElementId) : List (ScopeId × ElementId) :=
  c.lift r ((c.members r).toList.flatMap c.view.edgesOut)

def edgesIn (r : ElementId) : List (ScopeId × ElementId) :=
  c.lift r ((c.members r).toList.flatMap c.view.edgesIn)

def topology : Topology where
  bound := c.view.graph.size
  vertices := .ofList (c.names.map Prod.snd)
  edgesOut := c.edgesOut
  edgesIn := c.edgesIn

def target : Target where
  toTopology := c.topology
  graph := c.view.graph
  members := c.members

end Contraction
end Dataflow
