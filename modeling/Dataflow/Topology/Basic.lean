import Dataflow.Graph.Edit

/-!
# Topologies

A topology is what a traversal sees: vertices and the edges at each of them.
The whole graph is one, and so are a selection of it and a graph whose vertices
stand for several elements. Every traversal is written once, on `Topology`.

`bound` limits the ids that a topology can show; it is what makes the
traversals end.
-/
namespace Dataflow

/-- Mirrors `Topology`. -/
structure Topology where
  /-- Above every id that is a vertex or the end of an edge. -/
  bound : Nat
  vertices : IdSet
  /-- The edges that leave a vertex, each with its target. -/
  edgesOut : ElementId → List (ScopeId × ElementId)
  /-- The edges that enter a vertex, each with its origin. -/
  edgesIn : ElementId → List (ScopeId × ElementId)

namespace Topology

variable (t : Topology)

def inDegree (v : ElementId) : Nat := (t.edgesIn v).length

def outDegree (v : ElementId) : Nat := (t.edgesOut v).length

/-- The distinct targets of the edges that leave `v`. -/
def successors (v : ElementId) : IdSet := .ofList ((t.edgesOut v).map Prod.snd)

/-- The distinct origins of the edges that enter `v`. -/
def predecessors (v : ElementId) : IdSet := .ofList ((t.edgesIn v).map Prod.snd)

/-- The vertices that no edge enters. Mirrors `roots`. -/
def roots : IdSet := t.vertices.filter fun v => t.inDegree v == 0

/-- The vertices that no edge leaves. Mirrors `leaves`. -/
def leaves : IdSet := t.vertices.filter fun v => t.outDegree v == 0

end Topology

namespace Graph

/-- The whole graph. -/
def topology (g : Graph) : Topology where
  bound := g.size
  vertices := g.elements
  edgesOut := g.edgesOut
  edgesIn := g.edgesIn

def successors (g : Graph) (id : ElementId) : IdSet := g.topology.successors id

def predecessors (g : Graph) (id : ElementId) : IdSet := g.topology.predecessors id

/-- The elements that read from `head`. -/
def sources (g : Graph) : IdSet := g.successors head

/-- The elements that write into `tail`. -/
def sinks (g : Graph) : IdSet := g.predecessors tail

end Graph
end Dataflow
