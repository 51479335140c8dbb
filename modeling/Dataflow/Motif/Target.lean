import Dataflow.Selection

/-!
# What a motif is matched against

A target is a topology whose vertices stand for elements of a graph: for one
each in the graph itself and its views, for several in a contracted graph.
-/
namespace Dataflow

/-- Mirrors `PatternTarget`. -/
structure Target extends Topology where
  graph : Graph
  /-- The elements behind a vertex; none for what is no vertex. -/
  members : ElementId → IdSet

def Graph.target (g : Graph) : Target where
  toTopology := g.topology
  graph := g
  members v := if g.contains v then .singleton v else ∅

def View.target (v : View) : Target where
  toTopology := v.topology
  graph := v.graph
  members id := if v.shows id then .singleton id else ∅

end Dataflow
