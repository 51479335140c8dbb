import Dataflow.Graph.Basic

/-!
# Steps

A step is a unit of work: a region of processing with the taps that it reads and
writes, or a copy of one tap into another. The step graph lists the steps in an
order in which each reads only what an earlier one wrote; an edge says that a
step reads a tap that another one writes.
-/
namespace Dataflow

/-- A tap that a step reads or writes. -/
structure TapRef where
  element : ElementId
  name : String
  scheme : String
  identifier : String
  deriving DecidableEq, Repr

/-- The grouping that a step runs. -/
structure GroupingInfo where
  element : ElementId
  name : String
  kind : GroupKind
  /-- How a co-group joins its inputs. -/
  joiner : Option Joiner
  /-- The output fields are left to a custom joiner. -/
  defers : Bool
  deriving DecidableEq, Repr

/-- The two sides of a step: up to its grouping, and from the grouping on. -/
inductive Side where
  | map
  | reduce
  deriving DecidableEq, Repr

def Side.label : Side → String
  | map => "map"
  | reduce => "reduce"

/-- The names of the elements on one side of a step, in topological order. -/
structure StepNode where
  side : Side
  elements : List String
  deriving DecidableEq, Repr

structure Step where
  id : Nat
  name : String
  elements : IdSet
  sources : List TapRef
  sinks : List TapRef
  grouping : Option GroupingInfo
  nodes : List StepNode
  deriving DecidableEq, Repr

/-- The step moves one tap into another and does nothing else. -/
def Step.isCopy (s : Step) : Bool := s.nodes.isEmpty

/-- Step `target` reads the tap that step `origin` writes. -/
structure StepEdge where
  origin : Nat
  target : Nat
  tap : String
  deriving DecidableEq, Repr

structure StepGraph where
  pipeline : String
  steps : List Step
  edges : List StepEdge
  deriving DecidableEq, Repr

namespace StepGraph

variable (g : StepGraph)

def size : Nat := g.steps.length

def isEmpty : Bool := g.steps.isEmpty

def step? (id : Nat) : Option Step := g.steps[id]?

/-- The steps that must complete before `id` starts. Mirrors `dependencies`. -/
def dependencies (id : Nat) : IdSet :=
  .ofList ((g.edges.filter fun e => e.target == id).map StepEdge.origin)

/-- The steps that wait for `id`. Mirrors `dependents`. -/
def dependents (id : Nat) : IdSet :=
  .ofList ((g.edges.filter fun e => e.origin == id).map StepEdge.target)

end StepGraph
end Dataflow
