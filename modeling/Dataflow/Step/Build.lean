import Dataflow.Step.Basic
import Dataflow.Step.Order
import Dataflow.Topology.Reach

/-!
# Building the step graph

A reshaped graph is cut into drafts, the drafts are ordered, and each gets its
number, its name and its two sides. A step that holds several groupings cannot
be run.
-/
namespace Dataflow
namespace Draft

/-- The groupings of the region, with their kinds. -/
def groupings (d : Draft) (g : Graph) : List (ElementId × GroupKind × Join) :=
  d.region.toList.filterMap fun e =>
    match g.kind? e with
    | some (.group kind join) => some (e, kind, join)
    | _ => none

def groupingInfo (g : Graph) (e : ElementId) (kind : GroupKind) (join : Join) : GroupingInfo where
  element := e
  name := g.nameOf e
  kind
  joiner := if kind = .coGroup then some join.joiner else none
  defers := kind == .coGroup && join.defers

/-- The grouping and what it reaches. -/
def reduced (g : Graph) (grouping : Option ElementId) : IdSet :=
  grouping.elim ∅ fun e => (g.topology.descendants e).insert e

/-- The sides of the step that are not empty: the region up to the grouping, and
the grouping with what follows it. Mirrors `nodes`. -/
def sides (d : Draft) (g : Graph) (order : List ElementId) (grouping : Option ElementId) :
    List StepNode :=
  let late := reduced g grouping
  let (reduce, map) := (order.filter (· ∈ d.region)).partition fun e => decide (e ∈ late)
  ([⟨.map, map.map g.nameOf⟩, ⟨.reduce, reduce.map g.nameOf⟩] : List StepNode).filter fun n =>
    !n.elements.isEmpty

/-- Mirrors `tap_ref`. -/
def tapRef? (g : Graph) (e : ElementId) : Option TapRef :=
  ((g.kind? e).bind Kind.tap?).map fun tap => ⟨e, g.nameOf e, tap.scheme, tap.identifier⟩

/-- The step at place `id` of `total`. Mirrors `finish`. -/
def finish (d : Draft) (g : Graph) (order : List ElementId) (id total : Nat) :
    Except PlanError Step :=
  let name := s!"({id + 1}/{total}) {g.name}"
  let groupings := d.groupings g
  if groupings.length > 1 then .error (.unschedulable name groupings.length)
  else
    let grouping := groupings.head?.map fun (e, kind, join) => groupingInfo g e kind join
    .ok
      { id, name, elements := d.elements, grouping
        sources := d.sources.filterMap (tapRef? g)
        sinks := d.sinks.filterMap (tapRef? g)
        nodes := d.sides g order (grouping.map GroupingInfo.element) }

end Draft

namespace StepGraph

/-- By the two steps, then by the name of the tap. -/
def edgeLe (a b : StepEdge) : Bool :=
  if a.origin ≠ b.origin then decide (a.origin < b.origin)
  else if a.target ≠ b.target then decide (a.target < b.target)
  else !decide (b.tap < a.tap)

/-- The handovers as edges between the places of the drafts in the order. -/
def edgesOf (g : Graph) (sorted : List Nat) (hs : List Handover) : List StepEdge :=
  (hs.map fun h =>
    ⟨sorted.idxOf h.producer, sorted.idxOf h.consumer, g.nameOf h.tap⟩).mergeSort edgeLe

/-- The steps of the drafts, in the given order. -/
def stepsOf (g : Graph) (order : List ElementId) (drafts : List Draft) (sorted : List Nat) :
    Except PlanError (List Step) :=
  (sorted.filterMap (drafts[·]?)).zipIdx.mapM fun (d, id) => d.finish g order id sorted.length

/-- Cuts a reshaped graph into steps. Mirrors `build`. -/
def build (g : Graph) (multiEdge : Bool) : Except PlanError StepGraph := do
  let order ← g.topology.order.mapError .cycle
  let drafts ← Draft.list g multiEdge
  let hs := Draft.handovers drafts
  let sorted ← (Draft.order drafts hs).mapError .cycle
  let steps ← stepsOf g order drafts sorted
  return ⟨g.name, steps, edgesOf g sorted hs⟩

end StepGraph
end Dataflow
