import Dataflow.Json.Write
import Dataflow.Step.Basic

/-!
# The JSON form of a step graph

The grouping of a step and the joiner of a grouping are left out where there is
none; a custom joiner is an object with its name.
-/
namespace Dataflow

def IdSet.toJson (s : IdSet) : Json := .array (s.toList.map Json.ofNat)

def Joiner.toJson : Joiner → Json
  | inner => .ofString "inner"
  | outer => .ofString "outer"
  | left => .ofString "left"
  | right => .ofString "right"
  | custom name => .record [("custom", .ofString name)]

def TapRef.toJson (t : TapRef) : Json :=
  .record [("element", .ofNat t.element), ("name", .ofString t.name),
    ("scheme", .ofString t.scheme), ("identifier", .ofString t.identifier)]

def GroupingInfo.toJson (i : GroupingInfo) : Json :=
  .record <|
    [("element", .ofNat i.element), ("name", .ofString i.name),
      ("kind", .ofString i.kind.label)] ++
    (i.joiner.map fun j => ("joiner", j.toJson)).toList ++
    [("defers_to_joiner", .bool i.defers)]

def StepNode.toJson (n : StepNode) : Json :=
  .record [("kind", .ofString n.side.label), ("elements", .array (n.elements.map Json.ofString))]

def Step.toJson (s : Step) : Json :=
  .record <|
    [("id", .ofNat s.id), ("name", .ofString s.name), ("elements", s.elements.toJson),
      ("sources", .array (s.sources.map TapRef.toJson)),
      ("sinks", .array (s.sinks.map TapRef.toJson))] ++
    (s.grouping.map fun i => ("grouping", i.toJson)).toList ++
    [("nodes", .array (s.nodes.map StepNode.toJson))]

def StepEdge.toJson (e : StepEdge) : Json :=
  .record [("from", .ofNat e.origin), ("to", .ofNat e.target), ("tap", .ofString e.tap)]

def StepGraph.toJson (g : StepGraph) : Json :=
  .record [("pipeline", .ofString g.pipeline), ("steps", .array (g.steps.map Step.toJson)),
    ("edges", .array (g.edges.map StepEdge.toJson))]

/-- The step graph as JSON text over several lines. Mirrors `to_json`. -/
def StepGraph.jsonText (g : StepGraph) : String := g.toJson.pretty 0

end Dataflow
