import Dataflow.Step.Basic

/-!
# The text form of a step graph

```text
step 0: (1/2) words
  sources: docs (text:in/docs)
  sinks: boundary-1 (sequence:boundary-1)
  grouping: group-by by-word
  map: split
  reduce: by-word, count
edge 0 → 1 via boundary-1
```
-/
namespace Dataflow

def Joiner.label : Joiner → String
  | inner => "inner"
  | outer => "outer"
  | left => "left"
  | right => "right"
  | custom name => s!"custom {name}"

def TapRef.describe (t : TapRef) : String := s!"{t.name} ({t.scheme}:{t.identifier})"

/-- The taps in one line; `∅` if there is none. -/
def TapRef.describeAll : List TapRef → String
  | [] => "∅"
  | taps => ", ".intercalate (taps.map describe)

def GroupingInfo.describe (i : GroupingInfo) : String :=
  s!"{i.kind.label} {i.name}" ++ i.joiner.elim "" fun j => s!" ({j.label})"

def StepNode.describe (n : StepNode) : String :=
  n.side.label ++ ": " ++ ", ".intercalate n.elements

/-- The lines about one step. -/
def Step.lines (s : Step) : List String :=
  [s!"step {s.id}: {s.name}", s!"  sources: {TapRef.describeAll s.sources}",
    s!"  sinks: {TapRef.describeAll s.sinks}"] ++
  (s.grouping.map fun i => s!"  grouping: {i.describe}").toList ++
  s.nodes.map fun n => s!"  {n.describe}"

def StepEdge.line (e : StepEdge) : String := s!"edge {e.origin} → {e.target} via {e.tap}"

/-- Mirrors `dump`. -/
def StepGraph.dump (g : StepGraph) : String :=
  "".intercalate ((g.steps.flatMap Step.lines ++ g.edges.map StepEdge.line).map (· ++ "\n"))

end Dataflow
