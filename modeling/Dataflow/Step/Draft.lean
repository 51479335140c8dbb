import Dataflow.Cursor.Motif
import Dataflow.Cursor.Remainder
import Dataflow.Planner.Error

/-!
# Drafts of steps

Over the graph contracted by every element that is neither a tap nor an extent,
each contracted vertex is one region of processing. A draft is such a region
with the taps next to it:

```text
tap → region → tap
```

Every tap that is written directly by another tap is one more draft, a copy.
What ends up in no draft cannot be planned. The regions are those that a motif
cursor gives, and what they leave is what the remainder cursor around it gives last.
-/
namespace Dataflow

/-- A step that has no place in the order yet. -/
structure Draft where
  elements : IdSet
  /-- The members that are no taps; none in a copy. -/
  region : IdSet
  sources : List ElementId
  sinks : List ElementId
  deriving DecidableEq, Repr

namespace Draft

/-- Neither a tap nor an extent. Mirrors `region_expression`. -/
def regionTest : VertexTest := (VertexTest.not (.kind .tap)).and (.not (.kind .extent))

/-- A region between a tap that it reads and one that it writes. Mirrors `step_motif`. -/
def motif : Motif where
  nodes := [⟨.kind .tap, some .included⟩, ⟨regionTest, some .primary⟩, ⟨.kind .tap, some .included⟩]
  edges := [⟨0, 1, .any⟩, ⟨1, 2, .any⟩]

/-- The draft of a region, with all elements of the step. Mirrors `region_draft`. -/
def ofRegion (g : Graph) (elements region : IdSet) : Draft where
  elements
  region
  sources := elements.toList.filter fun e =>
    g.hasKind Kind.isTap e && (g.edgesOut e).any fun (_, target) => decide (target ∈ region)
  sinks := elements.toList.filter fun e =>
    g.hasKind Kind.isTap e && (g.edgesIn e).any fun (_, origin) => decide (origin ∈ region)

/-- The step that copies one tap into another. -/
def ofLink (origin target : ElementId) : Draft :=
  ⟨.ofList [origin, target], ∅, [origin], [target]⟩

/-- An end of a scope that a copy would have to look at and that was removed. -/
def removedEnd? (g : Graph) (s : Scope) : Option DeadRef :=
  let removed := fun e => !Graph.isExtent e && !g.contains e
  if removed s.origin then some (.element s.origin g.name)
  else if g.hasKind Kind.isTap s.origin && removed s.target then some (.element s.target g.name)
  else none

/-- The pairs of a tap and a tap that it feeds, each once, ascending. -/
def links (g : Graph) : List (ElementId × ElementId) :=
  (g.elements.toList.filter (g.hasKind Kind.isTap)).flatMap fun origin =>
    ((g.successors origin).toList.filter (g.hasKind Kind.isTap)).map (origin, ·)

/-- One copy per tap that is fed directly by another tap. No region covers such a
link, whether or not the taps at its ends belong to regions. Mirrors `copy_drafts`. -/
def copies (g : Graph) : Except DeadRef (List Draft) :=
  match g.scopeList.findSome? fun (_, s) => removedEnd? g s with
  | some ref => .error ref
  | none => .ok ((links g).map fun (origin, target) => ofLink origin target)

/-- Takes up to `budget` parts from the cursor: a draft for each region, and what is left
for the part that comes at the remainder. Mirrors the loop of `drafts`. -/
def collect (g : Graph) : (budget : Nat) → RemainderCursor MotifCursor → (drafts : List Draft) →
    (left : IdSet) → Except CursorError (List Draft × IdSet)
  | 0, _, drafts, left => .ok (drafts, left)
  | budget + 1, parts, drafts, left =>
    match Cursor.hasNext parts with
    | (false, _) => .ok (drafts, left)
    | (true, parts) =>
      let (rest, parts) := parts.atRemainder
      match Cursor.next parts with
      | (.error e, _) => .error e
      | (.ok s, parts) =>
        if rest then collect g budget parts drafts s.elements
        else
          let draft := ofRegion g s.elements (Cursor.captured parts .primary)
          collect g budget parts (drafts ++ [draft]) left

/-- The drafts of a graph: its regions, then its copies. Mirrors `drafts`. -/
def list (g : Graph) (multiEdge : Bool) : Except PlanError (List Draft) :=
  match MotifCursor.new (.whole g) (some regionTest) motif false with
  | .error e => .error (.motif e)
  | .ok motifs =>
    let parts := RemainderCursor.new motifs multiEdge
    match collect g (Cursor.capacity parts + 1) parts [] ∅ with
    | .error e => .error (.cursor e)
    | .ok (regions, left) =>
      match copies g with
      | .error ref => .error (.dead ref)
      | .ok copied =>
        let drafts := regions ++ copied
        match left.toList.find? fun e => !drafts.any fun d => decide (e ∈ d.elements) with
        | some e => .error (.unplaced (g.nameOf e))
        | none => .ok drafts

end Draft
end Dataflow
