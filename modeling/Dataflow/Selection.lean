import Dataflow.Graph.Checked
import Dataflow.Topology.Reach

/-!
# Selections and views

A selection is a set of elements and a set of scopes. It need not be induced:
it may hold two elements without one of several scopes between them, or scopes
whose ends it does not hold. A view reads a graph through a selection: only
selected live elements are vertices, and an edge shows if its scope and both of
its ends are selected.
-/
namespace Dataflow

/-- Mirrors `SubGraph`. -/
structure Selection where
  elements : IdSet
  scopes : IdSet
  deriving DecidableEq, Repr

namespace Selection

def empty : Selection := ⟨∅, ∅⟩

instance : Inhabited Selection := ⟨empty⟩

/-- Every live element and scope. -/
def whole (g : Graph) : Selection := ⟨g.elements, g.liveScopes⟩

/-- The given elements and every scope that starts and ends among them. Mirrors `induced`. -/
def induced (g : Graph) (elements : IdSet) : Selection where
  elements
  scopes := .ofList <| elements.toList.flatMap fun e =>
    (g.edgesOut e).filterMap fun (s, target) => if target ∈ elements then some s else none

def union (a b : Selection) : Selection := ⟨a.elements ∪ b.elements, a.scopes ∪ b.scopes⟩

instance : Union Selection := ⟨union⟩

/-- The elements and scopes of `a` that are not in `b`. -/
def difference (a b : Selection) : Selection := ⟨a.elements \ b.elements, a.scopes \ b.scopes⟩

/-- Neither end of a live scope is an extent. -/
def offExtents (g : Graph) (s : ScopeId) : Bool :=
  (g.scope? s).any fun scope => !Graph.isExtent scope.origin && !Graph.isExtent scope.target

/-- The selection without the extents and the scopes that touch them. Mirrors `without_extents`. -/
def withoutExtents (g : Graph) (a : Selection) : Selection where
  elements := a.elements.filter fun e => !Graph.isExtent e
  scopes := a.scopes.filter (offExtents g)

/-- The part of the graph that leads to `id`, with `id` itself. -/
def upTo (g : Graph) (id : ElementId) : Selection :=
  induced g ((g.topology.ancestors id).insert id)

end Selection

/-- A graph read through a selection. Mirrors `SubGraphView`. -/
structure View where
  graph : Graph
  mask : Selection
  deriving DecidableEq, Repr

namespace View

def whole (g : Graph) : View := ⟨g, .whole g⟩

/-- A selected live element. -/
def shows (v : View) (id : ElementId) : Bool :=
  decide (id ∈ v.mask.elements) && v.graph.contains id

/-- The scope is selected, and so is the element at its other end. Mirrors `keeps`. -/
def keeps (v : View) (e : ScopeId × ElementId) : Bool :=
  decide (e.1 ∈ v.mask.scopes) && decide (e.2 ∈ v.mask.elements)

def edgesOut (v : View) (id : ElementId) : List (ScopeId × ElementId) :=
  if v.shows id then (v.graph.edgesOut id).filter v.keeps else []

def edgesIn (v : View) (id : ElementId) : List (ScopeId × ElementId) :=
  if v.shows id then (v.graph.edgesIn id).filter v.keeps else []

def topology (v : View) : Topology where
  bound := v.graph.size
  vertices := v.mask.elements.filter v.graph.contains
  edgesOut := v.edgesOut
  edgesIn := v.edgesIn

end View

def Selection.view (a : Selection) (g : Graph) : View := ⟨g, a⟩

end Dataflow
