import Dataflow.Planner.Error

/-!
# Putting boundaries into a graph

Four of the rules act by inserting boundaries: intermediate taps that end
one step and start another. Each gets a fresh name, and an identifier that is
that name below the name of the pipeline.
-/
namespace Dataflow
namespace Graph

/-- A fresh boundary element over an intermediate tap of the given scheme. Mirrors `boundary`. -/
def drawBoundary (g : Graph) (scheme : String) : Element × Graph :=
  let (name, g) := g.nextBoundaryName
  (⟨name, .boundary (.temporary scheme (g.name ++ "/" ++ name))⟩, g)

/-- Puts a boundary directly behind an element. -/
def boundaryAfter (g : Graph) (scheme : String) (id : ElementId) : Graph :=
  let (e, g) := g.drawBoundary scheme
  (g.insertAfter id e).2

/-- Puts a boundary on a scope. -/
def boundaryOn (g : Graph) (scheme : String) (s : ScopeId) : Graph :=
  let (e, g) := g.drawBoundary scheme
  (g.insertOnScope s e).2

/-- Puts a boundary on each of the scopes, in ascending order. -/
def cutScopes (g : Graph) (scheme : String) (cut : IdSet) : Graph :=
  cut.toList.foldl (fun g s => g.boundaryOn scheme s) g

end Graph
end Dataflow
