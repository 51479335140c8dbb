import Dataflow.Planner.Error
import Dataflow.Topology.Basic

/-!
# Pass-through removal

Named pipes do no work, so a pipe with a single input is spliced out. A pipe
between taps alone is kept: it is the whole of a copy step.
-/
namespace Dataflow
namespace PassThrough

variable (g : Graph)

/-- The first neighbour of an element that is no live tap. -/
def nonTap? (id : ElementId) : Option ElementId :=
  ((g.predecessors id).toList ++ (g.successors id).toList).find? fun e => !g.hasKind Kind.isTap e

/-- The pipes with a single input. -/
def pipes : List ElementId := g.elements.toList.filter fun id =>
  g.hasKind (fun k => match k with | .pipe => true | _ => false) id &&
    (g.incoming id).length == 1

/-- The first pipe that can go. Mirrors `removable`. -/
def removable : Except PlanError (Option ElementId) :=
  match (pipes g).findSome? fun id => (nonTap? g id).map (id, ·) with
  | none => .ok none
  | some (id, neighbour) =>
    if g.contains neighbour then .ok (some id) else .error (.dead (.element neighbour g.name))

/-- Mirrors `apply` of `PassThroughRule`. -/
def apply (g : Graph) : Outcome Bool :=
  match removable g with
  | .error e => (.error e, g)
  | .ok none => (.ok false, g)
  | .ok (some id) =>
    let (removed, g) := g.removePassThrough id
    (.ok removed, g)

end PassThrough
end Dataflow
