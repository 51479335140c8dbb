import Dataflow.Planner.Error
import Dataflow.Topology.Basic

/-!
# Boundary collapse

A boundary followed by a sink or by another boundary is replaced by that tap,
if the boundary is its only writer, the tap can be read back, and it takes the
fields of the boundary. Fields must be resolved first.
-/
namespace Dataflow
namespace BoundaryCollapse

/-- Undeclared fields take anything, declared ones the same layout alone. Mirrors `accepts`. -/
def accepts (declared written : Fields) : Bool :=
  !declared.isKnown || declared.sameLayout written

/-- The tap that the kind stands for where a boundary may be replaced by it. -/
def replacementTap? : Kind → Option Tap
  | .sink tap | .boundary tap => some tap
  | _ => none

def boundaryTap? : Kind → Option Tap
  | .boundary tap => some tap
  | _ => none

/-- `tap` can stand in for `boundary`. Mirrors `can_replace`. -/
def canReplace (rules : TapRules) (g : Graph) (boundary tap : ElementId) : Bool :=
  match (g.kind? boundary).bind boundaryTap?, (g.kind? tap).bind replacementTap? with
  | some written, some target =>
    (g.predecessors tap).toList == [boundary] && rules.symmetrical target &&
      accepts target.fields written.fields
  | _, _ => false

/-- The first boundary with a tap behind it that can stand in for it. Mirrors `collapsible`. -/
def collapsible (rules : TapRules) (g : Graph) : Except PlanError (Option (ElementId × ElementId)) :=
  match (g.elements.toList.filter (g.hasKind Kind.isBoundary)).findSome? fun boundary =>
    ((g.successors boundary).toList.find? fun tap =>
      !g.contains tap || canReplace rules g boundary tap).map (boundary, ·)
  with
  | none => .ok none
  | some (boundary, tap) =>
    if g.contains tap then .ok (some (boundary, tap)) else .error (.dead (.element tap g.name))

/-- Mirrors `apply` of `BoundaryCollapseRule`. -/
def apply (rules : TapRules) (g : Graph) : Outcome Bool :=
  match collapsible rules g with
  | .error e => (.error e, g)
  | .ok none => (.ok false, g)
  | .ok (some (boundary, tap)) => (.ok true, g.replaceElement boundary tap)

end BoundaryCollapse
end Dataflow
