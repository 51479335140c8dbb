import Dataflow.Rule.Boundary
import Dataflow.Cursor.Paths

/-!
# Source normalization

The nearest taps on the ways from `head` to a grouping feed it. Where there are
several ways, any two of those taps must be compatible. If they are not, each one
that is incompatible with the intermediate scheme gets a boundary on the scope
that leaves it; if all of them are compatible with that scheme, each one that is
not a boundary yet gets one. Feeds that stay incompatible are an error.
-/
namespace Dataflow
namespace SourceNormalization

/-- The nearest tap on one way to a grouping, and where the way leads from it. -/
structure Feed where
  tap : ElementId
  leaving : ElementId
  deriving DecidableEq, Repr

/-- The nearest tap before `id` on a path, at most `budget` steps away. -/
def nearestTap (v : View) : (budget : Nat) → ElementId → Option Feed
  | 0, _ => none
  | budget + 1, id =>
    match (v.topology.predecessors id).min? with
    | none => none
    | some previous =>
      if v.graph.hasKind Kind.isTap previous then some ⟨previous, id⟩
      else nearestTap v budget previous

/-- The nearest tap on every way from `head` to a grouping, one entry per way;
none if there is only one way. Mirrors `feeds_of`. -/
def feeds (g : Graph) (grouping : ElementId) : Except PlanError (List Feed) :=
  let whole := OnceCursor.new g (.upTo g grouping)
  match (Cursor.drain (PathCursor.new whole false)).1 with
  | .error e => .error (.cursor e)
  | .ok paths =>
    if paths.length < 2 then .ok []
    else .ok (paths.filterMap fun path => nearestTap (path.view g) (g.size + 1) grouping)

def tapOf (g : Graph) (id : ElementId) : Option Tap := (g.kind? id).bind Kind.tap?

/-- Every two taps of the list are compatible. -/
def allCompatible (rules : TapRules) : List Tap → Bool
  | [] => true
  | a :: rest => rest.all (rules.compatible a) && allCompatible rules rest

/-- Mirrors `compatible`. -/
def compatible (rules : TapRules) (g : Graph) (fs : List Feed) : Bool :=
  allCompatible rules ((IdSet.ofList (fs.map Feed.tap)).toList.filterMap (tapOf g))

/-- The scopes that leave the feeding taps which `select` picks. Boundaries are
not cut again. Mirrors `cut_where`. -/
def cutWhere (g : Graph) (fs : List Feed) (select : Tap → Bool) : IdSet :=
  .ofList <| (fs.filter fun f =>
    !g.hasKind Kind.isBoundary f.tap && (tapOf g f.tap).any select).flatMap fun f =>
      g.scopesBetween f.tap f.leaving

/-- The scopes to cut for one grouping, or `none` where its feeds need no cut. -/
def cutFor (scheme : String) (rules : TapRules) (g : Graph) (grouping : ElementId) :
    Except PlanError (Option IdSet) := do
  let fs ← feeds g grouping
  if fs.length < 2 ∨ compatible rules g fs then return none
  let foreign := cutWhere g fs fun tap => !rules.compatible tap (.temporary scheme "")
  let cut := if foreign.isEmpty then cutWhere g fs fun _ => true else foreign
  if cut.isEmpty then throw (.incompatibleFeeds (g.nameOf grouping))
  return some cut

/-- The cut for the first grouping that needs one. -/
def cutAmong (scheme : String) (rules : TapRules) (g : Graph) :
    List ElementId → Except PlanError (Option IdSet)
  | [] => .ok none
  | grouping :: rest =>
    match cutFor scheme rules g grouping with
    | .ok none => cutAmong scheme rules g rest
    | found => found

/-- Mirrors `find_cut`. -/
def findCut (scheme : String) (rules : TapRules) (g : Graph) : Except PlanError (Option IdSet) :=
  cutAmong scheme rules g (g.elements.toList.filter (g.hasKind Kind.isGrouping))

/-- Mirrors `apply` of `HeterogeneousSourceRule`. -/
def apply (scheme : String) (rules : TapRules) (g : Graph) : Outcome Bool :=
  match findCut scheme rules g with
  | .error e => (.error e, g)
  | .ok none => (.ok false, g)
  | .ok (some cut) => (.ok true, g.cutScopes scheme cut)

end SourceNormalization
end Dataflow
