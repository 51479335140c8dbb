import Dataflow.Planner.Error
import Dataflow.Topology.Reach

/-!
# Verification

Structural checks before any rule is applied. `verify` collects every problem; a cycle
ends it at once, since the other checks assume that elements can be ordered.
`checkEveryChains` is run once more after the rules.

* every inner element lies on a way from `head` to `tail`;
* an every follows a grouping or another every, and a buffer is alone;
* joins have at least two inputs; a join may leave its fields to its joiner;
* a sink that is read back can return what it wrote;
* directly behind a boundary no split reaches two groupings.
-/
namespace Dataflow
namespace Verify

variable (g : Graph)

/-- One diagnostic at the first element of a cycle, with notes on the others. -/
def cycleReport (e : CycleError) : Diagnostics :=
  match e.stuck.toList.filter fun id => !Graph.isExtent id with
  | [] => .empty
  | first :: others =>
    ⟨[.report .cycle first none (others.map fun id => ⟨id, "cannot be ordered"⟩)]⟩

/-- What feeds an every although it may not. -/
def misplaced (id : ElementId) : List ElementId :=
  (g.predecessors id).toList.filter fun p => !g.hasKind Kind.feedsEvery p

def labelOf (id : ElementId) : String := (g.kind? id).elim "" Kind.label

/-- Mirrors `check_every`. -/
def everyReport (id : ElementId) : List Diagnostic :=
  match misplaced g id with
  | [] => []
  | ps => [.report .everyWithoutGrouping id none (ps.map fun p => ⟨p, s!"fed by {labelOf g p}"⟩)]

/-- Mirrors `check_buffer`. -/
def bufferReport (id : ElementId) : List Diagnostic :=
  let everies := fun (s : IdSet) => s.toList.filter (g.hasKind Kind.isEvery)
  let before := (everies (g.predecessors id)).map fun p => ⟨p, "runs before it"⟩
  let after := (everies (g.successors id)).map fun s => ⟨s, "runs after it"⟩
  match before ++ after with
  | [] => []
  | others => [.report .bufferNotAlone id none others]

/-- Mirrors `check_join_arity`. -/
def arityReport (id : ElementId) : List Diagnostic :=
  let inputs := (g.incoming id).length
  if inputs < 2 then [.report .joinArity id (some (toString inputs)) []] else []

/-- Mirrors `check_deferred`. -/
def deferralReport (id : ElementId) (j : Join) : List Diagnostic :=
  match j.defers, j.joiner with
  | true, .custom name => [.report .deferredJoinFields id (some name) []]
  | _, _ => []

def readBackReport (rules : TapRules) (id : ElementId) (tap : Tap) : List Diagnostic :=
  let readBack := (g.successors id).toList.any fun s => !Graph.isExtent s
  if readBack && !rules.symmetrical tap then
    [.report .asymmetricReadBack id (some s!"scheme `{tap.scheme}` is not symmetrical") []]
  else []

/-- A processing element with several outgoing scopes. -/
def isSplit (id : ElementId) : Bool :=
  g.hasKind Kind.isProcessing id && decide (2 ≤ (g.outgoing id).length)

/-- What is met behind `id`; the search stops at groupings and taps. -/
def metBelow (id : ElementId) : List ElementId :=
  let start := (g.successors id).toList
  let goesOn := fun v => !Graph.isExtent v && !g.hasKind Kind.isGrouping v && !g.hasKind Kind.isTap v
  explore (fun v => if goesOn v then (g.successors v).toList else []) (g.size + 1) start start

/-- The groupings behind `id` with no tap in between. Mirrors `groupings_reached`. -/
def groupingsBelow (id : ElementId) : IdSet :=
  .ofList ((metBelow g id).filter (g.hasKind Kind.isGrouping))

/-- Mirrors `check_split_after_boundary`. -/
def splitReport (id : ElementId) : List Diagnostic :=
  ((g.successors id).toList.filter (isSplit g)).filterMap fun split =>
    let groupings := groupingsBelow g split
    if groupings.size < 2 then none
    else some <| .report .splitAfterBoundary split none <|
      ⟨id, "feeds it directly"⟩ :: groupings.toList.map fun e => ⟨e, "reached from the split"⟩

/-- The checks for an element by its kind. -/
def kindReport (rules : TapRules) (id : ElementId) : Kind → List Diagnostic
  | .every op => everyReport g id ++ if op.role = .buffer then bufferReport g id else []
  | .group .coGroup j | .hashJoin j => arityReport g id ++ deferralReport id j
  | .sink tap => readBackReport g rules id tap
  | .boundary _ => splitReport g id
  | .group .groupBy _ | .extent _ | .source _ | .pipe | .each _ | .merge => []

/-- The elements on a way from `head` to `tail`. -/
def onPath : IdSet :=
  let reaching := g.topology.ancestors Graph.tail
  (g.topology.descendants Graph.head).filter fun id => decide (id ∈ reaching)

def elementReport (rules : TapRules) (onPath : IdSet) (id : ElementId) : List Diagnostic :=
  if id ∈ onPath then (g.kind? id).elim [] (kindReport g rules id)
  else [.report .notOnPath id none []]

/-- An element that the checks at `id` would have to look at, although it was
removed. -/
def unreadable? (onPath : IdSet) (id : ElementId) : Option ElementId :=
  let removed := fun e => !g.contains e
  if id ∉ onPath then none
  else if g.hasKind Kind.isBuffer id then (g.successors id).toList.find? removed
  else if g.hasKind Kind.isBoundary id then
    (g.successors id).toList.findSome? fun s =>
      if removed s then some s
      else if isSplit g s then (metBelow g s).find? fun e => !Graph.isExtent e && removed e
      else none
  else none

end Verify

/-- Every structural problem of the graph. Mirrors `verify`. -/
def Graph.verify (g : Graph) (rules : TapRules) : Except DeadRef Diagnostics :=
  match g.topology.order with
  | .error e => .ok (Verify.cycleReport e)
  | .ok _ =>
    let onPath := Verify.onPath g
    match g.innerElements.toList.findSome? (Verify.unreadable? g onPath) with
    | some id => .error (.element id g.name)
    | none => .ok ⟨g.innerElements.toList.flatMap (Verify.elementReport g rules onPath)⟩

/-- An every with something that feeds it although it may not. -/
def Graph.detached? (g : Graph) : Option (ElementId × ElementId) :=
  (g.elements.toList.filter (g.hasKind Kind.isEvery)).findSome? fun id =>
    (Verify.misplaced g id).head?.map (id, ·)

/-- Every every is fed by groupings and other everies alone. Mirrors `check_every_chains`. -/
def Graph.checkEveryChains (g : Graph) : Except PlanError Unit :=
  match g.detached? with
  | none => .ok ()
  | some (every, fedBy) =>
    match g.element? fedBy with
    | none => .error (.dead (.element fedBy g.name))
    | some e => .error (.detachedEvery (g.nameOf every) e.name)

end Dataflow
