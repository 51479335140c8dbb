import Dataflow.Cursor.Basic
import Dataflow.Topology.Paths

/-!
# What the others leave behind

A remainder cursor passes the selections of the wrapped cursor through and then
yields what none of them claimed, extents aside. So that pieces on either side
of a claimed run stay connected, every path of the domain from a root to a leaf
of the leftover is added back, except between pairs that the wrapped cursor
split into paths. On request a claimed element that is joined to one leftover
element by parallel scopes is added back too.
-/
namespace Dataflow

/-- A scope between a claimed element and a leftover one. -/
structure Link where
  claimed : ElementId
  scope : ScopeId
  neighbour : ElementId
  deriving DecidableEq, Repr

namespace Remainder

/-- The leftover elements with the unclaimed scopes among them. -/
def leftover (g : Graph) (domain mask : Selection) : Selection :=
  let elements := domain.elements \ mask.elements
  let inside := fun s => (g.scope? s).any fun scope =>
    decide (scope.origin ∈ elements) && decide (scope.target ∈ elements)
  ⟨elements, (domain.scopes \ mask.scopes).filter inside⟩

/-- The unclaimed scopes with one end among `elements`. -/
def links (g : Graph) (elements scopes : IdSet) : List Link :=
  scopes.toList.filterMap fun s =>
    (g.scope? s).bind fun scope =>
      match decide (scope.origin ∈ elements), decide (scope.target ∈ elements) with
      | false, true => some ⟨scope.origin, s, scope.target⟩
      | true, false => some ⟨scope.target, s, scope.origin⟩
      | _, _ => none

/-- The claimed elements that reach one leftover element along several scopes,
with all their links. -/
def parallelLinks (ls : List Link) : Selection :=
  let claimed := (IdSet.ofList (ls.map Link.claimed)).filter fun e =>
    let mine := ls.filter fun l => l.claimed == e
    decide (mine.length > (IdSet.ofList (mine.map Link.neighbour)).size)
  ⟨claimed, .ofList <| ls.filterMap fun l => if l.claimed ∈ claimed then some l.scope else none⟩

/-- A path with every scope of the topology along it. -/
def trace (t : Topology) (path : List ElementId) : Selection where
  elements := .ofList path
  scopes := .ofList <| (path.zip path.tail).flatMap fun (a, b) =>
    (t.edgesOut a).filterMap fun (s, target) => if target = b then some s else none

/-- Every path of the domain between a root and a leaf of the leftover. Mirrors `reconnect`. -/
def reconnection (g : Graph) (domain left : Selection) (pairs : List (ElementId × ElementId)) :
    Selection :=
  let t := (left.view g).topology
  let full := (domain.view g).topology
  let paired := fun a b => pairs.contains (a, b) || pairs.contains (b, a)
  let ends := t.roots.toList.flatMap fun root =>
    (t.leaves.toList.filter fun leaf => !(root == leaf || paired root leaf)).map fun leaf =>
      (root, leaf)
  let traces := ends.flatMap fun (root, leaf) => (full.paths root leaf).map (trace full)
  ⟨.unionOf traces Selection.elements, .unionOf traces Selection.scopes⟩

/-- Mirrors `compute`: what the claimed part `mask` leaves of the domain, if it leaves an
element. -/
def compute (g : Graph) (domain mask : Selection) (pairs : List (ElementId × ElementId))
    (multiEdge : Bool) : Option Selection :=
  let domain := domain.withoutExtents g
  let left := leftover g domain mask
  if left.elements.isEmpty then none
  else
    let whole := left ∪ reconnection g domain left pairs
    if multiEdge then
      some (whole ∪ parallelLinks (links g left.elements (domain.scopes \ mask.scopes)))
    else some whole

end Remainder

/-- Mirrors `RemainderIterator`. -/
structure RemainderCursor (σ : Type) where
  inner : σ
  multiEdge : Bool
  /-- Everything the wrapped cursor has yielded. -/
  mask : Selection
  /-- The remainder, once computed and until taken. -/
  remainder : Option Selection
  computed : Bool
  deriving Repr

namespace RemainderCursor

def new {σ : Type} (inner : σ) (multiEdge : Bool) : RemainderCursor σ :=
  ⟨inner, multiEdge, .empty, none, false⟩

variable {σ : Type} [Cursor σ]

/-- Computes the remainder unless that has been done. -/
def settle (c : RemainderCursor σ) : RemainderCursor σ :=
  if c.computed then c
  else
    { c with
      computed := true
      remainder := Remainder.compute (Cursor.graph c.inner) (Cursor.domain c.inner) c.mask
        (Cursor.pairs c.inner) c.multiEdge }

/-- A removed scope in the domain, which keeps the remainder from being computed. -/
def blocked? (c : RemainderCursor σ) : Option DeadRef :=
  if c.computed then none
  else (Cursor.graph c.inner).deadScope? (Cursor.domain c.inner).scopes

/-- Mirrors `at_remainder`: whether the wrapped cursor is spent, so that only the remainder can
come. -/
def atRemainder (c : RemainderCursor σ) : Bool × RemainderCursor σ :=
  let (more, inner) := Cursor.hasNext c.inner
  (!more, { c with inner })

/-- Mirrors `has_next` of `RemainderIterator`. -/
def hasNext (c : RemainderCursor σ) : Bool × RemainderCursor σ :=
  match Cursor.hasNext c.inner with
  | (true, inner) => (true, { c with inner })
  | (false, inner) =>
    let c := { c with inner }
    if c.blocked?.isSome then (true, c)
    else
      let c := c.settle
      (c.remainder.isSome, c)

/-- Mirrors `next` of `RemainderIterator`. -/
def next (c : RemainderCursor σ) : Except CursorError Selection × RemainderCursor σ :=
  match Cursor.hasNext c.inner with
  | (true, inner) =>
    match Cursor.next inner with
    | (.error e, inner) => (.error e, { c with inner })
    | (.ok s, inner) => (.ok s, { c with inner, mask := c.mask ∪ s })
  | (false, inner) =>
    let c := { c with inner }
    match c.blocked? with
    | some ref => (.error (.dead ref), c)
    | none =>
      let c := c.settle
      match c.remainder with
      | none => (.error .exhausted, c)
      | some s => (.ok s, { c with remainder := none })

instance : Cursor (RemainderCursor σ) where
  graph c := Cursor.graph c.inner
  domain c := Cursor.domain c.inner
  hasNext := hasNext
  next := next
  captured c := Cursor.captured c.inner
  pairs c := Cursor.pairs c.inner
  capacity c := Cursor.capacity c.inner + 1

end RemainderCursor
end Dataflow
