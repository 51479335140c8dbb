import Dataflow.Motif.Target

/-!
# Tests on vertices and scopes

A vertex test asks for the kind or the degrees of a vertex, and combines such
questions. Of a vertex that stands for several elements a kind test asks every
one of them; degrees are those of the target at hand.
-/
namespace Dataflow

/-- A family of element kinds. -/
inductive KindClass where
  | extent
  | head
  | tail
  | source
  | sink
  | boundary
  /-- Source, sink or boundary. -/
  | tap
  | pipe
  | each
  | every
  | buffer
  | merge
  /-- Group-by or co-group. -/
  | grouping
  | groupBy
  | coGroup
  | hashJoin
  /-- Pipe, each, every, merge or hash join. -/
  | processing
  deriving DecidableEq, Repr

def KindClass.admits : KindClass → Kind → Bool
  | .extent, k => k.isExtent
  | .head, .extent .head => true
  | .tail, .extent .tail => true
  | .source, .source _ => true
  | .sink, .sink _ => true
  | .boundary, k => k.isBoundary
  | .tap, k => k.isTap
  | .pipe, .pipe => true
  | .each, .each _ => true
  | .every, k => k.isEvery
  | .buffer, k => k.isBuffer
  | .merge, .merge => true
  | .grouping, k => k.isGrouping
  | .groupBy, .group .groupBy _ => true
  | .coGroup, .group .coGroup _ => true
  | .hashJoin, .hashJoin _ => true
  | .processing, k => k.isProcessing
  | _, _ => false

/-- The classes in the order in which they are listed. -/
def KindClass.list : List KindClass :=
  [.extent, .head, .tail, .source, .sink, .boundary, .tap, .pipe, .each, .every, .buffer, .merge,
    .grouping, .groupBy, .coGroup, .hashJoin, .processing]

inductive Comparison where
  | eq
  | gt
  | ge
  | lt
  | le
  deriving DecidableEq, Repr

def Comparison.holds : Comparison → Nat → Nat → Bool
  | .eq, a, b => a == b
  | .gt, a, b => decide (a > b)
  | .ge, a, b => decide (a ≥ b)
  | .lt, a, b => decide (a < b)
  | .le, a, b => decide (a ≤ b)

/-- Mirrors `ElementExpression`. -/
inductive VertexTest where
  | any
  | kind (c : KindClass)
  | inDegree (c : Comparison) (n : Nat)
  | outDegree (c : Comparison) (n : Nat)
  | not (e : VertexTest)
  | all (es : List VertexTest)
  | anyOf (es : List VertexTest)
  deriving Repr

namespace VertexTest

instance : Inhabited VertexTest := ⟨any⟩

/-- Conjunction; a conjunction on the left is extended. -/
def and : VertexTest → VertexTest → VertexTest
  | all es, e => all (es ++ [e])
  | d, e => all [d, e]

/-- Disjunction; a disjunction on the left is extended. -/
def or : VertexTest → VertexTest → VertexTest
  | anyOf es, e => anyOf (es ++ [e])
  | d, e => anyOf [d, e]

mutual

/-- The vertex passes the test. Mirrors `matches` of `ElementExpression`. -/
def holds (t : Target) (v : ElementId) : VertexTest → Bool
  | any => true
  | kind c =>
    !(t.members v).isEmpty && (t.members v).toList.all fun m => t.graph.hasKind c.admits m
  | inDegree c n => c.holds (t.inDegree v) n
  | outDegree c n => c.holds (t.outDegree v) n
  | not e => !holds t v e
  | all es => holdAll t v es
  | anyOf es => holdsSome t v es

def holdAll (t : Target) (v : ElementId) : List VertexTest → Bool
  | [] => true
  | e :: es => holds t v e && holdAll t v es

def holdsSome (t : Target) (v : ElementId) : List VertexTest → Bool
  | [] => false
  | e :: es => holds t v e || holdsSome t v es

end

end VertexTest

/-- A test on the input position of a scope. Mirrors `ScopeExpression`. -/
inductive ScopeTest where
  | any
  /-- Position zero. -/
  | streamed
  /-- Any position after the first. -/
  | accumulated
  | ordinal (n : Nat)
  deriving DecidableEq, Repr

def ScopeTest.admits : ScopeTest → Scope → Bool
  | .any, _ => true
  | .streamed, s => s.ordinal == 0
  | .accumulated, s => decide (s.ordinal > 0)
  | .ordinal n, s => s.ordinal == n

end Dataflow
