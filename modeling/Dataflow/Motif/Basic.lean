import Dataflow.Motif.Test

/-!
# Motifs

A motif is a small graph of tests. Its vertices may carry a capture, which names
the elements that a caller cares about; the primary capture is the anchor, and
there is exactly one. A motif is usable if every vertex hangs together with its
anchor.
-/
namespace Dataflow

inductive Capture where
  /-- The anchor; exactly one vertex carries it. -/
  | primary
  | secondary
  /-- Context that belongs to the result without being claimed by it. -/
  | included
  deriving DecidableEq, Repr

inductive MotifError where
  | empty
  | noPrimary
  | multiplePrimary (count : Nat)
  | disconnected (vertex : Nat)
  | danglingEdge (vertex : Nat)
  deriving DecidableEq, Repr

def MotifError.message : MotifError → String
  | empty => "pattern has no vertices"
  | noPrimary => "pattern has no primary capture"
  | multiplePrimary count => s!"pattern has {count} primary captures, expected one"
  | disconnected vertex => s!"pattern vertex {vertex} is not connected to the primary"
  | danglingEdge vertex => s!"pattern edge refers to missing vertex {vertex}"

structure MotifNode where
  test : VertexTest
  capture : Option Capture
  deriving Repr

structure MotifEdge where
  origin : Nat
  target : Nat
  test : ScopeTest
  deriving DecidableEq, Repr

/-- Mirrors `ExpressionGraph`. -/
structure Motif where
  nodes : List MotifNode
  edges : List MotifEdge
  deriving Repr

namespace Motif

variable (m : Motif)

/-- The number of vertices. -/
def size : Nat := m.nodes.length

/-- The vertex at the other end of an edge at `v`. -/
def otherEnd (v : Nat) (e : MotifEdge) : Nat := if e.origin = v then e.target else e.origin

/-- The edges that touch `v`, in either direction. Mirrors `incident`. -/
def incident (v : Nat) : List MotifEdge := m.edges.filter fun e => e.origin == v || e.target == v

/-- The vertices next to `v`, in the order of the edges. -/
def neighbours (v : Nat) : List Nat := (m.incident v).map (otherEnd v)

/-- The vertices that hang together with `primary`, breadth first. Mirrors `search_order`. -/
def searchOrder (primary : Nat) : List Nat := explore m.neighbours (m.size + 1) [primary] [primary]

/-- The vertices that carry the primary capture. -/
def primaries : List Nat :=
  (List.range m.size).filter fun v => (m.nodes[v]?.bind MotifNode.capture) == some .primary

/-- An edge with an end that is no vertex. -/
def dangling (e : MotifEdge) : Bool := decide (m.size ≤ e.origin) || decide (m.size ≤ e.target)

/-- The anchor of a usable motif. Mirrors `validate`. -/
def validate : Except MotifError Nat :=
  if m.nodes.isEmpty then .error .empty
  else match m.edges.find? m.dangling with
    | some e => .error (.danglingEdge (max e.origin e.target))
    | none =>
      match m.primaries with
      | [] => .error .noPrimary
      | [p] =>
        match (List.range m.size).find? fun v => !(m.searchOrder p).contains v with
        | some v => .error (.disconnected v)
        | none => .ok p
      | ps => .error (.multiplePrimary ps.length)

end Motif
end Dataflow
