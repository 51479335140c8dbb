import Dataflow.Topology.Basic

/-!
# Reachability

`explore` is a breadth-first walk: it takes vertices off a queue, adds their new
neighbours to what was found and to the queue, and lists everything in the
order in which it was found. A vertex is queued once, so a budget of one step
per id below the bound is enough.
-/
namespace Dataflow

/-- The members of `next` that are new, each once, in order. -/
def newcomers (found : List Nat) : List Nat → List Nat
  | [] => []
  | v :: rest => if v ∈ found then newcomers found rest else v :: newcomers (v :: found) rest

/-- Walks from the queue, taking up to `budget` vertices off it. Mirrors `walk`. -/
def explore (next : Nat → List Nat) : (budget : Nat) → (found queue : List Nat) → List Nat
  | 0, found, _ => found
  | _ + 1, found, [] => found
  | budget + 1, found, v :: queue =>
    let fresh := newcomers found (next v)
    explore next budget (found ++ fresh) (queue ++ fresh)

namespace Topology

variable (t : Topology)

/-- Everything reached from `v` along at least one edge. Mirrors `descendants`. -/
def descendants (v : ElementId) : IdSet :=
  .ofList (explore (fun w => (t.successors w).toList) (t.bound + 1) [] [v])

/-- Everything that reaches `v` along at least one edge. Mirrors `ancestors`. -/
def ancestors (v : ElementId) : IdSet :=
  .ofList (explore (fun w => (t.predecessors w).toList) (t.bound + 1) [] [v])

def isReachable (v w : ElementId) : Bool := v == w || decide (w ∈ t.descendants v)

end Topology
end Dataflow
