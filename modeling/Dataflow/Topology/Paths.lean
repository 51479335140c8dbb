import Dataflow.Topology.Order

/-!
# Paths

A path is the list of its vertices, all distinct; parallel edges do not make
paths different. `paths` lists them, the shortest first and those of one length
by their ids. `pathCount` counts them on a topology without cycles, without
listing them.

The number of paths doubles with every diamond between two vertices: callers
keep the searched part small.
-/
namespace Dataflow

/-- A finite table of counts; what is not in it counts zero. -/
abbrev Tally := List (Nat × Nat)

namespace Tally

def get (c : Tally) (v : Nat) : Nat := (c.lookup v).getD 0

def add : Tally → Nat → Nat → Tally
  | [], v, n => [(v, n)]
  | (w, m) :: rest, v, n => if w = v then (w, m + n) :: rest else (w, m) :: add rest v n

/-- Adds `n` at each of `vs`, once per occurrence. -/
def addAll (c : Tally) (vs : List Nat) (n : Nat) : Tally := vs.foldl (fun c v => c.add v n) c

/-- Adds `n` at `v` in words of 64 bits; `none` where the sum outgrows its word. -/
def add? (c : Tally) (v n : Nat) : Option Tally :=
  if c.get v + n < UInt64.size then some (c.add v n) else none

/-- The same at each of `vs`, once per occurrence. -/
def addAll? (c : Tally) (vs : List Nat) (n : Nat) : Option Tally :=
  vs.foldlM (fun c v => c.add? v n) c

end Tally

namespace Topology

variable (t : Topology)

/-- The paths from `v` to `goal` that stay off `visited`, of at most `n` vertices. Mirrors
`collect_paths`. -/
def pathsFrom (goal : ElementId) : (n : Nat) → (visited : List ElementId) → (v : ElementId) →
    List (List ElementId)
  | 0, _, _ => []
  | n + 1, visited, v =>
    if v = goal then [[v]]
    else
      ((t.successors v).toList.filter fun w => !visited.contains w).flatMap fun w =>
        (pathsFrom goal n (w :: visited) w).map (v :: ·)

/-- Shorter first, then by ids. -/
def pathLe (p q : List ElementId) : Bool :=
  decide (p.length < q.length ∨ (p.length = q.length ∧ List.le p q))

/-- The paths from `v` to `w`, the shortest first, ties by ids. Mirrors `paths_between`. -/
def paths (v w : ElementId) : List (List ElementId) :=
  if v ∈ t.vertices ∧ w ∈ t.vertices then
    (t.pathsFrom w (t.bound + 1) [v] v).mergeSort pathLe
  else []

/-- The paths of minimal length. Mirrors `shortest_paths`. -/
def shortestPaths (v w : ElementId) : List (List ElementId) :=
  match t.paths v w with
  | [] => []
  | p :: rest => p :: rest.filter fun q => q.length == p.length

/-- Passes the count of each vertex on to its successors, in the given order;
`goal` keeps its count. -/
def spread (goal : ElementId) (counts : Tally) (order : List ElementId) : Tally :=
  order.foldl (fun c v => if v = goal then c else c.addAll (t.successors v).toList (c.get v)) counts

/-- Mirrors `path_count`: the number of paths from `v` to `w`, without a bound on it; zero where
vertices cannot be ordered. -/
def pathCount (v w : ElementId) : Nat :=
  match t.order with
  | .error _ => 0
  | .ok order => (t.spread w [(v, 1)] order).get w

end Topology
end Dataflow
