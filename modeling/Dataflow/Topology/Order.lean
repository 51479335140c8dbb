import Dataflow.Topology.Basic

/-!
# Topological order

A vertex is ready once everything that feeds it is placed. The order places the
smallest ready vertex until none is left; if it stalls, what remains is on a
cycle or behind one.
-/
namespace Dataflow

/-- The vertices that cannot be ordered. -/
structure CycleError where
  stuck : IdSet
  deriving DecidableEq, Repr

def CycleError.message (e : CycleError) : String :=
  let first := e.stuck.min?.elim "?" fun id => s!"e{id}"
  s!"cycle among {e.stuck.size} elements starting at {first}"

namespace Topology

variable (t : Topology)

/-- Every edge into `v` comes from a placed vertex. -/
def ready (placed : List ElementId) (v : ElementId) : Bool :=
  (t.edgesIn v).all fun e => placed.contains e.2

/-- Places waiting vertices, the smallest ready one first, at most `n` of them.
Returns the placed ones in order and those left waiting. -/
def place : (n : Nat) → (placed waiting : List ElementId) → List ElementId × List ElementId
  | 0, placed, waiting => (placed, waiting)
  | n + 1, placed, waiting =>
    match waiting.find? (t.ready placed) with
    | none => (placed, waiting)
    | some v => place n (placed ++ [v]) (waiting.erase v)

/-- The vertices in topological order, the smallest ready id first. Mirrors `topological_order`. -/
def order : Except CycleError (List ElementId) :=
  match t.place t.vertices.size [] t.vertices.toList with
  | (placed, []) => .ok placed
  | (_, stuck) => .error ⟨.ofList stuck⟩

end Topology
end Dataflow
