import Dataflow.Step.Draft
import Dataflow.Topology.Order

/-!
# The order of drafts

A draft hands a tap over to another one if it writes the tap and the other reads
it. The drafts are ordered along these handovers, the earliest found ready
draft first.

The order is found by counting. Every draft waits for as many handovers as lead to
it, and one that waits for none is ready. A draft that is placed takes its own
handovers off what is pending, one by one, and what is at zero then is ready too.
If that stalls, the drafts that were not placed are to blame.
-/
namespace Dataflow

/-- Draft `producer` writes a tap that draft `consumer` reads. -/
structure Handover where
  producer : Nat
  consumer : Nat
  tap : ElementId
  deriving DecidableEq, Repr

namespace Draft

/-- The taps that `producer` writes and `consumer` reads. -/
def shared (producer consumer : Draft) : List ElementId :=
  producer.sinks.filter consumer.sources.contains

/-- The handovers between different drafts. Mirrors `draft_edges`. -/
def handovers (drafts : List Draft) : List Handover :=
  drafts.zipIdx.flatMap fun (producer, i) =>
    drafts.zipIdx.flatMap fun (consumer, j) =>
      if i = j then [] else (shared producer consumer).map fun tap => ⟨i, j, tap⟩

/-- For each draft the handovers that lead to it, counted. -/
def counts (count : Nat) (hs : List Handover) : List Nat :=
  hs.foldl (fun pending h => pending.modify h.consumer (· + 1)) (List.replicate count 0)

/-- Takes the handovers of draft `next` off what is pending. A consumer that waits for
nothing more is ready. -/
def release (next : Nat) : List Handover → (pending : List Nat) → (ready : IdSet) →
    List Nat × IdSet
  | [], pending, ready => (pending, ready)
  | h :: hs, pending, ready =>
    if h.producer = next then
      let pending := pending.modify h.consumer (· - 1)
      let ready := if pending[h.consumer]? = some 0 then ready.insert h.consumer else ready
      release next hs pending ready
    else release next hs pending ready

/-- Places up to `budget` drafts, the earliest found of the ready ones first. -/
def sort (hs : List Handover) : (budget : Nat) → (pending : List Nat) → (ready : IdSet) →
    (placed : List Nat) → List Nat
  | 0, _, _, placed => placed
  | budget + 1, pending, ready, placed =>
    match ready.min? with
    | none => placed
    | some next =>
      let (pending, ready) := release next hs pending (ready \ .singleton next)
      sort hs budget pending ready (placed ++ [next])

/-- The elements of the drafts with those numbers. -/
def elementsOf (drafts : List Draft) (numbers : IdSet) : IdSet :=
  .unionOf numbers.toList fun d => drafts[d]?.elim ∅ Draft.elements

/-- The numbers of the drafts in an order that every handover respects. Mirrors `sort_drafts`. -/
def order (drafts : List Draft) (hs : List Handover) : Except CycleError (List Nat) :=
  let count := drafts.length
  let pending := counts count hs
  let ready := .below count fun d => pending[d]? == some 0
  let placed := sort hs count pending ready []
  if placed.length < count then
    .error ⟨elementsOf drafts (.below count fun d => !placed.contains d)⟩
  else .ok placed

end Draft
end Dataflow
