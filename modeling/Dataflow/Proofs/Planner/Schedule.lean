import Dataflow.Proofs.Planner.Reverification
import Dataflow.Proofs.Step.Entanglement

/-!
# When a plan can be scheduled

A rewritten graph passes verification again, so it has an order, and each of its drafts
can be finished. But the rules cut a graph at groupings, joins and splits, and do not look
at what the regions between the cuts wait for. So the steps may still wait for each other,
and partitioning then says that there is a cycle; `forked` is the least such pipeline. That
is the only way for it to fail.

Results:

* `schedules_iff_of_reshape`: when a rewritten graph is cut into steps;
* `forked_unscheduled`: a verified pipeline whose steps wait for each other.
-/
namespace Dataflow

open Dataflow.Graph Relation

variable {g g' : Graph} {rules : TapRules}

/-- **When a rewritten graph can be scheduled.** It is cut into steps if it is not entangled,
and only then; if it is, partitioning fails with a cycle. -/
theorem schedules_iff_of_reshape {d : Definition} {c : PlannerConfig} {w : Diagnostics}
    (hd : d.toGraph = .ok g) (h : c.reshape rules g = .ok (g', w)) (multiEdge : Bool) :
    ((∃ p, StepGraph.build g' multiEdge = .ok p) ↔ ¬ g'.Entangled) ∧
      ∀ e, StepGraph.build g' multiEdge = .error e → ∃ stuck, e = .cycle stuck := by
  obtain ⟨hs, hsound, -⟩ := PlannerConfig.sound_of_reshape hd h
  exact StepGraph.exists_build_iff hs hsound.onPath (PlannerConfig.partitioned_of_reshape hd h)
    multiEdge

theorem schedules_regrouped : ∃ g g' w p, regrouped.toGraph = .ok g ∧
    PlannerConfig.default.reshape .byScheme g = .ok (g', w) ∧
      StepGraph.build g' false = .ok p ∧ ¬ g'.Entangled := by
  have hany : (regrouped.toGraph.toOption.any fun g =>
      (PlannerConfig.default.reshape .byScheme g).toOption.any fun r =>
        (StepGraph.build r.1 false).toOption.any fun p => decide (2 ≤ p.size)) = true := by cbv
  obtain ⟨g, hd, hany⟩ := exists_ok_of_any hany
  obtain ⟨⟨g', w⟩, h, hany⟩ := exists_ok_of_any hany
  obtain ⟨p, hb, -⟩ := exists_ok_of_any hany
  exact ⟨g, g', w, p, hd, h, hb, (schedules_iff_of_reshape hd h false).1.1 ⟨p, hb⟩⟩

/-- A join reads one grouping directly, and once more through a second grouping. -/
def forked : Definition where
  name := "forked"
  stages :=
    [⟨"in", [], .source ⟨"hdfs", "in", some ["key"], true⟩⟩,
      ⟨"first", ["in"], .groupBy ["key"]⟩, ⟨"second", ["first"], .groupBy ["key"]⟩,
      ⟨"pairs", ["first", "second"], .hashJoin ⟨["key"], .inner, some ["left", "right"]⟩⟩,
      ⟨"out", ["pairs"], .sink ⟨"hdfs", "out", none, true⟩⟩]

/-- The first grouping is in one step with the join, and the second one has a step of its
own: each of them reads what the other one writes. -/
theorem forked_unscheduled : ∃ g g' w stuck, forked.toGraph = .ok g ∧
    PlannerConfig.default.reshape .byScheme g = .ok (g', w) ∧
      (∃ l, g'.topology.order = .ok l) ∧ StepGraph.build g' false = .error (.cycle stuck) := by
  have hany : (forked.toGraph.toOption.any fun g =>
      (PlannerConfig.default.reshape .byScheme g).toOption.any fun r =>
        r.1.topology.order.toOption.any fun _ => match StepGraph.build r.1 false with
          | .error (.cycle _) => true
          | _ => false) = true := by cbv
  obtain ⟨g, hd, hany⟩ := exists_ok_of_any hany
  obtain ⟨⟨g', w⟩, h, hany⟩ := exists_ok_of_any hany
  obtain ⟨l, hl, hany⟩ := exists_ok_of_any hany
  split at hany
  · next stuck hb => exact ⟨g, g', w, stuck, hd, h, ⟨l, hl⟩, hb⟩
  · cases hany

end Dataflow
