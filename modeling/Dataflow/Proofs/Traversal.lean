import Dataflow.Proofs.Motif.Embedding
import Dataflow.Proofs.Quotient
import Dataflow.Proofs.Topology.PathCounts

/-!
# Traversals of a graph, its views and their contractions

Traversals are written once, for any topology. What their results rest on holds of a graph whose
lists agree with its scopes, of every selection of it and of every contraction of those: an edge
joins two vertices, shows at both of them, and once at each.

Results:

* `orderly_of_over`: their topological orders;
* `charted_of_over`: their paths, the number of these, and what is reached.
-/
namespace Dataflow

open Dataflow.Graph

namespace Target

variable {g : Graph} {t : Target} {v w : ElementId}

theorem next_iff : t.toTopology.Next v w ↔ ∃ s, (s, w) ∈ t.edgesOut v := by
  show w ∈ t.successors v ↔ _
  simp only [Topology.successors, IdSet.mem_ofList, List.mem_map, Prod.exists, exists_eq_right]

theorem Sound.topology (h : t.Sound) : t.toTopology.Sound where
  ends v w hvw := by
    obtain ⟨s, hs⟩ := next_iff.1 hvw
    exact h.ends s v w hs
  dual v w := by
    rw [next_iff]
    simp only [Topology.predecessors, IdSet.mem_ofList, List.mem_map, Prod.exists, exists_eq_right]
    exact exists_congr fun s => (h.dual s v w).symm

theorem bounded_of_over (h : g.Agrees) (hends : g.EndsLive) (ht : Target.Over g t) :
    t.toTopology.Bounded := by
  have hcontract : ∀ (a : Selection) (test : VertexTest),
      ((a.view g).contract test).topology.Bounded := by
    intro a test r hr
    have hv := View.sound_of_endsLive (v := a.view g) h hends
    exact View.lt_bound_of_mem (hv.representative?_spec (Contraction.mem_vertices.1 hr)).1
  cases ht with
  | graph => exact fun v hv => lt_size_of_contains (mem_elements.1 hv)
  | view a => exact fun v hv => View.lt_bound_of_mem hv
  | contracted a test => exact hcontract a test
  | uncontracted a =>
    rw [← View.contract_anyOf_nil]
    exact hcontract a _

/-- Between two vertices as many edges leave the one as enter the other. -/
theorem matched_of_over (h : g.Agrees) (hends : g.EndsLive) (ht : Target.Over g t) :
    t.toTopology.Matched := by
  have hdual := (sound_of_over h hends ht).dual
  have hview : ∀ a : Selection, (a.view g).Sound := fun a => View.sound_of_endsLive h hends
  cases ht with
  | graph => exact Topology.matched_of_dual hdual h.edgesOut_nodup h.edgesIn_nodup
  | view a =>
    exact Topology.matched_of_dual hdual (hview a).edgesOut_nodup (hview a).edgesIn_nodup
  | contracted a test =>
    exact Topology.matched_of_dual hdual (hview a).edgesOut_contract_nodup
      (hview a).edgesIn_contract_nodup
  | uncontracted a =>
    rw [← View.contract_anyOf_nil] at hdual ⊢
    exact Topology.matched_of_dual hdual (hview a).edgesOut_contract_nodup
      (hview a).edgesIn_contract_nodup

/-- **The topological order is the least one**, in a graph, in every view of it and in every
contraction of a view; where there is none, the vertices on a cycle and behind one are to blame. -/
theorem orderly_of_over (h : g.Agrees) (hends : g.EndsLive) (ht : Target.Over g t) :
    t.toTopology.Orderly :=
  (sound_of_over h hends ht).topology.orderly (matched_of_over h hends ht)

/-- **Paths, their number and reachability fit together**, in a graph, in every view of it and in
every contraction of a view. -/
theorem charted_of_over (h : g.Agrees) (hends : g.EndsLive) (ht : Target.Over g t)
    (hv : v ∈ t.vertices) (hw : w ∈ t.vertices) : t.toTopology.Charted v w :=
  (sound_of_over h hends ht).topology.charted (bounded_of_over h hends ht) hv hw

end Target

/-- An operation reads another one twice, and once more through a pipe. -/
def aside : Definition where
  name := "aside"
  stages :=
    [⟨"in", [], .source ⟨"hdfs", "in", none, true⟩⟩,
      ⟨"parse", ["in"], .each ⟨"parse", none, none, ["key"], .results⟩⟩,
      ⟨"past", ["parse"], .pipe⟩,
      ⟨"clean", ["parse", "parse", "past"], .each ⟨"clean", none, none, ["key"], .results⟩⟩,
      ⟨"out", ["clean"], .sink ⟨"hdfs", "out", none, true⟩⟩]

/-- With its operations merged, the graph has a cycle through the pipe. -/
theorem orderly_aside : ∃ g t t', aside.toGraph = .ok g ∧ g.Agrees ∧ g.EndsLive ∧
    t = g.target ∧ Target.Over g t ∧ t.toTopology.Orderly ∧
      t.order = .ok [0, 2, 3, 4, 5, 6, 1] ∧
        t' = (((Selection.whole g).view g).contract (.kind .each)).target ∧ Target.Over g t' ∧
          t'.toTopology.Orderly ∧ t'.order = .error ⟨.ofList [1, 3, 4, 6]⟩ := by
  have hany : (aside.toGraph.toOption.any fun g => decide
      (g.target.order = .ok [0, 2, 3, 4, 5, 6, 1] ∧
        (((Selection.whole g).view g).contract (.kind .each)).target.order =
          .error ⟨.ofList [1, 3, 4, 6]⟩)) = true := by cbv
  obtain ⟨g, hd, hany⟩ := exists_ok_of_any hany
  obtain ⟨horder, hcycle⟩ := of_decide_eq_true hany
  have hlayout := Definition.toGraph_layout hd
  exact ⟨g, _, _, hd, hlayout.agrees, hlayout.ends, rfl, .graph,
    Target.orderly_of_over hlayout.agrees hlayout.ends .graph, horder, rfl, .contracted _ _,
    Target.orderly_of_over hlayout.agrees hlayout.ends (.contracted _ _), hcycle⟩

/-- The parallel scopes make no path of their own. -/
theorem charted_aside : ∃ g t, aside.toGraph = .ok g ∧ g.Agrees ∧ g.EndsLive ∧
    t = ((Selection.whole g).view g).target ∧ Target.Over g t ∧ head ∈ t.vertices ∧
      tail ∈ t.vertices ∧ t.toTopology.Charted head tail ∧ t.pathCount head tail = 2 ∧
        t.paths head tail = [[0, 2, 3, 5, 6, 1], [0, 2, 3, 4, 5, 6, 1]] := by
  have hany : (aside.toGraph.toOption.any fun g => decide
      (((Selection.whole g).view g).target.vertices = .ofList [0, 1, 2, 3, 4, 5, 6] ∧
        ((Selection.whole g).view g).target.pathCount head tail = 2 ∧
          ((Selection.whole g).view g).target.paths head tail =
            [[0, 2, 3, 5, 6, 1], [0, 2, 3, 4, 5, 6, 1]])) = true := by cbv
  obtain ⟨g, hd, hany⟩ := exists_ok_of_any hany
  obtain ⟨hvert, hfound⟩ := of_decide_eq_true hany
  have hlayout := Definition.toGraph_layout hd
  have hhead : head ∈ ((Selection.whole g).view g).target.vertices := hvert ▸ by decide
  have htail : tail ∈ ((Selection.whole g).view g).target.vertices := hvert ▸ by decide
  exact ⟨g, _, hd, hlayout.agrees, hlayout.ends, rfl, .view _, hhead, htail,
    Target.charted_of_over hlayout.agrees hlayout.ends (.view _) hhead htail, hfound⟩

end Dataflow
