import Dataflow.Proofs.Flow.Isolation
import Dataflow.Proofs.Planner.Reverification

/-!
# Which inputs of hash joins end up sharing a tap

The inputs that a hash join reads into memory are isolated when join isolation settles,
and still are when fields are resolved. Then boundaries collapse, and nobody looks at the
joins again. A boundary that gives way to the tap behind it takes its readers there, so
two inputs come to share a tap where one of them was fed by the boundary and the other one
by the tap. They share nothing else, and where boundaries stay they share nothing.
In `reread` the boundary that isolates an input is the one that the other input ends up on.

Results:

* `PlannerConfig.isolated_of_settled`: inputs are isolated before boundaries collapse;
* `isolated_of_reshape`: what they share afterwards;
* `reread_not_isolated`: a pipeline whose join has an incompatible input in the end.
-/
namespace Dataflow

open Dataflow.Graph Relation

variable {g g' : Graph} {rules : TapRules}

namespace PlannerConfig

variable {c : PlannerConfig}

theorem isolated_of_settled (hs : g.Shaped) (h : g.OnPath) (hset : c.settled rules g = .ok g') :
    g'.Isolated fun _ => False := by
  obtain ⟨g1, h1, h2⟩ := bind_eq_ok.1 hset
  -- join isolation is the third rule, and two rules at most come after it
  rw [shapingRules, List.append_assoc, settleAll_append] at h1
  obtain ⟨g3, h3, h1⟩ := h1
  have e3 : Edits c.tempScheme rules g g3 := settleAll_edits (fun x hx => by
    refine uses_of_mem_shapingRules (List.mem_append_left _ (List.mem_append_left _ hx))) hs h3
  have hs3 := e3.shaped hs
  have hjoin : JoinIsolation.incompatibleInput g3 = .ok none := by
    have happly := settleAll_concat (l := [_, _]) h3
    rw [Rule.apply, JoinIsolation.apply_eq, changeAt_eq_false] at happly
    exact happly.1
  have hiso := (JoinIsolation.incompatibleInput_eq_none_iff hs3 (e3.onPath hs h)).1 hjoin
  obtain ⟨hs1, hiso1⟩ := settleAll_induction (P := fun a => a.Shaped ∧ a.Isolated fun _ => False)
    h1 ⟨hs3, hiso⟩ fun x hx a b hab happly => by
      obtain ⟨ha, hia⟩ := hab
      have hkeeps : x.2.Uses c.tempScheme rules ∧ (x.2.apply a).2.Isolated fun _ => False := by
        rcases List.mem_append.1 hx with hx | hx
        · split at hx
          · rw [List.mem_singleton.1 hx]
            exact ⟨rfl, SourceNormalization.isolated ha hia⟩
          · cases hx
        · rw [List.mem_singleton.1 hx]
          exact ⟨trivial, PassThrough.isolated ha hia⟩
      have hb := (Rule.apply_edits hkeeps.1 ha).shaped ha
      rw [happly] at hkeeps hb
      exact ⟨hb, hkeeps.2⟩
  exact (relabels_of_resolve h2).isolated hs1 hiso1

end PlannerConfig

/-- **What inputs of a hash join share in a reshaped graph.** Before boundaries collapse no
input is incompatible. Afterwards an input that is read into memory is still supplied by no
grouping and shares at most taps that took over from a boundary, and no input is incompatible
exactly if it shares none of those. Where boundaries do not collapse none is. -/
theorem isolated_of_reshape {d : Definition} {c : PlannerConfig} {w : Diagnostics}
    (hd : d.toGraph = .ok g) (h : c.reshape rules g = .ok (g', w)) :
    ∃ g2, c.settled rules g = .ok g2 ∧ JoinIsolation.incompatibleInput g2 = .ok none ∧
      g'.Isolated (TookOver g2 g') ∧
      (JoinIsolation.incompatibleInput g' = .ok none ↔
        ∀ s sc t tc x, g'.Accumulates s sc → g'.scope? t = some tc → tc.target = sc.target →
          t ≠ s → TookOver g2 g' x → g'.Supplies x sc.origin → ¬ g'.Supplies x tc.origin) ∧
      (c.collapseAdjacentBoundaries = false →
        JoinIsolation.incompatibleInput g' = .ok none) := by
  obtain ⟨hw, -⟩ := PlannerConfig.reshape_eq_ok h
  have hs := PlannerConfig.shaped_of_verify hd hw
  have hway := PlannerConfig.onPath_of_verify hs hw
  obtain ⟨g2, h2, h3⟩ := PlannerConfig.settled_of_reshape h
  have e2 := PlannerConfig.settled_edits hs h2
  have hs2 := e2.shaped hs
  obtain ⟨hs', hsound, -, -⟩ := PlannerConfig.sound_of_reshape hd h
  have hiso2 := PlannerConfig.isolated_of_settled hs hway h2
  obtain ⟨κ, hκ⟩ := PlannerConfig.exists_collapses hs2 h3
  have hiso' := hiso2.collapses hκ
  have hnone2 := (JoinIsolation.incompatibleInput_eq_none_iff hs2 (e2.onPath hs hway)).2 hiso2
  refine ⟨g2, h2, hnone2, hiso', ?_, fun hoff => ?_⟩
  · rw [JoinIsolation.incompatibleInput_eq_none_iff hs' hsound.onPath]
    constructor
    · intro hiso s sc t tc x ha ht htar hne _ hx hx'
      exact hiso.apart s sc t tc ha ht htar hne x hx hx'
    · intro hshare
      refine ⟨hiso'.ungrouped, fun s sc t tc ha ht htar hne x hx hx' => ?_⟩
      exact hshare s sc t tc x ha ht htar hne (hiso'.apart s sc t tc ha ht htar hne x hx hx') hx hx'
  · rw [PlannerConfig.collapse, hoff] at h3
    cases h3
    exact hnone2

/-- A join reads one stage twice, the second time through a boundary, and a grouping behind
the join puts another boundary behind the stage. -/
def reread : Definition where
  name := "reread"
  stages :=
    [⟨"in", [], .source ⟨"hdfs", "in", none, true⟩⟩,
      ⟨"parse", ["in"], .each ⟨"parse", none, none, ["key"], .results⟩⟩,
      ⟨"pairs", ["parse", "parse"], .hashJoin ⟨["key"], .inner, some ["left", "right"]⟩⟩,
      ⟨"by-left", ["pairs"], .groupBy ["left"]⟩,
      ⟨"out", ["by-left"], .sink ⟨"hdfs", "out", none, true⟩⟩]

theorem reshape_reread : ∃ g g' w, reread.toGraph = .ok g ∧
    PlannerConfig.default.reshape .byScheme g = .ok (g', w) ∧
      JoinIsolation.incompatibleInput g' = .ok (some 8) := by
  have hany : (reread.toGraph.toOption.any fun g =>
      (PlannerConfig.default.reshape .byScheme g).toOption.any fun r =>
        (JoinIsolation.incompatibleInput r.1).toOption.any fun s => decide (s = some 8)) = true := by
    cbv
  obtain ⟨g, hd, hany⟩ := exists_ok_of_any hany
  obtain ⟨⟨g', w⟩, h, hany⟩ := exists_ok_of_any hany
  obtain ⟨s, hin, hs⟩ := exists_ok_of_any hany
  exact ⟨g, g', w, hd, h, by rw [hin, of_decide_eq_true hs]⟩

/-- Its inputs are isolated until boundaries collapse. Then both are supplied by a tap that
took over from a boundary. -/
theorem isolated_of_reread : ∃ g g' w g2, reread.toGraph = .ok g ∧
    PlannerConfig.default.reshape .byScheme g = .ok (g', w) ∧
      PlannerConfig.default.settled .byScheme g = .ok g2 ∧
        JoinIsolation.incompatibleInput g2 = .ok none ∧ g'.Isolated (TookOver g2 g') ∧
          ∃ s sc t tc x, g'.Accumulates s sc ∧ g'.scope? t = some tc ∧ tc.target = sc.target ∧
            t ≠ s ∧ TookOver g2 g' x ∧ g'.Supplies x sc.origin ∧ g'.Supplies x tc.origin := by
  obtain ⟨g, g', w, hd, h, hin⟩ := reshape_reread
  obtain ⟨g2, h2, hnone, hiso, hiff, -⟩ := isolated_of_reshape hd h
  refine ⟨g, g', w, g2, hd, h, h2, hnone, hiso, ?_⟩
  by_contra hshare
  push Not at hshare
  rw [hiff.2 hshare] at hin
  cases hin

/-- In the end one of its inputs is incompatible. -/
theorem reread_not_isolated : ∃ g g' w, reread.toGraph = .ok g ∧
    PlannerConfig.default.reshape .byScheme g = .ok (g', w) ∧
      JoinIsolation.incompatibleInput g' ≠ .ok none ∧ ¬ g'.Isolated fun _ => False := by
  obtain ⟨g, g', w, hd, h, hin⟩ := reshape_reread
  have hne : JoinIsolation.incompatibleInput g' ≠ .ok none := by
    rw [hin]
    exact fun heq => by cases heq
  obtain ⟨hs', hsound, -, -⟩ := PlannerConfig.sound_of_reshape hd h
  refine ⟨g, g', w, hd, h, hne, fun hiso => hne ?_⟩
  exact (JoinIsolation.incompatibleInput_eq_none_iff hs' hsound.onPath).2 hiso

end Dataflow
