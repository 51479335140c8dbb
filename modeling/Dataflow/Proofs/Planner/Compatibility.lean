import Dataflow.Proofs.Flow.Compatibility
import Dataflow.Proofs.Planner.Handover
import Dataflow.Proofs.Planner.Reverification

/-!
# Which feeds of a grouping end up incompatible

With source normalization the taps that supply a grouping have one scheme when it settles,
and still have when fields are resolved. Then boundaries collapse. A boundary has the
intermediate scheme, but the sink that it gives way to has a scheme of its own, and nobody
compares it with the other taps of the groupings that read it from then on. Nothing else
goes wrong, and where boundaries stay nothing does. In `mixed` a grouping reads a boundary
next to another one, and the first one gives way to the sink that keeps a copy.

Results:

* `PlannerConfig.feedsAgree_of_settled`: feeds agree before boundaries collapse;
* `feedsAgree_of_compile`: which feeds of a compiled plan are compatible;
* `mixed_not_feedsAgree`: a plan that groups what it reads from two schemes.
-/
namespace Dataflow

open Dataflow.Graph Relation

variable {g g' : Graph} {rules : TapRules}

namespace PlannerConfig

variable {c : PlannerConfig}

theorem feedsAgree_of_settled (hs : g.Shaped) (h : g.OnPath)
    (hnorm : c.normalizeHeterogeneousSources = true) (hset : c.settled .byScheme g = .ok g') :
    g'.FeedsAgree .byScheme fun _ => False := by
  obtain ⟨g1, h1, h2⟩ := bind_eq_ok.1 hset
  -- normalization is the last rule but one
  rw [shapingRules, if_pos hnorm, settleAll_append] at h1
  obtain ⟨g4, h4, h1⟩ := h1
  have e4 : Edits c.tempScheme .byScheme g g4 := settleAll_edits (fun x hx => by
    have hmem : x ∈ c.shapingRules .byScheme := by
      rw [shapingRules, if_pos hnorm]
      exact List.mem_append_left _ hx
    exact uses_of_mem_shapingRules hmem) hs h4
  have hs4 := e4.shaped hs
  have hcut : SourceNormalization.findCut c.tempScheme .byScheme g4 = .ok none := by
    have happly := settleAll_concat h4
    rw [Rule.apply, SourceNormalization.apply_eq, changeAt_eq_false] at happly
    exact happly.1
  have hagree := SourceNormalization.feedsAgree_of_findCut hs4 (e4.onPath hs h) hcut
  obtain ⟨hs1, hagree1⟩ := settleAll_induction
    (P := fun a => a.Shaped ∧ a.FeedsAgree .byScheme fun _ => False) h1 ⟨hs4, hagree⟩
    fun x hx a b hab happly => by
      obtain ⟨ha, haa⟩ := hab
      rw [List.mem_singleton.1 hx] at happly
      have hedits : Edits c.tempScheme .byScheme a (PassThrough.apply a).2 :=
        (PassThrough.shapings ha).edits
      have hkeeps := PassThrough.feedsAgree ha haa
      rw [show PassThrough.apply a = (.ok true, b) from happly] at hedits hkeeps
      exact ⟨hedits.shaped ha, hkeeps⟩
  have hres := hagree1.resolveFields hs1
  rw [resolve_eq_ok.1 h2] at hres
  exact hres

end PlannerConfig

/-- **Which feeds of a grouping are compatible in a compiled plan.** Before boundaries
collapse all of them are. Afterwards two taps that supply one grouping are compatible, unless
one of them is a sink that took over from a boundary and has another scheme than boundaries
have. Where boundaries do not collapse all of them are. -/
theorem feedsAgree_of_compile {c : PlannerConfig} {d : Definition} {plan : Plan}
    (hnorm : c.normalizeHeterogeneousSources = true) (h : c.compile .byScheme d = .ok plan) :
    ∃ g g2, d.toGraph = .ok g ∧ c.settled .byScheme g = .ok g2 ∧
      (g2.FeedsAgree .byScheme fun _ => False) ∧
      (plan.graph.FeedsAgree .byScheme fun x => TookOver g2 plan.graph x ∧
        plan.graph.hasKind Kind.isSink x = true ∧ plan.graph.scheme? x ≠ some c.tempScheme) ∧
      (c.collapseAdjacentBoundaries = false →
        plan.graph.FeedsAgree .byScheme fun _ => False) := by
  obtain ⟨g, hd, hr, -⟩ := PlannerConfig.compile_eq_ok h
  obtain ⟨hw, -⟩ := PlannerConfig.reshape_eq_ok hr
  have hs := PlannerConfig.shaped_of_verify hd hw
  have hway := PlannerConfig.onPath_of_verify hs hw
  obtain ⟨g2, h2, h3⟩ := PlannerConfig.settled_of_reshape hr
  have e2 := PlannerConfig.settled_edits hs h2
  have hs2 := e2.shaped hs
  have hagree := PlannerConfig.feedsAgree_of_settled hs hway hnorm h2
  obtain ⟨κ, hκ⟩ := PlannerConfig.exists_collapses hs2 h3
  have e3 : Edits c.tempScheme .byScheme g2 plan.graph := PlannerConfig.collapse_edits hs2 h3
  refine ⟨g, g2, hd, h2, hagree, hagree.collapses hκ (fun x hx => ?_) (fun b hb => ?_),
    fun hoff => ?_⟩
  · rcases e3.scheme?_cases hs2 hx with ⟨-, hsame⟩ | ⟨hge, -⟩
    · exact hsame
    · exact absurd (lt_size_of_contains (hκ.contains hx).2) (Nat.not_lt_of_le hge)
  · exact e2.scheme?_boundary hs (Definition.not_hasKind_isBoundary hd) hb
  · rw [PlannerConfig.collapse, hoff] at h3
    cases h3
    exact hagree

/-- A grouping reads one stage twice, and a table next to it. The stage is kept in a sink as
well. -/
def mixed : Definition where
  name := "mixed"
  stages :=
    [⟨"in", [], .source ⟨"hdfs", "in", none, true⟩⟩,
      ⟨"ref", [], .source ⟨"jdbc", "ref", none, true⟩⟩,
      ⟨"parse", ["in"], .each ⟨"parse", none, none, ["key"], .results⟩⟩,
      ⟨"kept", ["parse"], .sink ⟨"hdfs", "kept", none, true⟩⟩,
      ⟨"pairs", ["parse", "parse", "ref"], .coGroup ⟨["key"], .inner, some ["a", "b", "c"]⟩⟩,
      ⟨"out", ["pairs"], .sink ⟨"hdfs", "out", none, true⟩⟩]

/-- The element feeds `G` and has the scheme. -/
def Plan.feedsFrom (plan : Plan) (G x : ElementId) (scheme : String) : Bool :=
  decide (x ∈ plan.graph.topology.predecessors G) && decide (plan.graph.scheme? x = some scheme)

theorem Plan.supplies_of_feedsFrom {plan : Plan} (ha : plan.graph.Agrees) {G x : ElementId}
    {scheme : String} (hG : plan.graph.hasKind Kind.isGrouping G = true)
    (h : plan.feedsFrom G x scheme = true) :
    plan.graph.Supplies x G ∧ plan.graph.scheme? x = some scheme := by
  obtain ⟨hmem, hscheme⟩ := Bool.and_eq_true_iff.1 h
  have hl := ha.mem_predecessors.1 (of_decide_eq_true hmem)
  have htap := hasKind_eq_false (fun _ => Kind.isTap_of_isGrouping) hG
  exact ⟨.single ⟨hl, htap⟩, of_decide_eq_true hscheme⟩

theorem compile_mixed : ∃ plan, PlannerConfig.default.compile .byScheme mixed = .ok plan ∧
    plan.graph.hasKind Kind.isGrouping 6 = true ∧
      (plan.graph.Supplies 5 6 ∧ plan.graph.scheme? 5 = some "hdfs") ∧
        plan.graph.Supplies 9 6 ∧ plan.graph.scheme? 9 = some "sequence" := by
  have hany : ((PlannerConfig.default.compile .byScheme mixed).toOption.any fun plan =>
      plan.graph.hasKind Kind.isGrouping 6 && (plan.feedsFrom 6 5 "hdfs" &&
        plan.feedsFrom 6 9 "sequence")) = true := by cbv
  obtain ⟨plan, h, hany⟩ := exists_ok_of_any hany
  obtain ⟨hG, hany⟩ := Bool.and_eq_true_iff.1 hany
  obtain ⟨hx, hy⟩ := Bool.and_eq_true_iff.1 hany
  have ha := (shaped_of_compile h).1.agrees
  exact ⟨plan, h, hG, Plan.supplies_of_feedsFrom ha hG hx, Plan.supplies_of_feedsFrom ha hG hy⟩

/-- Its feeds agree until boundaries collapse. Then the kept copy takes over. -/
theorem feedsAgree_of_mixed : ∃ plan g g2,
    PlannerConfig.default.compile .byScheme mixed = .ok plan ∧ mixed.toGraph = .ok g ∧
      PlannerConfig.default.settled .byScheme g = .ok g2 ∧
        (g2.FeedsAgree .byScheme fun _ => False) ∧ TookOver g2 plan.graph 5 ∧
          plan.graph.hasKind Kind.isSink 5 = true := by
  obtain ⟨plan, h, hG, ⟨hx, hsx⟩, hy, hsy⟩ := compile_mixed
  obtain ⟨g, g2, hd, h2, hagree, hagree', -⟩ := feedsAgree_of_compile rfl h
  refine ⟨plan, g, g2, h, hd, h2, hagree, ?_⟩
  rcases feedsAgree_byScheme.1 hagree' 6 5 9 _ _ hG hx hy hsx hsy with heq | hfor | hfor
  · exact absurd heq (by decide)
  · exact ⟨hfor.1, hfor.2.1⟩
  · exact absurd hsy hfor.2.2

/-- In the end its grouping reads two schemes. -/
theorem mixed_not_feedsAgree : PlannerConfig.default.normalizeHeterogeneousSources = true ∧
    ∃ plan, PlannerConfig.default.compile .byScheme mixed = .ok plan ∧
      ¬ plan.graph.FeedsAgree .byScheme fun _ => False := by
  obtain ⟨plan, h, hG, ⟨hx, hsx⟩, hy, hsy⟩ := compile_mixed
  refine ⟨rfl, plan, h, fun hagree => ?_⟩
  rcases feedsAgree_byScheme.1 hagree 6 5 9 _ _ hG hx hy hsx hsy with heq | hfor | hfor
  · exact absurd heq (by decide)
  · exact hfor
  · exact hfor

end Dataflow
