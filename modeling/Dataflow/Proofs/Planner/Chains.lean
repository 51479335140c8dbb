import Dataflow.Proofs.Flow.Chains
import Dataflow.Proofs.Planner.Failures

/-!
# When reshaping detaches an every

Verification sees to it that each every follows groupings and everies, and the check at the
end that each of them still does. Only split insertion comes between, and it settles first:
so whether the check fails is decided on the verified graph, by the splits that get a
boundary. `detached` has such a split. It is an every whose branches, a co-group and
another every, meet again at the co-group.

Results:

* `PlannerConfig.standing_settleAll`: what each application of a rule keeps holds at the
  end, also where a rule fails;
* `PlannerConfig.rewritten_spec`: the rewritten graph is torn if a split parts a chain;
* `detaches_iff_of_reshape`: when reshaping fails with a detached every;
* `detached_fails`: a verified pipeline for which it does.
-/
namespace Dataflow

open Dataflow.Graph Relation

variable {g g' : Graph} {rules : TapRules} {f : PhaseFailure}

/-- The check at the end of reshaping is for chains that do not hold together. -/
theorem Graph.checkEveryChains_iff (h : g.Agrees) : g.checkEveryChains = .ok () ↔ g.Chained := by
  refine ⟨fun hc a e hl hev => feedsEvery_of_checkEveryChains h hc hl hev, fun hc => ?_⟩
  have hnone : g.detached? = none := by
    refine List.findSome?_eq_none_iff.2 fun e he => ?_
    have hev := (List.mem_filter.1 he).2
    rw [Option.map_eq_none_iff, List.head?_eq_none_iff]
    refine List.filter_eq_nil_iff.2 fun a ha => ?_
    simp [hc a e (h.mem_predecessors.1 ha) hev]
  simp only [checkEveryChains, hnone]

namespace PlannerConfig

variable {c : PlannerConfig} {P : Graph → Prop}

/-! ## The graph as it stands -/

/-- The graph as it stands at the end, with or without a failure. -/
def standing : Except PhaseFailure Graph → Graph
  | .ok g => g
  | .error f => f.graph

theorem standing_bind {r : Except PhaseFailure Graph} {k : Graph → Except PhaseFailure Graph}
    (h : P (standing r)) (hk : ∀ a, P a → P (standing (k a))) : P (standing (r >>= k)) := by
  cases r with
  | error f => exact h
  | ok a => exact hk a h

theorem standing_run {α : Type} {phase : Phase} {work : Graph → Outcome α}
    (h : P (work g).2) : P (standing ((phase.run work g).map Prod.snd)) := by
  unfold Phase.run
  split
  · next heq => rw [heq] at h; exact h
  · next heq => rw [heq] at h; exact h

theorem standing_settle (c : PlannerConfig) (phase : Phase) {r : Rule}
    (hstep : ∀ a, P a → P (r.apply a).2) (hg : P g) :
    P (standing ((c.settle phase r g).map Prod.snd)) :=
  standing_run (Rule.iterate_keeps hstep c.maxRuleIterations c.maxRuleIterations 0 hg)

/-- What each application of a rule keeps holds at the end, also where a rule fails. -/
theorem standing_settleAll {l : List (Phase × Rule)}
    (hstep : ∀ x ∈ l, ∀ a, P a → P (x.2.apply a).2) (hg : P g) :
    P (standing (c.settleAll l g)) := by
  induction l generalizing g with
  | nil => exact hg
  | cons x rest ih =>
    have hfirst := standing_settle c x.1 (hstep x List.mem_cons_self) hg
    unfold settleAll
    split
    · next hrun => rw [hrun] at hfirst; exact hfirst
    · next hrun =>
      rw [hrun] at hfirst
      exact ih (fun y hy => hstep y (List.mem_cons_of_mem x hy)) hfirst

/-! ## All rules but the first -/

/-- The graph is torn if `torn`, and is fit for any edit. -/
structure Stands (rules : TapRules) (torn : Prop) (g : Graph) : Prop where
  shaped : g.Shaped
  upheld : g.Upheld rules
  torn_iff : g.Torn ↔ torn

variable {scheme : String} {torn : Prop}

theorem Stands.apply {r : Rule} (h : Stands rules torn g) (hu : r.Uses scheme rules)
    (hr : ∀ s, r ≠ .splitInsertion s) : Stands rules torn (r.apply g).2 := by
  have he := Rule.apply_edits hu h.shaped
  exact ⟨he.shaped h.shaped, he.upheld h.shaped h.upheld,
    (Rule.torn_iff hr h.shaped h.upheld).trans h.torn_iff⟩

theorem Stands.resolve (h : Stands rules torn g) : Stands rules torn (standing (resolve g)) := by
  have he : Edits "" rules g g.resolveFields.2 := .single .resolve
  exact standing_run ⟨he.shaped h.shaped, he.upheld h.shaped h.upheld,
    ((relabels_resolveFields g).torn_iff h.shaped h.upheld).trans h.torn_iff⟩

theorem Stands.collapse (h : Stands rules torn g) :
    Stands rules torn (standing (c.collapse rules g)) := by
  have huses : (Rule.boundaryCollapse rules).Uses "" rules := rfl
  have hsettle := standing_settle c .boundaryCollapse
    (fun a (ha : Stands rules torn a) => ha.apply huses fun _ hr => nomatch hr) h
  unfold PlannerConfig.collapse
  split
  · split
    · next hrun => rw [hrun] at hsettle; exact hsettle
    · next hrun => rw [hrun] at hsettle; exact hsettle
    · next hrun => rw [hrun] at hsettle; exact hsettle.resolve
  · exact h

/-! ## From the first rule to the check -/

/-- The graph after all rules, of which the every chains are checked. -/
def rewritten (c : PlannerConfig) (rules : TapRules) (g : Graph) : Except PhaseFailure Graph := do
  let g ← c.settled rules g
  c.collapse rules g

theorem reshape_eq {w : Diagnostics} (hw : verify rules g = .ok w) : c.reshape rules g = (do
    let g' ← c.rewritten rules g
    checkChains g'
    return (g', w)) := by
  simp only [reshape, rewritten, settled, hw, bind_assoc]
  rfl

/-- What split insertion makes of a graph that is fit for any edit and not torn. -/
theorem splitInsertion_spec (hs : g.Shaped) (h : g.Upheld rules) (hnot : ¬ g.Torn) :
    (∀ n g1, c.settle .splitInsertion (.splitInsertion c.tempScheme) g = .ok (n, g1) →
      Stands rules (SplitInsertion.Parts g) g1) ∧
    ∀ f, c.settle .splitInsertion (.splitInsertion c.tempScheme) g = .error f →
      f.graph.Shaped ∧ f.graph.Upheld rules ∧ (f.graph.Torn → SplitInsertion.Parts g) := by
  have hstep : ∀ a, a.Shaped ∧ a.Upheld rules ∧
        (a.Torn ∨ SplitInsertion.Parts a ↔ SplitInsertion.Parts g) →
      ((Rule.splitInsertion c.tempScheme).apply a).2.Shaped ∧
        ((Rule.splitInsertion c.tempScheme).apply a).2.Upheld rules ∧
        (((Rule.splitInsertion c.tempScheme).apply a).2.Torn ∨
          SplitInsertion.Parts ((Rule.splitInsertion c.tempScheme).apply a).2 ↔
            SplitInsertion.Parts g) := by
    intro a ⟨ha, hup, hiff⟩
    have he : Edits c.tempScheme rules a ((Rule.splitInsertion c.tempScheme).apply a).2 :=
      SplitInsertion.shapings.edits
    exact ⟨he.shaped ha, he.upheld ha hup, (SplitInsertion.torn_or_parts_iff ha hup).trans hiff⟩
  have hend := standing_settle c .splitInsertion hstep ⟨hs, h, or_iff_right hnot⟩
  constructor
  · intro n g1 hrun
    have hset := settle_settled hrun
    rw [hrun] at hend
    obtain ⟨hs1, hup1, hiff⟩ := hend
    have hsettled := SplitInsertion.not_parts_of_settled hs1.agrees hs1.ends hset
    exact ⟨hs1, hup1, (or_iff_left hsettled).symm.trans hiff⟩
  · intro f hrun
    rw [hrun] at hend
    obtain ⟨hsf, hupf, hiff⟩ := hend
    exact ⟨hsf, hupf, fun htorn => hiff.1 (.inl htorn)⟩

/-- The rewritten graph is torn if a split of the graph parts a chain. Without such a split
no rule tears one, also where rewriting fails. -/
theorem rewritten_spec (hs : g.Shaped) (h : g.Upheld rules) (hnot : ¬ g.Torn) :
    (∀ g', c.rewritten rules g = .ok g' → Stands rules (SplitInsertion.Parts g) g') ∧
      ∀ f, c.rewritten rules g = .error f →
        f.graph.Upheld rules ∧ (f.graph.Torn → SplitInsertion.Parts g) := by
  obtain ⟨hok, herror⟩ := splitInsertion_spec (c := c) hs h hnot
  obtain ⟨rest, hrules, hrest⟩ : ∃ rest,
      c.shapingRules rules = (.splitInsertion, .splitInsertion c.tempScheme) :: rest ∧
        ∀ x ∈ rest, ∀ s, x.2 ≠ .splitInsertion s := by
    refine ⟨_, rfl, fun x hx s heq => ?_⟩
    obtain ⟨phase, r⟩ := x
    cases heq
    split at hx <;> simp at hx
  cases hrun : c.settle .splitInsertion (.splitInsertion c.tempScheme) g with
  | error f =>
    have hall : c.rewritten rules g = .error f := by
      rw [rewritten, settled, hrules, settleAll, hrun]
      rfl
    obtain ⟨-, hup, htorn⟩ := herror f hrun
    rw [hall]
    exact ⟨fun _ he => (by cases he), fun _ he => Except.error.inj he ▸ ⟨hup, htorn⟩⟩
  | ok x =>
    obtain ⟨n, g1⟩ := x
    have hall : c.rewritten rules g =
        c.settleAll rest g1 >>= fun a => PlannerConfig.resolve a >>= c.collapse rules := by
      rw [rewritten, settled, hrules, settleAll, hrun]
      simp only [bind_assoc]
    have hstep : ∀ x ∈ rest, ∀ a, Stands rules (SplitInsertion.Parts g) a →
        Stands rules (SplitInsertion.Parts g) (x.2.apply a).2 := by
      intro x hx a ha
      refine ha.apply (uses_of_mem_shapingRules (c := c) ?_) (hrest x hx)
      rw [hrules]
      exact List.mem_cons_of_mem _ hx
    have hend : Stands rules (SplitInsertion.Parts g) (standing (c.rewritten rules g)) := by
      rw [hall]
      exact standing_bind (standing_settleAll hstep (hok n g1 hrun)) fun a ha =>
        standing_bind ha.resolve fun b hb => hb.collapse
    constructor
    · intro g' he
      rw [he] at hend
      exact hend
    · intro f he
      rw [he] at hend
      exact ⟨hend.upheld, hend.torn_iff.1⟩

/-- No rule reports a detached every. -/
theorem ne_detachedEvery_of_rewritten (hs : g.Shaped) (h : g.OnPath)
    (he : c.rewritten rules g = .error f) (every fedBy : String) :
    f.error ≠ .detachedEvery every fedBy := by
  have hresolve : ∀ a, a.Shaped → PlannerConfig.resolve a = .error f →
      f.error ≠ .detachedEvery every fedBy := by
    intro a ha hrun heq
    obtain ⟨-, hrun⟩ := Phase.run_eq_error (map_eq_error.1 hrun)
    obtain ⟨error, herror⟩ := resolveFields_error ha (congrArg Prod.fst hrun)
    rw [heq] at herror
    cases herror
  have hsettle : ∀ a phase r, a.Shaped → a.OnPath → r.Uses c.tempScheme rules →
      c.settle phase r a = .error f → f.error ≠ .detachedEvery every fedBy := by
    intro a phase r ha hway hu hrun heq
    obtain ⟨-, ⟨_, _, herror⟩ | ⟨-, herror⟩ | ⟨-, _, herror⟩⟩ := settle_error hu ha hway hrun <;>
      · rw [heq] at herror
        cases herror
  rcases bind_eq_error.1 he with he | ⟨g2, h2, he⟩
  · rcases bind_eq_error.1 he with he | ⟨g1, h1, he⟩
    · obtain ⟨x, hx, g1, hedits, hrun⟩ := settleAll_error (fun _ => uses_of_mem_shapingRules) hs he
      exact hsettle g1 x.1 x.2 (hedits.shaped hs) (hedits.onPath hs h)
        (uses_of_mem_shapingRules hx) hrun
    · exact hresolve g1 ((settleAll_edits (fun _ => uses_of_mem_shapingRules) hs h1).shaped hs) he
  · have e2 := settled_edits hs h2
    have huses : (Rule.boundaryCollapse rules).Uses c.tempScheme rules := rfl
    rcases collapse_eq_error he with hrun | ⟨n, g3, hrun, he⟩
    · exact hsettle g2 _ _ (e2.shaped hs) (e2.onPath hs h) huses hrun
    · exact hresolve g3 ((settle_edits huses (e2.shaped hs) hrun).shaped (e2.shaped hs)) he

/-- The check fails where a chain is torn, and only there. -/
theorem checkChains_iff (hs : g.Shaped) (h : g.Upheld rules) :
    (checkChains g = .ok () ↔ ¬ g.Torn) ∧ ∀ f, checkChains g = .error f →
      f.graph = g ∧ ∃ every fedBy, f.error = .detachedEvery every fedBy := by
  rw [← h.chained_iff, ← checkEveryChains_iff hs.agrees]
  refine ⟨?_, fun f he => ?_⟩
  · simp only [checkChains, Phase.run]
    cases g.checkEveryChains with
    | ok u => exact iff_of_true rfl rfl
    | error e =>
      refine iff_of_false (fun he => ?_) fun he => ?_
      · cases he
      · cases he
  · obtain ⟨-, hrun⟩ := Phase.run_eq_error (map_eq_error.1 he)
    exact ⟨(congrArg Prod.snd hrun).symm, checkEveryChains_error hs (congrArg Prod.fst hrun)⟩

end PlannerConfig

/-- **When reshaping detaches an every.** On the graph of a definition that passes
verification, reshaping fails with a detached every if a split that is to be cut feeds an
every and no rule fails before the check, and only then. Without such a split every every
follows groupings and everies to the end, also where reshaping fails. -/
theorem detaches_iff_of_reshape {d : Definition} {c : PlannerConfig} {w : Diagnostics}
    (hd : d.toGraph = .ok g) (hw : PlannerConfig.verify rules g = .ok w) :
    ((∃ f every fedBy, c.reshape rules g = .error f ∧ f.error = .detachedEvery every fedBy) ↔
      SplitInsertion.Parts g ∧ ∃ g', c.rewritten rules g = .ok g') ∧
    (¬ SplitInsertion.Parts g →
      (PlannerConfig.standing ((c.reshape rules g).map Prod.fst)).Chained) := by
  have hs := PlannerConfig.shaped_of_verify hd hw
  obtain ⟨hverify, hok⟩ := PlannerConfig.verify_eq_ok hw
  obtain ⟨hsound, -⟩ := sound_of_verify hs hverify hok
  have hup := hsound.upheld hs
  have hnot : ¬ g.Torn := hup.chained_iff.1 hsound.everies
  obtain ⟨hwhole, hfails⟩ := PlannerConfig.rewritten_spec (c := c) hs hup hnot
  rw [PlannerConfig.reshape_eq hw]
  cases hrun : c.rewritten rules g with
  | error f =>
    obtain ⟨hupf, htorn⟩ := hfails f hrun
    refine ⟨iff_of_false ?_ ?_, fun hparts => hupf.chained_iff.2 (mt htorn hparts)⟩
    · intro ⟨f', every, fedBy, he, herror⟩
      cases he
      exact PlannerConfig.ne_detachedEvery_of_rewritten hs hup.onPath hrun every fedBy herror
    · intro ⟨_, g', he⟩
      cases he
  | ok g' =>
    have hg' := hwhole g' hrun
    obtain ⟨hcheck, hdetach⟩ := PlannerConfig.checkChains_iff hg'.shaped hg'.upheld
    rw [hg'.torn_iff] at hcheck
    cases hchains : PlannerConfig.checkChains g' with
    | ok u =>
      have hparts := hcheck.1 hchains
      refine ⟨iff_of_false ?_ fun h => hparts h.1, fun _ => ?_⟩
      · intro ⟨f, every, fedBy, he, _⟩
        simp only [bind, Except.bind, hchains] at he
        cases he
      · simp only [bind, Except.bind, hchains]
        exact hg'.upheld.chained_iff.2 (mt hg'.torn_iff.1 hparts)
    | error f =>
      obtain ⟨hgraph, every, fedBy, herror⟩ := hdetach f hchains
      have hparts : SplitInsertion.Parts g := by
        by_contra hnone
        rw [hcheck.2 hnone] at hchains
        cases hchains
      refine ⟨iff_of_true ⟨f, every, fedBy, ?_, herror⟩ ⟨hparts, g', rfl⟩,
        fun hnone => absurd hparts hnone⟩
      simp only [bind, Except.bind, hchains]

/-- Two everies follow a grouping, and a second grouping follows them: the cut between the
groupings goes in behind the chain. -/
def summed : Definition where
  name := "summed"
  stages :=
    [⟨"in", [], .source ⟨"hdfs", "in", some ["user", "day"], true⟩⟩,
      ⟨"by-user", ["in"], .groupBy ["user"]⟩,
      ⟨"count", ["by-user"], .every ⟨"count", none, none, ["count"], .all⟩⟩,
      ⟨"sum", ["count"], .every ⟨"sum", none, none, ["sum"], .all⟩⟩,
      ⟨"by-day", ["sum"], .groupBy ["day"]⟩,
      ⟨"out", ["by-day"], .sink ⟨"hdfs", "out", none, true⟩⟩]

theorem chained_summed : ∃ g g' w, summed.toGraph = .ok g ∧
    PlannerConfig.default.reshape .byScheme g = .ok (g', w) ∧ g.size < g'.size ∧
      (∃ a e, g'.Leads a e ∧ g'.hasKind Kind.isEvery e = true) ∧ g'.Chained ∧
        ¬ SplitInsertion.Parts g := by
  have hany : (summed.toGraph.toOption.any fun g =>
      (PlannerConfig.verify .byScheme g).toOption.any fun _ =>
        (PlannerConfig.default.reshape .byScheme g).toOption.any fun r =>
          decide (g.size < r.1.size ∧ 4 ∈ r.1.inputs 5 ∧
            r.1.hasKind Kind.isEvery 5 = true)) = true := by cbv
  obtain ⟨g, hd, hany⟩ := exists_ok_of_any hany
  obtain ⟨w, hw, hany⟩ := exists_ok_of_any hany
  obtain ⟨⟨g', w'⟩, h, hany⟩ := exists_ok_of_any hany
  obtain ⟨hsize, hfed, hev⟩ := of_decide_eq_true hany
  obtain ⟨hs', -⟩ := PlannerConfig.sound_of_reshape hd h
  obtain ⟨hdetach, hchained⟩ := detaches_iff_of_reshape (c := PlannerConfig.default) hd hw
  -- a run that succeeds has parted no chain
  have hparts : ¬ SplitInsertion.Parts g := by
    intro hparts
    obtain ⟨g2, h2, h3⟩ := PlannerConfig.settled_of_reshape h
    obtain ⟨f, every, fedBy, he, -⟩ := hdetach.2 ⟨hparts, g', bind_eq_ok.2 ⟨g2, h2, h3⟩⟩
    rw [h] at he
    cases he
  have hend := hchained hparts
  rw [h] at hend
  exact ⟨g, g', w', hd, h, hsize, ⟨4, 5, hs'.agrees.mem_inputs.1 hfed, hev⟩, hend, hparts⟩

/-- Three everies follow each other, and a co-group joins the rows of the last two. -/
def detached : Definition where
  name := "detached"
  stages :=
    [⟨"in", [], .source ⟨"hdfs", "in", some ["key"], true⟩⟩, ⟨"g", ["in"], .groupBy ["key"]⟩,
      ⟨"a", ["g"], .every ⟨"a", none, none, ["x"], .all⟩⟩,
      ⟨"b", ["a"], .every ⟨"b", none, none, ["y"], .all⟩⟩,
      ⟨"c", ["b"], .every ⟨"c", none, none, ["z"], .all⟩⟩,
      ⟨"h", ["c", "b"], .coGroup ⟨["key"], .inner,
        some ["d0", "d1", "d2", "d3", "d4", "d5", "d6"]⟩⟩,
      ⟨"out", ["h"], .sink ⟨"hdfs", "out", none, true⟩⟩]

/-- The second every is a split whose branches meet at the co-group, and the boundary behind
it detaches the third. -/
theorem detached_fails : ∃ g w f every fedBy, detached.toGraph = .ok g ∧
    PlannerConfig.verify .byScheme g = .ok w ∧ PlannerConfig.default.reshape .byScheme g = .error f ∧
      f.error = .detachedEvery every fedBy := by
  have hany : (detached.toGraph.toOption.any fun g =>
      (PlannerConfig.verify .byScheme g).toOption.any fun _ =>
        match PlannerConfig.default.reshape .byScheme g with
        | .ok _ => false
        | .error f => match f.error with
          | .detachedEvery _ _ => true
          | _ => false) = true := by cbv
  obtain ⟨g, hd, hany⟩ := exists_ok_of_any hany
  obtain ⟨w, hw, hany⟩ := exists_ok_of_any hany
  split at hany
  · cases hany
  · next f hf =>
    split at hany
    · next every fedBy herror => exact ⟨g, w, f, every, fedBy, hd, hw, hf, herror⟩
    · cases hany

end Dataflow
