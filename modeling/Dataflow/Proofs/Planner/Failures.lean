import Dataflow.Planner.Compile
import Dataflow.Proofs.Flow.Failures
import Dataflow.Proofs.Planner.Reverification
import Dataflow.Proofs.Step.Placed

/-!
# How compilation can fail

Each phase ends in errors of its own: verification in what it found, a rule in running
out of its budget, split insertion in more routes than a word can count, source
normalization in feeds that stay incompatible, field
resolution in fields that do not fit, the check of the every chains in an every that was
cut off, and the cut into steps in steps that wait for each other. The errors that guard
the planner against itself never come up.

Results:

* `PlannerConfig.canEnd_of_compile`: the errors by phase;
* `not_internal_of_compile`: no internal error, and no cycle before the steps;
* `not_internal_looped`: a pipeline whose steps do wait for each other.
-/
namespace Dataflow

open Dataflow.Graph Relation

variable {g g' : Graph} {rules : TapRules} {f : PhaseFailure}

/-- The phase applies a rule to its fixed point. -/
def Phase.isRule : Phase → Bool
  | splitInsertion | jobPartitioning | joinIsolation | sourceNormalization | passThrough
  | boundaryCollapse => true
  | verify | fieldResolution | everyChains | stepPartitioning => false

/-- The errors that a phase can end in. -/
def Phase.canEnd : Phase → PlanError → Bool
  | phase, .nonTermination _ _ => phase.isRule
  | verify, .verification _ => true
  | splitInsertion, .dead .overflow => true
  | sourceNormalization, .incompatibleFeeds _ => true
  | fieldResolution, .fields _ => true
  | everyChains, .detachedEvery _ _ => true
  | stepPartitioning, .cycle _ => true
  | _, _ => false

namespace PlannerConfig

variable {c : PlannerConfig} {scheme : String}

theorem settle_error {phase : Phase} {rule : Rule} (hu : rule.Uses scheme rules) (hs : g.Shaped)
    (h : g.OnPath) (he : c.settle phase rule g = .error f) : f.phase = phase ∧
      ((∃ name limit, f.error = .nonTermination name limit) ∨
        ((∃ scheme, rule = .splitInsertion scheme) ∧ f.error = .dead .overflow) ∨
        ((∃ scheme rules, rule = .sourceNormalization scheme rules) ∧
          ∃ name, f.error = .incompatibleFeeds name)) := by
  obtain ⟨hphase, hrun⟩ := Phase.run_eq_error he
  refine ⟨hphase, ?_⟩
  rcases Rule.iterate_error hu hs hrun with hterm | ⟨g1, hedits, happly⟩
  · exact .inl ⟨_, _, hterm⟩
  · exact .inr (Rule.apply_error (hedits.shaped hs) (hedits.onPath hs h) happly)

theorem canEnd_of_settleAll (hs : g.Shaped) (h : g.OnPath)
    (he : c.settleAll (c.shapingRules rules) g = .error f) : f.phase.canEnd f.error = true := by
  obtain ⟨x, hx, g1, hedits, hsettle⟩ :=
    settleAll_error (fun _ => uses_of_mem_shapingRules) hs he
  obtain ⟨hphase, herror⟩ := settle_error (uses_of_mem_shapingRules hx) (hedits.shaped hs)
    (hedits.onPath hs h) hsettle
  rw [hphase]
  rcases herror with ⟨name, limit, hterm⟩ | ⟨⟨scheme, hrule⟩, hcount⟩ |
      ⟨⟨scheme, rules', hrule⟩, name, hfeeds⟩
  · rw [hterm]
    rcases mem_shapingRules hx with rfl | rfl | rfl | rfl | rfl <;> rfl
  · rw [hcount]
    rcases mem_shapingRules hx with rfl | rfl | rfl | rfl | rfl <;> first | rfl | cases hrule
  · rw [hfeeds]
    rcases mem_shapingRules hx with rfl | rfl | rfl | rfl | rfl <;> first | rfl | cases hrule

theorem canEnd_of_resolve (hs : g.Shaped) (he : resolve g = .error f) :
    f.phase.canEnd f.error = true := by
  obtain ⟨hphase, hrun⟩ := Phase.run_eq_error (map_eq_error.1 he)
  obtain ⟨error, herror⟩ := resolveFields_error hs (congrArg Prod.fst hrun)
  rw [hphase, herror]
  rfl

theorem canEnd_of_collapse (hs : g.Shaped) (h : g.OnPath) (he : c.collapse rules g = .error f) :
    f.phase.canEnd f.error = true := by
  have huses : (Rule.boundaryCollapse rules).Uses c.tempScheme rules := rfl
  rcases collapse_eq_error he with hsettle | ⟨n, g1, hsettle, he⟩
  · obtain ⟨hphase, herror⟩ := settle_error huses hs h hsettle
    rw [hphase]
    rcases herror with ⟨name, limit, hterm⟩ | ⟨⟨_, hrule⟩, -⟩ | ⟨⟨_, _, hrule⟩, -⟩
    · rw [hterm]
      rfl
    · cases hrule
    · cases hrule
  · exact canEnd_of_resolve ((settle_edits huses hs hsettle).shaped hs) he

theorem canEnd_of_checkChains (hs : g.Shaped) (he : checkChains g = .error f) :
    f.phase.canEnd f.error = true := by
  obtain ⟨hphase, hrun⟩ := Phase.run_eq_error (map_eq_error.1 he)
  obtain ⟨every, fedBy, herror⟩ := checkEveryChains_error hs (congrArg Prod.fst hrun)
  rw [hphase, herror]
  rfl

theorem canEnd_of_verify {d : Definition} (hd : d.toGraph = .ok g)
    (he : verify rules g = .error f) : f.phase.canEnd f.error = true := by
  unfold verify at he
  split at he
  · next ref href =>
    -- a graph that is read at all has an order, so it is well-shaped
    obtain ⟨l, hl⟩ : ∃ l, g.topology.order = .ok l := by
      cases ho : g.topology.order with
      | ok l => exact ⟨l, rfl⟩
      | error e => simp only [Graph.verify, ho] at href; cases href
    rw [Verify.verify_eq (Definition.shaped_toGraph hd hl).ordered] at href
    cases href
  · split at he
    · cases he; rfl
    · cases he

theorem canEnd_of_reshape {d : Definition} (hd : d.toGraph = .ok g)
    (he : c.reshape rules g = .error f) : f.phase.canEnd f.error = true := by
  rcases bind_eq_error.1 he with he | ⟨w, hw, he⟩
  · exact canEnd_of_verify hd he
  have hs := shaped_of_verify hd hw
  have hway := onPath_of_verify hs hw
  rcases bind_eq_error.1 he with he | ⟨g1, h1, he⟩
  · exact canEnd_of_settleAll hs hway he
  have e1 := settleAll_edits (fun _ => uses_of_mem_shapingRules) hs h1
  rcases bind_eq_error.1 he with he | ⟨g2, h2, he⟩
  · exact canEnd_of_resolve (e1.shaped hs) he
  have e2 : Edits c.tempScheme rules g g2 := e1.trans (resolve_edits h2)
  rcases bind_eq_error.1 he with he | ⟨g3, h3, he⟩
  · exact canEnd_of_collapse (e2.shaped hs) (e2.onPath hs hway) he
  have e3 : Edits c.tempScheme rules g g3 := e2.trans (collapse_edits (e2.shaped hs) h3)
  rcases bind_eq_error.1 he with he | ⟨_, -, he⟩
  · exact canEnd_of_checkChains (e3.shaped hs) he
  · cases he

theorem canEnd_of_partition (hs : g.Shaped) (h : g.OnPath) (hp : g.Partitioned)
    (he : c.partition g = .error f) : f.phase.canEnd f.error = true := by
  obtain ⟨hphase, hrun⟩ := Phase.run_eq_error (map_eq_error.1 he)
  obtain ⟨-, c, -, -, herror⟩ := StepGraph.build_error hs h hp (congrArg Prod.fst hrun)
  rw [hphase, herror]
  rfl

/-- Compilation ends in the errors of its phases. -/
theorem canEnd_of_compile {d : Definition} (he : c.compile rules d = .error (.phase f)) :
    f.phase.canEnd f.error = true := by
  rcases bind_eq_error.1 he with he | ⟨g, hd, he⟩
  · obtain ⟨_, -, heq⟩ := mapError_eq_error.1 he
    cases heq
  replace hd := mapError_eq_ok.1 hd
  obtain ⟨_, he, heq⟩ := mapError_eq_error.1 he
  cases heq
  rcases bind_eq_error.1 he with he | ⟨⟨g', w⟩, hr, he⟩
  · exact canEnd_of_reshape hd he
  rcases bind_eq_error.1 he with he | ⟨_, -, he⟩
  · obtain ⟨hs, hsound, -, -⟩ := sound_of_reshape hd hr
    exact canEnd_of_partition hs hsound.onPath (partitioned_of_reshape hd hr) he
  · cases he

end PlannerConfig

/-- An error by which the planner guards against itself: a motif that is no motif, a cursor
that yields nothing, an element without a step, a step with several groupings, a scope to
a removed element. A count that outgrows its word is none of these. -/
def PlanError.isInternal : PlanError → Bool
  | dead .overflow => false
  | motif _ | cursor _ | unplaced _ | unschedulable _ _ | dead _ => true
  | verification _ | cycle _ | nonTermination _ _ | fields _ | detachedEvery _ _
  | incompatibleFeeds _ => false

theorem Phase.not_internal_of_canEnd {phase : Phase} {error : PlanError}
    (h : phase.canEnd error = true) :
    error.isInternal = false ∧ ∀ e, error = .cycle e → phase = .stepPartitioning := by
  cases error with
  | dead ref =>
    cases ref <;> cases phase <;> first
      | exact absurd h Bool.false_ne_true
      | exact ⟨rfl, fun _ he => by cases he⟩
  | _ =>
    cases phase <;> first
      | exact absurd h Bool.false_ne_true
      | exact ⟨rfl, fun _ _ => rfl⟩
      | exact ⟨rfl, fun _ he => by cases he⟩

/-- **No internal error comes up.** Where compiling a definition fails in a phase, it fails
with an error about the pipeline, and with a cycle only among the steps. -/
theorem not_internal_of_compile {c : PlannerConfig} {d : Definition}
    (h : c.compile rules d = .error (.phase f)) :
    f.error.isInternal = false ∧ ∀ e, f.error = .cycle e → f.phase = .stepPartitioning := by
  exact Phase.not_internal_of_canEnd (PlannerConfig.canEnd_of_compile h)

/-- Rows are joined with what two groupings make of them. The second grouping is a step of
its own, which waits for the step of the first one and is waited for by its join. -/
def looped : Definition where
  name := "looped"
  stages :=
    [⟨"in", [], .source ⟨"hdfs", "in", none, true⟩⟩, ⟨"all", ["in"], .merge⟩,
      ⟨"by-user", ["all"], .groupBy ["user"]⟩, ⟨"by-day", ["by-user"], .groupBy ["day"]⟩,
      ⟨"pairs", ["all", "by-day"], .hashJoin ⟨["day"], .inner, some ["left", "right"]⟩⟩,
      ⟨"out", ["pairs"], .sink ⟨"hdfs", "out", none, true⟩⟩]

theorem not_internal_looped : ∃ f e,
    PlannerConfig.default.compile .byScheme looped = .error (.phase f) ∧ f.error = .cycle e ∧
      f.error.isInternal = false ∧ f.phase = .stepPartitioning := by
  have hany : (match PlannerConfig.default.compile .byScheme looped with
      | .error (.phase f) => match f.error with
        | .cycle _ => true
        | _ => false
      | _ => false) = true := by cbv
  split at hany
  · next f hf =>
    split at hany
    · next e he =>
      obtain ⟨hint, hphase⟩ := not_internal_of_compile hf
      exact ⟨f, e, hf, he, hint, hphase e he⟩
    · cases hany
  · cases hany

end Dataflow
