import Dataflow.Proofs.Flow.Contracts
import Dataflow.Proofs.Planner.Meaning

/-!
# Reshaping leaves the fields as they are

Fields are resolved after the graph was reshaped, so what an element is found to receive
might depend on the boundaries that were put in and the pipes that were taken away. It does
not: fields are resolved for the reshaped graph if they are for that of the definition, and
then every element receives the same at each of its positions. Nor do they have to be
resolved again when boundaries collapse, except to fill in what was moved.

Results:

* `PlannerConfig.inputContracts_of_reshape`: an element receives the same afterwards;
* `PlannerConfig.resolve_again`: resolving fields again changes none;
* `keepsContracts_of_verify`: the theorem, for every definition that passes verification;
* `keepsContracts_archived`: it at work where a pipe goes and a boundary gives way to a sink
  that declares its fields.
-/
namespace Dataflow

open Dataflow.Graph

variable {g g' : Graph} {c : PlannerConfig} {rules : TapRules}

/-- A sink of a definition is fed at its first position. -/
theorem Definition.fronted_toGraph {d : Definition} (hd : d.toGraph = .ok g) (hs : g.Shaped) :
    g.Fronted := by
  have hl := Definition.toGraph_layout hd
  intro e he
  obtain ⟨n, hsole⟩ := hs.sole e he
  obtain ⟨⟨sc, hsc, ht⟩, -⟩ := id hsole
  rw [hsole.slots_eq hs.agrees hsc]
  obtain ⟨x, hx, hk⟩ := hasKind_iff.1 he
  rcases hl.cases hx with ⟨-, hk'⟩ | ⟨-, hk'⟩ | ⟨i, s, rfl, hsi, hm⟩
  · rw [hk'] at hk; cases hk
  · rw [hk'] at hk; cases hk
  · have hsink : x.kind.isSink = true := by simpa [Kind.passesOn, hm.isBoundary] using hk
    obtain ⟨t, hst⟩ := hm.sink_of hsink
    rw [hl.ordinal_eq_zero hsi (hm.of_sink hst).2 hsc ht]
    rfl

namespace PlannerConfig

/-- Fields that fit are resolved. -/
theorem resolve_of_labels {f : ElementId → Fields} (hs : g.Shaped) (hf : g.Labels f) :
    ∃ g', resolve g = .ok g' ∧ g.Relabels g' ∧ g'.Resolved f :=
  ⟨_, resolve_eq_ok.2 (resolveFields_of_labels hs.ordered hf), relabels_marked g _,
    hf.resolved hs.agrees⟩

theorem exists_labels_of_resolve (hs : g.Shaped) (h : resolve g = .ok g') :
    ∃ f, g.Labels f ∧ g.Relabels g' ∧ g'.Resolved f := by
  have hrun := resolve_eq_ok.1 h
  obtain ⟨f, hf⟩ := exists_labels_of_resolveFields hs.ordered (by rw [hrun])
  rw [resolveFields_of_labels hs.ordered hf] at hrun
  cases hrun
  exact ⟨f, hf, relabels_of_resolve h, hf.resolved hs.agrees⟩

theorem sheds_of_settle {f : ElementId → Fields} {n : Nat} (hs : g.Shaped) (hf : g.Resolved f)
    (hfront : g.Fronted)
    (h : c.settle .boundaryCollapse (.boundaryCollapse rules) g = .ok (n, g')) :
    Sheds f g g' := by
  refine Rule.iterate_induction (Phase.run_eq_ok h) (hf.sheds hs hfront) fun a a' ha happly => ?_
  rw [Rule.apply, BoundaryCollapse.apply_eq, changeAt_eq_true] at happly
  obtain ⟨_, hbt, rfl⟩ := happly
  obtain ⟨⟨i, sc, hr⟩, -⟩ := replaceable_of_collapsible ha.shaped hbt
  exact ha.replaceElement hr (BoundaryCollapse.canReplace_of_collapsible hbt).2.2

/-- What is left of a resolved graph when its boundaries have collapsed is resolved, and
receives the same. -/
theorem resolved_of_collapse {f : ElementId → Fields} (hs : g.Shaped) (hf : g.Resolved f)
    (hfront : g.Fronted) (h : c.collapse rules g = .ok g') : g'.Resolved f ∧
      ∀ e, g'.contains e = true → g.contains e = true ∧
        (g'.slots e).map (Prod.map id f) = (g.slots e).map (Prod.map id f) := by
  rcases collapse_eq_ok h with rfl | ⟨n, g3, h1, h2⟩
  · exact ⟨hf, fun _ he => ⟨he, rfl⟩⟩
  · have hsheds := sheds_of_settle hs hf hfront h1
    obtain ⟨g4, h4, hrel, hres⟩ := resolve_of_labels hsheds.shaped hsheds.labels
    rw [h2] at h4
    cases h4
    refine ⟨hres, fun e he => ?_⟩
    rw [hrel.slots hsheds.shaped.agrees]
    exact hsheds.received e (hrel.contains.1 he)

/-- The graph that the rules have shaped before fields are resolved. -/
theorem carriesFields_of_shapingRules (hs : g.Shaped) (hfront : g.Fronted)
    (h : c.settleAll (c.shapingRules rules) g = .ok g') :
    g'.Shaped ∧ g'.Fronted ∧ CarriesFields g g' := by
  have hshapings := shapings_of_shapingRules hs h
  have hedits : Edits c.tempScheme rules g g' := hshapings.edits
  exact ⟨hedits.shaped hs, hshapings.fronted hs hfront, hshapings.carriesFields hs⟩

theorem inputContracts_of_reshape {d : Definition} {w : Diagnostics} (hd : d.toGraph = .ok g)
    (h : c.reshape rules g = .ok (g', w)) : g.resolveFields.1 = .ok () ∧
      ∀ e, g.contains e = true → g'.contains e = true →
        g'.inputContracts e = g.resolveFields.2.inputContracts e := by
  obtain ⟨hs, hs', -⟩ := reshape_spec.{0} hd h
  obtain ⟨-, g1, g2, h1, h2, h3, -⟩ := reshape_eq_ok h
  obtain ⟨hs1, hfront1, hcarries⟩ :=
    carriesFields_of_shapingRules hs (Definition.fronted_toGraph hd hs) h1
  -- the fields of the reshaped graph, and those that they come from
  obtain ⟨f', hf', hrel, hres2⟩ := exists_labels_of_resolve hs1 h2
  obtain ⟨hres', hleft⟩ :=
    resolved_of_collapse (hrel.shaped hs1) hres2 (hrel.fronted hs1.agrees hfront1) h3
  obtain ⟨f, hf, hin⟩ := hcarries.back f' hf'
  rw [resolveFields_of_labels hs.ordered hf]
  refine ⟨rfl, fun e he he' => ?_⟩
  have hrel0 := relabels_marked g fun e => some (f e)
  obtain ⟨hlive2, hslots2⟩ := hleft e he'
  have hslots1 := hin e (lt_size_of_contains he) (hrel.contains.1 hlive2)
  have hsame : (g'.slots e).map (Prod.map id f') = (g.slots e).map (Prod.map id f) := by
    rw [hslots2, hrel.slots hs1.agrees, hslots1]
  rw [hres'.inputContracts_eq hs'.agrees,
    (hf.resolved hs.agrees).inputContracts_eq (hrel0.agrees hs.agrees), hrel0.slots hs.agrees,
    hsame]

/-- Where boundaries collapsed, fields are resolved again to those that were there. -/
theorem resolve_again {g2 g3 : Graph} {n : Nat} (hs : g.Shaped) (hfront : g.Fronted)
    (h2 : resolve g = .ok g2)
    (h3 : c.settle .boundaryCollapse (.boundaryCollapse rules) g2 = .ok (n, g3)) :
    ∃ g4, resolve g3 = .ok g4 ∧ ∀ s, g3.containsScope s = true →
      ∃ sc sc', g2.scope? s = some sc ∧ g4.scope? s = some sc' ∧ sc'.fields = sc.fields := by
  obtain ⟨f, -, hrel, hres2⟩ := exists_labels_of_resolve hs h2
  have hsheds := sheds_of_settle (hrel.shaped hs) hres2 (hrel.fronted hs.agrees hfront) h3
  obtain ⟨g4, h4, hrel3, hres4⟩ := resolve_of_labels hsheds.shaped hsheds.labels
  refine ⟨g4, h4, fun s hlive => ?_⟩
  obtain ⟨sc3, hsc3⟩ := Option.isSome_iff_exists.1 hlive
  obtain ⟨sc2, hsc2, horigin⟩ := hsheds.scopes s sc3 hsc3
  obtain ⟨sc4, hsc4, ho, -⟩ := hrel3.scope_to s sc3 hsc3
  refine ⟨sc2, sc4, hsc2, hsc4, ?_⟩
  rw [hres4.scopes s sc4 hsc4, hres2.scopes s sc2 hsc2, ho, horigin]

/-- What the fields of a graph owe to reshaping: nothing. -/
structure KeepsContracts (c : PlannerConfig) (rules : TapRules) (g : Graph) : Prop where
  /-- Fields are resolved before the graph is reshaped exactly if they are afterwards. -/
  resolves_iff : ∀ g1, c.settleAll (c.shapingRules rules) g = .ok g1 →
    (g.resolveFields.1 = .ok () ↔ g1.resolveFields.1 = .ok ())
  /-- Whatever is in both graphs receives the same fields at the same positions. -/
  received : ∀ g' w, c.reshape rules g = .ok (g', w) → g.resolveFields.1 = .ok () ∧
    ∀ e, g.contains e = true → g'.contains e = true →
      g'.inputContracts e = g.resolveFields.2.inputContracts e
  /-- When boundaries have collapsed fields are resolved again, to those that were there. -/
  again : ∀ g1 g2 n g3, c.settleAll (c.shapingRules rules) g = .ok g1 → resolve g1 = .ok g2 →
    c.settle .boundaryCollapse (.boundaryCollapse rules) g2 = .ok (n, g3) →
    ∃ g4, resolve g3 = .ok g4 ∧ ∀ s, g3.containsScope s = true →
      ∃ sc sc', g2.scope? s = some sc ∧ g4.scope? s = some sc' ∧ sc'.fields = sc.fields

end PlannerConfig

open PlannerConfig

/-- **Fields do not depend on reshaping.** This holds for the graph of every definition that
passes verification. -/
theorem keepsContracts_of_verify {d : Definition} {w : Diagnostics} (c : PlannerConfig)
    (hd : d.toGraph = .ok g) (h : verify rules g = .ok w) : c.KeepsContracts rules g := by
  have hs := shaped_of_verify hd h
  have hfront := Definition.fronted_toGraph hd hs
  refine ⟨fun g1 h1 => ?_, fun g' w' hr => inputContracts_of_reshape hd hr,
    fun g1 g2 n g3 h1 h2 h3 => ?_⟩
  · obtain ⟨hs1, -, hcarries⟩ := carriesFields_of_shapingRules hs hfront h1
    exact hcarries.resolves_iff hs hs1
  · obtain ⟨hs1, hfront1, -⟩ := carriesFields_of_shapingRules hs hfront h1
    exact resolve_again hs1 hfront1 h2 h3

/-- A grouping reads one stage twice, once through a pipe, and a sink keeps what the stage
puts out. -/
def archived : Definition where
  name := "archived"
  stages :=
    [⟨"in", [], .source ⟨"hdfs", "in", some ["line"], true⟩⟩,
      ⟨"parse", ["in"], .each ⟨"parse", none, none, ["key", "value"], .results⟩⟩,
      ⟨"kept", ["parse"], .sink ⟨"hdfs", "kept", some ["key", "value"], true⟩⟩,
      ⟨"all", ["parse"], .pipe⟩,
      ⟨"pairs", ["all", "parse"], .coGroup ⟨["key"], .inner, some ["a", "b", "c", "d"]⟩⟩,
      ⟨"out", ["pairs"], .sink ⟨"hdfs", "out", none, true⟩⟩]

/-- In the end the grouping reads what the sink wrote, and its inputs carry what they did. -/
theorem keepsContracts_archived : ∃ g w g' w', archived.toGraph = .ok g ∧
    verify .byScheme g = .ok w ∧ PlannerConfig.default.reshape .byScheme g = .ok (g', w') ∧
      g.inputs 6 = [5, 3] ∧ g'.inputs 6 = [4, 4] ∧
        g'.inputContracts 6 = g.resolveFields.2.inputContracts 6 ∧
          PlannerConfig.default.KeepsContracts .byScheme g := by
  have hany : (archived.toGraph.toOption.any fun g =>
      (verify .byScheme g).toOption.any fun _ =>
        (PlannerConfig.default.reshape .byScheme g).toOption.any fun r =>
          decide (g.inputs 6 = [5, 3] ∧ r.1.inputs 6 = [4, 4] ∧ g.contains 6 = true ∧
            r.1.contains 6 = true)) = true := by cbv
  obtain ⟨g, hd, hany⟩ := exists_ok_of_any hany
  obtain ⟨w, hw, hany⟩ := exists_ok_of_any hany
  obtain ⟨⟨g', w'⟩, h, hany⟩ := exists_ok_of_any hany
  obtain ⟨hin, hin', hlive, hlive'⟩ := of_decide_eq_true hany
  have hkeeps := keepsContracts_of_verify PlannerConfig.default hd hw
  exact ⟨g, w, g', w', hd, hw, h, hin, hin', (hkeeps.received g' w' h).2 6 hlive hlive', hkeeps⟩

end Dataflow
