import Mathlib
import Dataflow.Planner.Compile
import Dataflow.Proofs.Planner.Meaning
import Dataflow.Proofs.Step.Precedence

/-!
# Who writes what a step reads

In a compiled plan a tap that is read and is no source is written by exactly one step,
since boundaries and sinks have one input. That step comes earlier, and an edge says
so, unless it is the reading step itself. That happens exactly if the element that
feeds the tap hangs together with one that the tap feeds: a region is what hangs
together, so both ends of the tap lie in it. Nothing refuses such a plan, as no edge
joins a step with itself, although the step waits for what it has yet to write;
`selfread` is one.

Results:

* `Lists.exists_unique_writer`: a tap with one input has one writer;
* `before_of_compile`: what is reached in the graph comes in a later step;
* `handedOver_iff_of_compile`: when a tap that is read comes from an earlier step;
* `selfread_not_handedOver`: a plan with a step that reads what it writes.
-/
namespace Dataflow

open Dataflow.Graph Relation

variable {g : Graph}

namespace StepGraph

open Draft

variable {order : List ElementId} {l : List Draft} {p : StepGraph}

/-- Step `s` reads `t` from the one step that writes it, which comes before it. -/
def HandedOver (p : StepGraph) (g : Graph) (s : Step) (t : ElementId) : Prop :=
  ∃ writer ∈ p.steps, (∀ s' ∈ p.steps, t ∈ s'.writes ↔ s' = writer) ∧ writer ≠ s ∧
    writer.id < s.id ∧ (⟨writer.id, s.id, g.nameOf t⟩ : StepEdge) ∈ p.edges

/-- What feeds the tap hangs together with something in `s` that the tap feeds. -/
def LoopsBack (g : Graph) (s : Step) (t : ElementId) : Prop :=
  ∃ w x, g.Works w ∧ g.Works x ∧ g.Leads w t ∧ g.Leads t x ∧ x ∈ s.elements ∧
    ReflTransGen (g.Linked g.Works) w x

/-! ## Who writes and who reads -/

theorem Lists.writes_cases (hl : p.Lists g order l) {k : Nat} {t : ElementId} (ht : p.Writes k t) :
    (∃ x, g.Works x ∧ p.Holds k x ∧ g.Leads x t) ∨
      ∃ a, g.hasKind Kind.isTap a = true ∧ g.Leads a t ∧ p.Copies k a t := by
  obtain ⟨s, hs, ht⟩ := ht
  have hmem : s ∈ p.steps := List.mem_of_getElem? hs
  cases hcopy : s.isCopy with
  | false =>
    obtain ⟨-, x, hx, hw, hxt⟩ := (hl.mem_writes_iff hmem hcopy).1 ht
    exact .inl ⟨x, hw, ⟨s, hs, hx⟩, hxt⟩
  | true =>
    obtain ⟨a, b, ha, -, hab, hreads, hwrites, -⟩ := hl.copied_only hmem hcopy
    rw [hwrites, List.mem_singleton] at ht
    subst ht
    exact .inr ⟨a, ha, hab, s, hs, hcopy, hreads, hwrites⟩

theorem Lists.reads_cases (hl : p.Lists g order l) {k : Nat} {t : ElementId} (ht : p.Reads k t) :
    (∃ x, g.Works x ∧ p.Holds k x ∧ g.Leads t x) ∨
      ∃ b, g.hasKind Kind.isTap b = true ∧ g.Leads t b ∧ p.Copies k t b := by
  obtain ⟨s, hs, ht⟩ := ht
  have hmem : s ∈ p.steps := List.mem_of_getElem? hs
  cases hcopy : s.isCopy with
  | false =>
    obtain ⟨-, x, hx, hw, htx⟩ := (hl.mem_reads_iff hmem hcopy).1 ht
    exact .inl ⟨x, hw, ⟨s, hs, hx⟩, htx⟩
  | true =>
    obtain ⟨a, b, -, hb, hab, hreads, hwrites, -⟩ := hl.copied_only hmem hcopy
    rw [hreads, List.mem_singleton] at ht
    subst ht
    exact .inr ⟨b, hb, hab, s, hs, hcopy, hreads, hwrites⟩

/-- A copy holds nothing that works. -/
theorem Lists.not_copies_of_holds (hl : p.Lists g order l) {k : Nat} {x a b : ElementId}
    (hw : g.Works x) (hx : p.Holds k x) : ¬ p.Copies k a b := by
  rintro ⟨s, hs, hcopy, -⟩
  obtain ⟨s', hs', hxs⟩ := hx
  rw [hs] at hs'; cases hs'
  rw [hl.not_isCopy (List.mem_of_getElem? hs) hxs hw] at hcopy
  cases hcopy

/-- `w` is all that feeds the tap. -/
def FedOnlyBy (g : Graph) (t w : ElementId) : Prop := ∀ a, g.Leads a t ↔ a = w

/-- A tap that one element feeds is written by the step of that element, or by the
copy from it. -/
theorem Lists.exists_unique_writer (hl : p.Lists g order l) {t w : ElementId}
    (ht : g.hasKind Kind.isTap t = true) (hfed : FedOnlyBy g t w) (hw : isExtent w = false) :
    ∃ j, (∀ i, p.Writes i t ↔ i = j) ∧ (g.Works w → p.Holds j w) ∧
      (g.hasKind Kind.isTap w = true → p.Copies j w t) := by
  have hwt : g.Leads w t := (hfed w).2 rfl
  have hlive : g.contains w = true :=
    hl.agrees.contains_of_leads hl.ordered hwt (contains_of_hasKind ht)
  rcases hl.works_or_isTap hlive hw with hworks | htap
  · obtain ⟨j, hj⟩ := hl.exists_holds hlive hw
    refine ⟨j, fun i => ⟨fun hi => ?_, ?_⟩, fun _ => hj,
      fun htap => absurd hworks (not_works_of_isTap htap)⟩
    · rcases hl.writes_cases hi with ⟨x, -, hix, hxt⟩ | ⟨a, ha, hat, -⟩
      · rw [(hfed x).1 hxt] at hix
        exact hl.holds_unique hworks hix hj
      · rw [(hfed a).1 hat] at ha
        exact absurd hworks (not_works_of_isTap ha)
    · rintro rfl
      exact hl.writes_of_holds hj hworks ht hwt
  · obtain ⟨j, hj, huniq⟩ := hl.copied htap ht hwt
    refine ⟨j, fun i => ⟨fun hi => ?_, ?_⟩,
      fun hworks => absurd hworks (not_works_of_isTap htap), fun _ => hj⟩
    · rcases hl.writes_cases hi with ⟨x, hx, -, hxt⟩ | ⟨a, -, hat, hi⟩
      · rw [(hfed x).1 hxt] at hx
        exact absurd hx (not_works_of_isTap htap)
      · rw [(hfed a).1 hat] at hi
        exact huniq i hi
    · rintro rfl
      obtain ⟨s, hs, -, -, hwrites⟩ := hj
      exact ⟨s, hs, by rw [hwrites]; exact List.mem_cons_self⟩

/-- The writer is the reading step itself if the tap loops back, and only then. -/
theorem Lists.writer_eq_iff (hl : p.Lists g order l) (hself : ∀ a, ¬ g.Leads a a) {t w : ElementId}
    (ht : g.hasKind Kind.isTap t = true) (hfed : FedOnlyBy g t w) (hw : isExtent w = false)
    {k : Nat} {s : Step} (hs : p.step? k = some s) (hts : t ∈ s.reads) {j : Nat}
    (hworks : g.Works w → p.Holds j w) (hcopies : g.hasKind Kind.isTap w = true → p.Copies j w t) :
    j = k ↔ LoopsBack g s t := by
  have hwt : g.Leads w t := (hfed w).2 rfl
  have hlive : g.contains w = true :=
    hl.agrees.contains_of_leads hl.ordered hwt (contains_of_hasKind ht)
  constructor
  · rintro rfl
    rcases hl.works_or_isTap hlive hw with hww | htap
    · have hj := hworks hww
      rcases hl.reads_cases ⟨s, hs, hts⟩ with ⟨x, hx, hjx, htx⟩ | ⟨b, -, -, hcopy⟩
      · have hxs : x ∈ s.elements := by
          obtain ⟨s', hs', hxs⟩ := hjx
          rw [hs] at hs'; cases hs'
          exact hxs
        exact ⟨w, x, hww, hx, hwt, htx, hxs, (hl.holds_iff_linked hww hx hj).1 hjx⟩
      · exact absurd hcopy (hl.not_copies_of_holds hww hj)
    · -- a copy reads its source alone
      obtain ⟨s', hs', -, hreads, -⟩ := hcopies htap
      rw [hs] at hs'; cases hs'
      rw [hreads, List.mem_singleton] at hts
      exact absurd (hts ▸ hwt) (hself w)
  · rintro ⟨w', x, hww, hx, hwt', -, hxs, hlink⟩
    rw [(hfed w').1 hwt'] at hww hlink
    have hk : p.Holds k x := ⟨s, hs, hxs⟩
    have hkw := (hl.holds_iff_linked hx hww hk).2 (reflTransGen_linked_symm hlink)
    exact hl.holds_unique hww (hworks hww) hkw

/-! ## From places to steps -/

theorem Lists.id_eq (hl : p.Lists g order l)
    {k : Nat} {s : Step} (hs : p.step? k = some s) : s.id = k := by
  obtain ⟨d, -, -, hshow⟩ := hl.exists_draft hs
  exact hshow.id

theorem Lists.mem_writes_iff_eq (hl : p.Lists g order l) {t : ElementId} {j : Nat} {writer : Step}
    (hj : p.step? j = some writer) (huniq : ∀ i, p.Writes i t ↔ i = j) {s : Step}
    (hs : s ∈ p.steps) : t ∈ s.writes ↔ s = writer := by
  obtain ⟨i, hi⟩ := List.getElem?_of_mem hs
  change p.step? i = some s at hi
  constructor
  · intro ht
    rw [(huniq i).1 ⟨s, hi, ht⟩, hj] at hi
    exact (Option.some.inj hi).symm
  · rintro rfl
    have hij : i = j := (hl.id_eq hi).symm.trans (hl.id_eq hj)
    obtain ⟨s', hs', ht⟩ := (huniq i).2 hij
    rw [hi] at hs'; cases hs'
    exact ht

/-- A tap is handed over if its writer is not the step that reads it. -/
theorem Lists.handedOver_iff_ne (hl : p.Lists g order l) {t : ElementId} {j k : Nat}
    (huniq : ∀ i, p.Writes i t ↔ i = j) {s : Step} (hs : p.step? k = some s)
    (ht : t ∈ s.reads) : p.HandedOver g s t ↔ j ≠ k := by
  obtain ⟨writer, hj, htw⟩ := (huniq j).2 rfl
  have hmem : s ∈ p.steps := List.mem_of_getElem? hs
  have hwmem : writer ∈ p.steps := List.mem_of_getElem? hj
  have hiff : ∀ s' ∈ p.steps, t ∈ s'.writes ↔ s' = writer := fun s' hs' =>
    hl.mem_writes_iff_eq hj huniq hs'
  constructor
  · rintro ⟨writer', hmem', hiff', hne, -⟩ rfl
    rw [hs] at hj; cases hj
    exact hne ((hiff' s hmem).1 htw).symm
  · intro hne
    have hedge : (⟨j, k, g.nameOf t⟩ : StepEdge) ∈ p.edges :=
      (hl.mem_edges_iff).2 ⟨j, k, t, hne, ⟨writer, hj, htw⟩, ⟨s, hs, ht⟩, rfl⟩
    have hlt : j < k := hl.forward _ hedge
    refine ⟨writer, hwmem, hiff, ?_, ?_, ?_⟩
    · rintro rfl
      exact hne ((hl.id_eq hj).symm.trans (hl.id_eq hs))
    · rw [hl.id_eq hj, hl.id_eq hs]
      exact hlt
    · rw [hl.id_eq hj, hl.id_eq hs]
      exact hedge

end StepGraph

/-! ## Compiled plans -/

open StepGraph

/-- A boundary or a sink is fed by one element, which is no extent. -/
theorem Graph.Shaped.exists_feeder (h : g.Shaped) {t : ElementId}
    (ht : g.hasKind Kind.isTap t = true) (hsrc : g.hasKind Kind.isSource t = false) :
    ∃ w, FedOnlyBy g t w ∧ isExtent w = false := by
  have hpass : g.hasKind Kind.passesOn t = true := by
    obtain ⟨x, hx, hk⟩ := hasKind_iff.1 ht
    have hns : x.kind.isSource = false := by
      rw [← Bool.not_eq_true]
      intro hs
      rw [hasKind_iff.2 ⟨x, hx, hs⟩] at hsrc
      cases hsrc
    exact hasKind_iff.2 ⟨x, hx, Kind.passesOn_of_isTap hk hns⟩
  obtain ⟨i, ⟨sc, hsc, htgt⟩, huniq⟩ := h.sole t hpass
  have hlead : g.Leads sc.origin t := ⟨i, sc, hsc, rfl, htgt⟩
  refine ⟨sc.origin, fun a => ⟨?_, ?_⟩, ?_⟩
  · rintro ⟨i', sc', hsc', rfl, ht'⟩
    rw [huniq i' sc' hsc' ht', hsc] at hsc'
    rw [Option.some.inj hsc']
  · rintro rfl
    exact hlead
  · rw [← Bool.not_eq_true, isExtent_iff]
    rintro (hhead | htail)
    · rw [hhead] at hlead
      rw [h.head_first t hlead] at hsrc
      cases hsrc
    · rw [htail] at hlead
      exact h.tail_last t hlead

theorem PlannerConfig.compile_eq_ok {c : PlannerConfig} {rules : TapRules} {d : Definition}
    {plan : Plan} (h : c.compile rules d = .ok plan) :
    ∃ g, d.toGraph = .ok g ∧ c.reshape rules g = .ok (plan.graph, plan.warnings) ∧
      StepGraph.build plan.graph c.multiEdgeRemainder = .ok plan.steps := by
  unfold compile at h
  obtain ⟨g, hg, h⟩ := bind_eq_ok.1 h
  obtain ⟨⟨g', w⟩, hr, h⟩ := bind_eq_ok.1 (mapError_eq_ok.1 h)
  obtain ⟨p, hp, h⟩ := bind_eq_ok.1 h
  cases h
  obtain ⟨⟨p', g''⟩, hrun, rfl⟩ := map_eq_ok.1 hp
  have hbuild := Phase.run_eq_ok hrun
  exact ⟨g, mapError_eq_ok.1 hg, hr, (Prod.mk.inj hbuild).1⟩

/-- The graph of a compiled plan is well-shaped, and its steps are built from it. -/
theorem shaped_of_compile {c : PlannerConfig} {rules : TapRules} {d : Definition} {plan : Plan}
    (h : c.compile rules d = .ok plan) : plan.graph.Shaped ∧
      StepGraph.build plan.graph c.multiEdgeRemainder = .ok plan.steps := by
  obtain ⟨g, hd, hr, hb⟩ := PlannerConfig.compile_eq_ok h
  exact ⟨(PlannerConfig.reshape_spec.{0} hd hr).2.1, hb⟩

/-- In a compiled plan what can be reached in the graph, by any way, comes in a later step. -/
theorem before_of_compile {c : PlannerConfig} {rules : TapRules} {d : Definition} {plan : Plan}
    (h : c.compile rules d = .ok plan) {x y : ElementId} {j k : Nat} (hwx : plan.graph.Works x)
    (hwy : plan.graph.Works y) (hx : isExtent x = false) (hy : isExtent y = false)
    (hj : plan.steps.Holds j x) (hk : plan.steps.Holds k y) (hne : j ≠ k)
    (hxy : ReflTransGen plan.graph.Leads x y) : TransGen plan.steps.Before j k ∧ j < k := by
  obtain ⟨g, hd, hr, hb⟩ := PlannerConfig.compile_eq_ok h
  obtain ⟨hw, -⟩ := PlannerConfig.reshape_eq_ok hr
  have hs := PlannerConfig.shaped_of_verify hd hw
  obtain ⟨-, hedits⟩ := PlannerConfig.reshape_edits hd hr
  have hshaped := hedits.shaped hs
  have hway := hedits.onPath hs (PlannerConfig.onPath_of_verify hs hw)
  obtain ⟨order, l, hl⟩ := lists_of_build hshaped.agrees hb
  exact hl.orders.reached hshaped.tail_last (hway.not_leads_head hshaped) x y j k hwx hwy hx hy
    hj hk hne hxy

/-- **When a plan can be run in the order of its steps.** A tap that a step reads, and
that is no source, comes from one earlier step along an edge, unless it loops back;
then the step itself, and no other, writes it. -/
theorem handedOver_iff_of_compile {c : PlannerConfig} {rules : TapRules} {d : Definition}
    {plan : Plan} (h : c.compile rules d = .ok plan) {s : Step} (hs : s ∈ plan.steps.steps)
    {t : ElementId} (ht : t ∈ s.reads) (hsrc : plan.graph.hasKind Kind.isSource t = false) :
    (plan.steps.HandedOver plan.graph s t ↔ ¬ LoopsBack plan.graph s t) ∧
      (LoopsBack plan.graph s t → ∀ s' ∈ plan.steps.steps, t ∈ s'.writes ↔ s' = s) := by
  obtain ⟨hshaped, hb⟩ := shaped_of_compile h
  obtain ⟨order, l, hl⟩ := lists_of_build hshaped.agrees hb
  obtain ⟨k, hk⟩ := List.getElem?_of_mem hs
  change plan.steps.step? k = some s at hk
  have htap : plan.graph.hasKind Kind.isTap t = true := by
    obtain ⟨d, -, hdraft, hshow⟩ := hl.exists_draft hk
    rw [hshow.reads] at ht
    exact hdraft.isTap_of_mem_sources ht
  obtain ⟨w, hfed, hw⟩ := hshaped.exists_feeder htap hsrc
  obtain ⟨j, huniq, hworks, hcopies⟩ := hl.exists_unique_writer htap hfed hw
  have hloop := hl.writer_eq_iff hshaped.not_leads_self htap hfed hw hk ht hworks hcopies
  refine ⟨?_, fun hback s' hs' => ?_⟩
  · rw [hl.handedOver_iff_ne huniq hk ht]
    exact not_congr hloop
  · rw [← hloop.2 hback] at hk
    exact hl.mem_writes_iff_eq hk huniq hs'

/-- Step `k` of the plan reads `t`, which is no source; `own` says whether it writes it. -/
def Plan.readsBack (plan : Plan) (k : Nat) (t : ElementId) (own : Bool) : Bool :=
  (plan.steps.step? k).any fun s => decide (t ∈ s.reads) &&
    (!plan.graph.hasKind Kind.isSource t && (decide (t ∈ s.writes) == own))

theorem Plan.readsBack_iff {plan : Plan} {k : Nat} {t : ElementId} {own : Bool} :
    plan.readsBack k t own = true ↔ ∃ s, plan.steps.step? k = some s ∧ t ∈ s.reads ∧
      plan.graph.hasKind Kind.isSource t = false ∧ (t ∈ s.writes ↔ own = true) := by
  unfold readsBack
  rw [Option.any_eq_true]
  refine exists_congr fun s => and_congr_right fun _ => ?_
  cases own <;> simp

theorem regrouped_handedOver : ∃ plan s,
    PlannerConfig.default.compile .byScheme regrouped = .ok plan ∧ s ∈ plan.steps.steps ∧
      7 ∈ s.reads ∧ plan.steps.HandedOver plan.graph s 7 := by
  have hany : ((PlannerConfig.default.compile .byScheme regrouped).toOption.any fun plan =>
      plan.readsBack 1 7 false) = true := by cbv
  obtain ⟨plan, h, hback⟩ := exists_ok_of_any hany
  obtain ⟨s, hs, ht, hsrc, hwrites⟩ := Plan.readsBack_iff.1 hback
  have hmem : s ∈ plan.steps.steps := List.mem_of_getElem? hs
  obtain ⟨hiff, hown⟩ := handedOver_iff_of_compile h hmem ht hsrc
  refine ⟨plan, s, h, hmem, ht, hiff.2 fun hloop => ?_⟩
  exact Bool.false_ne_true (hwrites.1 ((hown hloop s hmem).2 rfl))

/-- A join reads one stage twice; the second time through a boundary. -/
def selfread : Definition where
  name := "selfread"
  stages :=
    [⟨"in", [], .source ⟨"hdfs", "in", none, true⟩⟩,
      ⟨"parse", ["in"], .each ⟨"parse", none, none, ["key"], .results⟩⟩,
      ⟨"pairs", ["parse", "parse"], .hashJoin ⟨["key"], .inner, some ["left", "right"]⟩⟩,
      ⟨"out", ["pairs"], .sink ⟨"hdfs", "out", none, true⟩⟩]

/-- Its plan is one step, which reads the boundary that it writes. -/
theorem selfread_not_handedOver : ∃ plan s,
    PlannerConfig.default.compile .byScheme selfread = .ok plan ∧ s ∈ plan.steps.steps ∧
      6 ∈ s.reads ∧ plan.graph.hasKind Kind.isSource 6 = false ∧ 6 ∈ s.writes ∧
      ¬ plan.steps.HandedOver plan.graph s 6 := by
  have hany : ((PlannerConfig.default.compile .byScheme selfread).toOption.any fun plan =>
      plan.readsBack 0 6 true) = true := by cbv
  obtain ⟨plan, h, hback⟩ := exists_ok_of_any hany
  obtain ⟨s, hs, ht, hsrc, hwrites⟩ := Plan.readsBack_iff.1 hback
  have hmem : s ∈ plan.steps.steps := List.mem_of_getElem? hs
  refine ⟨plan, s, h, hmem, ht, hsrc, hwrites.2 rfl, ?_⟩
  rintro ⟨writer, -, hiff, hne, -⟩
  exact hne ((hiff s hmem).1 (hwrites.2 rfl)).symm

end Dataflow
