import Dataflow.Proofs.Definition.Acceptance
import Dataflow.Proofs.Flow.Drawing
import Dataflow.Proofs.Planner.Handover

/-!
# Names in a plan

The edges of a step graph refer to a tap by its name alone. The stages of a definition have
distinct names, reshaping keeps names apart, and so the name on an edge is that of one element
of the planned graph, the tap that the one step writes and the other reads. A stage may be
called like a boundary; the boundaries that are drawn step around it. A stage may also be
called like an extent, which no edge refers to.

Results:

* `applies_of_reshape`: reshaping is a sequence of rules and of field resolution;
* `distinctNames_of_compile`: a planned graph has distinct names;
* `names_distinguish`: names are told apart from the first rule to the edges of a plan.
-/
namespace Dataflow

open Dataflow.Graph Relation

variable {g g' : Graph} {rules : TapRules} {c : PlannerConfig} {d : Definition} {plan : Plan}

namespace PlannerConfig

theorem applies_of_apply {a b : Graph} {r : Rule} (h : r.apply a = (.ok true, b)) :
    Applies a b := by
  have hstep : Applies a (r.apply a).2 := .rule r
  rwa [h] at hstep

theorem applies_of_resolve (h : resolve g = .ok g') : Applies g g' := by
  have hstep : Applies g g.resolveFields.2 := .resolve
  rwa [resolve_eq_ok.1 h] at hstep

theorem applies_of_collapse (h : c.collapse rules g = .ok g') : ReflTransGen Applies g g' := by
  rcases collapse_eq_ok h with rfl | ⟨n, g1, h1, h2⟩
  · exact .refl
  · have hsettle : ReflTransGen Applies g g1 :=
      Rule.iterate_induction (P := ReflTransGen Applies g) (Phase.run_eq_ok h1) .refl
        fun _ _ ha hab => ha.tail (applies_of_apply hab)
    exact hsettle.tail (applies_of_resolve h2)

/-- Reshaping is a sequence of rules and of field resolution. -/
theorem applies_of_reshape {w : Diagnostics} (h : c.reshape rules g = .ok (g', w)) :
    ReflTransGen Applies g g' := by
  obtain ⟨-, g1, g2, h1, h2, h3, -⟩ := reshape_eq_ok h
  have hrules : ReflTransGen Applies g g1 :=
    settleAll_induction (P := ReflTransGen Applies g) h1 .refl
      fun _ _ _ _ ha hab => ha.tail (applies_of_apply hab)
  exact (hrules.tail (applies_of_resolve h2)).trans (applies_of_collapse h3)

end PlannerConfig

/-- The stages of a definition are told apart by their names. -/
theorem Definition.distinctNames_of_toGraph (h : d.toGraph = .ok g) : g.DistinctNames := by
  have hnodup := (exists_toGraph_iff.1 ⟨g, h⟩).distinct
  have hstage : ∀ e ∈ g.innerElements, ∃ i s, d.stages[i]? = some s ∧ e = firstId + i ∧
      g.nameOf e = s.name := by
    intro e he
    obtain ⟨hext, x, hx⟩ := mem_innerElements_iff.1 he
    rcases (toGraph_layout h).cases hx with ⟨rfl, -⟩ | ⟨rfl, -⟩ | ⟨i, s, rfl, hs, hm⟩
    · cases hext
    · cases hext
    · exact ⟨i, s, hs, rfl, (nameOf_eq hx).trans hm.1⟩
  intro a ha b hb heq
  obtain ⟨i, s, hs, rfl, hname⟩ := hstage a ha
  obtain ⟨j, t, ht, rfl, hname'⟩ := hstage b hb
  rw [hname, hname'] at heq
  have hi : d.names[i]? = some s.name := by rw [names, List.getElem?_map, hs]; rfl
  have hj : d.names[j]? = some s.name := by rw [names, List.getElem?_map, ht, heq]; rfl
  obtain ⟨hlt, -⟩ := List.getElem?_eq_some_iff.1 hi
  rw [(List.getElem?_inj hlt hnodup).1 (hi.trans hj.symm)]

theorem distinctNames_of_compile (h : c.compile rules d = .ok plan) :
    plan.graph.DistinctNames := by
  obtain ⟨g, hg, hr, -⟩ := PlannerConfig.compile_eq_ok h
  exact (Definition.distinctNames_of_toGraph hg).of_applies (PlannerConfig.applies_of_reshape hr)

/-- The name on the edge is that of `t` and of no other element, and `t` is what the two steps
hand over. -/
structure Plan.Denotes (p : Plan) (e : StepEdge) (t : ElementId) : Prop where
  isTap : p.graph.hasKind Kind.isTap t = true
  written : p.steps.Writes e.origin t
  read : p.steps.Reads e.target t
  found : p.graph.find e.tap = some t
  only : ∀ x ∈ p.graph.innerElements, p.graph.nameOf x = e.tap ↔ x = t

theorem exists_denotes_of_compile (h : c.compile rules d = .ok plan) {e : StepEdge}
    (he : e ∈ plan.steps.edges) : ∃ t, plan.Denotes e t := by
  have hnames := distinctNames_of_compile h
  obtain ⟨hshaped, hb⟩ := shaped_of_compile h
  obtain ⟨order, l, hl⟩ := StepGraph.lists_of_build hshaped.agrees hb
  obtain ⟨a, b, t, -, hw, hr, rfl⟩ := hl.mem_edges_iff.1 he
  have htap : plan.graph.hasKind Kind.isTap t = true := by
    obtain ⟨d, hd, ht⟩ := hl.reads_iff.1 hr
    exact (hl.isDraft hd).isTap_of_mem_sources ht
  have hinner : t ∈ plan.graph.innerElements :=
    mem_innerElements.2 ⟨contains_of_hasKind htap, hshaped.isExtent_eq_false (fun _ => rfl) htap⟩
  exact ⟨t, htap, hw, hr, hnames.find_eq_some_iff.2 ⟨hinner, rfl⟩, fun x hx =>
    ⟨hnames x hx t hinner, fun hxt => hxt ▸ rfl⟩⟩

/-- **Names tell elements apart, from the first rule to the edges of a plan.** Rules and field
resolution keep the names of a graph distinct, in whatever order and number they are applied. A
name for a boundary is found on every graph, nothing has it, and it is not drawn again. The name
on an edge of a compiled plan is that of one element. -/
theorem names_distinguish :
    (∀ g g' : Graph, g.DistinctNames → ReflTransGen Applies g g' → g'.DistinctNames) ∧
      (∀ g : Graph, g.Draws) ∧
      ∀ (c : PlannerConfig) (rules : TapRules) (d : Definition) (plan : Plan),
        c.compile rules d = .ok plan → ∀ e ∈ plan.steps.edges, ∃ t, plan.Denotes e t :=
  ⟨fun _ _ => DistinctNames.of_applies, draws, fun _ _ _ _ h _ => exists_denotes_of_compile h⟩

/-- Two groupings in a row, the first one called like a boundary, the second one like an extent. -/
def disguised : Definition where
  name := "disguised"
  stages :=
    [⟨"in", [], .source ⟨"hdfs", "in", none, true⟩⟩, ⟨"boundary-1", ["in"], .groupBy ["day"]⟩,
      ⟨"head", ["boundary-1"], .groupBy ["user"]⟩,
      ⟨"out", ["head"], .sink ⟨"hdfs", "out", none, true⟩⟩]

/-- The boundary between them steps around the name. -/
theorem disguised_distinguished : ∃ g plan e t, disguised.toGraph = .ok g ∧
    PlannerConfig.default.compile .byScheme disguised = .ok plan ∧ e ∈ plan.steps.edges ∧
      e.tap = "boundary-2" ∧ plan.Denotes e t ∧ g.DistinctNames ∧
      ((Rule.jobPartitioning "sequence").apply g).2.DistinctNames ∧ g.Draws := by
  have hany : (disguised.toGraph.toOption.any fun g => decide g.DistinctNames) = true := by cbv
  have hany' : ((PlannerConfig.default.compile .byScheme disguised).toOption.any fun plan =>
      plan.steps.edges.any fun e => e.tap == "boundary-2") = true := by cbv
  obtain ⟨g, hg, hnames⟩ := exists_ok_of_any hany
  obtain ⟨plan, h, hedge⟩ := exists_ok_of_any hany'
  obtain ⟨e, he, htap⟩ := List.any_eq_true.1 hedge
  obtain ⟨hkeeps, hdraws, hdenotes⟩ := names_distinguish
  obtain ⟨t, ht⟩ := hdenotes _ _ _ plan h e he
  exact ⟨g, plan, e, t, hg, h, he, eq_of_beq htap, ht, of_decide_eq_true hnames,
    hkeeps g _ (of_decide_eq_true hnames) (.single (.rule _)), hdraws g⟩

end Dataflow
