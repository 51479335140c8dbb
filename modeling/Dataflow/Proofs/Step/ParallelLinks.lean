import Dataflow.Proofs.Planner.Handover

/-!
# Parallel links do not change a plan

What no step claims is looked at only to find an element that ended up in no draft. A claimed
element that is joined to the rest by parallel scopes is in a draft already, as parts claim their
elements for a draft. So it is never that element, and it makes no difference whether such
elements are kept with what is left.

Results:

* `mem_mask_of_parallelLinks`: what parallel links add back was claimed;
* `list_eq`, `build_eq`: the drafts and the step graph with and without them;
* `same_plan_with_parallelLinks`: the step graphs of every graph whose scopes join live
  elements, and the plans of every definition.
-/
namespace Dataflow

open Dataflow.Graph

/-- The first member that passes a test is the smallest of those that do. -/
theorem IdSet.find?_toList (s : IdSet) (p : Nat → Bool) :
    s.toList.find? p = (s.filter p).min? :=
  List.head?_filter.symm

namespace Remainder

variable {g : Graph} {mask : Selection}

theorem contains_of_connects (h : g.EndsLive) {s : ScopeId} {a b : ElementId}
    (hs : Connects g s a b) : g.contains a = true := by
  obtain ⟨sc, hsc, ⟨rfl, rfl⟩ | ⟨rfl, rfl⟩⟩ := hs
  · exact (h _ _ ⟨s, sc, hsc, rfl, rfl⟩).1
  · exact (h _ _ ⟨s, sc, hsc, rfl, rfl⟩).2

/-- In the whole graph, what is joined to the leftover and not left over itself is claimed. -/
theorem mem_mask_of_parallelLinks (h : g.EndsLive) {e : ElementId}
    (he : e ∈ (parallelLinks (openLinks g (.whole g) mask)).elements) : e ∈ mask.elements := by
  obtain ⟨l, hl, -, -, -, rfl, -⟩ := (mem_parallelLinks (nodup_links _ _)).1 he
  obtain ⟨hconn, -, -, hinner, hbase, -⟩ := mem_openLinks.1 hl
  by_contra hmask
  have hlive : l.claimed ∈ (Selection.whole g).elements :=
    mem_elements.2 (contains_of_connects h hconn)
  exact hbase (mem_base.2 ⟨hlive, hinner, hmask⟩)

end Remainder

namespace Draft

variable {g : Graph} {parts : List Selection}

/-- Parallel links add nothing to what is left but elements of the parts. -/
theorem mem_unclaimed_iff (h : g.EndsLive) {e : ElementId} (he : ∀ part ∈ parts, e ∉ part.elements)
    (a b : Bool) : e ∈ unclaimed g parts a ↔ e ∈ unclaimed g parts b := by
  have hmask : e ∉ (⟨.unionOf parts Selection.elements, .unionOf parts Selection.scopes⟩ :
      Selection).elements := by
    intro hmem
    obtain ⟨part, hpart, hep⟩ := IdSet.mem_unionOf.1 hmem
    exact he part hpart hep
  unfold unclaimed
  generalize (⟨.unionOf parts Selection.elements, .unionOf parts Selection.scopes⟩ : Selection) =
    mask at hmask
  dsimp only
  -- whether something is left does not depend on the links
  have hnone : Remainder.compute g (.whole g) mask [] a = none ↔
      Remainder.compute g (.whole g) mask [] b = none := by
    rw [Remainder.compute_eq_none_iff, Remainder.compute_eq_none_iff]
  cases ha : Remainder.compute g (.whole g) mask [] a with
  | none => rw [hnone.1 ha]
  | some r =>
    cases hb : Remainder.compute g (.whole g) mask [] b with
    | none =>
      rw [hnone.2 hb] at ha
      cases ha
    | some r' =>
      have hnot := mt (Remainder.mem_mask_of_parallelLinks h) hmask
      rw [Option.elim_some, Option.elim_some, (Remainder.mem_of_compute ha).1 e,
        (Remainder.mem_of_compute hb).1 e]
      simp only [hnot, and_false, or_false]

/-- So the first element that is in no draft is the same. -/
theorem find?_unclaimed (h : g.EndsLive) {p : ElementId → Bool}
    (hp : ∀ part ∈ parts, ∀ e ∈ part.elements, p e = false) (a b : Bool) :
    (unclaimed g parts a).toList.find? p = (unclaimed g parts b).toList.find? p := by
  have hsame : (unclaimed g parts a).filter p = (unclaimed g parts b).filter p := by
    refine IdSet.ext_mem fun e => ?_
    rw [IdSet.mem_filter, IdSet.mem_filter]
    refine and_congr_left fun hpe => mem_unclaimed_iff h (fun part hpart hep => ?_) a b
    rw [hp part hpart e hep] at hpe
    cases hpe
  rw [IdSet.find?_toList, IdSet.find?_toList, hsame]

/-- The drafts do not depend on the links, nor does the error where there are none. -/
theorem list_eq_of_endsLive (h : g.EndsLive) (a b : Bool) : list g a = list g b := by
  rw [list_eq, list_eq]
  cases copies g with
  | error ref => rfl
  | ok copied =>
    dsimp only
    rw [find?_unclaimed h (fun part hpart e he => ?_) a b]
    -- a part is the elements of its draft
    obtain ⟨m, hm, rfl⟩ := List.mem_map.1 hpart
    rw [Bool.not_eq_false', List.any_eq_true]
    exact ⟨ofMatch g m, List.mem_append_left _ (List.mem_map_of_mem hm), decide_eq_true he⟩

end Draft

theorem StepGraph.build_eq {g : Graph} (h : g.EndsLive) (a b : Bool) :
    StepGraph.build g a = StepGraph.build g b := by
  unfold StepGraph.build
  rw [Draft.list_eq_of_endsLive h a b]

namespace PlannerConfig

variable {c : PlannerConfig} {rules : TapRules}

theorem settleAll_multiEdge (b : Bool) (l : List (Phase × Rule)) (g : Graph) :
    ({ c with multiEdgeRemainder := b } : PlannerConfig).settleAll l g = c.settleAll l g := by
  induction l generalizing g with
  | nil => rfl
  | cons x rest ih =>
    unfold settleAll
    simp only [ih]
    rfl

theorem reshape_multiEdge (b : Bool) (g : Graph) :
    ({ c with multiEdgeRemainder := b } : PlannerConfig).reshape rules g = c.reshape rules g := by
  unfold reshape
  simp only [settleAll_multiEdge]
  rfl

theorem partition_multiEdge {g : Graph} (h : g.EndsLive) (b : Bool) :
    ({ c with multiEdgeRemainder := b } : PlannerConfig).partition g = c.partition g := by
  unfold partition Phase.run
  dsimp only
  rw [StepGraph.build_eq h b c.multiEdgeRemainder]

/-- A reshaped graph joins live elements, so its plan does not depend on the links. -/
theorem plan_multiEdge {d : Definition} {g : Graph} (hd : d.toGraph = .ok g) (b : Bool) :
    ({ c with multiEdgeRemainder := b } : PlannerConfig).plan rules g = c.plan rules g := by
  unfold plan
  rw [reshape_multiEdge]
  cases hr : c.reshape rules g with
  | error f => simp only [bind, Except.bind]
  | ok reshaped =>
    obtain ⟨g', w⟩ := reshaped
    have hshaped := (reshape_spec.{0} hd hr).2.1
    simp only [bind, Except.bind]
    rw [partition_multiEdge hshaped.ends]

end PlannerConfig

/-- **Keeping parallel links changes no plan.** Where scopes join live elements the step graph,
or the error in its place, is the same with and without them. So a definition is compiled to the
same plan, or fails alike. -/
theorem same_plan_with_parallelLinks :
    (∀ g : Graph, g.EndsLive → ∀ a b, StepGraph.build g a = StepGraph.build g b) ∧
      ∀ (c : PlannerConfig) (rules : TapRules) (d : Definition) (b : Bool),
        ({ c with multiEdgeRemainder := b } : PlannerConfig).compile rules d =
          c.compile rules d := by
  refine ⟨fun g h a b => StepGraph.build_eq h a b, fun c rules d b => ?_⟩
  unfold PlannerConfig.compile
  cases hd : d.toGraph with
  | error e => simp only [Except.mapError, bind, Except.bind]
  | ok g =>
    simp only [Except.mapError, bind, Except.bind, PlannerConfig.plan_multiEdge hd b]

/-- A merge reads the source twice over and nothing reads the merge. -/
def unread : Definition where
  name := "unread"
  stages :=
    [⟨"in", [], .source ⟨"hdfs", "in", none, true⟩⟩,
      ⟨"parse", ["in"], .each ⟨"parse", none, none, ["key"], .results⟩⟩,
      ⟨"out", ["parse"], .sink ⟨"hdfs", "out", none, true⟩⟩,
      ⟨"twice", ["in", "in"], .merge⟩]

/-- The parallel links bring the source back to what is left, before the merge. The merge is
reported all the same. -/
theorem same_plan_unread : ∃ g part, unread.toGraph = .ok g ∧ g.EndsLive ∧
    Draft.unclaimed g [part] true = .ofList [2, 5] ∧ Draft.unclaimed g [part] false = .ofList [5] ∧
      StepGraph.build g false = .error (.unplaced "twice") ∧
        StepGraph.build g true = .error (.unplaced "twice") := by
  have hany : (unread.toGraph.toOption.any fun g => decide
      (Draft.unclaimed g [.induced g (.ofList [2, 3, 4])] true = .ofList [2, 5] ∧
        Draft.unclaimed g [.induced g (.ofList [2, 3, 4])] false = .ofList [5] ∧
          StepGraph.build g false = .error (.unplaced "twice"))) = true := by cbv
  obtain ⟨g, hd, hfound⟩ := exists_ok_of_any hany
  obtain ⟨hmulti, hsingle, hbuild⟩ := of_decide_eq_true hfound
  have hends : g.EndsLive := (Definition.toGraph_layout hd).ends
  refine ⟨g, _, hd, hends, hmulti, hsingle, hbuild, ?_⟩
  rw [same_plan_with_parallelLinks.1 g hends true false]
  exact hbuild

end Dataflow
