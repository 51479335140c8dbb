import Dataflow.Proofs.Flow.Feeds
import Dataflow.Proofs.Flow.Partitioning
import Dataflow.Proofs.Flow.Rules
import Dataflow.Proofs.Flow.Splits
import Dataflow.Proofs.Flow.Upheld

/-!
# How a rule can fail

Most errors of the rules guard against graphs that planning never meets: a scope that
leads to a removed element, a cycle, a motif that is no motif, a part of the graph that
has several roots. On a well-shaped graph whose elements lie on ways none of them comes
up. What is left are the errors about the pipeline, and counts of routes that outgrow their
words.

Results:

* `Rule.apply_error`: which rules fail, and how;
* `resolveFields_error`, `checkEveryChains_error`: the same for the other phases.
-/
namespace Dataflow

open Dataflow.Graph Relation

variable {g g' : Graph} {e : PlanError}

/-- Split insertion fails on counts that outgrow their words alone. -/
theorem SplitInsertion.apply_error (h : g.Ordered) {scheme : String}
    (he : (SplitInsertion.apply scheme g).1 = .error e) : e = .dead .overflow := by
  obtain ⟨l, hl⟩ := h.exists_order
  rw [SplitInsertion.apply_eq, fst_changeAt_eq_error, SplitInsertion.firstPoint, map_eq_error] at he
  exact (SplitInsertion.splitPoints_eq_error h.agrees h.ends hl he).1

namespace JobPartitioning

theorem not_error (h : g.Agrees) (hends : g.EndsLive) {scheme : String} :
    (JobPartitioning.apply scheme g).1 ≠ .error e := by
  rw [JobPartitioning.apply_eq, ne_eq, fst_changeAt_eq_error, findCut_eq h hends]
  exact fun he => by cases he

end JobPartitioning

namespace JoinIsolation

/-- What feeds a live element is live. -/
theorem contains_of_mem_feeding (h : g.Agrees) (hends : g.EndsLive) {id x : ElementId}
    (hid : g.contains id = true) (hx : x ∈ feeding g id) : g.contains x = true := by
  refine explore_subset (P := fun x => g.contains x = true) (fun v _ w hw => ?_) _
    (by simpa using hid) (fun v _ w hw => ?_) x hx
  all_goals
    split at hw
    · obtain ⟨hw, -⟩ := List.mem_filter.1 hw
      obtain ⟨⟨s, p⟩, hedge, rfl⟩ := List.mem_map.1 hw
      exact (hends _ _ ⟨s, h.mem_edgesIn.1 hedge⟩).1
    · cases hw

theorem removedFeeding?_eq_none (h : g.Agrees) (hends : g.EndsLive) (join : ElementId) :
    removedFeeding? g join = none := by
  refine Option.map_eq_none_iff.2 (List.findSome?_eq_none_iff.2 fun ⟨s, o⟩ hedge => ?_)
  refine List.find?_eq_none.2 fun x hx => ?_
  have ho := (hends _ _ ⟨s, h.mem_edgesIn.1 hedge⟩).1
  simp [contains_of_mem_feeding h hends ho hx]

/-- Nothing removed feeds a join, so its first incompatible input is found. -/
theorem incompatibleInput_eq (h : g.Agrees) (hends : g.EndsLive) :
    incompatibleInput g = .ok ((joins g).findSome? (incompatibleInputOf g)) := by
  unfold incompatibleInput
  simp only [removedFeeding?_eq_none h hends]
  have hmap : (joins g).findSome? (fun join => (incompatibleInputOf g join).map
      (Except.ok : ScopeId → Except PlanError ScopeId)) =
        ((joins g).findSome? (incompatibleInputOf g)).map .ok := by
    rw [List.map_findSome?]
    rfl
  rw [hmap]
  cases (joins g).findSome? (incompatibleInputOf g) <;> rfl

theorem not_error (h : g.Agrees) (hends : g.EndsLive) {scheme : String} :
    (JoinIsolation.apply scheme g).1 ≠ .error e := by
  rw [JoinIsolation.apply_eq, ne_eq, fst_changeAt_eq_error, incompatibleInput_eq h hends]
  exact fun he => by cases he

end JoinIsolation

namespace SourceNormalization

/-- Source normalization fails on feeds that stay incompatible alone. -/
theorem apply_error (h : g.Rooted) {rules : TapRules} {scheme : String}
    (he : (SourceNormalization.apply scheme rules g).1 = .error e) :
    ∃ G, g.hasKind Kind.isGrouping G = true ∧ e = .incompatibleFeeds (g.nameOf G) ∧
      Stuck rules g G := by
  have hspec := findCut_spec h scheme rules
  rw [SourceNormalization.apply_eq, fst_changeAt_eq_error] at he
  rw [he] at hspec
  cases hspec with
  | stuck hG hstuck => exact ⟨_, hG, rfl, hstuck⟩

end SourceNormalization

theorem PassThrough.not_error (hs : g.Shaped) : (PassThrough.apply g).1 ≠ .error e := by
  rw [PassThrough.apply_eq, ne_eq, fst_changeAt_eq_error]
  intro herr
  unfold removable at herr
  split at herr
  · cases herr
  · next id neighbour hfound =>
    obtain ⟨p, -, hsome⟩ := List.exists_of_findSome?_eq_some hfound
    obtain ⟨n, hn, heq⟩ := Option.map_eq_some_iff.1 hsome
    cases heq
    have hlive : g.contains neighbour = true := by
      rcases List.mem_append.1 (List.mem_of_find?_eq_some hn) with hmem | hmem
      · exact (hs.ends _ _ (hs.agrees.mem_predecessors.1 hmem)).1
      · exact (hs.ends _ _ (hs.agrees.mem_successors.1 hmem)).2
    rw [if_pos hlive] at herr
    cases herr

theorem BoundaryCollapse.not_error (hs : g.Shaped) {rules : TapRules} :
    (BoundaryCollapse.apply rules g).1 ≠ .error e := by
  rw [BoundaryCollapse.apply_eq, ne_eq, fst_changeAt_eq_error]
  intro herr
  unfold collapsible at herr
  split at herr
  · cases herr
  · next b t hfound =>
    obtain ⟨b', -, hsome⟩ := List.exists_of_findSome?_eq_some hfound
    obtain ⟨t', ht, heq⟩ := Option.map_eq_some_iff.1 hsome
    cases heq
    have hl := hs.agrees.mem_successors.1 (List.mem_of_find?_eq_some ht)
    rw [if_pos (hs.ends _ _ hl).2] at herr
    cases herr

/-- Split insertion fails on counts that outgrow their words, source normalization on feeds that
stay incompatible, and no other rule fails. -/
theorem Rule.apply_error {r : Rule} (hs : g.Shaped) (h : g.OnPath)
    (he : r.apply g = (.error e, g')) :
    ((∃ scheme, r = .splitInsertion scheme) ∧ e = .dead .overflow) ∨
      ((∃ scheme rules, r = .sourceNormalization scheme rules) ∧
        ∃ name, e = .incompatibleFeeds name) := by
  replace he := congrArg Prod.fst he
  cases r with
  | splitInsertion => exact .inl ⟨⟨_, rfl⟩, SplitInsertion.apply_error hs.ordered he⟩
  | jobPartitioning => exact absurd he (JobPartitioning.not_error hs.agrees hs.ends)
  | joinIsolation => exact absurd he (JoinIsolation.not_error hs.agrees hs.ends)
  | sourceNormalization =>
    obtain ⟨G, -, hG, -⟩ := SourceNormalization.apply_error (h.rooted hs.ordered) he
    exact .inr ⟨⟨_, _, rfl⟩, _, hG⟩
  | passThrough => exact absurd he (PassThrough.not_error hs)
  | boundaryCollapse => exact absurd he (BoundaryCollapse.not_error hs)

/-! ## The phases that are no rules -/

theorem Resolution.resolveEach_error {l : List ElementId}
    (he : (resolveEach l g).1 = .error e) : ∃ error, e = .fields error := by
  induction l generalizing g with
  | nil => cases he
  | cons id rest ih =>
    unfold resolveEach at he
    split at he
    · exact ih he
    · split at he
      · cases he; exact ⟨_, rfl⟩
      · exact ih he

theorem Graph.resolveFields_error (hs : g.Shaped) (he : g.resolveFields.1 = .error e) :
    ∃ error, e = .fields error := by
  obtain ⟨l, hl⟩ := order_of_acyclic hs.agrees hs.ends hs.acyclic
  unfold resolveFields at he
  rw [hl] at he
  exact Resolution.resolveEach_error he

theorem Graph.checkEveryChains_error (hs : g.Shaped) (he : g.checkEveryChains = .error e) :
    ∃ every fedBy, e = .detachedEvery every fedBy := by
  unfold checkEveryChains at he
  split at he
  · cases he
  · next id fedBy hfound =>
    obtain ⟨id', -, hsome⟩ := List.exists_of_findSome?_eq_some hfound
    obtain ⟨p, hp, heq⟩ := Option.map_eq_some_iff.1 hsome
    cases heq
    have hmem := (List.mem_filter.1 (List.mem_of_mem_head? hp)).1
    obtain ⟨x, hx⟩ := contains_iff.1 (hs.ends _ _ (hs.agrees.mem_predecessors.1 hmem)).1
    rw [hx] at he
    cases he
    exact ⟨_, _, rfl⟩

end Dataflow
