import Mathlib
import Dataflow.Proofs.Flow.Rules

/-!
# Reshaping preserves what a pipeline computes

The rules put boundaries in, take pipes away and let a tap stand in for the boundary
before it. None of this shows in the values: whatever the elements compute, an
element of the reshaped graph receives on its inputs what it received in the graph
of the definition.

Results:

* `sameResults_of_reshape`: the theorem, for every definition, configuration and
  opinion on taps, over values of any type;
* `sameResults_regrouped`: it at work on a pipeline that needs a boundary.
-/
namespace Dataflow

universe u

open Dataflow.Graph

variable {g g' : Graph}

/-- `g'` computes what `g` does, and only elements that pass on what they receive
were added or taken away. -/
structure SameResults (g g' : Graph) : Prop where
  /-- Both graphs can be evaluated. -/
  ordered : (∃ l, g.topology.order = .ok l) ∧ ∃ l, g'.topology.order = .ok l
  /-- Whatever is in both graphs receives the same values, position by position. -/
  received : ∀ {V : Type u} (I : Interpretation V) (e : ElementId), g.contains e = true →
    g'.contains e = true → I.received g' e = I.received g e
  /-- Only pipes with one input are gone; what is left has its name and kind. -/
  kept : ∀ e x, g.element? e = some x → (x.kind = .pipe → (g.inputs e).length ≠ 1) →
    g'.element? e = some x
  /-- Only boundaries are new. -/
  fresh : ∀ e x, g'.element? e = some x → g.element? e = none → x.kind.isBoundary = true

theorem Definition.not_hasKind_isBoundary {d : Definition} (hd : d.toGraph = .ok g)
    (e : ElementId) : g.hasKind Kind.isBoundary e = false := by
  cases h : g.hasKind Kind.isBoundary e with
  | false => rfl
  | true =>
    obtain ⟨x, hx, hk⟩ := hasKind_iff.1 h
    rcases (toGraph_layout hd).cases hx with ⟨-, h'⟩ | ⟨-, h'⟩ | ⟨i, s, -, -, hm⟩
    · rw [h'] at hk; cases hk
    · rw [h'] at hk; cases hk
    · rw [hm.isBoundary] at hk; cases hk

/-- **Reshaping preserves results.** Where reshaping succeeds on the graph of a
definition, the graph that it returns computes the same. -/
theorem sameResults_of_reshape {d : Definition} {c : PlannerConfig} {rules : TapRules}
    {w : Diagnostics} (hd : d.toGraph = .ok g) (h : c.reshape rules g = .ok (g', w)) :
    SameResults.{u} g g' := by
  obtain ⟨hs, hs', hr⟩ := PlannerConfig.reshape_spec.{u} hd h
  have hord := order_of_acyclic hs.agrees hs.ends hs.acyclic
  have hord' := order_of_acyclic hs'.agrees hs'.ends hs'.acyclic
  refine ⟨⟨hord, hord'⟩, fun I e he he' => hr.received hs hs' I he he', ?_, ?_⟩
  · intro e x hx hne
    refine hr.kept e x hx ?_
    rintro (hb | ⟨hp, hlen⟩)
    · rw [Definition.not_hasKind_isBoundary hd] at hb
      cases hb
    · obtain ⟨y, hy, hk⟩ := hasKind_iff.1 hp
      rw [hx] at hy; cases hy
      exact hne (Kind.eq_pipe_of_isPipe hk) hlen
  · intro e x hx hnone
    rcases Nat.lt_or_ge e g.size with hlt | hge
    · obtain ⟨y, hy, -⟩ := hr.left e x hlt hx
      rw [hnone] at hy; cases hy
    · obtain ⟨y, hy, hk⟩ := hasKind_iff.1 (hr.fresh e hge (contains_iff.2 ⟨x, hx⟩))
      rw [hx] at hy; cases hy
      exact hk

/-- A pipe feeds two groupings in a row. The pipe goes, and a boundary comes between
the groupings. -/
def regrouped : Definition where
  name := "regrouped"
  stages :=
    [⟨"in", [], .source ⟨"hdfs", "in", none, true⟩⟩, ⟨"all", ["in"], .pipe⟩,
      ⟨"by-user", ["all"], .groupBy ["user"]⟩, ⟨"by-day", ["by-user"], .groupBy ["day"]⟩,
      ⟨"out", ["by-day"], .sink ⟨"hdfs", "out", none, true⟩⟩]

theorem sameResults_regrouped : ∃ g g' w, regrouped.toGraph = .ok g ∧
    PlannerConfig.default.reshape .byScheme g = .ok (g', w) ∧ SameResults.{0} g g' := by
  have hany : (regrouped.toGraph.toOption.any fun g =>
      (PlannerConfig.default.reshape .byScheme g).toOption.any fun _ => true) = true := by cbv
  obtain ⟨g, hd, hany⟩ := exists_ok_of_any hany
  obtain ⟨⟨g', w⟩, h, -⟩ := exists_ok_of_any hany
  exact ⟨g, g', w, hd, h, sameResults_of_reshape hd h⟩

end Dataflow
