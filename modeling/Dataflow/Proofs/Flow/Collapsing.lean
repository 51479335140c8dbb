import Dataflow.Proofs.Flow.Rules
import Dataflow.Proofs.Flow.Supply

/-!
# What collapsing boundaries does to a graph

A boundary that collapses leaves its scopes to the tap behind it. Over a whole run of the
rule one map says which tap stands in for which boundary, and what supplies an element
afterwards are the images of what supplied it before. So two taps become one, or a tap
becomes another one, only where a boundary gave way to a tap that it fed.

Results:

* `collapses_replaceElement`, `Relabels.collapses`, `Collapses.trans`: one collapse, new
  labels, and one after the other;
* `PlannerConfig.exists_collapses`: collapsing boundaries as a phase.
-/
namespace Dataflow
namespace Graph

open Relation

variable {g g' g'' : Graph} {κ κ' : ElementId → ElementId}

/-- `t` is a tap that `g'` has in place of a boundary that fed it in `g`. -/
def TookOver (g g' : Graph) (t : ElementId) : Prop :=
  g.hasKind Kind.passesOn t = true ∧
    ∃ b, g.hasKind Kind.isBoundary b = true ∧ g.Leads b t ∧ g'.contains b = false

/-- `κ` sends each boundary that collapsed to the tap that took over from it. -/
structure Collapses (κ : ElementId → ElementId) (g g' : Graph) : Prop extends Merges κ g g' where
  supplies : ∀ x o, g'.Supplies x (κ o) ↔ ∃ y, g.Supplies y o ∧ κ y = x
  moved : ∀ e, κ e ≠ e → g.hasKind Kind.isBoundary e = true ∧ TookOver g g' (κ e)

/-- What is neither a sink nor a boundary took over from nothing and is what it was. -/
theorem Collapses.eq_of_hasKind (h : Collapses κ g g') {p : Kind → Bool}
    (hp : ∀ k, p k = true → k.passesOn = false) {e : ElementId}
    (he : g'.hasKind p (κ e) = true) : κ e = e ∧ g.hasKind p e = true := by
  have hlive := contains_of_hasKind he
  have hpass := hasKind_eq_false hp he
  rw [h.hasKind_eq (fun _ => rfl) hlive] at hpass
  have hκ : κ e = e := by
    by_contra hne
    rw [(h.moved e hne).2.1] at hpass
    cases hpass
  have hbound : ∀ t, p (.boundary t) = false := by
    intro t
    rw [← Bool.not_eq_true]
    intro ht
    have := hp _ ht
    cases this
  rw [hκ] at he hlive
  exact ⟨hκ, (h.hasKind_eq hbound hlive).symm.trans he⟩

theorem Merges.contains_eq_false (h : Merges κ g g') {e : ElementId}
    (he : g.contains e = false) : g'.contains e = false := by
  rw [← Bool.not_eq_true]
  intro he'
  rw [(h.contains he').2] at he
  cases he

theorem TookOver.mono (h : TookOver g g' t) (hm : Merges κ g' g'') : TookOver g g'' t := by
  obtain ⟨hpass, b, hb, hbt, hgone⟩ := h
  exact ⟨hpass, b, hb, hbt, hm.contains_eq_false hgone⟩

theorem Relabels.collapses (h : g.Relabels g') (hs : g.Shaped) : Collapses id g g' where
  toMerges := h.merges hs
  supplies x o := by
    rw [id, h.supplies_iff hs]
    exact ⟨fun hx => ⟨x, hx, rfl⟩, by rintro ⟨y, hy, rfl⟩; exact hy⟩
  moved _ he := absurd rfl he

theorem collapses_replaceElement {b t : ElementId} {i : ScopeId} {sc : Scope}
    (hr : g.Replaceable b t i sc) (hs : g.Shaped) :
    Collapses (instead b t) g (g.replaceElement b t) where
  toMerges := merges_replaceElement hr hs
  supplies _ _ := supplies_replaceElement hr hs
  moved e he := by
    by_cases heb : e = b
    · subst heb
      rw [instead_self]
      refine ⟨hr.boundary, hr.tap, e, hr.boundary, hr.leads, ?_⟩
      rw [← Bool.not_eq_true]
      exact fun hlive => ((shrinks_replaceElement g e t).of_contains hlive).1 rfl
    · exact absurd (instead_of_ne heb) he

theorem Collapses.trans (h : Collapses κ g g') (h' : Collapses κ' g' g'') :
    Collapses (κ' ∘ κ) g g'' where
  toMerges := h.toMerges.trans h'.toMerges
  supplies x o := by
    rw [Function.comp_apply, h'.supplies]
    constructor
    · rintro ⟨y', hy', rfl⟩
      obtain ⟨y, hy, rfl⟩ := (h.supplies y' o).1 hy'
      exact ⟨y, hy, rfl⟩
    · rintro ⟨y, hy, rfl⟩
      exact ⟨κ y, (h.supplies _ o).2 ⟨y, hy, rfl⟩, rfl⟩
  moved e he := by
    -- what is a boundary after the first steps, or was moved to, was one before
    have hold : ∀ u, g'.hasKind Kind.isBoundary (κ u) = true →
        g.hasKind Kind.isBoundary u = true := by
      intro u hu
      by_cases hκ : κ u = u
      · rw [hκ] at hu
        rw [← h.hasKind_eq (fun _ => rfl) (contains_of_hasKind hu)]
        exact hu
      · exact (h.moved u hκ).1
    by_cases hκ' : κ' (κ e) = κ e
    · -- the second steps leave the tap where it is
      rw [Function.comp_apply, hκ'] at he ⊢
      obtain ⟨hb, htook⟩ := h.moved e he
      exact ⟨hb, htook.mono h'.toMerges⟩
    · obtain ⟨hb, hpass, b, hbb, hbt, hgone⟩ := h'.moved (κ e) hκ'
      refine ⟨hold e hb, ?_⟩
      obtain ⟨-, u, v, huv, hu, hv⟩ := h.leads_iff.1 hbt
      rw [Function.comp_apply, ← hv]
      by_cases hvt : κ v = v
      · -- the boundary that gave way last, or one that gave way to it before
        rw [← hv, hvt] at hpass
        rw [h.hasKind_eq (fun _ => rfl) (contains_of_hasKind hpass)] at hpass
        rw [hvt]
        refine ⟨hpass, u, hold u (hu ▸ hbb), huv, ?_⟩
        rw [← Bool.not_eq_true]
        intro hlive
        rw [← hu, (h.contains (h'.contains hlive).2).1, hlive] at hgone
        cases hgone
      · exact (h.moved v hvt).2.mono h'.toMerges

end Graph

open Dataflow.Graph

namespace PlannerConfig

variable {g g' : Graph} {c : PlannerConfig} {rules : TapRules}

theorem exists_collapses_settle {n : Nat} (hs : g.Shaped)
    (h : c.settle .boundaryCollapse (.boundaryCollapse rules) g = .ok (n, g')) :
    g'.Shaped ∧ ∃ κ, Collapses κ g g' := by
  refine Rule.iterate_induction (P := fun a => a.Shaped ∧ ∃ κ, Collapses κ g a)
    (Phase.run_eq_ok h) ⟨hs, id, (Relabels.refl g).collapses hs⟩ ?_
  rintro a a' ⟨ha, κ, hκ⟩ happly
  rw [Rule.apply, BoundaryCollapse.apply_eq, changeAt_eq_true] at happly
  obtain ⟨_, hbt, rfl⟩ := happly
  obtain ⟨⟨i, sc, hr⟩, -⟩ := replaceable_of_collapsible ha hbt
  exact ⟨shaped_replaceElement hr ha, _, hκ.trans (collapses_replaceElement hr ha)⟩

/-- Boundaries collapse into the taps that they feed. -/
theorem exists_collapses (hs : g.Shaped) (h : c.collapse rules g = .ok g') :
    ∃ κ, Collapses κ g g' := by
  rcases collapse_eq_ok h with rfl | ⟨n, g1, h1, h2⟩
  · exact ⟨id, (Relabels.refl g').collapses hs⟩
  · obtain ⟨hs1, κ, hκ⟩ := exists_collapses_settle hs h1
    exact ⟨_, hκ.trans ((relabels_of_resolve h2).collapses hs1)⟩

end PlannerConfig
end Dataflow
