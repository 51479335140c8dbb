import Dataflow.Proofs.Flow.Naming
import Dataflow.Proofs.Planner.Meaning

/-!
# Which taps share their place

No two boundaries of a reshaped graph keep their data at the same place: each has an
identifier under a number of its own. What a definition says about its taps nobody compares
with those identifiers, so a source or a sink may be declared where a boundary goes. It is
then in the scheme of the boundaries, and its identifier is the name of a boundary below
that of the pipeline; in `refed` a boundary writes over the source like this. That is the
only way for a boundary to share its place.

Results:

* `PlannerConfig.allotted_of_reshape`: boundaries have places of their own;
* `declared_of_shared`: what shares its place with a boundary is declared there;
* `refed_shared`: a pipeline with a boundary where its source is.
-/
namespace Dataflow

open Dataflow.Graph

variable {g g' : Graph} {rules : TapRules}

namespace PlannerConfig

variable {c : PlannerConfig} {scheme pipeline : String}

theorem allotted_resolve (ha : g.Allotted scheme pipeline) (h : resolve g = .ok g') :
    g'.Allotted scheme pipeline := by
  have hres := ha.resolveFields
  rw [resolve_eq_ok.1 h] at hres
  exact hres

theorem allotted_collapse (ha : g.Allotted scheme pipeline) (h : c.collapse rules g = .ok g') :
    g'.Allotted scheme pipeline := by
  rcases collapse_eq_ok h with rfl | ⟨n, g1, h1, h2⟩
  · exact ha
  · refine allotted_resolve ?_ h2
    refine Rule.iterate_induction (Phase.run_eq_ok h1) ha fun a a' haa happly => ?_
    rw [Rule.apply, BoundaryCollapse.apply_eq, changeAt_eq_true] at happly
    obtain ⟨_, -, rfl⟩ := happly
    exact haa.replaceElement _ _

/-- Every boundary of a reshaped graph has a place of its own below the pipeline. -/
theorem allotted_of_reshape {d : Definition} (hd : d.toGraph = .ok g) {w : Diagnostics}
    (h : c.reshape rules g = .ok (g', w)) : g'.Allotted c.tempScheme d.name := by
  obtain ⟨hw, g1, g2, h1, h2, h3, -⟩ := reshape_eq_ok h
  have hnone := Definition.not_hasKind_isBoundary hd
  have h0 : g.Allotted c.tempScheme d.name := by
    refine ⟨Definition.name_toGraph hd, fun b hb => ?_, fun b _ hb => ?_⟩ <;>
    · rw [hnone] at hb
      cases hb
  have hshapings := shapings_of_shapingRules (shaped_of_verify hd hw) h1
  exact allotted_collapse (allotted_resolve (hshapings.allotted h0) h2) h3

end PlannerConfig

/-- A tap that is no boundary stands in the graph as its stage declares it. -/
theorem Definition.declared_of_tapOf {d : Definition} {c : PlannerConfig} {w : Diagnostics}
    (hd : d.toGraph = .ok g) (h : c.reshape rules g = .ok (g', w)) {e : ElementId} {t : Tap}
    (ht : SourceNormalization.tapOf g' e = some t)
    (hb : g'.hasKind Kind.isBoundary e = false) : ∃ s ∈ d.stages, s.name = g'.nameOf e ∧
      ∃ u, (s.kind = .source u ∨ s.kind = .sink u) ∧ u.scheme = t.scheme ∧
        u.identifier = t.identifier := by
  obtain ⟨-, -, hr⟩ := PlannerConfig.reshape_spec.{0} hd h
  obtain ⟨k, hk, htap⟩ := Option.bind_eq_some_iff.1 ht
  obtain ⟨x', hx', rfl⟩ := Option.map_eq_some_iff.1 hk
  have hlt : e < g.size := by
    by_contra hge
    rw [hr.fresh e (Nat.le_of_not_lt hge) (contains_iff.2 ⟨x', hx'⟩)] at hb
    cases hb
  obtain ⟨x, hx, hname, hkind⟩ := hr.left e x' hlt hx'
  have hsame : x'.kind = x.kind := by
    refine hkind.resolve_right fun hbb => ?_
    rw [hasKind_iff.2 ⟨x', hx', hbb.2⟩] at hb
    cases hb
  rw [hsame] at htap
  rcases (Definition.toGraph_layout hd).cases hx with ⟨-, he⟩ | ⟨-, he⟩ | ⟨i, s, -, hs, hm⟩
  · rw [he] at htap; cases htap
  · rw [he] at htap; cases htap
  · refine ⟨s, List.mem_of_getElem? hs, ?_, hm.tap_of htap⟩
    rw [nameOf, hx', Option.elim_some, hname, hm.1]

/-- **What shares its place with a boundary.** A boundary of a reshaped graph has the scheme
and the identifier of no other boundary, and it has those of another tap only where the
definition declares a source or a sink in the scheme of the boundaries, with the name of a
boundary below that of the pipeline as its identifier. -/
theorem declared_of_shared {d : Definition} {c : PlannerConfig} {w : Diagnostics}
    (hd : d.toGraph = .ok g) (h : c.reshape rules g = .ok (g', w)) {b e : ElementId} {t u : Tap}
    (hb : g'.kind? b = some (.boundary t)) (he : SourceNormalization.tapOf g' e = some u)
    (hne : e ≠ b) (hscheme : u.scheme = t.scheme) (hident : u.identifier = t.identifier) :
    g'.hasKind Kind.isBoundary e = false ∧
      ∃ s ∈ d.stages, s.name = g'.nameOf e ∧ ∃ o, (s.kind = .source o ∨ s.kind = .sink o) ∧
        o.scheme = c.tempScheme ∧
        ∃ n, 0 < n ∧ o.identifier = d.name ++ "/" ++ boundaryName n := by
  have ha := PlannerConfig.allotted_of_reshape hd h
  have hbk : g'.hasKind Kind.isBoundary b = true := by rw [hasKind, hb]; rfl
  have hlocb : g'.location? b = some (t.scheme, t.identifier) := by
    rw [location?, SourceNormalization.tapOf, hb]
    rfl
  have hloce : g'.location? e = some (t.scheme, t.identifier) := by
    rw [location?, he, Option.map_some, hscheme, hident]
  have hek : g'.hasKind Kind.isBoundary e = false := by
    rw [← Bool.not_eq_true]
    exact fun hek => hne (ha.distinct e b hek hbk (hloce.trans hlocb.symm))
  obtain ⟨s, hs, hname, o, hso, hoscheme, hoident⟩ := Definition.declared_of_tapOf hd h he hek
  obtain ⟨n, hpos, -, hplace⟩ := ha.place b hbk
  rw [hlocb] at hplace
  obtain ⟨htscheme, htident⟩ := Prod.mk.inj (Option.some.inj hplace)
  refine ⟨hek, s, hs, hname, o, hso, ?_, n, hpos, ?_⟩
  · rw [hoscheme, hscheme, htscheme]
  · rw [hoident, hident, htident, boundaryPlace]

/-- A source is declared where the boundary between two groupings goes. -/
def refed : Definition where
  name := "refed"
  stages :=
    [⟨"in", [], .source ⟨"sequence", "refed/boundary-1", none, true⟩⟩,
      ⟨"by-day", ["in"], .groupBy ["day"]⟩, ⟨"by-user", ["by-day"], .groupBy ["user"]⟩,
      ⟨"out", ["by-user"], .sink ⟨"hdfs", "out", none, true⟩⟩]

theorem reshape_refed : ∃ g g' w t u, refed.toGraph = .ok g ∧
    PlannerConfig.default.reshape .byScheme g = .ok (g', w) ∧
      g'.kind? 6 = some (.boundary t) ∧ g'.kind? 2 = some (.source u) ∧
        u.scheme = t.scheme ∧ u.identifier = t.identifier := by
  have hany : (refed.toGraph.toOption.any fun g =>
      (PlannerConfig.default.reshape .byScheme g).toOption.any fun r =>
        decide (r.1.kind? 6 = some (.boundary (.temporary "sequence" "refed/boundary-1")) ∧
          r.1.kind? 2 = some (.source ⟨"sequence", "refed/boundary-1", .unknown, true⟩))) =
      true := by cbv
  obtain ⟨g, hd, hany⟩ := exists_ok_of_any hany
  obtain ⟨⟨g', w⟩, h, hany⟩ := exists_ok_of_any hany
  obtain ⟨hb, he⟩ := of_decide_eq_true hany
  exact ⟨g, g', w, _, _, hd, h, hb, he, rfl, rfl⟩

/-- Its stage gives the source the name of a boundary. -/
theorem declared_of_refed : ∃ g g' w b e t u, refed.toGraph = .ok g ∧
    PlannerConfig.default.reshape .byScheme g = .ok (g', w) ∧
      g'.kind? b = some (.boundary t) ∧ SourceNormalization.tapOf g' e = some u ∧ e ≠ b ∧
        u.scheme = t.scheme ∧ u.identifier = t.identifier ∧
        g'.hasKind Kind.isBoundary e = false ∧
          ∃ s ∈ refed.stages, s.name = g'.nameOf e ∧
            ∃ o, (s.kind = .source o ∨ s.kind = .sink o) ∧ o.scheme = "sequence" ∧
              ∃ n, 0 < n ∧ o.identifier = "refed/" ++ boundaryName n := by
  obtain ⟨g, g', w, t, u, hd, h, hb, he, hscheme, hident⟩ := reshape_refed
  have htap : SourceNormalization.tapOf g' 2 = some u := by
    rw [SourceNormalization.tapOf, he]
    rfl
  obtain ⟨hek, s, hs, hname, o, hso, hoscheme, hplace⟩ :=
    declared_of_shared hd h hb htap (by decide) hscheme hident
  exact ⟨g, g', w, 6, 2, t, u, hd, h, hb, htap, by decide, hscheme, hident, hek, s, hs, hname, o,
    hso, hoscheme, hplace⟩

/-- The boundary writes over the source. -/
theorem refed_shared : ∃ g g' w b e t u, refed.toGraph = .ok g ∧
    PlannerConfig.default.reshape .byScheme g = .ok (g', w) ∧
      g'.kind? b = some (.boundary t) ∧ g'.kind? e = some (.source u) ∧ e ≠ b ∧
        u.scheme = t.scheme ∧ u.identifier = t.identifier := by
  obtain ⟨g, g', w, t, u, hd, h, hb, he, hsame⟩ := reshape_refed
  exact ⟨g, g', w, 6, 2, t, u, hd, h, hb, he, by decide, hsame⟩

end Dataflow
