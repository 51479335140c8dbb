import Dataflow.Proofs.Flow.Collapsing
import Dataflow.Proofs.Flow.Failures
import Dataflow.Proofs.Flow.Schemes

/-!
# Taps that feed one grouping

Where source normalization settles, all taps that supply a grouping have one scheme.
Removing pipes and resolving fields keeps that. Where boundaries collapse, a sink of
another scheme may take over.

Results:

* `SourceNormalization.feedsAgree_of_findCut`: nothing to cut means that feeds agree;
* `PassThrough.feedsAgree`, `FeedsAgree.collapses`: what later rules leave of that.
-/
namespace Dataflow

open Dataflow.Graph Relation

variable {g g' : Graph}

/-- Any two taps that supply one grouping are compatible, or one of them is `foreign`. -/
def Graph.FeedsAgree (rules : TapRules) (g : Graph) (foreign : ElementId → Prop) : Prop :=
  ∀ G x y a b, g.hasKind Kind.isGrouping G = true → g.Supplies x G → g.Supplies y G →
    SourceNormalization.tapOf g x = some a → SourceNormalization.tapOf g y = some b →
      rules.compatible a b = true ∨ foreign x ∨ foreign y

/-- Where there is nothing to cut, any two taps that supply one grouping are compatible. -/
theorem SourceNormalization.feedsAgree_of_findCut (hs : g.Shaped) (h : g.OnPath) {scheme : String}
    (hcut : findCut scheme .byScheme g = .ok none) :
    g.FeedsAgree .byScheme fun _ => False := by
  intro G x y a b hG hx hy ha hb
  have hspec := findCut_spec (h.rooted hs.ordered) scheme .byScheme
  rw [hcut] at hspec
  obtain ⟨hall⟩ := hspec
  refine .inl (beq_iff_eq.2 ?_)
  rcases Nat.lt_trichotomy x y with hlt | rfl | hgt
  · exact beq_iff_eq.1 (hall G hG x y hlt hx hy a b ha hb)
  · rw [Option.some.inj (ha.symm.trans hb)]
  · exact (beq_iff_eq.1 (hall G hG y x hgt hy hx b a hb ha)).symm

/-! ## What later rules leave of that -/

namespace Graph

theorem feedsAgree_byScheme {foreign : ElementId → Prop} : g.FeedsAgree .byScheme foreign ↔
    ∀ G x y s t, g.hasKind Kind.isGrouping G = true → g.Supplies x G → g.Supplies y G →
      g.scheme? x = some s → g.scheme? y = some t → s = t ∨ foreign x ∨ foreign y := by
  constructor
  · intro h G x y s t hG hx hy hs ht
    obtain ⟨a, ha, rfl⟩ := Option.map_eq_some_iff.1 hs
    obtain ⟨b, hb, rfl⟩ := Option.map_eq_some_iff.1 ht
    exact (h G x y a b hG hx hy ha hb).imp_left beq_iff_eq.1
  · intro h G x y a b hG hx hy ha hb
    refine (h G x y a.scheme b.scheme hG hx hy ?_ ?_).imp_left beq_iff_eq.2
    · rw [scheme?, ha]; rfl
    · rw [scheme?, hb]; rfl

theorem contains_of_scheme? {e : ElementId} {s : String} (h : g.scheme? e = some s) :
    g.contains e = true := by
  obtain ⟨a, ha, -⟩ := Option.map_eq_some_iff.1 h
  exact contains_of_hasKind (SourceNormalization.isTap_of_tapOf ha)

/-- Feeds still agree where no grouping is supplied by more, and taps keep their schemes. -/
theorem FeedsAgree.of_supplies (h : g.FeedsAgree .byScheme fun _ => False)
    (hG : ∀ G, g'.hasKind Kind.isGrouping G = true → g.hasKind Kind.isGrouping G = true ∧
      ∀ x, g'.Supplies x G → g.Supplies x G)
    (hscheme : ∀ x, g'.contains x = true → g'.scheme? x = g.scheme? x) :
    g'.FeedsAgree .byScheme fun _ => False := by
  rw [feedsAgree_byScheme] at h ⊢
  intro G x y s t hG' hx hy hs ht
  obtain ⟨hgroup, hsup⟩ := hG G hG'
  refine h G x y s t hgroup (hsup x hx) (hsup y hy) ?_ ?_
  · rw [← hscheme x (contains_of_scheme? hs)]; exact hs
  · rw [← hscheme y (contains_of_scheme? ht)]; exact ht

theorem FeedsAgree.removePassThrough (h : g.FeedsAgree .byScheme fun _ => False) (hs : g.Shaped)
    {p : ElementId} {i : ScopeId} {sc : Scope} (ha : g.arrivals p = [i])
    (hi : g.scope? i = some sc) (hp : g.hasKind Kind.isPipe p = true) :
    (g.removePassThrough p).2.FeedsAgree .byScheme fun _ => False := by
  have hg := shrinks_removePassThrough ha hi
  refine h.of_supplies (fun G hG => ?_) fun x hx => scheme?_congr (hg.of_contains hx).2
  have hne := (hg.of_contains (contains_of_hasKind hG)).1
  rw [hg.hasKind_of_ne hne] at hG
  refine ⟨hG, fun x hx => ?_⟩
  rw [← instead_of_ne (t := sc.origin) hne] at hx
  exact ((supplies_removePassThrough ha hi hs hp).1 hx).2

theorem FeedsAgree.resolveFields (h : g.FeedsAgree .byScheme fun _ => False) (hs : g.Shaped) :
    g.resolveFields.2.FeedsAgree .byScheme fun _ => False := by
  have hrel := relabels_resolveFields g
  refine h.of_supplies (fun G hG => ?_) fun x _ => scheme?_resolveFields g x
  exact ⟨(hrel.hasKind (alike_of_boundaries fun _ => rfl)).1 hG, fun x => (hrel.supplies_iff hs).1⟩

/-- Where boundaries of one scheme collapse, feeds agree but for the sinks of another scheme
that took over. -/
theorem FeedsAgree.collapses {κ : ElementId → ElementId} {scheme : String}
    (h : g.FeedsAgree .byScheme fun _ => False) (hc : Collapses κ g g')
    (hscheme : ∀ x, g'.contains x = true → g'.scheme? x = g.scheme? x)
    (hb : ∀ b, g.hasKind Kind.isBoundary b = true → g.scheme? b = some scheme) :
    g'.FeedsAgree .byScheme fun x =>
      TookOver g g' x ∧ g'.hasKind Kind.isSink x = true ∧ g'.scheme? x ≠ some scheme := by
  -- what a tap stands in for had its scheme
  have hback : ∀ {G x s}, κ G = G → g'.Supplies x G → g'.scheme? x = some s →
      (∃ y, g.Supplies y G ∧ g.scheme? y = some s) ∨
        TookOver g g' x ∧ g'.hasKind Kind.isSink x = true ∧ g'.scheme? x ≠ some scheme := by
    intro G x s hκG hx hs
    have hlive := contains_of_scheme? hs
    obtain ⟨y, hy, rfl⟩ := (hc.supplies x G).1 (by rw [hκG]; exact hx)
    by_cases hκ : κ y = y
    · refine .inl ⟨y, hy, ?_⟩
      rw [hκ] at hlive hs
      rw [← hscheme y hlive]
      exact hs
    · obtain ⟨hbound, htook⟩ := hc.moved y hκ
      by_cases hsame : s = scheme
      · exact .inl ⟨y, hy, by rw [hb y hbound, hsame]⟩
      · refine .inr ⟨htook, ?_, fun heq => hsame ?_⟩
        · rw [hc.hasKind_eq (fun _ => rfl) hlive]
          obtain ⟨z, hz, hpass⟩ := hasKind_iff.1 htook.1
          refine hasKind_iff.2 ⟨z, hz, ?_⟩
          rcases Bool.or_eq_true_iff.1 hpass with hsink | hbd
          · exact hsink
          · rw [hscheme _ hlive, hb _ (hasKind_iff.2 ⟨z, hz, hbd⟩)] at hs
            exact absurd (Option.some.inj hs).symm hsame
        · rw [hs] at heq
          exact Option.some.inj heq
  rw [feedsAgree_byScheme] at h ⊢
  intro G x y s t hG hx hy hs ht
  obtain ⟨hκG, -⟩ := hc.contains (contains_of_hasKind hG)
  rw [hc.hasKind_eq (fun _ => rfl) (contains_of_hasKind hG)] at hG
  rcases hback hκG hx hs with ⟨x', hx', hs'⟩ | hfor
  · rcases hback hκG hy ht with ⟨y', hy', ht'⟩ | hfor
    · exact .inl ((h G x' y' s t hG hx' hy' hs' ht').resolve_right (by simp))
    · exact .inr (.inr hfor)
  · exact .inr (.inl hfor)

end Graph

theorem PassThrough.feedsAgree (hs : g.Shaped) (h : g.FeedsAgree .byScheme fun _ => False) :
    (PassThrough.apply g).2.FeedsAgree .byScheme fun _ => False := by
  rw [PassThrough.apply_eq]
  refine changeAt_induction (P := fun a => a.FeedsAgree .byScheme fun _ => False) h
    fun id hid => ?_
  obtain ⟨i, sc, hi, hsc, hp⟩ := arrivals_of_removable hs hid
  exact h.removePassThrough hs hi hsc hp

end Dataflow
