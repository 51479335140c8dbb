import Mathlib.Logic.Relation
import Dataflow.Proofs.Flow.Relabelling
import Dataflow.Proofs.Flow.Removal
import Dataflow.Proofs.Topology.Reach

/-!
# One element in place of another

An element that disappears leaves its scopes to another one: a pipe to what fed it, a
boundary to the tap behind it. `Merges κ g g'` says that `κ` sends the elements of `g`
to those of `g'` that stand in for them, and that the scopes follow. Where `κ` is the
identity nothing but labels has changed.

Results:

* `merges_removePassThrough`, `merges_replaceElement`, `Relabels.merges`: the edits that
  merge;
* `Merges.trans`: one merging after the other is a merging;
* `Merges.leads_iff`, `Merges.path`: scopes and ways of the merged graph;
* `Merges.onPath`: every element is still on a way from `head` to `tail`.
-/
namespace Dataflow

open Relation

/-- The scope joins what `κ` sends the old ends to, at the old position. -/
def Scope.Follows (κ : ElementId → ElementId) (sc sc' : Scope) : Prop :=
  sc'.origin = κ sc.origin ∧ sc'.target = κ sc.target ∧ sc'.ordinal = sc.ordinal

namespace Graph

variable {g g' g'' : Graph} {κ κ' : ElementId → ElementId}

/-- What `κ` moves has disappeared, and `κ` says what stands in for it. A scope between
the two is gone, every other scope follows. -/
structure Merges (κ : ElementId → ElementId) (g g' : Graph) : Prop where
  extent : ∀ e, isExtent e = true → κ e = e
  live : ∀ e, g.contains e = true → g'.contains (κ e) = true
  left : ∀ e x', g'.element? e = some x' →
    κ e = e ∧ ∃ x, g.element? e = some x ∧ x.kind.Alike x'.kind
  scope_to : ∀ s sc, g.scope? s = some sc → κ sc.origin ≠ κ sc.target →
    ∃ sc', g'.scope? s = some sc' ∧ sc.Follows κ sc'
  scope_from : ∀ s sc', g'.scope? s = some sc' →
    ∃ sc, g.scope? s = some sc ∧ sc.Follows κ sc' ∧ κ sc.origin ≠ κ sc.target

theorem Merges.trans (h : Merges κ g g') (h' : Merges κ' g' g'') :
    Merges (κ' ∘ κ) g g'' where
  extent e he := (congrArg κ' (h.extent e he)).trans (h'.extent e he)
  live e he := h'.live _ (h.live e he)
  left e x'' hx'' := by
    obtain ⟨he', x', hx', hk'⟩ := h'.left e x'' hx''
    obtain ⟨he, x, hx, hk⟩ := h.left e x' hx'
    exact ⟨(congrArg κ' he).trans he', x, hx, hk.trans hk'⟩
  scope_to s sc hs hne := by
    obtain ⟨sc', hs', ho, ht, hk⟩ := h.scope_to s sc hs fun heq => hne (congrArg κ' heq)
    obtain ⟨sc'', hs'', ho', ht', hk'⟩ := h'.scope_to s sc' hs' (by rw [ho, ht]; exact hne)
    exact ⟨sc'', hs'', ho'.trans (congrArg κ' ho), ht'.trans (congrArg κ' ht), hk'.trans hk⟩
  scope_from s sc'' hs'' := by
    obtain ⟨sc', hs', ⟨ho', ht', hk'⟩, hne⟩ := h'.scope_from s sc'' hs''
    obtain ⟨sc, hs, ⟨ho, ht, hk⟩, -⟩ := h.scope_from s sc' hs'
    rw [ho] at ho' hne
    rw [ht] at ht' hne
    exact ⟨sc, hs, ⟨ho', ht', hk'.trans hk⟩, hne⟩

/-! ## What a merging keeps -/

theorem Merges.contains (h : Merges κ g g') {e : ElementId} (he : g'.contains e = true) :
    κ e = e ∧ g.contains e = true := by
  obtain ⟨x', hx'⟩ := contains_iff.1 he
  obtain ⟨hκ, x, hx, -⟩ := h.left e x' hx'
  exact ⟨hκ, contains_iff.2 ⟨x, hx⟩⟩

/-- What is left is of the kind that it was of, if the question does not tell one
boundary from another. -/
theorem Merges.hasKind_eq (h : Merges κ g g') {p : Kind → Bool} {b : Bool}
    (hp : ∀ t, p (.boundary t) = b) {e : ElementId} (he : g'.contains e = true) :
    g'.hasKind p e = g.hasKind p e := by
  obtain ⟨x', hx'⟩ := contains_iff.1 he
  obtain ⟨-, x, hx, hk⟩ := h.left e x' hx'
  exact hasKind_eq_of_alike hp hx hx' hk

theorem Merges.leads_iff (h : Merges κ g g') {a c : ElementId} :
    g'.Leads a c ↔ a ≠ c ∧ ∃ u v, g.Leads u v ∧ κ u = a ∧ κ v = c := by
  constructor
  · rintro ⟨s, sc', hs', rfl, rfl⟩
    obtain ⟨sc, hs, ⟨ho, ht, -⟩, hne⟩ := h.scope_from s sc' hs'
    rw [ho, ht]
    exact ⟨hne, _, _, ⟨s, sc, hs, rfl, rfl⟩, rfl, rfl⟩
  · rintro ⟨hne, _, _, ⟨s, sc, hs, rfl, rfl⟩, rfl, rfl⟩
    obtain ⟨sc', hs', ho, ht, -⟩ := h.scope_to s sc hs hne
    exact ⟨s, sc', hs', ho, ht⟩

/-- A way leads to a way, from what stands in for its start to what stands in for its
end. -/
theorem Merges.path (h : Merges κ g g') {a c : ElementId} (hac : ReflTransGen g.Leads a c) :
    ReflTransGen g'.Leads (κ a) (κ c) := by
  induction hac with
  | refl => exact .refl
  | @tail b d _ hbd ih =>
    by_cases hne : κ b = κ d
    · exact hne ▸ ih
    · exact ih.tail (h.leads_iff.2 ⟨hne, b, d, hbd, rfl, rfl⟩)

theorem Merges.onPath (h : Merges κ g g') (hg : g.OnPath) : g'.OnPath := by
  intro e he hx
  obtain ⟨hκ, hlive⟩ := h.contains he
  obtain ⟨hhead, htail⟩ := hg e hlive hx
  replace hhead := h.path hhead
  replace htail := h.path htail
  rw [h.extent head rfl, hκ] at hhead
  rw [h.extent tail rfl, hκ] at htail
  exact ⟨hhead, htail⟩

/-! ## The edits that merge -/

theorem Relabels.merges (h : g.Relabels g') (hs : g.Shaped) : Merges id g g' where
  extent _ _ := rfl
  live _ he := h.contains.2 he
  left e x' hx' := by
    obtain ⟨x, hx, -, hk⟩ := h.element_from e x' hx'
    exact ⟨rfl, x, hx, hk⟩
  scope_to s sc hs _ := h.scope_to s sc hs
  scope_from s sc' hs' := by
    obtain ⟨sc, hsc, hends⟩ := h.scope_from s sc' hs'
    exact ⟨sc, hsc, hends, fun heq => hs.not_leads_self _ ⟨s, sc, hsc, rfl, heq.symm⟩⟩

theorem merges_recount (hs : g.Shaped) (n : Nat) : Merges id g { g with boundaryCount := n } where
  extent _ _ := rfl
  live _ he := he
  left _ x' hx' := ⟨rfl, x', hx', .inl rfl⟩
  scope_to _ sc hsc _ := ⟨sc, hsc, rfl, rfl, rfl⟩
  scope_from s sc' hs' :=
    ⟨sc', hs', ⟨rfl, rfl, rfl⟩, fun heq => hs.not_leads_self _ ⟨s, sc', hs', rfl, heq.symm⟩⟩

theorem Shaped.instead_extent (hs : g.Shaped) {p : Kind → Bool}
    (hp : ∀ x, p (.extent x) = false) {b : ElementId} (hb : g.hasKind p b = true)
    (t : ElementId) {e : ElementId} (he : isExtent e = true) : instead b t e = e := by
  refine instead_of_ne ?_
  rintro rfl
  rw [hs.isExtent_eq_false hp hb] at he
  cases he

/-- A scope that does not enter what disappears follows. -/
theorem follows_rerouted {b t : ElementId} {sc : Scope} (h : sc.target ≠ b) :
    sc.Follows (instead b t) (sc.rerouted b t) :=
  ⟨Scope.origin_rerouted, Scope.target_rerouted.trans (instead_of_ne h).symm,
    Scope.ordinal_rerouted⟩

/-- Where one element is gone, what is left is what it was. -/
theorem Shrinks.left {b t : ElementId} (h : Shrinks g g' b) {e : ElementId} {x' : Element}
    (hx' : g'.element? e = some x') :
    instead b t e = e ∧ ∃ x, g.element? e = some x ∧ x.kind.Alike x'.kind := by
  obtain ⟨hne, hsame⟩ := h.of_contains (contains_iff.2 ⟨x', hx'⟩)
  exact ⟨instead_of_ne hne, x', hsame ▸ hx', .inl rfl⟩

theorem Shrinks.live {b t : ElementId} (h : Shrinks g g' b) (ht : g.contains t = true)
    (hne : t ≠ b) {e : ElementId} (he : g.contains e = true) :
    g'.contains (instead b t e) = true := by
  by_cases heb : e = b
  · rw [heb, instead_self]
    exact h.contains_of_ne ht hne
  · rw [instead_of_ne heb]
    exact h.contains_of_ne he heb

/-- A scope of a graph without loops goes from one element to another. -/
theorem Shaped.origin_ne_target (hs : g.Shaped) {s : ScopeId} {sc : Scope}
    (h : g.scope? s = some sc) : sc.origin ≠ sc.target :=
  fun heq => hs.not_leads_self _ ⟨s, sc, h, rfl, heq.symm⟩

theorem merges_removePassThrough {p : ElementId} {i : ScopeId} {sc : Scope}
    (ha : g.arrivals p = [i]) (hi : g.scope? i = some sc) (hs : g.Shaped)
    (hp : g.hasKind Kind.isPipe p = true) :
    Merges (instead p sc.origin) g (g.removePassThrough p).2 := by
  have hg := shrinks_removePassThrough ha hi
  have hlive := contains_of_hasKind hp
  have hs' := shaped_removePassThrough ha hi hs hp
  have hne := hs.origin_ne_of_arrivals ha hi
  refine ⟨fun e => hs.instead_extent (fun _ => rfl) hp _, fun e =>
    hg.live (hs.ends _ _ ⟨i, sc, hi, rfl, rfl⟩).1 hne, fun e x' => hg.left,
    fun s tc htc hdiff => ?_, fun s tc' htc' => ?_⟩
  · by_cases ht : tc.target = p
    · -- the scope into the pipe, the one that is gone
      have hsi : s = i := by
        have := (hs.agrees.arrivals_iff p s).2 ⟨tc, htc, ht⟩
        rw [ha] at this
        exact List.mem_singleton.1 this
      rw [hsi, hi] at htc
      cases htc
      rw [ht, instead_self, instead_of_ne hne] at hdiff
      exact absurd rfl hdiff
    · exact ⟨_, hs.agrees.scope?_removePassThrough_old ha hi hlive hne htc ht, follows_rerouted ht⟩
  · obtain ⟨tc, htc, ht, rfl⟩ := hs.agrees.removePassThrough_cases ha hi hlive hne htc'
    have hf := follows_rerouted (t := sc.origin) ht
    refine ⟨tc, htc, hf, fun heq => hs'.origin_ne_target htc' ?_⟩
    rw [hf.1, hf.2.1]
    exact heq

theorem merges_replaceElement {b t : ElementId} {i : ScopeId} {sc : Scope}
    (hr : g.Replaceable b t i sc) (hs : g.Shaped) :
    Merges (instead b t) g (g.replaceElement b t) := by
  have hg := shrinks_replaceElement g b t
  have hs' := shaped_replaceElement hr hs
  obtain ⟨htb, hob, hot⟩ := hr.ne hs
  have hfeed : sc.Follows (instead b t) (sc.toTarget t sc.ordinal) :=
    ⟨(instead_of_ne hob).symm, by rw [hr.target_eq, instead_self]; rfl, rfl⟩
  refine ⟨fun e => hs.instead_extent (fun _ => rfl) hr.boundary _, fun e =>
    hg.live (contains_of_hasKind hr.tap) htb, fun e x' => hg.left,
    fun s tc htc hdiff => ?_, fun s tc' htc' => ?_⟩
  · by_cases hb : tc.target = b
    · -- the scope into the boundary enters the tap now
      have hsi := hr.sole.2 s tc htc hb
      rw [hsi, hr.feed] at htc
      cases htc
      exact ⟨_, hsi ▸ hr.scope?_feed hs, hfeed⟩
    · by_cases ht : tc.target = t
      · -- the scope into the tap, which the boundary fed
        have ho := hr.only _ ⟨s, tc, htc, rfl, ht⟩
        rw [ho, instead_self, ht, instead_of_ne htb] at hdiff
        exact absurd rfl hdiff
      · exact ⟨_, (hr.givesWay hs).scope?_old htc hb ht, follows_rerouted hb⟩
  · have hdiff := hs'.origin_ne_target htc'
    rcases hr.cases hs htc' with ⟨rfl, rfl⟩ | ⟨tc, htc, hb, -, rfl⟩
    · exact ⟨sc, hr.feed, hfeed, by rw [← hfeed.1, ← hfeed.2.1]; exact hdiff⟩
    · have hf := follows_rerouted (t := t) hb
      exact ⟨tc, htc, hf, by rw [← hf.1, ← hf.2.1]; exact hdiff⟩

end Graph
end Dataflow
