import Dataflow.Proofs.Flow.Shape

/-!
# Taking an idle element away changes no value

A pipe with one input is spliced out, and a boundary gives way to the tap that it
alone feeds. Either way one element disappears that put out what it received, and
what it fed is fed by the element that has the same value.

Results:

* `shaped_removePassThrough`, `Agrees.bypasses_removePassThrough`, `rewrites_removePassThrough`:
  a pipe with one input;
* `GivesWay.slots_self`, `GivesWay.slots_of_ne`, `GivesWay.acyclic_replaceElement`: an element
  and the one that it alone feeds;
* `shaped_replaceElement`, `rewrites_replaceElement`: a boundary and the tap behind it.
-/
namespace Dataflow
namespace Graph

universe u

variable {g g' : Graph} {p : ElementId}

/-- `g'` has the same elements without `p`. -/
structure Shrinks (g g' : Graph) (p : ElementId) : Prop where
  size : g'.size = g.size
  element? : ∀ e, g'.element? e = if e = p then none else g.element? e

theorem Shrinks.element?_of_ne (h : Shrinks g g' p) {e : ElementId} (he : e ≠ p) :
    g'.element? e = g.element? e := by
  rw [h.element?, if_neg he]

theorem Shrinks.of_contains (h : Shrinks g g' p) {e : ElementId} (he : g'.contains e = true) :
    e ≠ p ∧ g'.element? e = g.element? e := by
  have hne : e ≠ p := by
    rintro rfl
    rw [contains, h.element?, if_pos rfl] at he
    cases he
  exact ⟨hne, h.element?_of_ne hne⟩

theorem Shrinks.contains_of_ne (h : Shrinks g g' p) {e : ElementId} (he : g.contains e = true)
    (hne : e ≠ p) : g'.contains e = true := by
  rw [contains, h.element?_of_ne hne]; exact he

theorem Shrinks.hasKind_of_ne (h : Shrinks g g' p) {q : Kind → Bool} {e : ElementId}
    (he : e ≠ p) : g'.hasKind q e = g.hasKind q e := by
  rw [hasKind, hasKind, kind?, kind?, h.element?_of_ne he]

/-- The extents stay what they are. -/
theorem Shrinks.extent_iff (h : Shrinks g g' p) (hs : g.Shaped) (e : ElementId) (y : Element)
    (hy : g'.element? e = some y) : y.kind.isExtent = true ↔ isExtent e = true := by
  have hsame := (h.of_contains (contains_iff.2 ⟨y, hy⟩)).2
  exact hs.extent_iff e y (hsame.symm.trans hy)

/-- A shrunken graph rewrites the old one if what disappeared did no work and the
values fit as they are. -/
theorem Shrinks.rewrites (h : Shrinks g g' p) (hidle : g.Idle p)
    (hflow : ∀ {V : Type u} (I : Interpretation V) (val : ElementId → V), I.Realizes g val →
      ∀ e, g'.contains e = true → (g'.inputs e).map val = (g.inputs e).map val) :
    Rewrites.{u} g g' where
  size_le := Nat.le_of_eq h.size.symm
  left e x' _ hx' := by
    have hsame := (h.of_contains (contains_iff.2 ⟨x', hx'⟩)).2
    exact ⟨x', hsame.symm.trans hx', rfl, .inl rfl⟩
  fresh e he hc := by
    have := lt_size_of_contains hc
    rw [h.size] at this
    exact absurd this (Nat.not_lt_of_le he)
  kept e x hx hne := by
    have : e ≠ p := by rintro rfl; exact hne hidle
    exact (h.element?_of_ne this).trans hx
  flow I val hval := by
    refine ⟨val, ?_, fun e _ hc => hflow I val hval e hc⟩
    have hlive : ∀ e, g'.contains e = true → g.contains e = true := fun e hc => by
      rw [contains, ← (h.of_contains hc).2]; exact hc
    refine hval.transfer (fun e _ hc => hlive e hc)
      (fun e _ hc => ⟨(h.of_contains hc).2, rfl, hflow I val hval e hc⟩) (fun e he hc => ?_)
    have := lt_size_of_contains hc
    rw [h.size] at this
    exact absurd this (Nat.not_lt_of_le he)

/-! ## A pipe with one input -/

section PassThrough

variable {i : ScopeId} {sc : Scope} (ha : g.arrivals p = [i]) (hi : g.scope? i = some sc)

include ha hi

theorem shrinks_removePassThrough : Shrinks g (g.removePassThrough p).2 p :=
  ⟨size_removePassThrough ha hi, element?_removePassThrough ha hi⟩

theorem Agrees.target_eq_of_arrivals (h : g.Agrees) : sc.target = p := by
  obtain ⟨sc', hsc', ht⟩ := (h.arrivals_iff p i).1 (by simp [ha])
  rw [hi] at hsc'; cases hsc'
  exact ht

theorem Shaped.origin_ne_of_arrivals (hs : g.Shaped) : sc.origin ≠ p := fun ho =>
  hs.not_leads_self p ⟨i, sc, hi, ho, hs.agrees.target_eq_of_arrivals ha hi⟩

/-- The scopes after `p` was spliced out, and where they come from. -/
theorem Agrees.removePassThrough_cases (h : g.Agrees) (hp : g.contains p = true)
    (hne : sc.origin ≠ p) {s : ScopeId} {sc' : Scope}
    (hs' : (g.removePassThrough p).2.scope? s = some sc') :
    ∃ tc, g.scope? s = some tc ∧ tc.target ≠ p ∧ sc' = tc.rerouted p sc.origin := by
  rw [h.scope?_removePassThrough hp ha hi hne] at hs'
  split at hs'
  · cases hs'
  · next hsi =>
    obtain ⟨tc, htc, rfl⟩ := Option.map_eq_some_iff.1 hs'
    refine ⟨tc, htc, fun ht => hsi ?_, rfl⟩
    have := (h.arrivals_iff p s).2 ⟨tc, htc, ht⟩
    simpa [ha] using this

theorem Agrees.scope?_removePassThrough_old (h : g.Agrees) (hp : g.contains p = true)
    (hne : sc.origin ≠ p) {s : ScopeId} {tc : Scope} (htc : g.scope? s = some tc)
    (ht : tc.target ≠ p) :
    (g.removePassThrough p).2.scope? s = some (tc.rerouted p sc.origin) := by
  have hsi : s ≠ i := by
    rintro rfl
    rw [hi] at htc; cases htc
    exact ht (h.target_eq_of_arrivals ha hi)
  rw [h.scope?_removePassThrough hp ha hi hne, if_neg hsi, htc]
  rfl

/-- What leads where after `p` was spliced out. -/
theorem Agrees.leads_removePassThrough (h : g.Agrees) (hp : g.contains p = true)
    (hne : sc.origin ≠ p) {a c : ElementId} (hl : (g.removePassThrough p).2.Leads a c) :
    c ≠ p ∧ ((a = sc.origin ∧ g.Leads p c) ∨ (a ≠ p ∧ g.Leads a c)) := by
  obtain ⟨s, sc', hs', rfl, rfl⟩ := hl
  obtain ⟨tc, htc, ht, rfl⟩ := h.removePassThrough_cases ha hi hp hne hs'
  rw [Scope.origin_rerouted, Scope.target_rerouted]
  refine ⟨ht, ?_⟩
  by_cases ho : tc.origin = p
  · rw [if_pos ho]; exact .inl ⟨rfl, s, tc, htc, ho, rfl⟩
  · rw [if_neg ho]; exact .inr ⟨ho, s, tc, htc, rfl, rfl⟩

theorem shaped_removePassThrough (hs : g.Shaped) (hp : g.hasKind Kind.isPipe p = true) :
    (g.removePassThrough p).2.Shaped := by
  have hg := shrinks_removePassThrough ha hi
  have hlive := contains_of_hasKind hp
  have hin : g.Leads sc.origin p := ⟨i, sc, hi, rfl, hs.agrees.target_eq_of_arrivals ha hi⟩
  have hne := hs.origin_ne_of_arrivals ha hi
  have hext := hs.ne_extent (fun _ => rfl) hp
  have hleads := fun {a c} => hs.agrees.leads_removePassThrough ha hi hlive hne (a := a) (c := c)
  refine ⟨agrees_removePassThrough hs.agrees ha hi, ?_, ?_,
    hg.contains_of_ne hs.tail_live (Ne.symm hext.2), hg.extent_iff hs, ?_, ?_, ?_, ?_, ?_⟩
  · intro a c hl
    rcases hleads hl with ⟨hc, ⟨rfl, hl'⟩ | ⟨hap, hl'⟩⟩
    · exact ⟨hg.contains_of_ne (hs.ends _ _ hin).1 hne, hg.contains_of_ne (hs.ends _ _ hl').2 hc⟩
    · exact ⟨hg.contains_of_ne (hs.ends _ _ hl').1 hap, hg.contains_of_ne (hs.ends _ _ hl').2 hc⟩
  · obtain ⟨rank, hrank⟩ := hs.acyclic
    refine ⟨rank, fun a c hl => ?_⟩
    rcases hleads hl with ⟨-, ⟨rfl, hl'⟩ | ⟨-, hl'⟩⟩
    · exact Nat.lt_trans (hrank _ _ hin) (hrank _ _ hl')
    · exact hrank _ _ hl'
  · intro s sc' t tc' h1 h2 htar hne' hord
    obtain ⟨sc0, hsc0, -, rfl⟩ := hs.agrees.removePassThrough_cases ha hi hlive hne h1
    obtain ⟨tc0, htc0, -, rfl⟩ := hs.agrees.removePassThrough_cases ha hi hlive hne h2
    simp only [Scope.target_rerouted, Scope.ordinal_rerouted] at htar hne' hord
    exact hs.ordinals s sc0 t tc0 hsc0 htc0 htar hne' hord
  · -- `head` does not feed a pipe, so nothing else is fed by it now
    intro a hl
    rcases hleads hl with ⟨hc, ⟨h0, hl'⟩ | ⟨-, hl'⟩⟩
    · have := hs.head_first p (h0 ▸ hin)
      rw [hasKind_eq_false (q := Kind.isSource) (fun _ => Kind.isSource_of_isPipe) hp] at this
      cases this
    · rw [hg.hasKind_of_ne hc]; exact hs.head_first a hl'
  · intro a hl
    rcases hleads hl with ⟨-, ⟨rfl, hl'⟩ | ⟨hap, hl'⟩⟩
    · have := hs.tail_fed p hl'
      rw [hasKind_eq_false (q := Kind.isSink) (fun _ => Kind.isSink_of_isPipe) hp] at this
      cases this
    · rw [hg.hasKind_of_ne hap]; exact hs.tail_fed a hl'
  · intro a hl
    rcases hleads hl with ⟨-, ⟨h0, -⟩ | ⟨-, hl'⟩⟩
    · exact hs.tail_last p (h0 ▸ hin)
    · exact hs.tail_last a hl'
  · intro e he
    have hep := (hg.of_contains (contains_of_hasKind he)).1
    rw [hg.hasKind_of_ne hep] at he
    obtain ⟨s, ⟨tc, htc, ht⟩, huniq⟩ := hs.sole e he
    refine ⟨s, ⟨_, hs.agrees.scope?_removePassThrough_old ha hi hlive hne htc (ht ▸ hep),
      Scope.target_rerouted.trans ht⟩, fun t tc' htc' ht' => ?_⟩
    obtain ⟨tc0, htc0, -, rfl⟩ := hs.agrees.removePassThrough_cases ha hi hlive hne htc'
    exact huniq t tc0 htc0 (Scope.target_rerouted.symm.trans ht')

theorem Agrees.bypasses_removePassThrough (h : g.Agrees) (hp : g.contains p = true)
    (hne : sc.origin ≠ p) : Bypasses g (g.removePassThrough p).2 p sc.origin where
  gone := by
    rw [← Bool.not_eq_true]
    exact fun hlive => ((shrinks_removePassThrough ha hi).of_contains hlive).1 rfl
  element? _ he := (shrinks_removePassThrough ha hi).element?_of_ne he
  inputs := (h.soleInput_of_arrivals ha).inputs_eq h hi
  ne := hne
  slots e he := by
    refine h.slots_of_kept (agrees_removePassThrough h ha hi) _
      (fun s tc htc ht => ?_) (fun s tc' htc' ht => ?_)
    · exact ⟨_, h.scope?_removePassThrough_old ha hi hp hne htc (ht ▸ he),
        Scope.target_rerouted.trans ht, Scope.ordinal_rerouted, Scope.origin_rerouted⟩
    · obtain ⟨tc, htc, -, rfl⟩ := h.removePassThrough_cases ha hi hp hne htc'
      exact ⟨tc, htc, Scope.target_rerouted.symm.trans ht⟩

theorem rewrites_removePassThrough (hs : g.Shaped) (hp : g.hasKind Kind.isPipe p = true) :
    Rewrites.{u} g (g.removePassThrough p).2 := by
  have hg := shrinks_removePassThrough ha hi
  have hby := hs.agrees.bypasses_removePassThrough ha hi (contains_of_hasKind hp)
    (hs.origin_ne_of_arrivals ha hi)
  have hsole := hs.agrees.soleInput_of_arrivals ha
  refine hg.rewrites (.inr ⟨hp, by rw [hby.inputs]; rfl⟩) fun I val hval e he => ?_
  have hv := hval.of_sole hs.agrees (fun _ => .inr) hp hsole hi
  exact map_inputs_eq (hby.map_slots hv (hg.of_contains he).1)

end PassThrough

/-! ## An element and the one that it alone feeds -/

theorem shrinks_replaceElement (g : Graph) (b t : ElementId) :
    Shrinks g (g.replaceElement b t) b :=
  ⟨size_replaceElement b t, element?_replaceElement b t⟩

/-- `b` alone feeds `t`, in a graph without cycles. -/
structure GivesWay (g : Graph) (b t : ElementId) : Prop where
  agrees : g.Agrees
  acyclic : g.Acyclic
  live : g.contains b = true
  leads : g.Leads b t
  only : ∀ a, g.Leads a t → a = b

namespace GivesWay

variable {b t : ElementId} (hw : g.GivesWay b t)
include hw

theorem ne : t ≠ b := by
  rintro rfl
  exact hw.acyclic.not_leads_self _ hw.leads

theorem agrees_replaceElement : (g.replaceElement b t).Agrees :=
  Graph.agrees_replaceElement hw.agrees b (hw.agrees.lt_size_of_leads hw.leads).2

theorem scope?_replaceElement (s : ScopeId) :
    (g.replaceElement b t).scope? s = (g.scope? s).bind (Scope.spliced b t) :=
  hw.agrees.scope?_replaceElement hw.live (hw.agrees.lt_size_of_leads hw.leads).2 hw.ne s

/-- Neither of the two feeds `b`. -/
theorem feed_ne {a : ElementId} (hl : g.Leads a b) : a ≠ b ∧ a ≠ t := by
  obtain ⟨rank, hrank⟩ := hw.acyclic
  have h1 := hrank _ _ hl
  have h2 := hrank _ _ hw.leads
  constructor
  · rintro rfl; exact Nat.lt_irrefl _ h1
  · rintro rfl; exact Nat.lt_asymm h1 h2

/-- The scopes after `t` took the place of `b`, and where they come from. -/
theorem cases {s : ScopeId} {sc' : Scope} (h : (g.replaceElement b t).scope? s = some sc') :
    (∃ tc, g.scope? s = some tc ∧ tc.target = b ∧ sc' = tc.toTarget t tc.ordinal) ∨
      ∃ tc, g.scope? s = some tc ∧ tc.target ≠ b ∧ tc.target ≠ t ∧ sc' = tc.rerouted b t := by
  rw [hw.scope?_replaceElement] at h
  obtain ⟨tc, htc, hsp⟩ := Option.bind_eq_some_iff.1 h
  unfold Scope.spliced at hsp
  split at hsp
  · next htar =>
    split at hsp
    · cases hsp
    · cases hsp
      exact .inl ⟨tc, htc, htar, rfl⟩
  · next htar =>
    split at hsp
    · next ho =>
      split at hsp
      · cases hsp
      · next ht =>
        cases hsp
        exact .inr ⟨tc, htc, htar, ht, by rw [Scope.rerouted, if_pos ho]⟩
    · next ho =>
      cases hsp
      refine .inr ⟨sc', htc, htar, fun ht => ho ?_, by rw [Scope.rerouted, if_neg ho]⟩
      exact hw.only _ ⟨s, sc', htc, rfl, ht⟩

theorem scope?_feed {s : ScopeId} {tc : Scope} (htc : g.scope? s = some tc) (hb : tc.target = b) :
    (g.replaceElement b t).scope? s = some (tc.toTarget t tc.ordinal) := by
  obtain ⟨hob, hot⟩ := hw.feed_ne ⟨s, tc, htc, rfl, hb⟩
  rw [hw.scope?_replaceElement, htc, Option.bind_some, Scope.spliced, if_pos hb, if_neg]
  rintro (h | h)
  · exact hob h
  · exact hot h

theorem scope?_old {s : ScopeId} {tc : Scope} (htc : g.scope? s = some tc) (hb : tc.target ≠ b)
    (ht : tc.target ≠ t) : (g.replaceElement b t).scope? s = some (tc.rerouted b t) := by
  rw [hw.scope?_replaceElement, htc, Option.bind_some, Scope.spliced, if_neg hb, Scope.rerouted]
  by_cases ho : tc.origin = b
  · rw [if_pos ho, if_neg ht, if_pos ho]
  · rw [if_neg ho, if_neg ho]

/-- What leads where after `t` took the place of `b`. -/
theorem leads_cases {a c : ElementId} (hl : (g.replaceElement b t).Leads a c) :
    (c = t ∧ g.Leads a b) ∨
      (c ≠ b ∧ c ≠ t ∧ ((a = t ∧ g.Leads b c) ∨ (a ≠ b ∧ g.Leads a c))) := by
  obtain ⟨s, sc', hsc', rfl, rfl⟩ := hl
  rcases hw.cases hsc' with ⟨tc, htc, hb, rfl⟩ | ⟨tc, htc, hb, ht, rfl⟩
  · exact .inl ⟨rfl, s, tc, htc, rfl, hb⟩
  · rw [Scope.origin_rerouted, Scope.target_rerouted]
    refine .inr ⟨hb, ht, ?_⟩
    by_cases ho : tc.origin = b
    · rw [if_pos ho]; exact .inl ⟨rfl, s, tc, htc, ho, rfl⟩
    · rw [if_neg ho]; exact .inr ⟨ho, s, tc, htc, rfl, rfl⟩

/-- `t` takes over the rank of `b`. -/
theorem acyclic_replaceElement : (g.replaceElement b t).Acyclic := by
  obtain ⟨rank, hrank⟩ := hw.acyclic
  refine ⟨fun e => if e = t then rank b else rank e, fun a c hl => ?_⟩
  have hbt := hrank _ _ hw.leads
  rcases hw.leads_cases hl with ⟨rfl, hl'⟩ | ⟨-, hct, ⟨rfl, hl'⟩ | ⟨-, hl'⟩⟩
  · simp only [if_true, if_neg (hw.feed_ne hl').2]
    exact hrank _ _ hl'
  · simp only [if_true, if_neg hct]
    exact hrank _ _ hl'
  · have hac := hrank _ _ hl'
    simp only [if_neg hct]
    split
    · next hat => rw [hat] at hac; exact Nat.lt_trans hbt hac
    · exact hac

/-- `t` is fed by what fed `b`. -/
theorem slots_self : (g.replaceElement b t).slots t = g.slots b := by
  have hmap : (g.replaceElement b t).slots t = (g.slots b).map (Prod.map id id) := by
    refine hw.agrees.slots_of_kept hw.agrees_replaceElement id (fun s tc htc ht => ?_)
      (fun s tc' htc' ht => ?_)
    · exact ⟨_, hw.scope?_feed htc ht, rfl, rfl, rfl⟩
    · rcases hw.cases htc' with ⟨tc, htc, hb, -⟩ | ⟨tc, -, -, hne, rfl⟩
      · exact ⟨tc, htc, hb⟩
      · exact absurd (Scope.target_rerouted.symm.trans ht) hne
  rw [hmap, Prod.map_id, List.map_id]

/-- What `b` fed is fed by `t`. -/
theorem slots_of_ne {e : ElementId} (heb : e ≠ b) (het : e ≠ t) :
    (g.replaceElement b t).slots e = (g.slots e).map (Prod.map id (instead b t)) := by
  refine hw.agrees.slots_of_kept hw.agrees_replaceElement _ (fun s tc htc ht => ?_)
    (fun s tc' htc' ht => ?_)
  · exact ⟨_, hw.scope?_old htc (ht ▸ heb) (ht ▸ het), Scope.target_rerouted.trans ht,
      Scope.ordinal_rerouted, Scope.origin_rerouted⟩
  · rcases hw.cases htc' with ⟨tc, -, -, rfl⟩ | ⟨tc, htc, -, -, rfl⟩
    · exact absurd ht.symm het
    · exact ⟨tc, htc, Scope.target_rerouted.symm.trans ht⟩

end GivesWay

/-! ## A boundary and the tap behind it -/

/-- The boundary `b`, fed by the scope `i` alone, may give way to the tap `t` that
nothing else feeds. -/
structure Replaceable (g : Graph) (b t : ElementId) (i : ScopeId) (sc : Scope) : Prop where
  boundary : g.hasKind Kind.isBoundary b = true
  tap : g.hasKind Kind.passesOn t = true
  leads : g.Leads b t
  only : ∀ a, g.Leads a t → a = b
  feed : g.scope? i = some sc
  sole : g.SoleInput b i

section Replace

variable {b t : ElementId} {i : ScopeId} {sc : Scope} (hr : g.Replaceable b t i sc)

include hr

theorem Replaceable.target_eq : sc.target = b := by
  obtain ⟨⟨sc', hsc', ht⟩, -⟩ := hr.sole
  rw [hr.feed] at hsc'; cases hsc'
  exact ht

theorem Replaceable.leads_feed : g.Leads sc.origin b := ⟨i, sc, hr.feed, rfl, hr.target_eq⟩

theorem Replaceable.givesWay (hs : g.Shaped) : g.GivesWay b t :=
  ⟨hs.agrees, hs.acyclic, contains_of_hasKind hr.boundary, hr.leads, hr.only⟩

theorem Replaceable.ne (hs : g.Shaped) : t ≠ b ∧ sc.origin ≠ b ∧ sc.origin ≠ t :=
  ⟨(hr.givesWay hs).ne, (hr.givesWay hs).feed_ne hr.leads_feed⟩

/-- The scopes after `t` took the place of `b`, and where they come from. -/
theorem Replaceable.cases (hs : g.Shaped) {s : ScopeId} {sc' : Scope}
    (h : (g.replaceElement b t).scope? s = some sc') :
    (s = i ∧ sc' = sc.toTarget t sc.ordinal) ∨
      ∃ tc, g.scope? s = some tc ∧ tc.target ≠ b ∧ tc.target ≠ t ∧ sc' = tc.rerouted b t := by
  refine ((hr.givesWay hs).cases h).imp_left ?_
  rintro ⟨tc, htc, htar, rfl⟩
  obtain rfl := hr.sole.2 s tc htc htar
  rw [hr.feed] at htc; cases htc
  exact ⟨rfl, rfl⟩

theorem Replaceable.scope?_feed (hs : g.Shaped) :
    (g.replaceElement b t).scope? i = some (sc.toTarget t sc.ordinal) :=
  (hr.givesWay hs).scope?_feed hr.feed hr.target_eq

/-- What leads where after `t` took the place of `b`. -/
theorem Replaceable.leads_cases (hs : g.Shaped) {a c : ElementId}
    (hl : (g.replaceElement b t).Leads a c) :
    (a = sc.origin ∧ c = t) ∨
      (c ≠ b ∧ c ≠ t ∧ ((a = t ∧ g.Leads b c) ∨ (a ≠ b ∧ g.Leads a c))) := by
  refine ((hr.givesWay hs).leads_cases hl).imp_left ?_
  rintro ⟨rfl, s, tc, htc, rfl, htar⟩
  obtain rfl := hr.sole.2 s tc htc htar
  rw [hr.feed] at htc; cases htc
  exact ⟨rfl, rfl⟩

theorem Replaceable.soleInput (hs : g.Shaped) : (g.replaceElement b t).SoleInput t i := by
  refine ⟨⟨_, hr.scope?_feed hs, rfl⟩, fun s sc' hsc' ht => ?_⟩
  rcases hr.cases hs hsc' with ⟨rfl, -⟩ | ⟨tc, -, -, hne, rfl⟩
  · rfl
  · rw [Scope.target_rerouted] at ht
    exact absurd ht hne

/-- The feed of the boundary is now that of the tap, which nothing else enters. -/
theorem Replaceable.ordinals_replaceElement (hs : g.Shaped) :
    ∀ s sc' u uc', (g.replaceElement b t).scope? s = some sc' →
      (g.replaceElement b t).scope? u = some uc' → sc'.target = uc'.target →
      sc'.target ≠ tail → sc'.ordinal = uc'.ordinal → s = u := by
  intro s sc' u uc' h1 h2 htar hne hord
  rcases hr.cases hs h1 with ⟨rfl, rfl⟩ | ⟨tc, htc, -, ht1, rfl⟩ <;>
    rcases hr.cases hs h2 with ⟨rfl, rfl⟩ | ⟨uc, huc, -, ht2, rfl⟩
  · rfl
  · rw [Scope.target_rerouted] at htar
    exact absurd htar.symm ht2
  · rw [Scope.target_rerouted] at htar
    exact absurd htar ht1
  · simp only [Scope.target_rerouted, Scope.ordinal_rerouted] at htar hne hord
    exact hs.ordinals s tc u uc htc huc htar hne hord

theorem Replaceable.sole_replaceElement (hs : g.Shaped) (e : ElementId)
    (he : (g.replaceElement b t).hasKind Kind.passesOn e = true) :
    ∃ s, (g.replaceElement b t).SoleInput e s := by
  have hg := shrinks_replaceElement g b t
  have heb := (hg.of_contains (contains_of_hasKind he)).1
  rw [hg.hasKind_of_ne heb] at he
  by_cases het : e = t
  · rw [het]
    exact ⟨i, hr.soleInput hs⟩
  · obtain ⟨s, ⟨tc, htc, ht⟩, huniq⟩ := hs.sole e he
    have hold := (hr.givesWay hs).scope?_old htc (ht ▸ heb) (ht ▸ het)
    refine ⟨s, ⟨_, hold, Scope.target_rerouted.trans ht⟩, fun u sc' hsc' ht' => ?_⟩
    rcases hr.cases hs hsc' with ⟨-, rfl⟩ | ⟨uc, huc, -, -, rfl⟩
    · exact absurd ht'.symm het
    · exact huniq u uc huc (Scope.target_rerouted.symm.trans ht')

theorem shaped_replaceElement (hs : g.Shaped) : (g.replaceElement b t).Shaped := by
  have hg := shrinks_replaceElement g b t
  obtain ⟨htb, hob, -⟩ := hr.ne hs
  have hlivet := contains_of_hasKind hr.tap
  have hextb := hs.ne_extent (fun _ => rfl) hr.boundary
  have hextt := hs.ne_extent (fun _ => rfl) hr.tap
  refine ⟨agrees_replaceElement hs.agrees b (lt_size_of_contains hlivet), ?_,
    (hr.givesWay hs).acyclic_replaceElement, hg.contains_of_ne hs.tail_live (Ne.symm hextb.2),
    hg.extent_iff hs, hr.ordinals_replaceElement hs, ?_, ?_, ?_, hr.sole_replaceElement hs⟩
  · intro a c hl
    rcases hr.leads_cases hs hl with ⟨rfl, rfl⟩ | ⟨hcb, -, ⟨rfl, hl'⟩ | ⟨hab, hl'⟩⟩
    · exact ⟨hg.contains_of_ne (hs.ends _ _ hr.leads_feed).1 hob, hg.contains_of_ne hlivet htb⟩
    · exact ⟨hg.contains_of_ne hlivet htb, hg.contains_of_ne (hs.ends _ _ hl').2 hcb⟩
    · exact ⟨hg.contains_of_ne (hs.ends _ _ hl').1 hab, hg.contains_of_ne (hs.ends _ _ hl').2 hcb⟩
  · -- `head` feeds no boundary, so nothing else is fed by it now
    intro a hl
    rcases hr.leads_cases hs hl with ⟨h0, -⟩ | ⟨hab, -, ⟨h0, -⟩ | ⟨-, hl'⟩⟩
    · have := hs.head_first b (h0 ▸ hr.leads_feed)
      rw [hasKind_eq_false (q := Kind.isSource) (fun _ => Kind.isSource_of_isBoundary) hr.boundary]
        at this
      cases this
    · exact absurd h0.symm hextt.1
    · rw [hg.hasKind_of_ne hab]; exact hs.head_first a hl'
  · intro a hl
    rcases hr.leads_cases hs hl with ⟨-, h0⟩ | ⟨-, -, ⟨-, hl'⟩ | ⟨hab, hl'⟩⟩
    · exact absurd h0.symm hextt.2
    · have := hs.tail_fed b hl'
      rw [hasKind_eq_false (q := Kind.isSink) (fun _ => Kind.isSink_of_isBoundary) hr.boundary]
        at this
      cases this
    · rw [hg.hasKind_of_ne hab]; exact hs.tail_fed a hl'
  · intro a hl
    rcases hr.leads_cases hs hl with ⟨h0, -⟩ | ⟨-, -, ⟨h0, -⟩ | ⟨-, hl'⟩⟩
    · exact hs.tail_last b (h0 ▸ hr.leads_feed)
    · exact hextt.2 h0.symm
    · exact hs.tail_last a hl'

/-- The tap is fed by what fed the boundary. -/
theorem Replaceable.slots_tap (hs : g.Shaped) :
    (g.replaceElement b t).slots t = [(sc.ordinal, sc.origin)] := by
  rw [(hr.givesWay hs).slots_self, hr.sole.slots_eq hs.agrees hr.feed]

/-- It was fed by the boundary alone. -/
theorem Replaceable.exists_feed (hs : g.Shaped) : ∃ j jc, g.scope? j = some jc ∧
    jc.origin = b ∧ jc.target = t ∧ g.SoleInput t j := by
  obtain ⟨j, jc, hj, hjo, hjt⟩ := hr.leads
  obtain ⟨k, hk, huniq⟩ := hs.sole t hr.tap
  refine ⟨j, jc, hj, hjo, hjt, ?_⟩
  rw [huniq j jc hj hjt]
  exact ⟨hk, huniq⟩

theorem rewrites_replaceElement (hs : g.Shaped) : Rewrites.{u} g (g.replaceElement b t) := by
  have hg := shrinks_replaceElement g b t
  obtain ⟨j, jc, hj, hjo, -, htsole⟩ := hr.exists_feed hs
  refine hg.rewrites (.inl hr.boundary) fun I val hval e he => ?_
  have heb := (hg.of_contains he).1
  -- the boundary, its feed and the tap have one value
  have hvb : val b = val sc.origin :=
    hval.of_sole hs.agrees (fun k hk => .inl (by simp [Kind.passesOn, hk])) hr.boundary hr.sole
      hr.feed
  have hvt : val t = val b := by
    rw [hval.of_sole hs.agrees (fun _ => .inl) hr.tap htsole hj, hjo]
  by_cases het : e = t
  · subst het
    rw [← map_snd_slots, hr.slots_tap hs, htsole.inputs_eq hs.agrees hj, hjo]
    exact congrArg (fun v => [v]) hvb.symm
  · exact map_inputs_eq (map_slots_eq (apply_instead hvt) ((hr.givesWay hs).slots_of_ne heb het))

end Replace

end Graph
end Dataflow
