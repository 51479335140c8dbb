import Dataflow.Proofs.Flow.Edits
import Dataflow.Proofs.Resolution.Labelling
import Dataflow.Proofs.Success
import Dataflow.Rule.BoundaryCollapse

/-!
# Edits leave the fields as they are

A boundary or a pipe with one input puts out the fields that it receives. So the fields that
fit a graph fit it past such an element, with the same fields at every input that is left.
A tap that takes over from a boundary may declare what it puts out; it is accepted only where
this is what the boundary put out.

Results:

* `Shapings.carriesFields`: whether fields fit, and which, is the same before and after
  changes of the shape;
* `Shapings.fronted`: what passes on its input keeps it at the first position;
* `eq_of_canReplace`: a tap that can stand in for a boundary puts out the same fields;
* `Sheds.replaceElement`: what is left when boundaries collapse.
-/
namespace Dataflow

open Relation Resolution

/-- Only equal layouts are the same. -/
theorem Fields.eq_of_sameLayout {f f' : Fields} (h : f.sameLayout f' = true) : f = f' := by
  cases f <;> cases f' <;> simp_all [Fields.sameLayout]

/-- A boundary or a pipe puts out what it receives first. -/
theorem Resolution.outputFields_of_idle {k : Kind} (hk : k.isBoundary = true ∨ k.isPipe = true)
    (name : String) (out : Fields) : outputFields name k [out] = .ok out := by
  cases k <;> first | rfl | (rcases hk with hk | hk <;> cases hk)

namespace Graph

variable {g g' g'' : Graph} {f : ElementId → Fields} {scheme : String}

/-! ## Past an idle element -/

section Bypasses

variable {p a : ElementId} (h : Bypasses g g' p a)
  (hp : g.hasKind Kind.isBoundary p = true ∨ g.hasKind Kind.isPipe p = true)

include h hp

theorem Bypasses.outputFields_eq {x : Element} (hx : g.element? p = some x)
    (f : ElementId → Fields) :
    outputFields x.name x.kind ((g.inputs p).map f) = .ok (f a) := by
  rw [h.inputs]
  refine outputFields_of_idle ?_ x.name (f a)
  simpa [hasKind, kind?, hx] using hp

/-- What fits has the same fields at the element and at its input. -/
theorem Bypasses.eq_of_labels (hf : g.Labels f) : f p = f a := by
  obtain ⟨x, hx⟩ : ∃ x, g.element? p = some x :=
    contains_iff.1 (hp.elim contains_of_hasKind contains_of_hasKind)
  have hfit := hf p x hx
  rw [h.outputFields_eq hp hx] at hfit
  exact (Except.ok.inj hfit).symm

/-- What fits still fits without the element. -/
theorem Bypasses.labels (hf : g.Labels f) : g'.Labels f := by
  intro e x hx
  have hne : e ≠ p := by
    rintro rfl
    have hgone := h.gone
    rw [contains, hx] at hgone
    cases hgone
  rw [map_inputs_eq (h.map_slots (h.eq_of_labels hp hf) hne)]
  exact hf e x ((h.element? e hne).symm.trans hx)

/-- What fits without the element fits with it, if it has the fields of its input. -/
theorem Bypasses.labels_instead (hf : g'.Labels f) : g.Labels (f ∘ instead p a) := by
  intro e x hx
  by_cases he : e = p
  · subst he
    rw [h.outputFields_eq hp hx, Function.comp_apply, Function.comp_apply, instead_self,
      instead_of_ne h.ne]
  · rw [← List.map_map, ← inputs_of_slots (h.slots e he), Function.comp_apply, instead_of_ne he]
    exact hf e x ((h.element? e he).trans hx)

end Bypasses

/-! ## Changes of the shape -/

/-- The fields that fit one of the graphs come from those that fit the other one, and an
element that both have receives the same. -/
structure CarriesFields (g g' : Graph) : Prop where
  size_le : g.size ≤ g'.size
  live : ∀ e, e < g.size → g'.contains e = true → g.contains e = true
  forth : ∀ f, g.Labels f → ∃ f', g'.Labels f'
  back : ∀ f', g'.Labels f' → ∃ f, g.Labels f ∧ ∀ e, e < g.size → g'.contains e = true →
    (g'.slots e).map (Prod.map id f') = (g.slots e).map (Prod.map id f)

theorem CarriesFields.refl (g : Graph) : CarriesFields g g where
  size_le := Nat.le_refl _
  live _ _ he := he
  forth f hf := ⟨f, hf⟩
  back f hf := ⟨f, hf, fun _ _ _ => rfl⟩

theorem CarriesFields.trans (h : CarriesFields g g') (h' : CarriesFields g' g'') :
    CarriesFields g g'' where
  size_le := Nat.le_trans h.size_le h'.size_le
  live e he hlive := h.live e he (h'.live e (Nat.lt_of_lt_of_le he h.size_le) hlive)
  forth f hf := by
    obtain ⟨f', hf'⟩ := h.forth f hf
    exact h'.forth f' hf'
  back f'' hf'' := by
    obtain ⟨f', hf', hin'⟩ := h'.back f'' hf''
    obtain ⟨f, hf, hin⟩ := h.back f' hf'
    refine ⟨f, hf, fun e he hlive => ?_⟩
    have he' := Nat.lt_of_lt_of_le he h.size_le
    exact (hin' e he' hlive).trans (hin e he (h'.live e he' hlive))

/-- Fields are resolved for both graphs or for neither. -/
theorem CarriesFields.resolves_iff (h : CarriesFields g g') (hs : g.Shaped) (hs' : g'.Shaped) :
    g.resolveFields.1 = .ok () ↔ g'.resolveFields.1 = .ok () := by
  constructor
  · intro hok
    obtain ⟨f, hf⟩ := exists_labels_of_resolveFields hs.ordered hok
    obtain ⟨f', hf'⟩ := h.forth f hf
    rw [resolveFields_of_labels hs'.ordered hf']
  · intro hok
    obtain ⟨f', hf'⟩ := exists_labels_of_resolveFields hs'.ordered hok
    obtain ⟨f, hf, -⟩ := h.back f' hf'
    rw [resolveFields_of_labels hs.ordered hf]

theorem Grows.carriesFields {x : Element} {a : ElementId} (h : Grows g g' x)
    (hby : Bypasses g' g g.size a) : CarriesFields g g' := by
  have hnew : g'.hasKind Kind.isBoundary g.size = true ∨ g'.hasKind Kind.isPipe g.size = true :=
    .inl (h.hasKind_new fun _ => rfl)
  refine ⟨by rw [h.size]; exact Nat.le_succ _, fun e he hlive => ?_,
    fun f hf => ⟨_, hby.labels_instead hnew hf⟩,
    fun f' hf' => ⟨f', hby.labels hnew hf', fun e he _ => ?_⟩⟩
  · rwa [contains, h.element?_old he] at hlive
  · exact (hby.map_slots (hby.eq_of_labels hnew hf') (Nat.ne_of_lt he)).symm

theorem Shrinks.carriesFields {p a : ElementId} (h : Shrinks g g' p) (hby : Bypasses g g' p a)
    (hp : g.hasKind Kind.isPipe p = true) : CarriesFields g g' := by
  refine ⟨Nat.le_of_eq h.size.symm, fun e _ hlive => ?_,
    fun f hf => ⟨f, hby.labels (.inr hp) hf⟩,
    fun f' hf' => ⟨_, hby.labels_instead (.inr hp) hf', fun e _ hlive => ?_⟩⟩
  · rwa [contains, (h.of_contains hlive).2] at hlive
  · rw [hby.slots e (h.of_contains hlive).1, List.map_map]
    rfl

theorem Shapes.carriesFields (hs : g.Shaped) (h : Shapes scheme g g') : CarriesFields g g' := by
  cases h with
  | @after id hid =>
    exact (grows_boundaryAfter g scheme id).carriesFields
      (hs.agrees.bypasses_boundaryAfter scheme (lt_size_of_contains (contains_of_hasKind hid)))
  | on hi =>
    obtain ⟨sc, hsc, -, ht⟩ := hi
    exact (grows_boundaryOn g scheme hsc).carriesFields (hs.bypasses_boundaryOn scheme hsc ht)
  | splice ha hi hp =>
    exact (shrinks_removePassThrough ha hi).carriesFields
      (hs.agrees.bypasses_removePassThrough ha hi (contains_of_hasKind hp)
        (hs.origin_ne_of_arrivals ha hi)) hp

theorem Shapings.carriesFields (hs : g.Shaped) (h : Shapings scheme g g') :
    CarriesFields g g' :=
  (h.induction (P := CarriesFields g) hs (.refl g)
    fun _ _ ha hga hab => hga.trans (hab.carriesFields ha)).2

/-! ## Positions of what passes on -/

/-- What passes on its input has it at the first position. -/
def Fronted (g : Graph) : Prop :=
  ∀ e, g.hasKind Kind.passesOn e = true → (g.slots e).map Prod.fst = [0]

theorem fst_slots {e : ElementId} {κ : ElementId → ElementId}
    (h : g'.slots e = (g.slots e).map (Prod.map id κ)) :
    (g'.slots e).map Prod.fst = (g.slots e).map Prod.fst := by
  rw [h, List.map_map]
  rfl

theorem Grows.fronted {x : Element} {a : ElementId} (h : Grows g g' x)
    (hby : Bypasses g' g g.size a) (hnew : g'.slots g.size = [(0, a)]) (hf : g.Fronted) :
    g'.Fronted := by
  intro e he
  rcases h.old_or_new (contains_of_hasKind he) with hlt | rfl
  · rw [← fst_slots (hby.slots e (Nat.ne_of_lt hlt))]
    exact hf e (by rwa [← h.hasKind_old hlt])
  · rw [hnew]
    rfl

theorem Shapes.fronted (hs : g.Shaped) (h : Shapes scheme g g') (hf : g.Fronted) :
    g'.Fronted := by
  cases h with
  | @after id hid =>
    have hlt := lt_size_of_contains (contains_of_hasKind hid)
    exact (grows_boundaryAfter g scheme id).fronted (hs.agrees.bypasses_boundaryAfter scheme hlt)
      (hs.agrees.slots_boundaryAfter_new scheme hlt) hf
  | on hi =>
    obtain ⟨sc, hsc, -, ht⟩ := hi
    exact (grows_boundaryOn g scheme hsc).fronted (hs.bypasses_boundaryOn scheme hsc ht)
      (hs.agrees.slots_boundaryOn_new scheme hsc) hf
  | splice ha hi hp =>
    have hg := shrinks_removePassThrough ha hi
    have hby := hs.agrees.bypasses_removePassThrough ha hi (contains_of_hasKind hp)
      (hs.origin_ne_of_arrivals ha hi)
    intro e he
    have hne := (hg.of_contains (contains_of_hasKind he)).1
    rw [fst_slots (hby.slots e hne)]
    exact hf e (by rwa [← hg.hasKind_of_ne hne])

theorem Shapings.fronted (hs : g.Shaped) (h : Shapings scheme g g') (hf : g.Fronted) :
    g'.Fronted :=
  (h.induction (P := Fronted) hs hf fun _ _ ha hfa hab => hab.fronted ha hfa).2

theorem Relabels.fronted (h : g.Relabels g') (ha : g.Agrees) (hf : g.Fronted) : g'.Fronted := by
  intro e he
  rw [h.slots ha]
  exact hf e ((h.hasKind (alike_of_boundaries fun _ => rfl)).1 he)

/-! ## A boundary and the tap behind it -/

section Replaceable

variable {b t : ElementId} {i : ScopeId} {sc : Scope} (hr : g.Replaceable b t i sc)
  (hs : g.Shaped)

include hr hs

/-- The boundary has the fields of its feed. -/
theorem Replaceable.eq_feed (hf : g.Labels f) : f b = f sc.origin := by
  obtain ⟨x, hx, hk⟩ := hasKind_iff.1 hr.boundary
  have hfit := hf b x hx
  rw [hr.sole.inputs_eq hs.agrees hr.feed] at hfit
  exact Except.ok.inj (hfit.symm.trans (outputFields_of_idle (.inl hk) x.name _))

/-- A tap that can stand in for a boundary puts out the same fields: it is a boundary too, or
declares those fields, or declares none. -/
theorem Replaceable.eq_of_canReplace {rules : TapRules} (hf : g.Labels f)
    (htaps : ∀ b t, g.kind? b = some (.boundary t) → t.fields = f b)
    (hcan : BoundaryCollapse.canReplace rules g b t = true) : f t = f b := by
  obtain ⟨j, jc, hj, hjo, -, hsole⟩ := hr.exists_feed hs
  have hin : g.inputs t = [b] := by rw [hsole.inputs_eq hs.agrees hj, hjo]
  obtain ⟨x, hx, -⟩ := hasKind_iff.1 hr.tap
  have hfit := hf t x hx
  rw [hin] at hfit
  unfold BoundaryCollapse.canReplace at hcan
  split at hcan
  · next written target hw ht =>
    simp only [Bool.and_eq_true] at hcan
    have haccepts := hcan.2
    have hwritten : written.fields = f b := by
      obtain ⟨k, hk, hkw⟩ := Option.bind_eq_some_iff.1 hw
      cases k <;> cases hkw
      exact htaps b written hk
    rw [kind?, hx] at ht
    change BoundaryCollapse.replacementTap? x.kind = some target at ht
    cases hkind : x.kind <;> rw [hkind] at ht hfit <;> cases ht
    · -- a sink puts out what it declares, or else what it was given
      obtain ⟨_, -, hout⟩ := bind_eq_ok.1 hfit
      rw [← Except.ok.inj hout]
      split
      · next hknown =>
        rw [BoundaryCollapse.accepts, hknown, Bool.not_true, Bool.false_or] at haccepts
        exact (Fields.eq_of_sameLayout haccepts).trans hwritten
      · rfl
    · exact (Except.ok.inj hfit).symm
  · cases hcan

variable (hf : g.Labels f) (heq : f t = f b)

include hf heq

/-- What is left receives the same, at the same positions. -/
theorem Replaceable.map_slots (hfront : g.Fronted) {e : ElementId} (he : e ≠ b) :
    ((g.replaceElement b t).slots e).map (Prod.map id f) =
      (g.slots e).map (Prod.map id f) := by
  by_cases het : e = t
  · subst het
    obtain ⟨j, jc, hj, hjo, -, hsole⟩ := hr.exists_feed hs
    have hb := hfront b (hasKind_imp (fun _ => Kind.passesOn_of_isBoundary) hr.boundary)
    have ht := hfront e hr.tap
    rw [hr.sole.slots_eq hs.agrees hr.feed] at hb
    rw [hsole.slots_eq hs.agrees hj] at ht ⊢
    -- both feeds are at the first position, and both carry what the boundary puts out
    have hpos : sc.ordinal = jc.ordinal :=
      (List.cons.inj hb).1.trans (List.cons.inj ht).1.symm
    rw [hr.slots_tap hs, hpos, hjo]
    exact congrArg (fun out => [(jc.ordinal, out)]) (hr.eq_feed hs hf).symm
  · exact map_slots_eq (apply_instead heq) ((hr.givesWay hs).slots_of_ne he het)

theorem Replaceable.labels (hfront : g.Fronted) : (g.replaceElement b t).Labels f := by
  intro e x hx
  obtain ⟨hne, hsame⟩ := (shrinks_replaceElement g b t).of_contains (contains_iff.2 ⟨x, hx⟩)
  rw [map_inputs_eq (hr.map_slots hs hf heq hfront hne)]
  exact hf e x (hsame.symm.trans hx)

omit hf in
/-- A scope that is left has an origin with the same fields. -/
theorem Replaceable.exists_origin {s : ScopeId} {sc' : Scope}
    (h : (g.replaceElement b t).scope? s = some sc') :
    ∃ tc, g.scope? s = some tc ∧ f sc'.origin = f tc.origin := by
  rcases hr.cases hs h with ⟨rfl, rfl⟩ | ⟨tc, htc, -, -, rfl⟩
  · exact ⟨sc, hr.feed, rfl⟩
  · exact ⟨tc, htc, by rw [Scope.origin_rerouted]; exact apply_instead heq tc.origin⟩

omit hf heq in
theorem Replaceable.fronted (hfront : g.Fronted) : (g.replaceElement b t).Fronted := by
  have hg := shrinks_replaceElement g b t
  intro e he
  have hne := (hg.of_contains (contains_of_hasKind he)).1
  by_cases het : e = t
  · have hb := hfront b (hasKind_imp (fun _ => Kind.passesOn_of_isBoundary) hr.boundary)
    rw [hr.sole.slots_eq hs.agrees hr.feed] at hb
    rw [het, hr.slots_tap hs]
    exact hb
  · rw [fst_slots ((hr.givesWay hs).slots_of_ne hne het)]
    exact hfront e (by rwa [← hg.hasKind_of_ne hne])

end Replaceable

/-! ## Collapsing -/

/-- `g'` is what is left of `g` when boundaries gave way to taps with the same fields. -/
structure Sheds (f : ElementId → Fields) (g g' : Graph) : Prop where
  shaped : g'.Shaped
  fronted : g'.Fronted
  labels : g'.Labels f
  taps : ∀ b t, g'.kind? b = some (.boundary t) → t.fields = f b
  scopes : ∀ s sc', g'.scope? s = some sc' →
    ∃ sc, g.scope? s = some sc ∧ f sc'.origin = f sc.origin
  received : ∀ e, g'.contains e = true → g.contains e = true ∧
    (g'.slots e).map (Prod.map id f) = (g.slots e).map (Prod.map id f)

theorem Resolved.sheds (h : g.Resolved f) (hs : g.Shaped) (hfront : g.Fronted) :
    Sheds f g g where
  shaped := hs
  fronted := hfront
  labels := h.labels
  taps := h.taps
  scopes _ sc hsc := ⟨sc, hsc, rfl⟩
  received _ he := ⟨he, rfl⟩

theorem Sheds.replaceElement {rules : TapRules} {b t : ElementId} {i : ScopeId} {sc : Scope}
    (h : Sheds f g g') (hr : g'.Replaceable b t i sc)
    (hcan : BoundaryCollapse.canReplace rules g' b t = true) :
    Sheds f g (g'.replaceElement b t) := by
  have hg := shrinks_replaceElement g' b t
  have heq := hr.eq_of_canReplace h.shaped h.labels h.taps hcan
  refine ⟨shaped_replaceElement hr h.shaped, hr.fronted h.shaped h.fronted,
    hr.labels h.shaped h.labels heq h.fronted, fun c u hu => ?_, fun s sc'' hsc'' => ?_,
    fun e he => ?_⟩
  · have hlive : (g'.replaceElement b t).contains c = true :=
      contains_of_hasKind (p := Kind.isBoundary) (by rw [hasKind, hu]; rfl)
    rw [kind?, (hg.of_contains hlive).2] at hu
    exact h.taps c u hu
  · obtain ⟨sc', hsc', ho⟩ := hr.exists_origin h.shaped heq hsc''
    obtain ⟨sc, hsc, ho'⟩ := h.scopes s sc' hsc'
    exact ⟨sc, hsc, ho.trans ho'⟩
  · obtain ⟨hne, hsame⟩ := hg.of_contains he
    rw [contains, hsame] at he
    obtain ⟨hlive, hin⟩ := h.received e he
    exact ⟨hlive, (hr.map_slots h.shaped h.labels heq h.fronted hne).trans hin⟩

end Graph
end Dataflow
