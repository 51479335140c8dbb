import Dataflow.Proofs.Flow.Shape
import Dataflow.Resolution.Resolve

/-!
# Field resolution changes no value

Resolving fields touches the contracts on the scopes and the fields of boundaries,
and nothing that decides where values go. `Relabels` says so of two graphs.

Results:

* `relabels_resolveFields`: resolution relabels the graph;
* `Relabels.shaped`, `Relabels.rewrites`: a relabelled graph is as well-shaped and
  computes the same.
-/
namespace Dataflow

universe u

/-- The scopes differ in their fields at most. -/
def Scope.SameEnds (sc sc' : Scope) : Prop :=
  sc'.origin = sc.origin ∧ sc'.target = sc.target ∧ sc'.ordinal = sc.ordinal

namespace Graph

variable {g g' g'' : Graph}

/-- `g'` differs from `g` in the fields of scopes and of boundaries at most. -/
structure Relabels (g g' : Graph) : Prop where
  size : g'.size = g.size
  outgoing : ∀ e, g'.outgoing e = g.outgoing e
  arrivals : ∀ e, g'.arrivals e = g.arrivals e
  scope_to : ∀ s sc, g.scope? s = some sc → ∃ sc', g'.scope? s = some sc' ∧ sc.SameEnds sc'
  scope_from : ∀ s sc', g'.scope? s = some sc' → ∃ sc, g.scope? s = some sc ∧ sc.SameEnds sc'
  element_to : ∀ e x, g.element? e = some x → ∃ x', g'.element? e = some x' ∧
    x'.name = x.name ∧ x.kind.Alike x'.kind
  element_from : ∀ e x', g'.element? e = some x' → ∃ x, g.element? e = some x ∧
    x'.name = x.name ∧ x.kind.Alike x'.kind

theorem Relabels.refl (g : Graph) : Relabels g g :=
  ⟨rfl, fun _ => rfl, fun _ => rfl, fun _ sc h => ⟨sc, h, rfl, rfl, rfl⟩,
    fun _ sc h => ⟨sc, h, rfl, rfl, rfl⟩, fun _ x h => ⟨x, h, rfl, .inl rfl⟩,
    fun _ x h => ⟨x, h, rfl, .inl rfl⟩⟩

theorem Relabels.symm (h : g.Relabels g') : g'.Relabels g where
  size := h.size.symm
  outgoing e := (h.outgoing e).symm
  arrivals e := (h.arrivals e).symm
  scope_to s sc hs := by
    obtain ⟨sc', hs', ho, ht, hk⟩ := h.scope_from s sc hs
    exact ⟨sc', hs', ho.symm, ht.symm, hk.symm⟩
  scope_from s sc hs := by
    obtain ⟨sc', hs', ho, ht, hk⟩ := h.scope_to s sc hs
    exact ⟨sc', hs', ho.symm, ht.symm, hk.symm⟩
  element_to e x hx := by
    obtain ⟨x', hx', hn, hk⟩ := h.element_from e x hx
    exact ⟨x', hx', hn.symm, hk.symm⟩
  element_from e x hx := by
    obtain ⟨x', hx', hn, hk⟩ := h.element_to e x hx
    exact ⟨x', hx', hn.symm, hk.symm⟩

theorem Relabels.trans (h : g.Relabels g') (h' : g'.Relabels g'') : g.Relabels g'' where
  size := h'.size.trans h.size
  outgoing e := (h'.outgoing e).trans (h.outgoing e)
  arrivals e := (h'.arrivals e).trans (h.arrivals e)
  scope_to s sc hs := by
    obtain ⟨sc', hs', ho, ht, hk⟩ := h.scope_to s sc hs
    obtain ⟨sc'', hs'', ho', ht', hk'⟩ := h'.scope_to s sc' hs'
    exact ⟨sc'', hs'', ho'.trans ho, ht'.trans ht, hk'.trans hk⟩
  scope_from s sc'' hs := by
    obtain ⟨sc', hs', ho, ht, hk⟩ := h'.scope_from s sc'' hs
    obtain ⟨sc, hs, ho', ht', hk'⟩ := h.scope_from s sc' hs'
    exact ⟨sc, hs, ho.trans ho', ht.trans ht', hk.trans hk'⟩
  element_to e x hx := by
    obtain ⟨x', hx', hn, hk⟩ := h.element_to e x hx
    obtain ⟨x'', hx'', hn', hk'⟩ := h'.element_to e x' hx'
    exact ⟨x'', hx'', hn'.trans hn, hk.trans hk'⟩
  element_from e x'' hx := by
    obtain ⟨x', hx', hn, hk⟩ := h'.element_from e x'' hx
    obtain ⟨x, hx, hn', hk'⟩ := h.element_from e x' hx'
    exact ⟨x, hx, hn.trans hn', hk'.trans hk⟩

/-! ## The steps of field resolution -/

/-- Changing the fields of scopes, one place at a time. -/
theorem relabels_of_scopes {f : ScopeId → Scope → Scope}
    (hf : ∀ (s : ScopeId) (sc : Scope), sc.SameEnds (f s sc))
    {scopes : List (Option Scope)}
    (hs : ∀ s, ({ g with scopes := scopes } : Graph).scope? s = (g.scope? s).map (f s)) :
    Relabels g { g with scopes := scopes } where
  size := rfl
  outgoing _ := rfl
  arrivals _ := rfl
  scope_to s sc h := ⟨f s sc, by rw [hs, h]; rfl, hf s sc⟩
  scope_from s sc' h := by
    rw [hs] at h
    obtain ⟨sc, hsc, rfl⟩ := Option.map_eq_some_iff.1 h
    exact ⟨sc, hsc, hf s sc⟩
  element_to _ x h := ⟨x, h, rfl, .inl rfl⟩
  element_from _ x h := ⟨x, h, rfl, .inl rfl⟩

theorem relabels_clearFields (g : Graph) : Relabels g g.clearFields := by
  refine relabels_of_scopes (f := fun _ sc => { sc with fields := none })
    (fun _ _ => ⟨rfl, rfl, rfl⟩) fun s => ?_
  simp only [scope?, List.getElem?_map]
  cases g.scopes[s]? <;> rfl

theorem scope?_setFields (i : ScopeId) (f : Fields) (s : ScopeId) :
    (g.setFields i f).scope? s =
      (g.scope? s).map fun sc => if s = i then { sc with fields := some f } else sc := by
  simp only [setFields, scope?, List.getElem?_modify]
  by_cases h : i = s
  · subst h; cases g.scopes[i]? <;> simp
  · cases g.scopes[s]? with
    | none => rfl
    | some o => cases o <;> simp [h, Ne.symm h]

theorem relabels_setFields (g : Graph) (i : ScopeId) (f : Fields) :
    Relabels g (g.setFields i f) :=
  relabels_of_scopes (f := fun s sc => if s = i then { sc with fields := some f } else sc)
    (fun s sc => by by_cases h : s = i <;> simp [h, Scope.SameEnds]) (scope?_setFields i f)

theorem element?_setTapFields (i : ElementId) (f : Fields) (e : ElementId) :
    (g.setTapFields i f).element? e =
      if e = i then (g.element? e).map fun x => { x with kind := x.kind.withTapFields f }
      else g.element? e := by
  simp only [setTapFields, element?, modifyNode, List.getElem?_modify]
  by_cases h : i = e
  · subst h; cases g.nodes[i]? <;> simp
  · cases g.nodes[e]? <;> simp [h, Ne.symm h]

theorem relabels_setTapFields (g : Graph) {i : ElementId} (f : Fields)
    (hi : g.hasKind Kind.isBoundary i = true) : Relabels g (g.setTapFields i f) := by
  obtain ⟨y, hy, hb⟩ := hasKind_iff.1 hi
  have hb' : (y.kind.withTapFields f).isBoundary = true := by
    obtain ⟨t, ht⟩ := Kind.isBoundary_iff.1 hb
    rw [ht]; rfl
  refine ⟨size_modifyNode, outgoing_modifyNode fun _ => rfl, arrivals_modifyNode fun _ => rfl,
    fun s sc h => ⟨sc, h, rfl, rfl, rfl⟩, fun s sc h => ⟨sc, h, rfl, rfl, rfl⟩, ?_, ?_⟩
  · intro e x hx
    by_cases he : e = i
    · subst he
      rw [hy] at hx; cases hx
      have hnew : (g.setTapFields e f).element? e =
          some { y with kind := y.kind.withTapFields f } := by
        rw [element?_setTapFields, if_pos rfl, hy]
        rfl
      exact ⟨_, hnew, rfl, .inr ⟨hb, hb'⟩⟩
    · exact ⟨x, by rw [element?_setTapFields, if_neg he]; exact hx, rfl, .inl rfl⟩
  · intro e x' hx'
    rw [element?_setTapFields] at hx'
    by_cases he : e = i
    · subst he
      rw [if_pos rfl, hy] at hx'; cases hx'
      exact ⟨y, hy, rfl, .inr ⟨hb, hb'⟩⟩
    · rw [if_neg he] at hx'
      exact ⟨x', hx', rfl, .inl rfl⟩

theorem relabels_label (g : Graph) (i : ElementId) (f : Fields) :
    Relabels g (Resolution.label g i f) := by
  have hfold : ∀ (l : List ScopeId) (g : Graph),
      Relabels g (l.foldl (fun g s => g.setFields s f) g) := by
    intro l
    induction l with
    | nil => exact .refl
    | cons s rest ih => exact fun g => (relabels_setFields g s f).trans (ih _)
  unfold Resolution.label
  by_cases hb : g.hasKind Kind.isBoundary i = true
  · simp only [hb, if_true]
    exact (relabels_setTapFields g f hb).trans (hfold _ _)
  · simp only [hb, Bool.false_eq_true, if_false]
    exact hfold _ _

theorem relabels_resolveEach (l : List ElementId) (g : Graph) :
    Relabels g (Resolution.resolveEach l g).2 := by
  induction l generalizing g with
  | nil => exact .refl g
  | cons i rest ih =>
    unfold Resolution.resolveEach
    split
    · exact ih g
    · split
      · exact .refl g
      · exact (relabels_label g i _).trans (ih _)

theorem relabels_resolveFields (g : Graph) : Relabels g g.resolveFields.2 := by
  unfold resolveFields
  split
  · exact .refl g
  · exact (relabels_clearFields g).trans (relabels_resolveEach _ _)

/-! ## What relabelling keeps -/

theorem Relabels.agrees (h : g.Relabels g') (ha : g.Agrees) : g'.Agrees where
  outgoing_iff e s := by
    rw [h.outgoing, ha.outgoing_iff]
    constructor
    · rintro ⟨sc, hsc, rfl⟩
      obtain ⟨sc', hsc', ho, -⟩ := h.scope_to s sc hsc
      exact ⟨sc', hsc', ho⟩
    · rintro ⟨sc', hsc', rfl⟩
      obtain ⟨sc, hsc, ho, -⟩ := h.scope_from s sc' hsc'
      exact ⟨sc, hsc, ho.symm⟩
  arrivals_iff e s := by
    rw [h.arrivals, ha.arrivals_iff]
    constructor
    · rintro ⟨sc, hsc, rfl⟩
      obtain ⟨sc', hsc', -, ht, -⟩ := h.scope_to s sc hsc
      exact ⟨sc', hsc', ht⟩
    · rintro ⟨sc', hsc', rfl⟩
      obtain ⟨sc, hsc, -, ht, -⟩ := h.scope_from s sc' hsc'
      exact ⟨sc, hsc, ht.symm⟩
  outgoing_nodup e := by rw [h.outgoing]; exact ha.outgoing_nodup e
  arrivals_nodup e := by rw [h.arrivals]; exact ha.arrivals_nodup e

theorem Relabels.slots (h : g.Relabels g') (ha : g.Agrees) (e : ElementId) :
    g'.slots e = g.slots e := by
  rw [ha.slots_of_kept (h.agrees ha) id (fun s sc hsc ht => ?_) (fun s sc' hsc' ht => ?_),
    Prod.map_id, List.map_id]
  · obtain ⟨sc', hsc', ho, ht', hk⟩ := h.scope_to s sc hsc
    exact ⟨sc', hsc', ht'.trans ht, hk, ho⟩
  · obtain ⟨sc, hsc, -, ht', -⟩ := h.scope_from s sc' hsc'
    exact ⟨sc, hsc, ht'.symm.trans ht⟩

theorem Relabels.inputs (h : g.Relabels g') (ha : g.Agrees) (e : ElementId) :
    g'.inputs e = g.inputs e := by
  rw [← map_snd_slots, h.slots ha, map_snd_slots]

theorem Relabels.leads (h : g.Relabels g') {a b : ElementId} (hl : g'.Leads a b) :
    g.Leads a b := by
  obtain ⟨s, sc', hs, rfl, rfl⟩ := hl
  obtain ⟨sc, hsc, ho, ht, -⟩ := h.scope_from s sc' hs
  exact ⟨s, sc, hsc, ho.symm, ht.symm⟩

theorem Relabels.contains (h : g.Relabels g') {e : ElementId} :
    g'.contains e = true ↔ g.contains e = true := by
  rw [contains_iff, contains_iff]
  constructor
  · rintro ⟨x', hx'⟩
    obtain ⟨x, hx, -⟩ := h.element_from e x' hx'
    exact ⟨x, hx⟩
  · rintro ⟨x, hx⟩
    obtain ⟨x', hx', -⟩ := h.element_to e x hx
    exact ⟨x', hx'⟩

/-- Relabelling changes the answer to no question that all boundaries answer alike. -/
theorem Relabels.hasKind (h : g.Relabels g') {p : Kind → Bool}
    (hp : ∀ k k', k.Alike k' → p k' = p k) {e : ElementId} :
    g'.hasKind p e = true ↔ g.hasKind p e = true := by
  rw [hasKind_iff, hasKind_iff]
  constructor
  · rintro ⟨x', hx', hk⟩
    obtain ⟨x, hx, -, ha⟩ := h.element_from e x' hx'
    exact ⟨x, hx, (hp _ _ ha).symm.trans hk⟩
  · rintro ⟨x, hx, hk⟩
    obtain ⟨x', hx', -, ha⟩ := h.element_to e x hx
    exact ⟨x', hx', (hp _ _ ha).trans hk⟩

/-- A kind test that depends on whether a kind is a boundary, not on its tap. -/
theorem alike_of_boundaries {p : Kind → Bool} {b : Bool}
    (hp : ∀ t, p (.boundary t) = b) (k k' : Kind) (h : k.Alike k') : p k' = p k :=
  h.congr fun t t' => (hp t').trans (hp t).symm

theorem hasKind_eq_of_alike {p : Kind → Bool} {b : Bool} (hp : ∀ t, p (.boundary t) = b)
    {e : ElementId} {x x' : Element} (hx : g.element? e = some x) (hx' : g'.element? e = some x')
    (hk : x.kind.Alike x'.kind) : g'.hasKind p e = g.hasKind p e := by
  simp only [hasKind, kind?, hx, hx', Option.map_some, Option.any_some]
  exact alike_of_boundaries hp _ _ hk

theorem Relabels.shaped (h : g.Relabels g') (hs : g.Shaped) : g'.Shaped := by
  obtain ⟨rank, hrank⟩ := hs.acyclic
  refine ⟨h.agrees hs.agrees, fun a b hl => ?_, ⟨rank, fun a b hl => hrank a b (h.leads hl)⟩,
    h.contains.2 hs.tail_live, fun e x' hx' => ?_, ?_, fun a hl => ?_, fun a hl => ?_,
    fun a hl => hs.tail_last a (h.leads hl), fun e he => ?_⟩
  · obtain ⟨ha, hb⟩ := hs.ends a b (h.leads hl)
    exact ⟨h.contains.2 ha, h.contains.2 hb⟩
  · obtain ⟨x, hx, -, hk⟩ := h.element_from e x' hx'
    rw [alike_of_boundaries (p := Kind.isExtent) (fun _ => rfl) _ _ hk]
    exact hs.extent_iff e x hx
  · intro s sc' t tc' h1 h2 htar hne hord
    obtain ⟨sc, hsc, -, ht, hk⟩ := h.scope_from s sc' h1
    obtain ⟨tc, htc, -, ht', hk'⟩ := h.scope_from t tc' h2
    rw [ht, ht'] at htar
    rw [hk, hk'] at hord
    exact hs.ordinals s sc t tc hsc htc htar (ht ▸ hne) hord
  · exact (h.hasKind (alike_of_boundaries fun _ => rfl)).2 (hs.head_first a (h.leads hl))
  · exact (h.hasKind (alike_of_boundaries fun _ => rfl)).2 (hs.tail_fed a (h.leads hl))
  · obtain ⟨s, ⟨sc, hsc, ht⟩, huniq⟩ :=
      hs.sole e ((h.hasKind (alike_of_boundaries fun _ => rfl)).1 he)
    obtain ⟨sc', hsc', -, ht', -⟩ := h.scope_to s sc hsc
    refine ⟨s, ⟨sc', hsc', ht'.trans ht⟩, fun t tc' htc' htt => ?_⟩
    obtain ⟨tc, htc, -, htt', -⟩ := h.scope_from t tc' htc'
    exact huniq t tc htc (htt'.symm.trans htt)

/-- Elements of like kinds put out the same. -/
theorem emit_alike {V : Type _} (I : Interpretation V) {k k' : Kind} (h : k.Alike k')
    (e : ElementId) (vs : List V) : I.emit k' e vs = I.emit k e vs :=
  h.congr (f := fun k => I.emit k e vs) fun _ _ => rfl

theorem Relabels.rewrites (h : g.Relabels g') (hs : g.Shaped) : Rewrites.{u} g g' where
  size_le := Nat.le_of_eq h.size.symm
  left e x' _ hx' := h.element_from e x' hx'
  fresh e he hc := by
    have := lt_size_of_contains hc
    rw [h.size] at this
    exact absurd this (Nat.not_lt_of_le he)
  kept e x hx hidle := by
    obtain ⟨x', hx', hn, hk⟩ := h.element_to e x hx
    rcases hk with hk | ⟨hb, -⟩
    · have : x' = x := by cases x; cases x'; simp_all
      rw [hx', this]
    · exact absurd (.inl (hasKind_iff.2 ⟨x, hx, hb⟩)) hidle
  flow I val hval := by
    have hin : ∀ e, (g'.inputs e).map val = (g.inputs e).map val := fun e => by
      rw [h.inputs hs.agrees]
    refine ⟨val, fun e he => ?_, fun e _ _ => hin e⟩
    obtain ⟨x', hx'⟩ := contains_iff.1 he
    obtain ⟨x, hx, -, hk⟩ := h.element_from e x' hx'
    rw [hin, hval e (h.contains.1 he), Interpretation.emitAt_eq hx, Interpretation.emitAt_eq hx']
    exact (emit_alike I hk e _).symm

end Graph
end Dataflow
