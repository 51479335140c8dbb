import Dataflow.Proofs.Flow.Basic
import Dataflow.Proofs.Kinds

/-!
# Well-shaped graphs and rewritings between them

`Shaped` collects what the planning rules rely on and keep: the graph is acyclic,
the extents bound it, no two inputs of an element share a position, and boundaries
and sinks have one input each. `Bypasses g g' p a` says that `g'` goes past `p`, whose
one input is `a`: that is what removing a pipe does, and putting a boundary in the other
way round. `Rewrites g g'` says that `g'` computes what `g` does: elements only disappear
where they do no work, what is new is a boundary, and every assignment of values that
fits `g` carries over to `g'` with the same values at each input of each element that is
left.

Results:

* `Rewrites.refl`, `Rewrites.trans`: rewritings compose;
* `Rewrites.received`: what is left receives the same list of values;
* `Realizes.transfer`: an assignment fits a rewritten graph if it fits locally.
-/
namespace Dataflow

universe u

namespace Graph

variable {g g' : Graph}

/-- `s` is the only scope into `e`. -/
def SoleInput (g : Graph) (e : ElementId) (s : ScopeId) : Prop :=
  (∃ sc, g.scope? s = some sc ∧ sc.target = e) ∧
    ∀ t tc, g.scope? t = some tc → tc.target = e → t = s

/-- What planning relies on and keeps. -/
structure Shaped (g : Graph) : Prop where
  agrees : g.Agrees
  ends : g.EndsLive
  acyclic : g.Acyclic
  tail_live : g.contains tail = true
  extent_iff : ∀ e x, g.element? e = some x → (x.kind.isExtent = true ↔ isExtent e = true)
  /-- No two scopes into one element, `tail` aside, share a position. -/
  ordinals : ∀ s sc t tc, g.scope? s = some sc → g.scope? t = some tc →
    sc.target = tc.target → sc.target ≠ tail → sc.ordinal = tc.ordinal → s = t
  head_first : ∀ a, g.Leads head a → g.hasKind Kind.isSource a = true
  tail_fed : ∀ a, g.Leads a tail → g.hasKind Kind.isSink a = true
  tail_last : ∀ a, ¬ g.Leads tail a
  sole : ∀ e, g.hasKind Kind.passesOn e = true → ∃ s, g.SoleInput e s

theorem SoleInput.slots_eq (h : g.Agrees) {e : ElementId} {s : ScopeId} {sc : Scope}
    (hs : g.SoleInput e s) (hsc : g.scope? s = some sc) :
    g.slots e = [(sc.ordinal, sc.origin)] := by
  obtain ⟨⟨sc', hsc', ht⟩, huniq⟩ := hs
  rw [hsc] at hsc'; cases hsc'
  have hin : g.incoming e = [s] := by
    refine h.incoming_eq (fun t => ?_) (List.pairwise_singleton _ _)
    rw [List.mem_singleton]
    constructor
    · rintro rfl; exact ⟨sc, hsc, ht⟩
    · rintro ⟨tc, htc, ht'⟩; exact huniq t tc htc ht'
  simp [slots, edgesIn, ordinalOf, hin, hsc]

theorem SoleInput.inputs_eq (h : g.Agrees) {e : ElementId} {s : ScopeId} {sc : Scope}
    (hs : g.SoleInput e s) (hsc : g.scope? s = some sc) : g.inputs e = [sc.origin] := by
  rw [← map_snd_slots, hs.slots_eq h hsc]
  rfl

theorem Agrees.soleInput_of_arrivals (h : g.Agrees) {e : ElementId} {s : ScopeId}
    (ha : g.arrivals e = [s]) : g.SoleInput e s := by
  refine ⟨(h.arrivals_iff e s).1 (by simp [ha]), fun t tc htc ht => ?_⟩
  have := (h.arrivals_iff e t).2 ⟨tc, htc, ht⟩
  simpa [ha] using this

theorem Shaped.two_le_size (h : g.Shaped) : tail < g.size := lt_size_of_contains h.tail_live

theorem Shaped.isExtent_eq_false (h : g.Shaped) {p : Kind → Bool}
    (hp : ∀ x, p (.extent x) = false) {e : ElementId} (he : g.hasKind p e = true) :
    isExtent e = false := by
  obtain ⟨x, hx, hk⟩ := hasKind_iff.1 he
  cases hi : isExtent e with
  | false => rfl
  | true =>
    have := (h.extent_iff e x hx).2 hi
    cases hkind : x.kind with
    | extent y => rw [hkind, hp] at hk; cases hk
    | _ => rw [hkind] at this; cases this

theorem Shaped.ne_extent (h : g.Shaped) {p : Kind → Bool} (hp : ∀ x, p (.extent x) = false)
    {e : ElementId} (he : g.hasKind p e = true) : e ≠ head ∧ e ≠ tail := by
  have hne := h.isExtent_eq_false hp he
  constructor
  · rintro rfl; cases hne
  · rintro rfl; cases hne

theorem Shaped.not_leads_self (h : g.Shaped) (a : ElementId) : ¬ g.Leads a a :=
  h.acyclic.not_leads_self a

theorem Shaped.ordered (h : g.Shaped) : g.Ordered := ⟨h.agrees, h.ends, h.acyclic⟩

/-- A rule may take the element away: it does no work of its own. -/
def Idle (g : Graph) (e : ElementId) : Prop :=
  g.hasKind Kind.isBoundary e = true ∨ (g.hasKind Kind.isPipe e = true ∧ (g.inputs e).length = 1)

/-- `g'` is `g` without `p`: what `p` fed is fed from the one input of `p` in its place, at
the same positions. -/
structure Bypasses (g g' : Graph) (p a : ElementId) : Prop where
  gone : g'.contains p = false
  element? : ∀ e, e ≠ p → g'.element? e = g.element? e
  inputs : g.inputs p = [a]
  ne : a ≠ p
  slots : ∀ e, e ≠ p → g'.slots e = (g.slots e).map (Prod.map id (instead p a))

/-- Where what is left out has the value of its input, the others receive what they did. -/
theorem Bypasses.map_slots {V : Type _} {p a : ElementId} (h : Bypasses g g' p a)
    {val : ElementId → V} (hval : val p = val a) {e : ElementId} (he : e ≠ p) :
    (g'.slots e).map (Prod.map id val) = (g.slots e).map (Prod.map id val) :=
  map_slots_eq (apply_instead hval.symm) (h.slots e he)

/-- `g'` computes what `g` does. -/
structure Rewrites (g g' : Graph) : Prop where
  size_le : g.size ≤ g'.size
  left : ∀ e x', e < g.size → g'.element? e = some x' →
    ∃ x, g.element? e = some x ∧ x'.name = x.name ∧ x.kind.Alike x'.kind
  fresh : ∀ e, g.size ≤ e → g'.contains e = true → g'.hasKind Kind.isBoundary e = true
  kept : ∀ e x, g.element? e = some x → ¬ g.Idle e → g'.element? e = some x
  flow : ∀ {V : Type u} (I : Interpretation V) (val : ElementId → V), I.Realizes g val →
    ∃ val', I.Realizes g' val' ∧ ∀ e, e < g.size → g'.contains e = true →
      (g'.inputs e).map val' = (g.inputs e).map val

end Graph

namespace Interpretation

variable {V : Type _} {I : Interpretation V} {g g' : Graph}

theorem emitAt_congr {e : ElementId} (h : g'.element? e = g.element? e) (vs : List V) :
    I.emitAt g' e vs = I.emitAt g e vs := by
  simp only [emitAt, Graph.kind?, h]

theorem emitAt_eq {e : ElementId} {x : Element} (h : g.element? e = some x) (vs : List V) :
    I.emitAt g e vs = I.emit x.kind e vs := by
  simp only [emitAt, Graph.kind?, h, Option.map_some, Option.elim_some]

/-- A boundary, a sink or a pipe puts out the one value it receives. -/
theorem emit_singleton {k : Kind} (hk : k.passesOn = true ∨ k.isPipe = true) (e : ElementId)
    (v : V) : I.emit k e [v] = v := by
  cases k <;> first | rfl | (rcases hk with hk | hk <;> cases hk)

/-- An element with one input that does no work has the value of that input. -/
theorem Realizes.of_sole (h : g.Agrees) {val : ElementId → V} (hval : I.Realizes g val)
    {p : Kind → Bool} (hp : ∀ k, p k = true → k.passesOn = true ∨ k.isPipe = true)
    {e : ElementId} (he : g.hasKind p e = true) {s : ScopeId} {sc : Scope}
    (hs : g.SoleInput e s) (hsc : g.scope? s = some sc) : val e = val sc.origin := by
  obtain ⟨x, hx, hk⟩ := Graph.hasKind_iff.1 he
  rw [hval e (Graph.contains_iff.2 ⟨x, hx⟩), hs.inputs_eq h hsc, emitAt_eq hx]
  exact emit_singleton (hp _ hk) e _

/-- An assignment fits a changed graph if every element that is left keeps its values
and every new element fits. -/
theorem Realizes.transfer {val val' : ElementId → V} (hval : I.Realizes g val)
    (hlive : ∀ e, e < g.size → g'.contains e = true → g.contains e = true)
    (hold : ∀ e, e < g.size → g'.contains e = true → g'.element? e = g.element? e ∧
      val' e = val e ∧ (g'.inputs e).map val' = (g.inputs e).map val)
    (hnew : ∀ e, g.size ≤ e → g'.contains e = true →
      val' e = I.emitAt g' e ((g'.inputs e).map val')) : I.Realizes g' val' := by
  intro e he
  rcases Nat.lt_or_ge e g.size with hlt | hge
  · obtain ⟨helt, hv, hin⟩ := hold e hlt he
    rw [hv, hin, emitAt_congr helt, ← hval e (hlive e hlt he)]
  · exact hnew e hge he

end Interpretation

namespace Graph

variable {g g' g'' : Graph}

theorem Rewrites.refl (g : Graph) : Rewrites.{u} g g where
  size_le := Nat.le_refl _
  left _ x' _ h := ⟨x', h, rfl, .inl rfl⟩
  fresh _ he h := absurd (lt_size_of_contains h) (Nat.not_lt_of_le he)
  kept _ _ h _ := h
  flow _ val hval := ⟨val, hval, fun _ _ _ => rfl⟩

theorem Rewrites.live (h : Rewrites.{u} g g') {e : ElementId} (he : e < g.size)
    (hc : g'.contains e = true) : g.contains e = true := by
  obtain ⟨x', hx'⟩ := contains_iff.1 hc
  obtain ⟨x, hx, -⟩ := h.left e x' he hx'
  exact contains_iff.2 ⟨x, hx⟩

/-- Some assignment fits an acyclic graph, whatever the interpretation. -/
theorem Shaped.exists_realizes (h : g.Shaped) {V : Type u} (I : Interpretation V) :
    ∃ val, I.Realizes g val := by
  obtain ⟨l, hl⟩ := order_of_acyclic h.agrees h.ends h.acyclic
  exact ⟨I.valueOf g, Interpretation.realizes_valueOf hl⟩

/-- What is left has as many inputs as before. -/
theorem Rewrites.length_inputs (h : Rewrites.{u} g g') (hs : g.Shaped) {e : ElementId}
    (he : e < g.size) (hlive : g'.contains e = true) :
    (g'.inputs e).length = (g.inputs e).length := by
  obtain ⟨val, hval⟩ := hs.exists_realizes
    (⟨fun _ => ⟨⟩, fun _ _ => ⟨⟩, ⟨⟩⟩ : Interpretation PUnit.{u + 1})
  obtain ⟨val', -, hin⟩ := h.flow _ val hval
  simpa using congrArg List.length (hin e he hlive)

theorem Rewrites.trans (h : Rewrites.{u} g g') (hs : g.Shaped) (h' : Rewrites.{u} g' g'') :
    Rewrites.{u} g g'' where
  size_le := Nat.le_trans h.size_le h'.size_le
  left e x'' he hx'' := by
    obtain ⟨x', hx', hn', hk'⟩ := h'.left e x'' (Nat.lt_of_lt_of_le he h.size_le) hx''
    obtain ⟨x, hx, hn, hk⟩ := h.left e x' he hx'
    exact ⟨x, hx, hn'.trans hn, hk.trans hk'⟩
  fresh e he hc := by
    rcases Nat.lt_or_ge e g'.size with hlt | hge
    · obtain ⟨x'', hx''⟩ := contains_iff.1 hc
      obtain ⟨x', hx', -, hk⟩ := h'.left e x'' hlt hx''
      obtain ⟨y, hy, hb⟩ := hasKind_iff.1 (h.fresh e he (contains_iff.2 ⟨x', hx'⟩))
      rw [hx'] at hy; cases hy
      refine hasKind_iff.2 ⟨x'', hx'', ?_⟩
      rcases hk with hk | ⟨-, hk⟩
      · rw [hk]; exact hb
      · exact hk
    · exact h'.fresh e hge hc
  kept e x hx hidle := by
    have hx' := h.kept e x hx hidle
    have hc : g.contains e = true := contains_iff.2 ⟨x, hx⟩
    refine h'.kept e x hx' fun hi => hidle ?_
    rcases hi with hb | ⟨hp, hlen⟩
    · left
      obtain ⟨y, hy, hk⟩ := hasKind_iff.1 hb
      rw [hx'] at hy; cases hy
      exact hasKind_iff.2 ⟨x, hx, hk⟩
    · right
      obtain ⟨y, hy, hk⟩ := hasKind_iff.1 hp
      rw [hx'] at hy; cases hy
      refine ⟨hasKind_iff.2 ⟨x, hx, hk⟩, ?_⟩
      rw [← h.length_inputs hs (lt_size_of_contains hc) (contains_iff.2 ⟨x, hx'⟩), hlen]
  flow I val hval := by
    obtain ⟨val', hval', hin⟩ := h.flow I val hval
    obtain ⟨val'', hval'', hin'⟩ := h'.flow I val' hval'
    refine ⟨val'', hval'', fun e he hc => ?_⟩
    have he' := Nat.lt_of_lt_of_le he h.size_le
    exact (hin' e he' hc).trans (hin e he (h'.live he' hc))

/-- What is left receives the same values, by input position. -/
theorem Rewrites.received (h : Rewrites.{u} g g') (hs : g.Shaped) (hs' : g'.Shaped)
    {V : Type u} (I : Interpretation V) {e : ElementId} (he : g.contains e = true)
    (he' : g'.contains e = true) : I.received g' e = I.received g e := by
  obtain ⟨val, hval⟩ := hs.exists_realizes I
  obtain ⟨val', hval', hin⟩ := h.flow I val hval
  rw [Interpretation.received_eq hs.agrees hs.ends hs.acyclic hval,
    Interpretation.received_eq hs'.agrees hs'.ends hs'.acyclic hval']
  exact hin e (lt_size_of_contains he) he'

end Graph
end Dataflow
