import Dataflow.Proofs.Flow.Shape
import Dataflow.Rule.Boundary

/-!
# Putting a boundary in changes no value

A boundary goes in behind an element or on a scope. In both cases one element is
new, it has one input, and it passes that input on to what the input fed before.
Ranks are doubled to make room for it.

Results:

* `shaped_insertAfter`, `Agrees.bypasses_insertAfter`, `rewrites_insertAfter`: behind an
  element that is neither an extent nor a sink;
* `shaped_insertOnScope`, `Shaped.bypasses_insertOnScope`, `rewrites_insertOnScope`: on a
  scope between inner elements;
* `Agrees.leads_boundaryAfter`, `leads_boundaryOn`: what leads where past a boundary that a
  rule drew;
* `Ordered.boundaryAfter`, `Ordered.boundaryOn`: such a boundary closes no cycle;
* `cutScopes_induction_done`: from one boundary on a scope to one on each of several.
-/
namespace Dataflow
namespace Graph

universe u

variable {g g' : Graph} {x : Element}

/-- `g'` has the boundary `x` in addition, at the next id. -/
structure Grows (g g' : Graph) (x : Element) : Prop where
  size : g'.size = g.size + 1
  element? : ∀ e, g'.element? e = if e = g.size then some x else g.element? e
  boundary : x.kind.isBoundary = true

/-- The next id is that of no element yet. -/
theorem contains_size (g : Graph) : g.contains g.size = false := by
  rw [← Bool.not_eq_true]
  exact fun h => Nat.lt_irrefl _ (lt_size_of_contains h)

theorem Grows.element?_old (h : Grows g g' x) {e : ElementId} (he : e < g.size) :
    g'.element? e = g.element? e := by
  rw [h.element?, if_neg (Nat.ne_of_lt he)]

theorem Grows.element?_new (h : Grows g g' x) : g'.element? g.size = some x := by
  rw [h.element?, if_pos rfl]

theorem Grows.contains_old (h : Grows g g' x) {e : ElementId} (he : g.contains e = true) :
    g'.contains e = true := by
  rw [contains, h.element?_old (lt_size_of_contains he)]; exact he

theorem Grows.contains_new (h : Grows g g' x) : g'.contains g.size = true := by
  rw [contains, h.element?_new]; rfl

theorem Grows.hasKind_old (h : Grows g g' x) {p : Kind → Bool} {e : ElementId} (he : e < g.size) :
    g'.hasKind p e = g.hasKind p e := by
  rw [hasKind, hasKind, kind?, kind?, h.element?_old he]

/-- What is live is old or the new boundary. -/
theorem Grows.old_or_new (h : Grows g g' x) {e : ElementId} (he : g'.contains e = true) :
    e < g.size ∨ e = g.size := by
  have hlt := lt_size_of_contains he
  rw [h.size] at hlt
  exact Nat.lt_succ_iff_lt_or_eq.1 hlt

theorem Grows.contains_or_new (h : Grows g g' x) {e : ElementId} (he : g'.contains e = true) :
    g.contains e = true ∨ e = g.size := by
  refine (h.old_or_new he).imp_left fun hlt => ?_
  rwa [contains, ← h.element?_old hlt]

/-- The new element is of the kinds that every boundary is of, and of no others. -/
theorem Grows.hasKind_new (h : Grows g g' x) {p : Kind → Bool} {b : Bool}
    (hp : ∀ t, p (.boundary t) = b) : g'.hasKind p g.size = b := by
  obtain ⟨t, ht⟩ := Kind.isBoundary_iff.1 h.boundary
  rw [hasKind, kind?, h.element?_new, Option.map_some, ht]
  exact hp t

/-- What is of a kind that no boundary is of was there before. -/
theorem Grows.of_hasKind (h : Grows g g' x) {p : Kind → Bool} {e : ElementId}
    (he : g'.hasKind p e = true) (hp : ∀ t, p (.boundary t) = false) :
    e < g.size ∧ g.hasKind p e = true := by
  rcases h.old_or_new (contains_of_hasKind he) with hlt | rfl
  · exact ⟨hlt, (h.hasKind_old hlt).symm.trans he⟩
  · rw [h.hasKind_new hp] at he
    cases he

/-- A grown graph rewrites the old one if it goes past the new boundary. -/
theorem Grows.rewrites (h : Grows g g' x) {a : ElementId} (hby : Bypasses g' g g.size a) :
    Rewrites.{u} g g' where
  size_le := by rw [h.size]; exact Nat.le_succ _
  left e x' he hx' := ⟨x', (h.element?_old he).symm.trans hx', rfl, .inl rfl⟩
  fresh e he hc := by
    rcases h.old_or_new hc with hlt | rfl
    · exact absurd hlt (Nat.not_lt_of_le he)
    · exact h.hasKind_new fun _ => rfl
  kept e y hy _ := (h.element?_old (lt_size_of_contains (contains_iff.2 ⟨y, hy⟩))).trans hy
  flow I val hval := by
    -- the boundary puts out what the element before it does
    have hsame : ∀ e, e ≠ g.size → val (instead g.size a e) = val e :=
      fun e he => by rw [instead_of_ne he]
    have hin : ∀ e, e < g.size →
        (g'.inputs e).map (val ∘ instead g.size a) = (g.inputs e).map val := fun e he => by
      rw [inputs_of_slots (hby.slots e (Nat.ne_of_lt he)), List.map_map]
    refine ⟨val ∘ instead g.size a, ?_, fun e he _ => hin e he⟩
    refine hval.transfer (fun e he hc => ?_) (fun e he _ => ?_) (fun e he hc => ?_)
    · rw [contains, h.element?_old he] at hc; exact hc
    · exact ⟨h.element?_old he, hsame e (Nat.ne_of_lt he), hin e he⟩
    · rcases h.old_or_new hc with hlt | rfl
      · exact absurd hlt (Nat.not_lt_of_le he)
      · rw [hby.inputs, Interpretation.emitAt_eq h.element?_new, Function.comp_apply,
          instead_self, ← hsame a hby.ne]
        exact (Interpretation.emit_singleton (.inl (by simp [Kind.passesOn, h.boundary])) _ _).symm

/-- The extents stay what they are. -/
theorem Grows.extent_iff (h : Grows g g' x) (hs : g.Shaped) (e : ElementId) (y : Element)
    (hy : g'.element? e = some y) : y.kind.isExtent = true ↔ isExtent e = true := by
  have htwo := hs.two_le_size
  rcases h.old_or_new (contains_iff.2 ⟨y, hy⟩) with hlt | rfl
  · exact hs.extent_iff e y ((h.element?_old hlt).symm.trans hy)
  · rw [h.element?_new] at hy; cases hy
    have hb := h.boundary
    constructor
    · intro he
      cases hk : x.kind with
      | extent y => rw [hk] at hb; exact absurd hb Bool.false_ne_true
      | _ => rw [hk] at he; exact absurd he Bool.false_ne_true
    · intro he
      simp only [isExtent, Bool.or_eq_true, beq_iff_eq] at he
      rcases he with he | he
      · rw [he] at htwo; cases htwo
      · rw [he] at htwo; exact absurd htwo (Nat.lt_irrefl _)

/-- Doubled ranks with the new boundary right above `o`. -/
def rankAbove (rank : ElementId → Nat) (b o : ElementId) (e : ElementId) : Nat :=
  if e = b then 2 * rank o + 1 else 2 * rank e

/-! ## Behind an element -/

/-- The scopes after `x` went in behind `id`. -/
theorem Agrees.insertAfter_cases (h : g.Agrees) {id : ElementId} {s : ScopeId} {sc' : Scope}
    (hs : (g.insertAfter id x).2.scope? s = some sc') :
    (s = g.scopes.length ∧ sc' = ⟨id, g.size, 0, none⟩) ∨
      ∃ sc, g.scope? s = some sc ∧ sc' = sc.rerouted id g.size := by
  rw [h.scope?_insertAfter] at hs
  split at hs
  · next hn => cases hs; exact .inl ⟨hn, rfl⟩
  · obtain ⟨sc, hsc, rfl⟩ := Option.map_eq_some_iff.1 hs
    exact .inr ⟨sc, hsc, rfl⟩

theorem Agrees.scope?_insertAfter_old (h : g.Agrees) {id : ElementId} {s : ScopeId} {sc : Scope}
    (hs : g.scope? s = some sc) :
    (g.insertAfter id x).2.scope? s = some (sc.rerouted id g.size) := by
  rw [h.scope?_insertAfter, if_neg (Nat.ne_of_lt (lt_scopes_of_scope? hs)), hs]
  rfl

theorem Agrees.scope?_insertAfter_new (h : g.Agrees) (id : ElementId) :
    (g.insertAfter id x).2.scope? g.scopes.length = some ⟨id, g.size, 0, none⟩ := by
  rw [h.scope?_insertAfter, if_pos rfl]

theorem grows_insertAfter (hb : x.kind.isBoundary = true) (id : ElementId) :
    Grows g (g.insertAfter id x).2 x :=
  ⟨size_insertAfter id x, element?_insertAfter id x, hb⟩

/-- What leads where after `x` went in behind `id`. -/
theorem Agrees.leads_insertAfter (h : g.Agrees) {id a c : ElementId} :
    (g.insertAfter id x).2.Leads a c ↔
      (a = id ∧ c = g.size) ∨ (a = g.size ∧ g.Leads id c) ∨ (a ≠ id ∧ g.Leads a c) := by
  constructor
  · rintro ⟨s, sc', hs, rfl, rfl⟩
    rcases h.insertAfter_cases hs with ⟨-, rfl⟩ | ⟨sc, hsc, rfl⟩
    · exact .inl ⟨rfl, rfl⟩
    · rw [Scope.origin_rerouted, Scope.target_rerouted]
      by_cases ho : sc.origin = id
      · rw [if_pos ho]
        exact .inr (.inl ⟨rfl, s, sc, hsc, ho, rfl⟩)
      · rw [if_neg ho]
        exact .inr (.inr ⟨ho, s, sc, hsc, rfl, rfl⟩)
  · rintro (⟨rfl, rfl⟩ | ⟨rfl, s, sc, hsc, ho, rfl⟩ | ⟨hne, s, sc, hsc, rfl, rfl⟩)
    · exact ⟨_, _, h.scope?_insertAfter_new a, rfl, rfl⟩
    · exact ⟨s, _, h.scope?_insertAfter_old hsc, Scope.origin_rerouted.trans (if_pos ho),
        Scope.target_rerouted⟩
    · exact ⟨s, _, h.scope?_insertAfter_old hsc, Scope.origin_rerouted.trans (if_neg hne),
        Scope.target_rerouted⟩

/-- The new boundary is fed by the new scope alone. -/
theorem Agrees.soleInput_insertAfter (h : g.Agrees) (id : ElementId) :
    (g.insertAfter id x).2.SoleInput g.size g.scopes.length := by
  refine ⟨⟨_, h.scope?_insertAfter_new id, rfl⟩, fun t tc' htc' ht' => ?_⟩
  rcases h.insertAfter_cases htc' with ⟨ht, -⟩ | ⟨tc, htc, rfl⟩
  · exact ht
  · rw [Scope.target_rerouted] at ht'
    exact absurd ht' (Nat.ne_of_lt (h.target_lt htc))

/-- The new boundary ranks right above the element that it went in behind. -/
theorem Ordered.insertAfter (h : g.Ordered) (hb : x.kind.isBoundary = true) {id : ElementId}
    (hid : g.contains id = true) : (g.insertAfter id x).2.Ordered := by
  have hg := grows_insertAfter (g := g) hb id
  have hlt : ∀ {a c}, g.Leads a c → a < g.size ∧ c < g.size := h.agrees.lt_size_of_leads
  obtain ⟨rank, hrank⟩ := h.acyclic
  refine ⟨agrees_insertAfter h.agrees (lt_size_of_contains hid) x, fun a c hl => ?_,
    rankAbove rank g.size id, fun a c hl => ?_⟩
  · rcases h.agrees.leads_insertAfter.1 hl with ⟨rfl, rfl⟩ | ⟨rfl, hl'⟩ | ⟨-, hl'⟩
    · exact ⟨hg.contains_old hid, hg.contains_new⟩
    · exact ⟨hg.contains_new, hg.contains_old (h.ends _ _ hl').2⟩
    · exact ⟨hg.contains_old (h.ends _ _ hl').1, hg.contains_old (h.ends _ _ hl').2⟩
  rcases h.agrees.leads_insertAfter.1 hl with ⟨rfl, rfl⟩ | ⟨rfl, hl'⟩ | ⟨-, hl'⟩
  · simp only [rankAbove, if_neg (Nat.ne_of_lt (lt_size_of_contains hid)), if_true]; omega
  · have := hrank _ _ hl'
    simp only [rankAbove, if_neg (Nat.ne_of_lt (hlt hl').2), if_true]; omega
  · have := hrank _ _ hl'
    simp only [rankAbove, if_neg (Nat.ne_of_lt (hlt hl').1), if_neg (Nat.ne_of_lt (hlt hl').2)]
    omega

/-- The new boundary has the new scope, everything else what it had. -/
theorem Shaped.sole_insertAfter (hs : g.Shaped) (hb : x.kind.isBoundary = true) (id : ElementId)
    (e : ElementId) (he : (g.insertAfter id x).2.hasKind Kind.passesOn e = true) :
    ∃ s, (g.insertAfter id x).2.SoleInput e s := by
  have hg := grows_insertAfter (g := g) hb id
  rcases hg.old_or_new (contains_of_hasKind he) with hlt | rfl
  · rw [hg.hasKind_old hlt] at he
    obtain ⟨s, ⟨sc, hsc, ht⟩, huniq⟩ := hs.sole e he
    refine ⟨s, ⟨_, hs.agrees.scope?_insertAfter_old hsc, Scope.target_rerouted.trans ht⟩, ?_⟩
    intro t tc' htc' ht'
    rcases hs.agrees.insertAfter_cases htc' with ⟨-, rfl⟩ | ⟨tc, htc, rfl⟩
    · exact absurd ht'.symm (Nat.ne_of_lt hlt)
    · exact huniq t tc htc (Scope.target_rerouted.symm.trans ht')
  · exact ⟨_, hs.agrees.soleInput_insertAfter id⟩

theorem shaped_insertAfter (hs : g.Shaped) (hb : x.kind.isBoundary = true) {id : ElementId}
    (hid : g.contains id = true) (hext : id ≠ head ∧ id ≠ tail)
    (hsink : g.hasKind Kind.isSink id = false) : (g.insertAfter id x).2.Shaped := by
  have hg := grows_insertAfter (g := g) hb id
  have hord := hs.ordered.insertAfter hb hid
  have htwo := hs.two_le_size
  have hlt : ∀ {a c}, g.Leads a c → a < g.size ∧ c < g.size := hs.agrees.lt_size_of_leads
  refine ⟨hord.agrees, hord.ends, hord.acyclic, hg.contains_old hs.tail_live, hg.extent_iff hs,
    ?_, ?_, ?_, ?_, hs.sole_insertAfter hb id⟩
  · -- positions are those of before
    intro s sc' t tc' h1 h2 htar hne hord
    rcases hs.agrees.insertAfter_cases h1 with ⟨rfl, rfl⟩ | ⟨sc, hsc, rfl⟩ <;>
      rcases hs.agrees.insertAfter_cases h2 with ⟨rfl, rfl⟩ | ⟨tc, htc, rfl⟩
    · rfl
    · rw [Scope.target_rerouted] at htar
      exact absurd htar.symm (Nat.ne_of_lt (hs.agrees.target_lt htc))
    · rw [Scope.target_rerouted] at htar
      exact absurd htar (Nat.ne_of_lt (hs.agrees.target_lt hsc))
    · simp only [Scope.target_rerouted, Scope.ordinal_rerouted] at htar hne hord
      exact hs.ordinals s sc t tc hsc htc htar hne hord
  · intro a hl
    rcases hs.agrees.leads_insertAfter.1 hl with ⟨h0, -⟩ | ⟨h0, -⟩ | ⟨-, hl⟩
    · exact absurd h0.symm hext.1
    · rw [← h0] at htwo; cases htwo
    · rw [hg.hasKind_old (hlt hl).2]; exact hs.head_first a hl
  · intro a hl
    rcases hs.agrees.leads_insertAfter.1 hl with ⟨-, h0⟩ | ⟨-, hl⟩ | ⟨-, hl⟩
    · rw [← h0] at htwo; exact absurd htwo (Nat.lt_irrefl _)
    · rw [hs.tail_fed _ hl] at hsink; cases hsink
    · rw [hg.hasKind_old (hlt hl).1]; exact hs.tail_fed a hl
  · intro a hl
    rcases hs.agrees.leads_insertAfter.1 hl with ⟨h0, -⟩ | ⟨h0, -⟩ | ⟨-, hl⟩
    · exact hext.2 h0.symm
    · rw [← h0] at htwo; exact Nat.lt_irrefl _ htwo
    · exact hs.tail_last a hl

/-- What `id` fed is fed by the new element. -/
theorem Agrees.inputs_insertAfter (h : g.Agrees) {id : ElementId} (hid : id < g.size)
    {e : ElementId} (he : e ≠ g.size) : (g.insertAfter id x).2.inputs e =
      (g.inputs e).map fun a => if a = id then g.size else a := by
  refine inputs_of_slots (h.slots_of_kept (agrees_insertAfter h hid x) _ (fun s sc hsc ht => ?_)
    (fun s sc' hsc' ht => ?_))
  · exact ⟨_, h.scope?_insertAfter_old hsc, Scope.target_rerouted.trans ht,
      Scope.ordinal_rerouted, Scope.origin_rerouted⟩
  · rcases h.insertAfter_cases hsc' with ⟨-, rfl⟩ | ⟨sc, hsc, rfl⟩
    · exact absurd ht.symm he
    · exact ⟨sc, hsc, Scope.target_rerouted.symm.trans ht⟩

theorem Agrees.slots_insertAfter_new (h : g.Agrees) {id : ElementId} (hid : id < g.size) :
    (g.insertAfter id x).2.slots g.size = [(0, id)] :=
  (h.soleInput_insertAfter id).slots_eq (agrees_insertAfter h hid x)
    (h.scope?_insertAfter_new id)

theorem Agrees.bypasses_insertAfter (h : g.Agrees) {id : ElementId} (hid : id < g.size) :
    Bypasses (g.insertAfter id x).2 g g.size id where
  gone := contains_size g
  element? e he := by rw [element?_insertAfter, if_neg he]
  inputs := by rw [← map_snd_slots, h.slots_insertAfter_new hid]; rfl
  ne := Nat.ne_of_lt hid
  slots e he := by
    refine (agrees_insertAfter h hid x).slots_of_kept h _ (fun s sc' hsc' ht => ?_)
      (fun s sc hsc ht => ?_)
    · rcases h.insertAfter_cases hsc' with ⟨-, rfl⟩ | ⟨sc, hsc, rfl⟩
      · exact absurd ht.symm he
      · refine ⟨sc, hsc, Scope.target_rerouted.symm.trans ht, Scope.ordinal_rerouted.symm, ?_⟩
        rw [Scope.origin_rerouted]
        by_cases ho : sc.origin = id
        · rw [if_pos ho, instead_self, ho]
        · rw [if_neg ho, instead_of_ne (Nat.ne_of_lt (h.origin_lt hsc))]
    · exact ⟨_, h.scope?_insertAfter_old hsc, Scope.target_rerouted.trans ht⟩

theorem rewrites_insertAfter (hs : g.Shaped) (hb : x.kind.isBoundary = true) {id : ElementId}
    (hid : g.contains id = true) : Rewrites.{u} g (g.insertAfter id x).2 :=
  (grows_insertAfter hb id).rewrites (hs.agrees.bypasses_insertAfter (lt_size_of_contains hid))

/-! ## On a scope -/

section OnScope

variable {i : ScopeId} {sc : Scope} (hi : g.scope? i = some sc)

include hi

theorem grows_insertOnScope (hb : x.kind.isBoundary = true) : Grows g (g.insertOnScope i x).2 x :=
  ⟨size_insertOnScope hi x, element?_insertOnScope hi x, hb⟩

/-- The scopes after `x` went in on the scope `i`. -/
theorem insertOnScope_cases {s : ScopeId} {sc' : Scope}
    (hs : (g.insertOnScope i x).2.scope? s = some sc') :
    (s = g.scopes.length ∧ sc' = ⟨g.size, sc.target, sc.ordinal, none⟩) ∨
      (s = i ∧ sc' = sc.toTarget g.size 0) ∨ (s ≠ i ∧ g.scope? s = some sc') := by
  rw [scope?_insertOnScope hi] at hs
  split at hs
  · next hn => cases hs; exact .inl ⟨hn, rfl⟩
  · split at hs
    · next hsi => cases hs; exact .inr (.inl ⟨hsi, rfl⟩)
    · next hsi => exact .inr (.inr ⟨hsi, hs⟩)

theorem scope?_insertOnScope_old {s : ScopeId} {tc : Scope} (hs : g.scope? s = some tc)
    (hne : s ≠ i) : (g.insertOnScope i x).2.scope? s = some tc := by
  rw [scope?_insertOnScope hi, if_neg (Nat.ne_of_lt (lt_scopes_of_scope? hs)), if_neg hne, hs]

theorem scope?_insertOnScope_new :
    (g.insertOnScope i x).2.scope? g.scopes.length =
      some ⟨g.size, sc.target, sc.ordinal, none⟩ := by
  rw [scope?_insertOnScope hi, if_pos rfl]

theorem scope?_insertOnScope_self :
    (g.insertOnScope i x).2.scope? i = some (sc.toTarget g.size 0) := by
  rw [scope?_insertOnScope hi, if_neg (Nat.ne_of_lt (lt_scopes_of_scope? hi)), if_pos rfl]

/-- What leads where after `x` went in on the scope `i`. -/
theorem leads_insertOnScope {a c : ElementId} (hl : (g.insertOnScope i x).2.Leads a c) :
    (a = g.size ∧ c = sc.target) ∨ (a = sc.origin ∧ c = g.size) ∨ g.Leads a c := by
  obtain ⟨s, sc', hs, rfl, rfl⟩ := hl
  rcases insertOnScope_cases hi hs with ⟨-, rfl⟩ | ⟨-, rfl⟩ | ⟨-, hs⟩
  · exact .inl ⟨rfl, rfl⟩
  · exact .inr (.inl ⟨rfl, rfl⟩)
  · exact .inr (.inr ⟨s, sc', hs, rfl, rfl⟩)

/-- The new boundary is fed by the scope that it was put on. -/
theorem Agrees.soleInput_insertOnScope (h : g.Agrees) :
    (g.insertOnScope i x).2.SoleInput g.size i := by
  refine ⟨⟨_, scope?_insertOnScope_self hi, rfl⟩, fun t tc htc ht => ?_⟩
  rcases insertOnScope_cases hi htc with ⟨-, rfl⟩ | ⟨ht', -⟩ | ⟨-, htc'⟩
  · exact absurd (show sc.target = g.size from ht) (Nat.ne_of_lt (h.target_lt hi))
  · exact ht'
  · exact absurd ht (Nat.ne_of_lt (h.target_lt htc'))

theorem EndsLive.insertOnScope (h : g.EndsLive) (hb : x.kind.isBoundary = true) :
    (g.insertOnScope i x).2.EndsLive := by
  have hg := grows_insertOnScope hi hb
  have hsc := h _ _ ⟨i, sc, hi, rfl, rfl⟩
  intro a c hl
  rcases leads_insertOnScope hi hl with ⟨rfl, rfl⟩ | ⟨rfl, rfl⟩ | hl'
  · exact ⟨hg.contains_new, hg.contains_old hsc.2⟩
  · exact ⟨hg.contains_old hsc.1, hg.contains_new⟩
  · exact ⟨hg.contains_old (h _ _ hl').1, hg.contains_old (h _ _ hl').2⟩

/-- The new boundary ranks right above the origin of the scope. -/
theorem Agrees.acyclic_insertOnScope (h : g.Agrees) (hacyc : g.Acyclic) :
    (g.insertOnScope i x).2.Acyclic := by
  have hsc : g.Leads sc.origin sc.target := ⟨i, sc, hi, rfl, rfl⟩
  have hlt : ∀ {a c}, g.Leads a c → a < g.size ∧ c < g.size := h.lt_size_of_leads
  obtain ⟨rank, hrank⟩ := hacyc
  refine ⟨rankAbove rank g.size sc.origin, fun a c hl => ?_⟩
  have hr := hrank _ _ hsc
  rcases leads_insertOnScope hi hl with ⟨rfl, rfl⟩ | ⟨rfl, rfl⟩ | hl'
  · simp only [rankAbove, if_neg (Nat.ne_of_lt (hlt hsc).2), if_true]; omega
  · simp only [rankAbove, if_neg (Nat.ne_of_lt (hlt hsc).1), if_true]; omega
  · have := hrank _ _ hl'
    simp only [rankAbove, if_neg (Nat.ne_of_lt (hlt hl').1), if_neg (Nat.ne_of_lt (hlt hl').2)]
    omega

/-- The new scope has the position that the cut one gave up. -/
theorem Shaped.ordinals_insertOnScope (hs : g.Shaped) (ht : sc.target ≠ tail) :
    ∀ s sc' t tc', (g.insertOnScope i x).2.scope? s = some sc' →
      (g.insertOnScope i x).2.scope? t = some tc' → sc'.target = tc'.target →
      sc'.target ≠ tail → sc'.ordinal = tc'.ordinal → s = t := by
  have hlt : sc.target < g.size := hs.agrees.target_lt hi
  have hold : ∀ t tc, t ≠ i → g.scope? t = some tc → tc.target = sc.target →
      tc.ordinal ≠ sc.ordinal := fun t tc hne htc htar hord =>
    hne (hs.ordinals t tc i sc htc hi htar (htar ▸ ht) hord)
  intro s sc' t tc' h1 h2 htar hne hord
  rcases insertOnScope_cases hi h1 with ⟨rfl, rfl⟩ | ⟨rfl, rfl⟩ | ⟨hsi, h1'⟩ <;>
    rcases insertOnScope_cases hi h2 with ⟨rfl, rfl⟩ | ⟨rfl, rfl⟩ | ⟨hti, h2'⟩
  · rfl
  · exact absurd htar (Nat.ne_of_lt hlt)
  · exact absurd hord.symm (hold t tc' hti h2' htar.symm)
  · exact absurd htar.symm (Nat.ne_of_lt hlt)
  · rfl
  · exact absurd htar.symm (Nat.ne_of_lt (hs.agrees.target_lt h2'))
  · exact absurd hord (hold s sc' hsi h1' htar)
  · exact absurd htar (Nat.ne_of_lt (hs.agrees.target_lt h1'))
  · exact hs.ordinals s sc' t tc' h1' h2' htar hne hord

/-- A sole input that is cut is replaced by the new scope. -/
theorem Shaped.sole_insertOnScope (hs : g.Shaped) (hb : x.kind.isBoundary = true) (e : ElementId)
    (he : (g.insertOnScope i x).2.hasKind Kind.passesOn e = true) :
    ∃ s, (g.insertOnScope i x).2.SoleInput e s := by
  have hg := grows_insertOnScope hi hb
  rcases hg.old_or_new (contains_of_hasKind he) with hlt | rfl
  · rw [hg.hasKind_old hlt] at he
    obtain ⟨s, ⟨tc, htc, htar⟩, huniq⟩ := hs.sole e he
    by_cases hsi : s = i
    · subst hsi
      rw [hi] at htc; cases htc
      refine ⟨g.scopes.length, ⟨_, scope?_insertOnScope_new hi, htar⟩, fun t tc' htc' ht' => ?_⟩
      rcases insertOnScope_cases hi htc' with ⟨h, -⟩ | ⟨-, rfl⟩ | ⟨hti, htc'⟩
      · exact h
      · exact absurd ht'.symm (Nat.ne_of_lt hlt)
      · exact absurd (huniq t tc' htc' ht') hti
    · refine ⟨s, ⟨tc, scope?_insertOnScope_old hi htc hsi, htar⟩, fun t tc' htc' ht' => ?_⟩
      rcases insertOnScope_cases hi htc' with ⟨-, rfl⟩ | ⟨-, rfl⟩ | ⟨-, htc'⟩
      · exact absurd (huniq i sc hi ht').symm hsi
      · exact absurd ht'.symm (Nat.ne_of_lt hlt)
      · exact huniq t tc' htc' ht'
  · exact ⟨i, hs.agrees.soleInput_insertOnScope hi⟩

theorem shaped_insertOnScope (hs : g.Shaped) (hb : x.kind.isBoundary = true)
    (ho : sc.origin ≠ head) (ht : sc.target ≠ tail) : (g.insertOnScope i x).2.Shaped := by
  have hg := grows_insertOnScope hi hb
  have htwo := hs.two_le_size
  have hsc : g.Leads sc.origin sc.target := ⟨i, sc, hi, rfl, rfl⟩
  have hlt : ∀ {a c}, g.Leads a c → a < g.size ∧ c < g.size := hs.agrees.lt_size_of_leads
  refine ⟨agrees_insertOnScope hs.agrees hi x, hs.ends.insertOnScope hi hb,
    hs.agrees.acyclic_insertOnScope hi hs.acyclic, hg.contains_old hs.tail_live, hg.extent_iff hs,
    hs.ordinals_insertOnScope hi ht, ?_, ?_, ?_, hs.sole_insertOnScope hi hb⟩
  · intro a hl
    rcases leads_insertOnScope hi hl with ⟨h0, -⟩ | ⟨h0, -⟩ | hl'
    · rw [← h0] at htwo; cases htwo
    · exact absurd h0.symm ho
    · rw [hg.hasKind_old (hlt hl').2]; exact hs.head_first a hl'
  · intro a hl
    rcases leads_insertOnScope hi hl with ⟨-, h0⟩ | ⟨-, h0⟩ | hl'
    · exact absurd h0.symm ht
    · rw [← h0] at htwo; exact absurd htwo (Nat.lt_irrefl _)
    · rw [hg.hasKind_old (hlt hl').1]; exact hs.tail_fed a hl'
  · intro a hl
    rcases leads_insertOnScope hi hl with ⟨h0, -⟩ | ⟨h0, -⟩ | hl'
    · rw [← h0] at htwo; exact Nat.lt_irrefl _ htwo
    · exact hs.tail_last _ (h0 ▸ hsc)
    · exact hs.tail_last a hl'

theorem Agrees.slots_insertOnScope_new (h : g.Agrees) :
    (g.insertOnScope i x).2.slots g.size = [(0, sc.origin)] := by
  have hslots := (h.soleInput_insertOnScope hi).slots_eq (agrees_insertOnScope h hi x)
    (scope?_insertOnScope_self hi)
  exact hslots

/-- With the new element left out every element is fed at the positions it was. -/
theorem Agrees.slots_insertOnScope (h : g.Agrees) {e : ElementId} (he : e ≠ g.size) :
    (((g.insertOnScope i x).2.slots e).map (Prod.map id (instead g.size sc.origin))).Perm
      (g.slots e) := by
  have h' := agrees_insertOnScope h hi x
  have hne : ∀ {s tc}, g.scope? s = some tc → s ≠ g.scopes.length := fun hs =>
    Nat.ne_of_lt (lt_scopes_of_scope? hs)
  -- the new scope takes the place of the one that was cut
  refine h.slots_perm h' (fun s => if s = g.scopes.length then i else s) _
    (fun s sc' hsc' ht => ?_) (fun s tc hs ht => ?_) fun s hs t ht heq => ?_
  · rcases insertOnScope_cases hi hsc' with ⟨rfl, rfl⟩ | ⟨-, rfl⟩ | ⟨-, hs⟩
    · exact ⟨sc, by rw [if_pos rfl, hi], ht, rfl, (instead_self _ _).symm⟩
    · exact absurd ht.symm he
    · exact ⟨sc', by rw [if_neg (hne hs), hs], ht, rfl,
        (instead_of_ne (Nat.ne_of_lt (h.origin_lt hs))).symm⟩
  · by_cases hsi : s = i
    · subst hsi
      rw [hi] at hs
      cases hs
      exact ⟨_, _, scope?_insertOnScope_new hi, ht, if_pos rfl⟩
    · exact ⟨s, tc, scope?_insertOnScope_old hi hs hsi, ht, if_neg (hne hs)⟩
  · have hnot : ∀ {s}, s ∈ (g.insertOnScope i x).2.incoming e → s ≠ i := by
      rintro s hs rfl
      obtain ⟨sc', hsc', ht⟩ := h'.mem_incoming.1 hs
      rw [scope?_insertOnScope_self hi] at hsc'
      cases hsc'
      exact he ht.symm
    by_cases hsn : s = g.scopes.length <;> by_cases htn : t = g.scopes.length
    · rw [hsn, htn]
    · rw [if_pos hsn, if_neg htn] at heq
      exact absurd heq.symm (hnot ht)
    · rw [if_neg hsn, if_pos htn] at heq
      exact absurd heq (hnot hs)
    · rwa [if_neg hsn, if_neg htn] at heq

theorem Shaped.bypasses_insertOnScope (hs : g.Shaped) (hb : x.kind.isBoundary = true)
    (ht : sc.target ≠ tail) : Bypasses (g.insertOnScope i x).2 g g.size sc.origin where
  gone := contains_size g
  element? e he := by rw [(grows_insertOnScope hi hb).element?, if_neg he]
  inputs := by rw [← map_snd_slots, hs.agrees.slots_insertOnScope_new hi]; rfl
  ne := Nat.ne_of_lt (hs.agrees.origin_lt hi)
  slots e he := by
    -- at the target the new scope stands where the cut one stood
    have hold : ∀ {s tc}, g.scope? s = some tc → instead g.size sc.origin tc.origin = tc.origin :=
      fun htc => instead_of_ne (Nat.ne_of_lt (hs.agrees.origin_lt htc))
    have ha := agrees_insertOnScope hs.agrees hi x
    refine ha.slots_eq hs.agrees (fun s => if s = g.scopes.length then i else s) _
      (fun s tc' htc' htar => ?_) (fun s tc htc htar => ?_) (fun s hs1 t ht1 hord hst => ?_)
    · rcases insertOnScope_cases hi htc' with ⟨rfl, rfl⟩ | ⟨-, rfl⟩ | ⟨-, htc⟩
      · rw [if_pos rfl]
        exact ⟨sc, hi, htar, rfl, (instead_self _ _).symm⟩
      · exact absurd htar.symm he
      · rw [if_neg (Nat.ne_of_lt (lt_scopes_of_scope? htc))]
        exact ⟨tc', htc, htar, rfl, (hold htc).symm⟩
    · by_cases hsi : s = i
      · subst hsi
        rw [hi] at htc; cases htc
        exact ⟨_, _, scope?_insertOnScope_new hi, htar, if_pos rfl⟩
      · exact ⟨s, tc, scope?_insertOnScope_old hi htc hsi, htar,
          if_neg (Nat.ne_of_lt (lt_scopes_of_scope? htc))⟩
    · -- `tail` gets no scope, and elsewhere positions differ
      obtain ⟨sc1, hsc1, htar1⟩ := ha.mem_incoming.1 hs1
      obtain ⟨sc2, hsc2, htar2⟩ := ha.mem_incoming.1 ht1
      rw [ordinalOf_eq hsc1, ordinalOf_eq hsc2] at hord
      by_cases het : e = tail
      · have hne : ∀ {s tc}, (g.insertOnScope i x).2.scope? s = some tc → tc.target = e →
            s ≠ g.scopes.length := by
          rintro s tc htc htar rfl
          rw [scope?_insertOnScope_new hi] at htc; cases htc
          exact ht (htar.trans het)
        rw [if_neg (hne hsc1 htar1), if_neg (hne hsc2 htar2)]
        exact hst
      · have := hs.ordinals_insertOnScope hi ht s sc1 t sc2 hsc1 hsc2 (htar1.trans htar2.symm)
          (htar1 ▸ het) hord
        exact absurd this (Nat.ne_of_lt hst)

theorem rewrites_insertOnScope (hs : g.Shaped) (hb : x.kind.isBoundary = true)
    (ht : sc.target ≠ tail) : Rewrites.{u} g (g.insertOnScope i x).2 :=
  (grows_insertOnScope hi hb).rewrites (hs.bypasses_insertOnScope hi hb ht)

end OnScope

/-! ## The boundaries that the rules draw -/

theorem agrees_recount (h : g.Agrees) (n : Nat) : ({ g with boundaryCount := n } : Graph).Agrees :=
  ⟨h.outgoing_iff, h.arrivals_iff, h.outgoing_nodup, h.arrivals_nodup⟩

theorem shaped_recount (hs : g.Shaped) (n : Nat) : ({ g with boundaryCount := n } : Graph).Shaped :=
  ⟨agrees_recount hs.agrees n, hs.ends, hs.acyclic, hs.tail_live,
    hs.extent_iff, hs.ordinals, hs.head_first, hs.tail_fed, hs.tail_last, hs.sole⟩

theorem rewrites_recount (g : Graph) (n : Nat) :
    Rewrites.{u} g { g with boundaryCount := n } :=
  ⟨Nat.le_refl _, fun _ x' _ h => ⟨x', h, rfl, .inl rfl⟩,
    fun _ he h => absurd (lt_size_of_contains h) (Nat.not_lt_of_le he), fun _ _ h _ => h,
    fun _ val hval => ⟨val, hval, fun _ _ _ => rfl⟩⟩

section Drawn

variable (scheme : String)

theorem grows_boundaryAfter (g : Graph) (scheme : String) (o : ElementId) :
    Grows g (g.boundaryAfter scheme o) (g.drawBoundary scheme).1 := by
  have hg := grows_insertAfter (g := { g with boundaryCount := g.nextBoundaryNumber })
    (x := (g.drawBoundary scheme).1) rfl o
  exact ⟨hg.size, hg.element?, hg.boundary⟩

theorem Ordered.boundaryAfter (h : g.Ordered) {o : ElementId} (ho : g.contains o = true) :
    (g.boundaryAfter scheme o).Ordered := by
  have h' : ({ g with boundaryCount := g.nextBoundaryNumber } : Graph).Ordered :=
    ⟨agrees_recount h.agrees g.nextBoundaryNumber, h.ends, h.acyclic⟩
  exact h'.insertAfter rfl ho

/-- What leads where after a boundary went in behind `o`. -/
theorem Agrees.leads_boundaryAfter (h : g.Agrees) {o a c : ElementId} :
    (g.boundaryAfter scheme o).Leads a c ↔
      (a = o ∧ c = g.size) ∨ (a = g.size ∧ g.Leads o c) ∨ (a ≠ o ∧ g.Leads a c) :=
  (agrees_recount h g.nextBoundaryNumber).leads_insertAfter

theorem Agrees.agrees_boundaryAfter (h : g.Agrees) {o : ElementId} (ho : o < g.size) :
    (g.boundaryAfter scheme o).Agrees :=
  agrees_insertAfter (agrees_recount h g.nextBoundaryNumber) ho _

theorem Agrees.inputs_boundaryAfter (h : g.Agrees) {o : ElementId} (ho : o < g.size)
    {v : ElementId} (hv : v ≠ g.size) : (g.boundaryAfter scheme o).inputs v =
      (g.inputs v).map fun a => if a = o then g.size else a :=
  (agrees_recount h g.nextBoundaryNumber).inputs_insertAfter ho hv

theorem Agrees.slots_boundaryAfter_new (h : g.Agrees) {o : ElementId} (ho : o < g.size) :
    (g.boundaryAfter scheme o).slots g.size = [(0, o)] :=
  (agrees_recount h g.nextBoundaryNumber).slots_insertAfter_new ho

theorem Agrees.bypasses_boundaryAfter (h : g.Agrees) {o : ElementId} (ho : o < g.size) :
    Bypasses (g.boundaryAfter scheme o) g g.size o := by
  have hby := (agrees_recount h g.nextBoundaryNumber).bypasses_insertAfter
    (x := (g.drawBoundary scheme).1) ho
  exact ⟨hby.gone, hby.element?, hby.inputs, hby.ne, hby.slots⟩

variable {i : ScopeId} {sc : Scope}

theorem Agrees.slots_boundaryOn_new (h : g.Agrees) (hi : g.scope? i = some sc) :
    (g.boundaryOn scheme i).slots g.size = [(0, sc.origin)] := by
  have hi' : ({ g with boundaryCount := g.nextBoundaryNumber } : Graph).scope? i = some sc := hi
  exact (agrees_recount h g.nextBoundaryNumber).slots_insertOnScope_new hi'

theorem Shaped.bypasses_boundaryOn (hs : g.Shaped) (hi : g.scope? i = some sc)
    (ht : sc.target ≠ tail) : Bypasses (g.boundaryOn scheme i) g g.size sc.origin := by
  have hi' : ({ g with boundaryCount := g.nextBoundaryNumber } : Graph).scope? i = some sc := hi
  have hby := (shaped_recount hs g.nextBoundaryNumber).bypasses_insertOnScope
    (x := (g.drawBoundary scheme).1) hi' rfl ht
  exact ⟨hby.gone, hby.element?, hby.inputs, hby.ne, hby.slots⟩

theorem grows_boundaryOn (g : Graph) (scheme : String) (hi : g.scope? i = some sc) :
    Grows g (g.boundaryOn scheme i) (g.drawBoundary scheme).1 := by
  have hi' : ({ g with boundaryCount := g.nextBoundaryNumber } : Graph).scope? i = some sc := hi
  have hg := grows_insertOnScope (x := (g.drawBoundary scheme).1) hi' rfl
  exact ⟨hg.size, hg.element?, hg.boundary⟩

/-- A boundary takes a new place, also for a scope that was removed. -/
theorem size_boundaryOn (g : Graph) (scheme : String) (s : ScopeId) :
    (g.boundaryOn scheme s).size = g.size + 1 := by
  cases hs : g.scope? s with
  | some sc => exact (grows_boundaryOn g scheme hs).size
  | none =>
    have hdead : ({ g with boundaryCount := g.nextBoundaryNumber } : Graph).scope? s = none := hs
    show (({ g with boundaryCount := g.nextBoundaryNumber } : Graph).insertOnScope s
      (g.drawBoundary scheme).1).2.size = _
    simp only [insertOnScope, hdead, size_addElement]
    rfl

theorem agrees_boundaryOn (h : g.Agrees) (hi : g.containsScope i = true) :
    (g.boundaryOn scheme i).Agrees := by
  obtain ⟨sc, hsc⟩ := Option.isSome_iff_exists.1 hi
  exact agrees_insertOnScope (agrees_recount h g.nextBoundaryNumber) hsc _

theorem endsLive_boundaryOn (h : g.EndsLive) (hi : g.containsScope i = true) :
    (g.boundaryOn scheme i).EndsLive := by
  obtain ⟨sc, hsc⟩ := Option.isSome_iff_exists.1 hi
  have h' : ({ g with boundaryCount := g.nextBoundaryNumber } : Graph).EndsLive := h
  exact h'.insertOnScope hsc rfl

variable (hi : g.scope? i = some sc)
include hi

/-- The scopes after a boundary went in on the scope `i`. -/
theorem boundaryOn_cases {s : ScopeId} {sc' : Scope}
    (hs : (g.boundaryOn scheme i).scope? s = some sc') :
    (s = g.scopes.length ∧ sc' = ⟨g.size, sc.target, sc.ordinal, none⟩) ∨
      (s = i ∧ sc' = sc.toTarget g.size 0) ∨ (s ≠ i ∧ g.scope? s = some sc') := by
  have hi' : ({ g with boundaryCount := g.nextBoundaryNumber } : Graph).scope? i = some sc := hi
  exact insertOnScope_cases hi' hs

/-- What leads where after a boundary went in on the scope `i`. -/
theorem leads_boundaryOn {a c : ElementId} (hl : (g.boundaryOn scheme i).Leads a c) :
    (a = g.size ∧ c = sc.target) ∨ (a = sc.origin ∧ c = g.size) ∨ g.Leads a c := by
  have hi' : ({ g with boundaryCount := g.nextBoundaryNumber } : Graph).scope? i = some sc := hi
  exact leads_insertOnScope hi' hl

theorem scope?_boundaryOn_old {s : ScopeId} {tc : Scope} (hs : g.scope? s = some tc)
    (hne : s ≠ i) : (g.boundaryOn scheme i).scope? s = some tc := by
  have hi' : ({ g with boundaryCount := g.nextBoundaryNumber } : Graph).scope? i = some sc := hi
  exact scope?_insertOnScope_old hi' hs hne

theorem scope?_boundaryOn_new : (g.boundaryOn scheme i).scope? g.scopes.length =
    some ⟨g.size, sc.target, sc.ordinal, none⟩ := by
  have hi' : ({ g with boundaryCount := g.nextBoundaryNumber } : Graph).scope? i = some sc := hi
  exact scope?_insertOnScope_new hi'

theorem scope?_boundaryOn_self :
    (g.boundaryOn scheme i).scope? i = some (sc.toTarget g.size 0) := by
  have hi' : ({ g with boundaryCount := g.nextBoundaryNumber } : Graph).scope? i = some sc := hi
  exact scope?_insertOnScope_self hi'

theorem Ordered.boundaryOn (h : g.Ordered) : (g.boundaryOn scheme i).Ordered := by
  have hi' : ({ g with boundaryCount := g.nextBoundaryNumber } : Graph).scope? i = some sc := hi
  have hlive : g.containsScope i = true := Option.isSome_iff_exists.2 ⟨sc, hi⟩
  have hacyc : ({ g with boundaryCount := g.nextBoundaryNumber } : Graph).Acyclic := h.acyclic
  exact ⟨agrees_boundaryOn scheme h.agrees hlive, endsLive_boundaryOn scheme h.ends hlive,
    (agrees_recount h.agrees g.nextBoundaryNumber).acyclic_insertOnScope hi' hacyc⟩

theorem Agrees.slots_boundaryOn (h : g.Agrees) {e : ElementId} (he : e ≠ g.size) :
    (((g.boundaryOn scheme i).slots e).map (Prod.map id (instead g.size sc.origin))).Perm
      (g.slots e) := by
  have hi' : ({ g with boundaryCount := g.nextBoundaryNumber } : Graph).scope? i = some sc := hi
  exact (agrees_recount h g.nextBoundaryNumber).slots_insertOnScope hi' he

end Drawn

/-! ## Boundaries on several scopes -/

/-- What a boundary on one more scope makes of the scopes that are cut so far, it makes of all
of them in the end. A scope that is still to be cut stays as it is until its turn. -/
theorem cutScopes_induction_done {P : (ScopeId → Prop) → Graph → Prop} {Q : Scope → Prop}
    {scheme : String} {cut : IdSet} (hcut : ∀ s ∈ cut, ∃ sc, g.scope? s = some sc ∧ Q sc)
    (hg : P (fun _ => False) g)
    (hstep : ∀ done a i sc, P done a → a.scope? i = some sc → Q sc →
      P (fun s => done s ∨ s = i) (a.boundaryOn scheme i)) :
    P (· ∈ cut) (g.cutScopes scheme cut) := by
  obtain ⟨l, hl⟩ := cut
  have hrun : ∀ (l : List ScopeId) (done : ScopeId → Prop) (a : Graph), l.Pairwise (· < ·) →
      (∀ s ∈ l, ∃ sc, a.scope? s = some sc ∧ Q sc) → P done a →
        P (fun s => done s ∨ s ∈ l) (l.foldl (fun a s => a.boundaryOn scheme s) a) := by
    intro l
    induction l with
    | nil => intro done a _ _ ha; simpa using ha
    | cons i rest ih =>
      intro done a hl hcut ha
      obtain ⟨hlt, hrest⟩ := List.pairwise_cons.1 hl
      obtain ⟨ic, hi, hic⟩ := hcut i List.mem_cons_self
      have hnext := ih _ _ hrest (fun s hs => ?_) (hstep done a i ic ha hi hic)
      · simpa only [List.mem_cons, or_assoc, List.foldl_cons] using hnext
      · obtain ⟨sc, hsc, hq⟩ := hcut s (List.mem_cons_of_mem i hs)
        exact ⟨sc, scope?_boundaryOn_old scheme hi hsc (Nat.ne_of_gt (hlt s hs)), hq⟩
  have hall := hrun l _ g hl hcut hg
  simp only [false_or] at hall
  exact hall

/-- What a boundary on a scope keeps holds after boundaries on several scopes. -/
theorem cutScopes_induction {P : Graph → Prop} {Q : Scope → Prop} {scheme : String} {cut : IdSet}
    (hcut : ∀ s ∈ cut, ∃ sc, g.scope? s = some sc ∧ Q sc) (hg : P g)
    (hstep : ∀ a i sc, P a → a.scope? i = some sc → Q sc → P (a.boundaryOn scheme i)) :
    P (g.cutScopes scheme cut) :=
  cutScopes_induction_done (P := fun _ => P) hcut hg fun _ => hstep

/-- A rule may put a boundary on the scope: it neither starts at `head` nor ends at
`tail`. -/
def Cuttable (g : Graph) (s : ScopeId) : Prop :=
  ∃ sc, g.scope? s = some sc ∧ sc.origin ≠ head ∧ sc.target ≠ tail

end Graph
end Dataflow
