import Mathlib.Logic.Relation
import Dataflow.Proofs.Flow.Insertion
import Dataflow.Proofs.Flow.Relabelling
import Dataflow.Proofs.Flow.Removal

/-!
# The edits that the rules are made of

Whatever a rule does to a graph is a chain of edits of six kinds: a name is drawn, a
boundary goes in behind an element or on a scope, a pipe is spliced out, a boundary
gives way to the tap behind it, fields are resolved. What each of them keeps is proved
once, and a chain of edits keeps it by induction.

Results:

* `Edit.keeps`, `Edits.keeps`: the graph stays well-shaped and computes the same;
* `Edit.leads`: where a scope of the edited graph comes from;
* `Edits.induction`: what every edit keeps holds after a chain of them;
* `edits_boundaryAfter`, `edits_boundaryOn`: boundaries as edits;
* `Shapings.edits`, `Shapings.induction`: the changes by rules that shape a graph, each with
  the name that it draws.
-/
namespace Dataflow

universe u

open Relation

namespace Graph

variable {scheme : String} {rules : TapRules} {g g' g'' : Graph}

/-- What every rule keeps of a graph. -/
def Keeps (g g' : Graph) : Prop := g'.Shaped ∧ Rewrites.{u} g g'

theorem Keeps.refl (hs : g.Shaped) : Keeps.{u} g g := ⟨hs, .refl g⟩

theorem Keeps.trans (hs : g.Shaped) (h : Keeps.{u} g g') (h' : Keeps.{u} g' g'') :
    Keeps.{u} g g'' :=
  ⟨h'.1, h.2.trans hs h'.2⟩

/-! ## What a rewriting says about kinds -/

/-- What is left is of the kind that it was of, if the question does not tell one
boundary from another. -/
theorem Rewrites.hasKind_eq (h : Rewrites.{u} g g') {p : Kind → Bool} {b : Bool}
    (hp : ∀ t, p (.boundary t) = b) {e : ElementId} (he : e < g.size)
    (hc : g'.contains e = true) : g'.hasKind p e = g.hasKind p e := by
  obtain ⟨x', hx'⟩ := contains_iff.1 hc
  obtain ⟨x, hx, -, hk⟩ := h.left e x' he hx'
  exact hasKind_eq_of_alike hp hx hx' hk

/-- Only boundaries are new. -/
theorem Rewrites.hasKind_of (h : Rewrites.{u} g g') {p : Kind → Bool}
    (hp : ∀ t, p (.boundary t) = false) {e : ElementId} (he : g'.hasKind p e = true) :
    g.hasKind p e = true := by
  have hc := contains_of_hasKind he
  rcases Nat.lt_or_ge e g.size with hlt | hge
  · rw [← h.hasKind_eq hp hlt hc]
    exact he
  · have hb := h.fresh e hge hc
    have := hasKind_eq_false (q := p) (fun k hk => by
      obtain ⟨t, rfl⟩ := Kind.isBoundary_iff.1 hk
      exact hp t) hb
    rw [this] at he
    cases he

/-! ## The edits -/

/-- One edit of a rule that draws boundaries of the scheme and asks the tap rules. -/
inductive Edit (scheme : String) (rules : TapRules) (g : Graph) : Graph → Prop
  /-- A name for a boundary is drawn. -/
  | recount (n : Nat) : Edit scheme rules g { g with boundaryCount := n }
  /-- A boundary goes in behind an element that processes. -/
  | after {id : ElementId} (name place : String)
      (hid : g.hasKind Kind.isProcessing id = true) :
      Edit scheme rules g (g.insertAfter id ⟨name, .boundary (.temporary scheme place)⟩).2
  /-- A boundary goes in on a scope. -/
  | on {i : ScopeId} {sc : Scope} (name place : String) (hi : g.scope? i = some sc)
      (ho : sc.origin ≠ head) (ht : sc.target ≠ tail) :
      Edit scheme rules g (g.insertOnScope i ⟨name, .boundary (.temporary scheme place)⟩).2
  /-- A pipe with one input is spliced out. -/
  | splice {p : ElementId} {i : ScopeId} {sc : Scope} (ha : g.arrivals p = [i])
      (hi : g.scope? i = some sc) (hp : g.hasKind Kind.isPipe p = true) :
      Edit scheme rules g (g.removePassThrough p).2
  /-- A boundary gives way to a tap that can be read back. -/
  | replace {b t : ElementId} {i : ScopeId} {sc : Scope} (hr : g.Replaceable b t i sc)
      (hsym : ∀ tap, g.kind? t = some (.sink tap) → rules.symmetrical tap = true) :
      Edit scheme rules g (g.replaceElement b t)
  /-- Fields are resolved. -/
  | resolve : Edit scheme rules g g.resolveFields.2

theorem Edit.keeps (hs : g.Shaped) (h : Edit scheme rules g g') : Keeps.{u} g g' := by
  cases h with
  | recount n => exact ⟨shaped_recount hs n, rewrites_recount g n⟩
  | after name place hid =>
    have hlive := contains_of_hasKind hid
    have hsink := hasKind_eq_false (q := Kind.isSink) (fun _ => Kind.isSink_of_isProcessing) hid
    exact ⟨shaped_insertAfter hs rfl hlive (hs.ne_extent (fun _ => rfl) hid) hsink,
      rewrites_insertAfter hs rfl hlive⟩
  | on name place hi ho ht =>
    exact ⟨shaped_insertOnScope hi hs rfl ho ht, rewrites_insertOnScope hi hs rfl ht⟩
  | splice ha hi hp =>
    exact ⟨shaped_removePassThrough ha hi hs hp, rewrites_removePassThrough ha hi hs hp⟩
  | replace hr _ => exact ⟨shaped_replaceElement hr hs, rewrites_replaceElement hr hs⟩
  | resolve =>
    have hrel := relabels_resolveFields g
    exact ⟨hrel.shaped hs, hrel.rewrites hs⟩

/-- A scope of the edited graph was there before, or goes past a pipe that was there, or
touches a tap. A sink from which it leads on was read back before, or can be. -/
theorem Edit.leads (hs : g.Shaped) (h : Edit scheme rules g g') {a c : ElementId}
    (hl : g'.Leads a c) :
    g.Leads a c ∨ (∃ p, g.hasKind Kind.isPipe p = true ∧ g.Leads a p ∧ g.Leads p c) ∨
      (g'.hasKind Kind.passesOn c = true ∧
        (g.hasKind Kind.isSink a = true → ∃ c', c' ≠ tail ∧ g.Leads a c')) ∨
      (g'.hasKind Kind.passesOn a = true ∧
        ∀ tap, g'.kind? a = some (.sink tap) → rules.symmetrical tap = true) := by
  cases h with
  | recount n => exact .inl hl
  | @after id name place hid =>
    have hnew := (grows_insertAfter (g := g) (x := ⟨name, .boundary (.temporary scheme place)⟩)
      rfl id).element?_new
    rcases hs.agrees.leads_insertAfter.1 hl with ⟨rfl, rfl⟩ | ⟨rfl, -⟩ | ⟨-, hl'⟩
    · refine .inr (.inr (.inl ⟨hasKind_iff.2 ⟨_, hnew, rfl⟩, fun hsink => ?_⟩))
      rw [hasKind_eq_false (q := Kind.isSink) (fun _ => Kind.isSink_of_isProcessing) hid] at hsink
      cases hsink
    · refine .inr (.inr (.inr ⟨hasKind_iff.2 ⟨_, hnew, rfl⟩, fun tap htap => ?_⟩))
      rw [kind?, hnew] at htap
      cases htap
    · exact .inl hl'
  | on name place hi ho ht =>
    have hnew := (grows_insertOnScope (x := ⟨name, .boundary (.temporary scheme place)⟩)
      hi rfl).element?_new
    rcases leads_insertOnScope hi hl with ⟨rfl, -⟩ | ⟨rfl, rfl⟩ | hl'
    · refine .inr (.inr (.inr ⟨hasKind_iff.2 ⟨_, hnew, rfl⟩, fun tap htap => ?_⟩))
      rw [kind?, hnew] at htap
      cases htap
    · exact .inr (.inr (.inl ⟨hasKind_iff.2 ⟨_, hnew, rfl⟩, fun _ => ⟨_, ht, _, _, hi, rfl, rfl⟩⟩))
    · exact .inl hl'
  | splice ha hi hp =>
    have hne := hs.origin_ne_of_arrivals ha hi
    rcases hs.agrees.leads_removePassThrough ha hi (contains_of_hasKind hp) hne hl with
      ⟨-, ⟨rfl, hl'⟩ | ⟨-, hl'⟩⟩
    · exact .inr (.inl ⟨_, hp, ⟨_, _, hi, rfl, hs.agrees.target_eq_of_arrivals ha hi⟩, hl'⟩)
    · exact .inl hl'
  | @replace b t _ _ hr hsym =>
    have hg := shrinks_replaceElement g b t
    have htb := (hr.ne hs).1
    have ht : (g.replaceElement b t).hasKind Kind.passesOn t = true := by
      rw [hg.hasKind_of_ne htb]
      exact hr.tap
    rcases hr.leads_cases hs hl with ⟨rfl, rfl⟩ | ⟨-, -, ⟨rfl, -⟩ | ⟨-, hl'⟩⟩
    · exact .inr (.inr (.inl ⟨ht, fun _ =>
        ⟨b, (hs.ne_extent (fun _ => rfl) hr.boundary).2, hr.leads_feed⟩⟩))
    · refine .inr (.inr (.inr ⟨ht, fun tap htap => hsym tap ?_⟩))
      rw [kind?, hg.element?_of_ne htb] at htap
      exact htap
    · exact .inl hl'
  | resolve => exact .inl ((relabels_resolveFields g).leads hl)

/-! ## Chains of edits -/

/-- Any number of edits, one after the other. -/
def Edits (scheme : String) (rules : TapRules) : Graph → Graph → Prop :=
  ReflTransGen (Edit scheme rules)

/-- What every edit of a well-shaped graph keeps holds after a chain of them. -/
theorem Edits.induction {P : Graph → Prop} (h : Edits scheme rules g g') (hs : g.Shaped)
    (hg : P g) (hstep : ∀ a b, a.Shaped → P a → Edit scheme rules a b → P b) :
    g'.Shaped ∧ P g' := by
  induction h with
  | refl => exact ⟨hs, hg⟩
  | tail _ hab ih => exact ⟨(Edit.keeps.{0} ih.1 hab).1, hstep _ _ ih.1 ih.2 hab⟩

theorem Edits.keeps (h : Edits scheme rules g g') (hs : g.Shaped) : Keeps.{u} g g' :=
  (h.induction (P := Keeps.{u} g) hs (.refl hs) fun _ _ ha hk hab => hk.trans hs (hab.keeps ha)).2

theorem Edits.shaped (h : Edits scheme rules g g') (hs : g.Shaped) : g'.Shaped :=
  (Edits.keeps.{0} h hs).1

/-! ## Boundaries as edits -/

theorem edits_boundaryAfter {id : ElementId} (hid : g.hasKind Kind.isProcessing id = true) :
    Edits scheme rules g (g.boundaryAfter scheme id) :=
  .tail (.single (.recount g.nextBoundaryNumber)) (.after _ _ hid)

theorem edits_boundaryOn {i : ScopeId} (hi : g.Cuttable i) :
    Edits scheme rules g (g.boundaryOn scheme i) := by
  obtain ⟨sc, hsc, ho, ht⟩ := hi
  exact .tail (.single (.recount g.nextBoundaryNumber)) (.on _ _ hsc ho ht)

/-! ## Changes of the shape -/

/-- One change by a rule that shapes a graph: a boundary goes in under the name that is drawn
for it, or a pipe is spliced out. -/
inductive Shapes (scheme : String) (g : Graph) : Graph → Prop
  | after {id : ElementId} (hid : g.hasKind Kind.isProcessing id = true) :
      Shapes scheme g (g.boundaryAfter scheme id)
  | on {i : ScopeId} (hi : g.Cuttable i) : Shapes scheme g (g.boundaryOn scheme i)
  | splice {p : ElementId} {i : ScopeId} {sc : Scope} (ha : g.arrivals p = [i])
      (hi : g.scope? i = some sc) (hp : g.hasKind Kind.isPipe p = true) :
      Shapes scheme g (g.removePassThrough p).2

/-- Any number of such changes, one after the other. -/
def Shapings (scheme : String) : Graph → Graph → Prop := ReflTransGen (Shapes scheme)

theorem Shapes.edits (h : Shapes scheme g g') : Edits scheme rules g g' := by
  cases h with
  | after hid => exact edits_boundaryAfter hid
  | on hi => exact edits_boundaryOn hi
  | splice ha hi hp => exact .single (.splice ha hi hp)

theorem Shapings.edits (h : Shapings scheme g g') : Edits scheme rules g g' := by
  induction h with
  | refl => exact .refl
  | tail _ hab ih => exact ih.trans hab.edits

/-- What every change of a well-shaped graph keeps holds after a chain of them. -/
theorem Shapings.induction {P : Graph → Prop} (h : Shapings scheme g g') (hs : g.Shaped)
    (hg : P g) (hstep : ∀ a b, a.Shaped → P a → Shapes scheme a b → P b) :
    g'.Shaped ∧ P g' := by
  induction h with
  | refl => exact ⟨hs, hg⟩
  | tail _ hab ih =>
    have hedits : Edits scheme .byScheme _ _ := hab.edits
    exact ⟨hedits.shaped ih.1, hstep _ _ ih.1 ih.2 hab⟩

theorem shapings_cutScopes {cut : IdSet} (hcut : ∀ s ∈ cut, g.Cuttable s) :
    Shapings scheme g (g.cutScopes scheme cut) :=
  cutScopes_induction (P := Shapings scheme g) hcut .refl fun _ _ sc h hsc hends =>
    .tail h (.on ⟨sc, hsc, hends⟩)

end Graph
end Dataflow
