import Mathlib.Data.List.Nodup
import Dataflow.Proofs.Flow.Relabelling
import Dataflow.Proofs.Graph.Checked
import Dataflow.Proofs.Topology.Reach

/-!
# Sessions on a graph

A graph is built and changed by fourteen commands. A command is admitted where the ids
that it names are live and it takes out no extent. On an intact graph an admitted command
finds every reference that it follows, leaves an intact graph, takes out or changes what
it names and what hangs on that, and brings nothing back. That an element feeds itself,
that scopes run side by side or that an element replaces itself makes no difference.

Results:

* `Command.perform_eq_ok`: an admitted command goes through, and what it does;
* `consistent_of_admitted`: the arenas and the adjacency lists along every session;
* `find_nextBoundaryName`: drawing a name for a boundary ends.
-/
namespace Dataflow

namespace Graph

/-- What can be done to a graph. -/
inductive Command where
  | addElement (e : Element)
  | addScope (origin target : ElementId) (ordinal : Nat)
  | connect (origin target : ElementId)
  | addSource (name : String) (tap : Tap)
  | addSink (name : String) (tap : Tap) (input : ElementId)
  | addStage (name : String) (kind : Kind) (inputs : List ElementId)
  | removeScope (id : ScopeId)
  | removeElement (id : ElementId)
  | insertAfter (id : ElementId) (e : Element)
  | insertOnScope (id : ScopeId) (e : Element)
  | replaceElement (old replacement : ElementId)
  | removePassThrough (id : ElementId)
  | nextBoundaryName
  | clearFields

namespace Command

/-- Carries out a command; every reference on the way must resolve. -/
def perform (g : Graph) : Command → Except DeadRef Graph
  | addElement e => .ok (g.addElement e).2
  | addScope origin target ordinal => (Checked.addScope g origin target ordinal).map Prod.snd
  | connect origin target => (Checked.connect g origin target).map Prod.snd
  | addSource name tap => (Checked.addSource g name tap).map Prod.snd
  | addSink name tap input => (Checked.addSink g name tap input).map Prod.snd
  | addStage name kind inputs => (Checked.addStage g name kind inputs).map Prod.snd
  | removeScope id => (Checked.removeScope g id).map Prod.snd
  | removeElement id => (Checked.removeElement g id).map Prod.snd
  | insertAfter id e => (Checked.insertAfter g id e).map Prod.snd
  | insertOnScope id e => (Checked.insertOnScope g id e).map Prod.snd
  | replaceElement old replacement => Checked.replaceElement g old replacement
  | removePassThrough id => (Checked.removePassThrough g id).map Prod.snd
  | nextBoundaryName => .ok g.nextBoundaryName.2
  | clearFields => .ok g.clearFields

/-- Carries out commands one after the other. -/
def performAll (g : Graph) (ops : List Command) : Except DeadRef Graph :=
  ops.foldlM perform g

/-- The ids that the command names are live, and it takes out no extent. -/
def Admits (g : Graph) : Command → Prop
  | addElement _ | addSource _ _ | nextBoundaryName | clearFields => True
  | addScope origin target _ | connect origin target =>
    g.contains origin = true ∧ g.contains target = true
  | addSink _ _ input => g.contains input = true
  | addStage _ _ inputs => ∀ e ∈ inputs, g.contains e = true
  | removeScope id | insertOnScope id _ => g.containsScope id = true
  | insertAfter id _ => g.contains id = true
  | removeElement id => g.contains id = true ∧ isExtent id = false
  | replaceElement old replacement =>
    g.contains old = true ∧ isExtent old = false ∧ g.contains replacement = true
  | removePassThrough id =>
    g.contains id = true ∧ (isExtent id = true → (g.arrivals id).length ≠ 1)

/-- Each command is admitted where its turn comes. -/
def AdmitsAll (g : Graph) : List Command → Prop
  | [] => True
  | op :: rest => Admits g op ∧ ∀ g', perform g op = .ok g' → AdmitsAll g' rest

instance (g : Graph) (c : Command) : Decidable (c.Admits g) :=
  match c with
  | addElement _ | addSource _ _ | nextBoundaryName | clearFields => inferInstanceAs (Decidable True)
  | addScope _ _ _ | connect _ _ | removeElement _ => inferInstanceAs (Decidable (_ ∧ _))
  | addSink _ _ _ | removeScope _ | insertOnScope _ _ | insertAfter _ _ =>
    inferInstanceAs (Decidable (_ = true))
  | addStage _ _ inputs => inferInstanceAs (Decidable (∀ e ∈ inputs, g.contains e = true))
  | replaceElement _ _ => inferInstanceAs (Decidable (_ ∧ _ ∧ _))
  | removePassThrough _ => inferInstanceAs (Decidable (_ ∧ (_ → _)))

instance decidableAdmitsAll : (g : Graph) → (cs : List Command) → Decidable (AdmitsAll g cs)
  | _, [] => .isTrue trivial
  | g, c :: rest =>
    match h : perform g c with
    | .error _ => decidable_of_iff (c.Admits g)
      ⟨fun ha => ⟨ha, fun g' hg' => by rw [h] at hg'; cases hg'⟩, And.left⟩
    | .ok g' =>
      have := decidableAdmitsAll g' rest
      decidable_of_iff (c.Admits g ∧ AdmitsAll g' rest)
        ⟨fun ⟨ha, hr⟩ => ⟨ha, fun g'' hg => by rw [h] at hg; cases hg; exact hr⟩,
          fun ⟨ha, hr⟩ => ⟨ha, hr g' h⟩⟩

/-- The element that the command takes out. -/
def TakesOut (g : Graph) : Command → ElementId → Prop
  | removeElement id, e | replaceElement id _, e => e = id
  | removePassThrough id, e => e = id ∧ (g.arrivals id).length = 1
  | _, _ => False

/-- The scopes that the command takes out or changes. -/
def Touches (g : Graph) : Command → ScopeId → Scope → Prop
  | removeScope id, s, _ | insertOnScope id _, s, _ => s = id
  | insertAfter id _, _, sc => sc.origin = id
  | removeElement id, _, sc | replaceElement id _, _, sc => sc.origin = id ∨ sc.target = id
  | removePassThrough id, _, sc =>
    (g.arrivals id).length = 1 ∧ (sc.origin = id ∨ sc.target = id)
  | clearFields, _, sc => sc.fields ≠ none
  | _, _, _ => False

end Command

variable {g g' g'' : Graph}

/-- The arenas and the adjacency lists tell the same story: every live scope goes from a
live element to a live element and stands once in the list of each, and no list holds
anything else. -/
structure Consistent (g : Graph) : Prop where
  ends : ∀ s sc, g.scope? s = some sc →
    g.contains sc.origin = true ∧ g.contains sc.target = true
  outgoing_count : ∀ s sc, g.scope? s = some sc → ∀ e,
    (g.outgoing e).count s = if e = sc.origin then 1 else 0
  arrivals_count : ∀ s sc, g.scope? s = some sc → ∀ e,
    (g.arrivals e).count s = if e = sc.target then 1 else 0
  listed : ∀ e s, s ∈ g.outgoing e ∨ s ∈ g.arrivals e → g.containsScope s = true

/-- A consistent graph that still has its extents. -/
structure Intact (g : Graph) : Prop where
  agrees : g.Agrees
  ends : ∀ s sc, g.scope? s = some sc →
    g.contains sc.origin = true ∧ g.contains sc.target = true
  head_live : g.contains head = true
  tail_live : g.contains tail = true

/-- Nothing that was removed in `g` is live in `g'`, and no id is given out twice. -/
structure Outlives (g g' : Graph) : Prop where
  size_le : g.size ≤ g'.size
  scopes_le : g.scopes.length ≤ g'.scopes.length
  element : ∀ e, e < g.size → g'.contains e = true → g.contains e = true
  scope : ∀ s, s < g.scopes.length → g'.containsScope s = true → g.containsScope s = true

theorem count_eq_ite {l : List ScopeId} (hl : l.Nodup) {s : ScopeId} {p : Prop} [Decidable p]
    (hs : s ∈ l ↔ p) : l.count s = if p then 1 else 0 := by
  split
  · next hp => exact List.count_eq_one_of_mem hl (hs.2 hp)
  · next hp => exact List.count_eq_zero.2 fun hmem => hp (hs.1 hmem)

theorem Intact.consistent (h : g.Intact) : g.Consistent where
  ends := h.ends
  outgoing_count s sc hsc e := by
    refine count_eq_ite (h.agrees.outgoing_nodup e) ?_
    rw [h.agrees.outgoing_iff]
    simp [hsc, eq_comm]
  arrivals_count s sc hsc e := by
    refine count_eq_ite (h.agrees.arrivals_nodup e) ?_
    rw [h.agrees.arrivals_iff]
    simp [hsc, eq_comm]
  listed e s hs := by
    have hlive : ∃ sc, g.scope? s = some sc := by
      rcases hs with hs | hs
      · obtain ⟨sc, hsc, -⟩ := (h.agrees.outgoing_iff e s).1 hs
        exact ⟨sc, hsc⟩
      · obtain ⟨sc, hsc, -⟩ := (h.agrees.arrivals_iff e s).1 hs
        exact ⟨sc, hsc⟩
    exact Checked.containsScope_iff.2 hlive

theorem intact_empty (name : String) : (empty name).Intact where
  agrees := agrees_empty name
  ends s sc hsc := by simp [scope?, empty] at hsc
  head_live := rfl
  tail_live := rfl

theorem Outlives.refl (g : Graph) : Outlives g g :=
  ⟨Nat.le_refl _, Nat.le_refl _, fun _ _ h => h, fun _ _ h => h⟩

theorem Outlives.trans (h : Outlives g g') (h' : Outlives g' g'') : Outlives g g'' where
  size_le := Nat.le_trans h.size_le h'.size_le
  scopes_le := Nat.le_trans h.scopes_le h'.scopes_le
  element e he hc := h.element e he (h'.element e (Nat.lt_of_lt_of_le he h.size_le) hc)
  scope s hs hc := h.scope s hs (h'.scope s (Nat.lt_of_lt_of_le hs h.scopes_le) hc)

/-- What a command does to an intact graph. -/
structure Command.Does (c : Command) (g g' : Graph) : Prop where
  intact : g'.Intact
  outlives : Outlives g g'
  /-- What it takes out is gone. -/
  gone : ∀ e, c.TakesOut g e → g'.contains e = false
  /-- Every other element keeps its id and its contents. -/
  element : ∀ e x, g.element? e = some x → ¬ c.TakesOut g e → g'.element? e = some x
  /-- Every scope that it does not touch keeps its id and its contents. -/
  scope : ∀ s sc, g.scope? s = some sc → ¬ c.Touches g s sc → g'.scope? s = some sc

/-! ## Commands that add -/

/-- `g'` has everything that `g` has at the same ids. -/
structure Extends (g g' : Graph) : Prop where
  size_le : g.size ≤ g'.size
  scopes_le : g.scopes.length ≤ g'.scopes.length
  element? : ∀ e, e < g.size → g'.element? e = g.element? e
  scope? : ∀ s, s < g.scopes.length → g'.scope? s = g.scope? s

theorem Extends.refl (g : Graph) : Extends g g :=
  ⟨Nat.le_refl _, Nat.le_refl _, fun _ _ => rfl, fun _ _ => rfl⟩

theorem Extends.trans (h : Extends g g') (h' : Extends g' g'') : Extends g g'' where
  size_le := Nat.le_trans h.size_le h'.size_le
  scopes_le := Nat.le_trans h.scopes_le h'.scopes_le
  element? e he := (h'.element? e (Nat.lt_of_lt_of_le he h.size_le)).trans (h.element? e he)
  scope? s hs := (h'.scope? s (Nat.lt_of_lt_of_le hs h.scopes_le)).trans (h.scope? s hs)

theorem Extends.contains (h : Extends g g') {e : ElementId} (he : g.contains e = true) :
    g'.contains e = true := by
  rw [Graph.contains, h.element? e (lt_size_of_contains he)]
  exact he

theorem Extends.outlives (h : Extends g g') : Outlives g g' where
  size_le := h.size_le
  scopes_le := h.scopes_le
  element e he hc := by rwa [Graph.contains, h.element? e he] at hc
  scope s hs hc := by rwa [containsScope, h.scope? s hs] at hc

/-- A command that takes nothing out and keeps the rest does what it may. -/
theorem Extends.does {c : Command} (h : Extends g g') (hi : g'.Intact)
    (htakes : ∀ e, ¬ c.TakesOut g e) : c.Does g g' where
  intact := hi
  outlives := h.outlives
  gone e he := absurd he (htakes e)
  element e x hx _ := by
    rw [h.element? e (lt_size_of_contains (Option.isSome_iff_exists.2 ⟨x, hx⟩)), hx]
  scope s sc hsc _ := by rw [h.scope? s (lt_scopes_of_scope? hsc), hsc]

theorem extends_addElement (g : Graph) (x : Element) : Extends g (g.addElement x).2 where
  size_le := by simp
  scopes_le := by simp
  element? e he := by rw [element?_addElement, if_neg (Nat.ne_of_lt he)]
  scope? _ _ := rfl

theorem extends_addScope (g : Graph) (o t : ElementId) (k : Nat) :
    Extends g (g.addScope o t k).2 where
  size_le := by simp
  scopes_le := by simp
  element? e _ := element?_addScope e
  scope? s hs := by rw [scope?_addScope, if_neg (Nat.ne_of_lt hs)]

theorem Intact.addElement (h : g.Intact) (x : Element) : (g.addElement x).2.Intact := by
  have hx := extends_addElement g x
  exact ⟨agrees_addElement h.agrees x, fun s sc hsc =>
    ⟨hx.contains (h.ends s sc hsc).1, hx.contains (h.ends s sc hsc).2⟩,
    hx.contains h.head_live, hx.contains h.tail_live⟩

theorem Intact.addScope (h : g.Intact) {o t : ElementId} (k : Nat) (ho : g.contains o = true)
    (ht : g.contains t = true) : (g.addScope o t k).2.Intact := by
  have hx := extends_addScope g o t k
  refine ⟨agrees_addScope h.agrees (lt_size_of_contains ho) (lt_size_of_contains ht),
    fun s sc hsc => ?_, hx.contains h.head_live, hx.contains h.tail_live⟩
  rw [scope?_addScope] at hsc
  split at hsc
  · cases hsc
    exact ⟨hx.contains ho, hx.contains ht⟩
  · exact ⟨hx.contains (h.ends s sc hsc).1, hx.contains (h.ends s sc hsc).2⟩

/-- Every input of a stage is one more scope. -/
theorem Intact.addInputs (h : g.Intact) {id : ElementId} (hid : g.contains id = true)
    {inputs : List ElementId} (hinputs : ∀ e ∈ inputs, g.contains e = true) :
    (g.addInputs id inputs).Intact ∧ Extends g (g.addInputs id inputs) := by
  have hloop : ∀ (l : List (ElementId × Nat)) (g' : Graph), g'.Intact → Extends g g' →
      (∀ p ∈ l, g.contains p.1 = true) →
      (l.foldl (fun g p => (g.addScope p.1 id p.2).2) g').Intact ∧
        Extends g (l.foldl (fun g p => (g.addScope p.1 id p.2).2) g') := by
    intro l
    induction l with
    | nil => intro g' hi hx _; exact ⟨hi, hx⟩
    | cons p rest ih =>
      intro g' hi hx hl
      exact ih _ (hi.addScope p.2 (hx.contains (hl p List.mem_cons_self)) (hx.contains hid))
        (hx.trans (extends_addScope g' p.1 id p.2)) fun q hq => hl q (List.mem_cons_of_mem p hq)
  exact hloop inputs.zipIdx g h (.refl g) fun p hp =>
    hinputs p.1 (List.fst_mem_of_mem_zipIdx hp)

theorem contains_addElement_new (g : Graph) (x : Element) :
    (g.addElement x).2.contains g.size = true := by
  rw [contains, element?_addElement, if_pos rfl]
  rfl

/-! ## Commands that remove -/

theorem Intact.removeScope (h : g.Intact) (i : ScopeId) : (g.removeScope i).2.Intact := by
  have hc := (samePlaces_removeScope g i).contains
  refine ⟨agrees_removeScope h.agrees i, fun s sc hsc => ?_, ?_, ?_⟩
  · rw [scope?_removeScope] at hsc
    split at hsc
    · cases hsc
    · rw [hc, hc]
      exact h.ends s sc hsc
  · rw [hc]; exact h.head_live
  · rw [hc]; exact h.tail_live

theorem does_removeScope (hi : g.Intact) (i : ScopeId) :
    (Command.removeScope i).Does g (g.removeScope i).2 := by
  have hm := samePlaces_removeScope g i
  refine ⟨hi.removeScope i, ⟨Nat.le_of_eq hm.size.symm, Nat.le_of_eq hm.scopes.symm,
    fun e _ hc => hm.contains e ▸ hc, fun s _ hc => ?_⟩, fun _ h => h.elim,
    fun e x hx _ => (hm.element? e).trans hx, fun s sc hsc hno => ?_⟩
  · rw [containsScope, scope?_removeScope] at hc
    split at hc
    · cases hc
    · exact hc
  · have hne : s ≠ i := hno
    rw [scope?_removeScope, if_neg hne, hsc]

/-- `g'` is `g` without the element `id`: each scope at it is gone or goes elsewhere. -/
structure Takes (id : ElementId) (g g' : Graph) : Prop where
  agrees : g'.Agrees
  size : g'.size = g.size
  scopes : g'.scopes.length = g.scopes.length
  element? : ∀ e, g'.element? e = if e = id then none else g.element? e
  left : ∀ s sc', g'.scope? s = some sc' → g.containsScope s = true ∧
    (sc'.origin ≠ id ∧ sc'.target ≠ id) ∧
      g.contains sc'.origin = true ∧ g.contains sc'.target = true
  kept : ∀ s sc, g.scope? s = some sc → sc.origin ≠ id → sc.target ≠ id → g'.scope? s = some sc

theorem Takes.contains {id e : ElementId} (h : Takes id g g') (he : g.contains e = true)
    (hne : e ≠ id) : g'.contains e = true := by
  rw [Graph.contains, h.element?, if_neg hne]
  exact he

theorem Takes.does {id : ElementId} {c : Command} (h : Takes id g g') (hi : g.Intact)
    (hid : isExtent id = false) (htakes : ∀ e, c.TakesOut g e ↔ e = id)
    (htouches : ∀ s sc, sc.origin = id ∨ sc.target = id → c.Touches g s sc) : c.Does g g' where
  intact := by
    refine ⟨h.agrees, fun s sc hsc => ?_, ?_, ?_⟩
    · obtain ⟨-, ⟨ho, ht⟩, hco, hct⟩ := h.left s sc hsc
      exact ⟨h.contains hco ho, h.contains hct ht⟩
    · exact h.contains hi.head_live fun he => by rw [← he] at hid; cases hid
    · exact h.contains hi.tail_live fun he => by rw [← he] at hid; cases hid
  outlives := by
    refine ⟨Nat.le_of_eq h.size.symm, Nat.le_of_eq h.scopes.symm, fun e _ hc => ?_,
      fun s _ hc => ?_⟩
    · rw [Graph.contains, h.element?] at hc
      split at hc
      · cases hc
      · exact hc
    · obtain ⟨sc, hsc⟩ := Checked.containsScope_iff.1 hc
      exact (h.left s sc hsc).1
  gone e he := by
    rw [Graph.contains, h.element?, if_pos ((htakes e).1 he)]
    rfl
  element e x hx hne := by
    rw [h.element?, if_neg fun he => hne ((htakes e).2 he)]
    exact hx
  scope s sc hsc hno :=
    h.kept s sc hsc (fun ho => hno (htouches s sc (.inl ho)))
      fun ht => hno (htouches s sc (.inr ht))

theorem length_scopes_removeScopes (ids : List ScopeId) :
    (g.removeScopes ids).scopes.length = g.scopes.length := by
  induction ids generalizing g with
  | nil => rfl
  | cons i rest ih => exact (ih (g := (g.removeScope i).2)).trans (length_scopes_removeScope i)

theorem length_scopes_removeElement (id : ElementId) :
    (g.removeElement id).2.scopes.length = g.scopes.length := by
  simp only [removeElement]
  split
  · rfl
  · rw [scopes_modifyNode, length_scopes_removeScopes]

theorem takes_removeElement (hi : g.Intact) {id : ElementId} (hid : g.contains id = true) :
    Takes id g (g.removeElement id).2 where
  agrees := agrees_removeElement hi.agrees id
  size := size_removeElement id
  scopes := length_scopes_removeElement id
  element? := element?_removeElement id
  left s sc hsc := by
    rw [hi.agrees.scope?_removeElement hid] at hsc
    obtain ⟨hsc, hends⟩ := Option.filter_eq_some_iff.1 hsc
    exact ⟨Checked.containsScope_iff.2 ⟨sc, hsc⟩, of_decide_eq_true hends, hi.ends s sc hsc⟩
  kept s sc hsc ho ht := by
    rw [hi.agrees.scope?_removeElement hid, hsc]
    exact Option.filter_eq_some_iff.2 ⟨rfl, decide_eq_true ⟨ho, ht⟩⟩

/-- Two passes over the lists of the element, then what is still at it goes with it; so
nothing is left of a scope that an element has to itself. -/
theorem takes_replaceElement (hi : g.Intact) {old w : ElementId} (hold : g.contains old = true)
    (hw : g.contains w = true) : Takes old g (g.replaceElement old w) := by
  have hlt := lt_size_of_contains hw
  have p1 := samePlaces_withInputsSpliced g old w
  have p2 := samePlaces_withOutputsSpliced (g.withInputsSpliced old w) old w
  have h1 := agrees_withInputsSpliced hi.agrees old hlt
  have h2 := agrees_withOutputsSpliced h1 old (by rw [p1.size]; exact hlt)
  have hscope : ∀ s, (g.replaceElement old w).scope? s =
      (((g.scope? s).bind fun sc => if sc.target = old then sc.splicedIn w else some sc).bind
        fun sc => if sc.origin = old then sc.splicedOut w else some sc).filter
          fun sc => decide (sc.origin ≠ old ∧ sc.target ≠ old) := by
    intro s
    rw [replaceElement_eq, h2.scope?_removeElement (by rw [p2.contains, p1.contains]; exact hold),
      h1.scope?_withOutputsSpliced, hi.agrees.scope?_withInputsSpliced]
  refine ⟨agrees_replaceElement hi.agrees old hlt, size_replaceElement old w, ?_,
    element?_replaceElement old w, fun s sc' hsc' => ?_, fun s sc hsc ho ht => ?_⟩
  · rw [replaceElement_eq, length_scopes_removeElement, p2.scopes, p1.scopes]
  · rw [hscope] at hsc'
    obtain ⟨hsc', hends⟩ := Option.filter_eq_some_iff.1 hsc'
    obtain ⟨sc₁, hsc₁, hout⟩ := Option.bind_eq_some_iff.1 hsc'
    obtain ⟨sc, hsc, hin⟩ := Option.bind_eq_some_iff.1 hsc₁
    obtain ⟨ho, ht⟩ := hi.ends s sc hsc
    refine ⟨Checked.containsScope_iff.2 ⟨sc, hsc⟩, of_decide_eq_true hends, ?_⟩
    -- either pass moves an end to `w` or leaves it
    have hlive₁ : g.contains sc₁.origin = true ∧ g.contains sc₁.target = true := by
      unfold Scope.splicedIn at hin
      split at hin
      · split at hin <;> cases hin
        exact ⟨ho, hw⟩
      · cases hin
        exact ⟨ho, ht⟩
    unfold Scope.splicedOut at hout
    split at hout
    · split at hout <;> cases hout
      exact ⟨hw, hlive₁.2⟩
    · cases hout
      exact hlive₁
  · simp [hscope, hsc, ho, ht, Option.filter]

theorem takes_removePassThrough (hi : g.Intact) {id : ElementId} {i : ScopeId}
    (hid : g.contains id = true) (harr : g.arrivals id = [i]) :
    Takes id g (g.removePassThrough id).2 := by
  obtain ⟨ic, hic, -⟩ := (hi.agrees.arrivals_iff id i).1 (by rw [harr]; exact List.mem_cons_self)
  have hm := samePlaces_moveOutgoing g id ic.origin
  have hA := agrees_moveOutgoing hi.agrees id (hi.agrees.origin_lt hic)
  have hscope : ∀ s, (g.removePassThrough id).2.scope? s =
      ((g.scope? s).map (Scope.rerouted id ic.origin)).filter
        fun sc => decide (sc.origin ≠ id ∧ sc.target ≠ id) := by
    intro s
    rw [removePassThrough_eq harr hic,
      hA.scope?_removeElement (by rw [hm.contains]; exact hid), hi.agrees.scope?_moveOutgoing]
  refine ⟨agrees_removePassThrough hi.agrees harr hic, size_removePassThrough harr hic, ?_,
    element?_removePassThrough harr hic, fun s sc' hsc' => ?_, fun s sc hsc ho ht => ?_⟩
  · rw [removePassThrough_eq harr hic, length_scopes_removeElement, hm.scopes]
  · rw [hscope] at hsc'
    obtain ⟨hsc', hends⟩ := Option.filter_eq_some_iff.1 hsc'
    obtain ⟨sc, hsc, rfl⟩ := Option.map_eq_some_iff.1 hsc'
    obtain ⟨ho, ht⟩ := hi.ends s sc hsc
    refine ⟨Checked.containsScope_iff.2 ⟨sc, hsc⟩, of_decide_eq_true hends, ?_,
      Scope.target_rerouted.symm ▸ ht⟩
    rw [Scope.origin_rerouted]
    split
    · exact (hi.ends i ic hic).1
    · exact ho
  · simp [hscope, hsc, ho, ht, Scope.rerouted, Option.filter]

/-- An element with several inputs, or with none, stays as it is. -/
theorem does_removePassThrough (hi : g.Intact) {id : ElementId} (hid : g.contains id = true)
    (hext : isExtent id = true → (g.arrivals id).length ≠ 1) :
    (Command.removePassThrough id).Does g (g.removePassThrough id).2 := by
  by_cases hlen : (g.arrivals id).length = 1
  · obtain ⟨i, harr⟩ := List.length_eq_one_iff.1 hlen
    have hinner : isExtent id = false := by
      rw [← Bool.not_eq_true]
      exact fun h => hext h hlen
    exact (takes_removePassThrough hi hid harr).does hi hinner
      (fun e => ⟨And.left, fun he => ⟨he, hlen⟩⟩) fun _ _ h => ⟨hlen, h⟩
  · have hsame : (g.removePassThrough id).2 = g := by
      unfold removePassThrough
      split
      · next harr => rw [harr] at hlen; exact absurd rfl hlen
      · rfl
    rw [hsame]
    exact (Extends.refl g).does hi fun _ h => hlen h.2

/-! ## Commands that put an element in between -/

/-- `g'` has the element `x` in addition, with scopes to and from it. -/
structure Inserts (x : Element) (g g' : Graph) : Prop where
  agrees : g'.Agrees
  size : g'.size = g.size + 1
  scopes : g'.scopes.length = g.scopes.length + 1
  element? : ∀ e, g'.element? e = if e = g.size then some x else g.element? e
  left : ∀ s sc', g'.scope? s = some sc' →
    (s < g.scopes.length → g.containsScope s = true) ∧
      (sc'.origin = g.size ∨ g.contains sc'.origin = true) ∧
      (sc'.target = g.size ∨ g.contains sc'.target = true)

theorem Inserts.contains {x : Element} (h : Inserts x g g') {e : ElementId}
    (he : e = g.size ∨ g.contains e = true) : g'.contains e = true := by
  rw [Graph.contains, h.element?]
  split
  · rfl
  · next hne => exact he.resolve_left hne

theorem Inserts.does {x : Element} {c : Command} (h : Inserts x g g') (hi : g.Intact)
    (htakes : ∀ e, ¬ c.TakesOut g e)
    (hkept : ∀ s sc, g.scope? s = some sc → ¬ c.Touches g s sc → g'.scope? s = some sc) :
    c.Does g g' where
  intact := by
    refine ⟨h.agrees, fun s sc hsc => ?_, h.contains (.inr hi.head_live),
      h.contains (.inr hi.tail_live)⟩
    obtain ⟨-, ho, ht⟩ := h.left s sc hsc
    exact ⟨h.contains ho, h.contains ht⟩
  outlives := by
    refine ⟨by rw [h.size]; omega, by rw [h.scopes]; omega, fun e he hc => ?_, fun s hs hc => ?_⟩
    · rwa [Graph.contains, h.element?, if_neg (Nat.ne_of_lt he)] at hc
    · obtain ⟨sc, hsc⟩ := Checked.containsScope_iff.1 hc
      exact (h.left s sc hsc).1 hs
  gone e he := absurd he (htakes e)
  element e y hy _ := by
    have hlt := lt_size_of_contains (Option.isSome_iff_exists.2 ⟨y, hy⟩)
    rw [h.element?, if_neg (Nat.ne_of_lt hlt), hy]
  scope := hkept

theorem does_insertAfter (hi : g.Intact) {id : ElementId} (hid : g.contains id = true)
    (x : Element) : (Command.insertAfter id x).Does g (g.insertAfter id x).2 := by
  have hscope := hi.agrees.scope?_insertAfter id x
  have hins : Inserts x g (g.insertAfter id x).2 := by
    refine ⟨agrees_insertAfter hi.agrees (lt_size_of_contains hid) x, size_insertAfter id x, ?_,
      element?_insertAfter id x, fun s sc' hsc' => ?_⟩
    · show ((((g.addElement x).2.moveOutgoing id g.size).addScope id g.size 0).2).scopes.length = _
      rw [length_scopes_addScope, (samePlaces_moveOutgoing _ id g.size).scopes, scopes_addElement]
    · rw [hscope] at hsc'
      split at hsc'
      · next hs =>
        cases hsc'
        exact ⟨fun hlt => absurd hs (Nat.ne_of_lt hlt), .inr hid, .inl rfl⟩
      · obtain ⟨sc, hsc, rfl⟩ := Option.map_eq_some_iff.1 hsc'
        obtain ⟨ho, ht⟩ := hi.ends s sc hsc
        refine ⟨fun _ => Checked.containsScope_iff.2 ⟨sc, hsc⟩, ?_,
          .inr (Scope.target_rerouted.symm ▸ ht)⟩
        rw [Scope.origin_rerouted]
        split
        · exact .inl rfl
        · exact .inr ho
  refine hins.does hi (fun _ h => h) fun s sc hsc hno => ?_
  have ho : sc.origin ≠ id := hno
  rw [hscope, if_neg (Nat.ne_of_lt (lt_scopes_of_scope? hsc)), hsc, Option.map_some,
    Scope.rerouted, if_neg ho]

theorem does_insertOnScope (hi : g.Intact) {i : ScopeId} (hlive : g.containsScope i = true)
    (x : Element) : (Command.insertOnScope i x).Does g (g.insertOnScope i x).2 := by
  obtain ⟨ic, hic⟩ := Checked.containsScope_iff.1 hlive
  have hscope := scope?_insertOnScope hic x
  have hins : Inserts x g (g.insertOnScope i x).2 := by
    refine ⟨agrees_insertOnScope hi.agrees hic x, size_insertOnScope hic x, ?_,
      element?_insertOnScope hic x, fun s sc' hsc' => ?_⟩
    · rw [insertOnScope_eq hic, length_scopes_addScope, length_scopes_retarget, scopes_addElement]
    · rw [hscope] at hsc'
      split at hsc'
      · next hs =>
        cases hsc'
        exact ⟨fun hlt => absurd hs (Nat.ne_of_lt hlt), .inl rfl, .inr (hi.ends i ic hic).2⟩
      · split at hsc'
        · next hs =>
          cases hsc'
          exact ⟨fun _ => hs ▸ hlive, .inr (hi.ends i ic hic).1, .inl rfl⟩
        · obtain ⟨ho, ht⟩ := hi.ends s sc' hsc'
          exact ⟨fun _ => Checked.containsScope_iff.2 ⟨sc', hsc'⟩, .inr ho, .inr ht⟩
  refine hins.does hi (fun _ h => h) fun s sc hsc hno => ?_
  have hne : s ≠ i := hno
  rw [hscope, if_neg (Nat.ne_of_lt (lt_scopes_of_scope? hsc)), if_neg hne, hsc]

/-! ## Names and fields -/

/-- A command that keeps every element and every scope, up to its fields. -/
theorem Relabels.does {c : Command} (h : g.Relabels g') (hi : g.Intact)
    (hlen : g'.scopes.length = g.scopes.length) (hel : ∀ e, g'.element? e = g.element? e)
    (htakes : ∀ e, ¬ c.TakesOut g e)
    (hkept : ∀ s sc, g.scope? s = some sc → ¬ c.Touches g s sc → g'.scope? s = some sc) :
    c.Does g g' where
  intact := by
    have hc : ∀ e, g'.contains e = g.contains e := fun e => by
      rw [Graph.contains, hel, Graph.contains]
    refine ⟨h.agrees hi.agrees, fun s sc' hsc' => ?_, (hc _).trans hi.head_live,
      (hc _).trans hi.tail_live⟩
    obtain ⟨sc, hsc, ho, ht, -⟩ := h.scope_from s sc' hsc'
    rw [hc, hc, ho, ht]
    exact hi.ends s sc hsc
  outlives := by
    refine ⟨Nat.le_of_eq h.size.symm, Nat.le_of_eq hlen.symm, fun e _ hc => ?_, fun s _ hc => ?_⟩
    · rwa [Graph.contains, hel] at hc
    · obtain ⟨sc', hsc'⟩ := Checked.containsScope_iff.1 hc
      obtain ⟨sc, hsc, -⟩ := h.scope_from s sc' hsc'
      exact Checked.containsScope_iff.2 ⟨sc, hsc⟩
  gone e he := absurd he (htakes e)
  element e x hx _ := (hel e).trans hx
  scope := hkept

theorem scope?_clearFields (g : Graph) (s : ScopeId) :
    g.clearFields.scope? s = (g.scope? s).map fun sc => { sc with fields := none } := by
  simp only [scope?, clearFields, List.getElem?_map]
  cases g.scopes[s]? <;> rfl

theorem boundaryName_injective {m n : Nat} (h : boundaryName m = boundaryName n) : m = n := by
  have hlist := congrArg String.toList h
  simp only [boundaryName, String.toList_append] at hlist
  have hdigits := congrArg (fun ds => Nat.ofDigitChars 10 ds 0) (List.append_cancel_left hlist)
  simpa [Nat.toString_eq_ofList_toDigits, Nat.ofDigitChars_toDigits] using hdigits

theorem name_of_find {name : String} {id : ElementId} (h : g.find name = some id) :
    id < g.size ∧ g.nameOf id = name := by
  unfold find at h
  have hmem := List.mem_of_find?_eq_some h
  have hname := List.find?_some h
  refine ⟨?_, by simpa using hname⟩
  exact lt_size_of_contains (mem_elements.1 (IdSet.mem_filter.1 hmem).1)

/-- Among more candidates than there are elements one name is free. -/
theorem exists_free_boundaryName (g : Graph) (n : Nat) :
    ∃ k, k < g.size + 1 ∧ g.find (boundaryName (n + k)) = none := by
  by_contra hnone
  push Not at hnone
  have hall : ∀ k, k < g.size + 1 → ∃ id, g.find (boundaryName (n + k)) = some id :=
    fun k hk => Option.ne_none_iff_exists'.1 (hnone k hk)
  -- the elements of these names are as many, and all different
  have hnodup : ((List.range (g.size + 1)).map fun k =>
      (g.find (boundaryName (n + k))).getD 0).Nodup := by
    refine List.Nodup.map_on (fun k hk l hl heq => ?_) List.nodup_range
    obtain ⟨a, ha⟩ := hall k (List.mem_range.1 hk)
    obtain ⟨b, hb⟩ := hall l (List.mem_range.1 hl)
    simp only [ha, hb, Option.getD_some] at heq
    subst heq
    exact Nat.add_left_cancel
      (boundaryName_injective ((name_of_find ha).2.symm.trans (name_of_find hb).2))
  have hle := length_le_of_nodup_of_lt hnodup (n := g.size) fun x hx => by
    obtain ⟨k, hk, rfl⟩ := List.mem_map.1 hx
    obtain ⟨a, ha⟩ := hall k (List.mem_range.1 hk)
    rw [ha]
    exact (name_of_find ha).1
  rw [List.length_map, List.length_range] at hle
  exact Nat.not_succ_le_self _ hle

/-- The search for a boundary name ends, at the first free one after the last name that was
drawn. -/
theorem find_nextBoundaryName (g : Graph) : g.find g.nextBoundaryName.1 = none ∧
    g.boundaryCount < g.nextBoundaryNumber ∧
      ∀ n, g.boundaryCount < n → n < g.nextBoundaryNumber →
        (g.find (boundaryName n)).isSome = true := by
  obtain ⟨k, hk⟩ : ∃ k, (List.range (g.size + 1)).find?
      (fun k => (g.find (boundaryName (g.boundaryCount + 1 + k))).isNone) = some k := by
    obtain ⟨k, hk, hfree⟩ := g.exists_free_boundaryName (g.boundaryCount + 1)
    rw [← Option.isSome_iff_exists, List.find?_isSome]
    exact ⟨k, List.mem_range.2 hk, Option.isNone_iff_eq_none.2 hfree⟩
  have hnumber : g.nextBoundaryNumber = g.boundaryCount + 1 + k := by
    unfold nextBoundaryNumber
    rw [List.find?_map]
    have hcomp : (List.range (g.size + 1)).find? ((fun n => (g.find (boundaryName n)).isNone) ∘
        (g.boundaryCount + 1 + ·)) = some k := hk
    rw [hcomp]
    rfl
  obtain ⟨hfree, -, hbefore⟩ := List.find?_range_eq_some.1 hk
  refine ⟨?_, by omega, fun n hn hlt => ?_⟩
  · show g.find (boundaryName g.nextBoundaryNumber) = none
    rw [hnumber]
    simpa using hfree
  · have := hbefore (n - (g.boundaryCount + 1)) (by omega)
    rw [show g.boundaryCount + 1 + (n - (g.boundaryCount + 1)) = n by omega] at this
    simpa [Option.isSome_iff_exists, Option.ne_none_iff_exists'] using this

theorem Intact.recount (h : g.Intact) (n : Nat) : ({ g with boundaryCount := n } : Graph).Intact :=
  ⟨⟨h.agrees.outgoing_iff, h.agrees.arrivals_iff, h.agrees.outgoing_nodup,
    h.agrees.arrivals_nodup⟩, h.ends, h.head_live, h.tail_live⟩

theorem extends_recount (g : Graph) (n : Nat) : Extends g { g with boundaryCount := n } :=
  ⟨Nat.le_refl _, Nat.le_refl _, fun _ _ => rfl, fun _ _ => rfl⟩

/-! ## Every command -/

/-- No reference of an admitted command fails to resolve. -/
theorem Command.perform_eq_ok (hi : g.Intact) {c : Command} (hc : c.Admits g) :
    ∃ g', c.perform g = .ok g' ∧ c.Does g g' := by
  have ha := hi.agrees
  have hlt : ∀ {e}, g.contains e = true → e < g.size := lt_size_of_contains
  cases c with
  | addElement e =>
    exact ⟨_, rfl, (extends_addElement g e).does (hi.addElement e) fun _ h => h⟩
  | addScope o t k =>
    obtain ⟨ho, ht⟩ := hc
    refine ⟨_, by simp only [perform, Checked.addScope_eq_ok (hlt ho) (hlt ht)]; rfl, ?_⟩
    exact (extends_addScope g o t k).does (hi.addScope k ho ht) fun _ h => h
  | connect o t =>
    obtain ⟨ho, ht⟩ := hc
    refine ⟨_, by simp only [perform, Checked.connect_eq_ok ha (hlt ho) (hlt ht)]; rfl, ?_⟩
    exact (extends_addScope g o t _).does (hi.addScope _ ho ht) fun _ h => h
  | addSource name tap =>
    have hx := extends_addElement g ⟨name, .source tap⟩
    refine ⟨_, by simp only [perform, Checked.addSource_eq_ok (hlt hi.head_live)]; rfl, ?_⟩
    exact (hx.trans (extends_addScope _ head g.size 0)).does
      ((hi.addElement _).addScope 0 (hx.contains hi.head_live) (contains_addElement_new g _))
      fun _ h => h
  | addSink name tap input =>
    have hx := extends_addElement g ⟨name, .sink tap⟩
    have hy := extends_addScope (g.addElement ⟨name, .sink tap⟩).2 input g.size 0
    have hnew := contains_addElement_new g ⟨name, .sink tap⟩
    have hok := Checked.addSink_eq_ok (hlt hi.tail_live) name tap (hlt hc)
    refine ⟨_, by simp only [perform, hok]; rfl, ?_⟩
    refine ((hx.trans hy).trans (extends_addScope _ g.size tail 0)).does ?_ fun _ h => h
    exact ((hi.addElement _).addScope 0 (hx.contains hc) hnew).addScope 0 (hy.contains hnew)
      (hy.contains (hx.contains hi.tail_live))
  | addStage name kind inputs =>
    have hx := extends_addElement g ⟨name, kind⟩
    obtain ⟨hin, hy⟩ := (hi.addElement ⟨name, kind⟩).addInputs (contains_addElement_new g _)
      fun e he => hx.contains (hc e he)
    have hok := Checked.addStage_eq_ok name kind fun e he => hlt (hc e he)
    refine ⟨_, by simp only [perform, hok]; rfl, ?_⟩
    exact (hx.trans hy).does hin fun _ h => h
  | removeScope i =>
    refine ⟨_, by simp only [perform, Checked.removeScope_eq_ok ha]; rfl, ?_⟩
    exact does_removeScope hi i
  | removeElement id =>
    obtain ⟨hid, hext⟩ := hc
    refine ⟨_, by simp only [perform, Checked.removeElement_eq_ok ha]; rfl, ?_⟩
    exact (takes_removeElement hi hid).does hi hext (fun _ => Iff.rfl) fun _ _ h => h
  | insertAfter id x =>
    refine ⟨_, by simp only [perform, Checked.insertAfter_eq_ok ha (hlt hc)]; rfl, ?_⟩
    exact does_insertAfter hi hc x
  | insertOnScope i x =>
    refine ⟨_, by simp only [perform, Checked.insertOnScope_eq_ok ha hc]; rfl, ?_⟩
    exact does_insertOnScope hi hc x
  | replaceElement old w =>
    obtain ⟨hold, hext, hw⟩ := hc
    refine ⟨_, Checked.replaceElement_eq_ok ha (hlt hold) (hlt hw), ?_⟩
    exact (takes_replaceElement hi hold hw).does hi hext (fun _ => Iff.rfl) fun _ _ h => h
  | removePassThrough id =>
    obtain ⟨hid, hext⟩ := hc
    refine ⟨_, by simp only [perform, Checked.removePassThrough_eq_ok ha (hlt hid)]; rfl, ?_⟩
    exact does_removePassThrough hi hid hext
  | nextBoundaryName =>
    exact ⟨_, rfl, (extends_recount g _).does (hi.recount _) fun _ h => h⟩
  | clearFields =>
    have hlen : g.clearFields.scopes.length = g.scopes.length := List.length_map _
    refine ⟨g.clearFields, rfl, (relabels_clearFields g).does hi hlen (fun _ => rfl)
      (fun _ h => h) fun s sc hsc hno => ?_⟩
    have hnone : sc.fields = none := not_not.1 hno
    rw [scope?_clearFields, hsc, Option.map_some, ← hnone]

/-! ## Sessions -/

theorem Command.exists_performAll (hi : g.Intact) {cs : List Command} (h : AdmitsAll g cs) :
    ∃ g', performAll g cs = .ok g' ∧ g'.Intact ∧ Outlives g g' := by
  induction cs generalizing g with
  | nil => exact ⟨g, rfl, hi, .refl g⟩
  | cons c rest ih =>
    obtain ⟨g₁, h₁, hdoes⟩ := perform_eq_ok hi h.1
    obtain ⟨g', h', hi', hout⟩ := ih hdoes.intact (h.2 g₁ h₁)
    refine ⟨g', ?_, hi', hdoes.outlives.trans hout⟩
    rw [performAll, List.foldlM_cons, h₁]
    exact h'

/-- **The arenas and the adjacency lists agree along every session.** A session of
admitted commands goes through and leaves a consistent graph. Whatever command is admitted
there goes through as well and leaves alone what it does not name, and what is not live
after it stays so through all that follows. -/
theorem consistent_of_admitted {name : String} {cs : List Command}
    (h : Command.AdmitsAll (empty name) cs) :
    ∃ g, Command.performAll (empty name) cs = .ok g ∧ g.Consistent ∧
      ∀ c : Command, c.Admits g → ∃ g', c.perform g = .ok g' ∧ g'.Consistent ∧ c.Does g g' ∧
        ∀ later, Command.AdmitsAll g' later →
          ∃ g'', Command.performAll g' later = .ok g'' ∧ Outlives g' g'' := by
  obtain ⟨g, hg, hi, -⟩ := Command.exists_performAll (intact_empty name) h
  refine ⟨g, hg, hi.consistent, fun c hc => ?_⟩
  obtain ⟨g', hg', hdoes⟩ := Command.perform_eq_ok hi hc
  refine ⟨g', hg', hdoes.intact.consistent, hdoes, fun later hlater => ?_⟩
  obtain ⟨g'', hg'', -, hout⟩ := Command.exists_performAll hdoes.intact hlater
  exact ⟨g'', hg'', hout⟩

/-- Parallel scopes, a scope from an element to itself, and an element put in its own
place. -/
def knotted : List Command :=
  [.addSource "in" (.temporary "hdfs" "in"), .addStage "all" .merge [2, 2], .addScope 3 3 2,
    .insertAfter 3 ⟨"pipe", .pipe⟩, .replaceElement 3 3, .removePassThrough 4]

theorem consistent_knotted : ∃ g, Command.performAll (empty "knotted") knotted = .ok g ∧
    g.Consistent ∧ g.contains 3 = false ∧ g.scope? 3 = none := by
  have hadmits : Command.AdmitsAll (empty "knotted") knotted := by decide
  obtain ⟨g, hg, hconsistent, -⟩ := consistent_of_admitted hadmits
  have hany : ((Command.performAll (empty "knotted") knotted).toOption.any fun g =>
      !g.contains 3 && (g.scope? 3).isNone) = true := by decide
  rw [hg] at hany
  simp only [Except.toOption, Option.any_some, Bool.and_eq_true, Bool.not_eq_true',
    Option.isNone_iff_eq_none] at hany
  exact ⟨g, hg, hconsistent, hany⟩

end Graph
end Dataflow
