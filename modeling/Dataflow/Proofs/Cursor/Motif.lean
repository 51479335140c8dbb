import Dataflow.Cursor.Motif
import Dataflow.Proofs.Cursor.Laws
import Dataflow.Proofs.Motif.Embedding

/-!
# One match after the other

A motif cursor searches afresh after every match it gives, with the elements of that match
excluded, and it may keep a match that was found when it was asked. All the same it gives what
one search finds: excluding the elements behind one anchor takes that anchor off the list and
changes nothing about the others, because no two vertices of a contraction share an element.

Results:

* `Contraction.eq_of_mem_members`: vertices of a contracted view share no element, in any view;
* `Matcher.allMatches_union`: what excluding the elements of the first match leaves;
* `MotifCursor.Reached`: the state after any calls;
* `MotifCursor.replays_of_validate`: the cursor gives the matches of one search.
-/
namespace Dataflow

open Relation

/-! ## Vertices share no element -/

namespace Contraction

variable {v : View} {test : VertexTest}

theorem mem_view_of_mem_members {r e : ElementId} (h : e ∈ (v.contract test).members r) :
    e ∈ v.topology.vertices :=
  (View.representative?_spec (mem_members.1 h)).1

/-- No element stands behind two vertices. -/
theorem eq_of_mem_members {r r' e : ElementId} (h : e ∈ (v.contract test).members r)
    (h' : e ∈ (v.contract test).members r') : r = r' :=
  Option.some.inj ((mem_members.1 h).symm.trans (mem_members.1 h'))

/-- A vertex stands for itself, among others. -/
theorem mem_members_self {r : ElementId} (h : r ∈ (v.contract test).topology.vertices) :
    r ∈ (v.contract test).members r :=
  mem_members.2 (mem_vertices.1 h)

theorem expand_singleton (c : Contraction) (r : ElementId) :
    c.expand (.singleton r) = c.members r := by
  apply IdSet.ext_mem
  intro e
  simp only [expand, IdSet.mem_unionOf]
  constructor
  · intro h
    obtain ⟨r', hr', he⟩ := h
    rw [List.mem_singleton.1 hr'] at he
    exact he
  · intro he
    exact ⟨r, List.mem_singleton_self r, he⟩

theorem view_elim_contract (v : View) (test : Option VertexTest) :
    (test.elim v.uncontracted v.contract).view = v := by
  cases test <;> rfl

/-- Contracting by an optional test is contracting by some test. -/
theorem elim_contract (v : View) (test : Option VertexTest) :
    test.elim v.uncontracted v.contract = v.contract (test.getD (.anyOf [])) := by
  cases test with
  | none => exact v.contract_anyOf_nil.symm
  | some test => rfl

end Contraction

/-! ## One anchor less -/

namespace Matcher

variable {m : Matcher} {t : Target}

theorem primaries_of_ofMotif {motif : Motif} (h : Matcher.ofMotif motif = .ok m) :
    m.motif.primaries = [m.primary] := by
  obtain ⟨p, hp, rfl⟩ := map_eq_ok.1 h
  exact (Motif.validate_eq_ok hp).2.1

/-- The matcher can search: its order fits the motif, and the anchor alone is primary. -/
structure Usable (m : Matcher) : Prop where
  ready : m.Ready
  sole : m.motif.primaries = [m.primary]

theorem usable_of_ofMotif {motif : Motif} (h : Matcher.ofMotif motif = .ok m) : m.Usable :=
  ⟨(ready_of_ofMotif h).2, primaries_of_ofMotif h⟩

theorem Usable.mem_capturedBy_primary (h : m.Usable) {f : Nat → ElementId} {x : ElementId} :
    x ∈ m.capturedBy .primary (m.spread f) ↔ x = f m.primary := by
  have hprimary : ∀ p, (∃ n : MotifNode, m.motif.nodes[p]? = some n ∧ n.capture = some .primary) ↔
      p = m.primary := by
    intro p
    have hp : p ∈ m.motif.primaries ↔ p = m.primary := by rw [h.sole, List.mem_singleton]
    rw [← hp, Motif.primaries, List.mem_filter, List.mem_range, beq_iff_eq,
      Option.bind_eq_some_iff]
    constructor
    · intro hn
      obtain ⟨n, hn, hc⟩ := hn
      exact ⟨(List.getElem?_eq_some_iff.1 hn).1, n, hn, hc⟩
    · exact And.right
  rw [mem_capturedBy_spread h.ready]
  constructor
  · intro hx
    obtain ⟨p, n, hn, hc, hpx⟩ := hx
    rw [← hpx, (hprimary p).1 ⟨n, hn, hc⟩]
  · intro hx
    obtain ⟨n, hn, hc⟩ := (hprimary m.primary).2 rfl
    exact ⟨m.primary, n, hn, hc, hx.symm⟩

/-- A match claims the vertex it is anchored at, and no other. -/
theorem Usable.primary_of_matchAt? (h : m.Usable) {firstOnly : Bool} {v : ElementId} {mt : Match}
    (hmt : m.matchAt? t firstOnly v = some mt) : mt.anchor = v ∧ mt.primary = .singleton v := by
  obtain ⟨a, rest, ha, rfl⟩ := matchAt?_eq_some_iff.1 hmt
  refine ⟨rfl, IdSet.ext_mem fun x => ?_⟩
  have hmem : ∀ b ∈ (if firstOnly then [a] else a :: rest), b ∈ m.assignments t v := by
    intro b hb
    rw [ha]
    split at hb
    · rw [List.mem_singleton.1 hb]
      exact List.mem_cons_self
    · exact hb
  have hne : a ∈ (if firstOnly then [a] else a :: rest) := by split <;> simp
  have hclaim : ∀ b ∈ m.assignments t v, (x ∈ m.capturedBy .primary b ↔ x = v) := by
    intro b hb
    obtain ⟨f, rfl, rfl⟩ := eq_spread_of_mem_assignments h.ready hb
    exact h.mem_capturedBy_primary
  rw [IdSet.mem_singleton, merge, IdSet.mem_unionOf]
  constructor
  · intro hx
    obtain ⟨b, hb, hx⟩ := hx
    exact (hclaim b (hmem b hb)).1 hx
  · intro hx
    exact ⟨a, hne, (hclaim a (hmem a hne)).2 hx⟩

theorem firstMatch?_eq_head? (exclusions : IdSet) (firstOnly : Bool) :
    m.firstMatch? t exclusions firstOnly = (m.allMatches t exclusions firstOnly).head? := by
  rw [firstMatch?, allMatches, List.head?_filterMap]

/-- Without its first anchor that has a match, a list of anchors has the other matches. -/
theorem filterMap_filter_ne {find : ElementId → Option Match} {anchors : List ElementId}
    {mt : Match} {ms : List Match} (hnodup : anchors.Nodup)
    (hanchor : ∀ v m, find v = some m → m.anchor = v) (h : anchors.filterMap find = mt :: ms) :
    (anchors.filter (· != mt.anchor)).filterMap find = ms := by
  induction anchors with
  | nil => cases h
  | cons v rest ih =>
    obtain ⟨hv, hrest⟩ := List.nodup_cons.1 hnodup
    cases hfind : find v with
    | none =>
      rw [List.filterMap_cons_none hfind] at h
      rw [List.filter_cons]
      split
      · rw [List.filterMap_cons_none hfind]
        exact ih hrest h
      · exact ih hrest h
    | some m =>
      rw [List.filterMap_cons_some hfind] at h
      cases h
      have hkeep : rest.filter (· != mt.anchor) = rest := by
        refine List.filter_eq_self.2 fun w hw => ?_
        rw [hanchor v mt hfind]
        simp only [bne_iff_ne, ne_eq]
        intro hwv
        exact hv (hwv ▸ hw)
      rw [List.filter_cons_of_neg (by simp [hanchor v mt hfind]), hkeep]

/-- Excluding the elements behind the first anchor takes its match off the list. -/
theorem Usable.allMatches_union (h : m.Usable)
    (hself : ∀ v ∈ t.vertices, v ∈ t.members v)
    (hapart : ∀ v w e, e ∈ t.members v → e ∈ t.members w → v = w)
    {exclusions : IdSet} {firstOnly : Bool} {mt : Match} {ms : List Match}
    (hms : m.allMatches t exclusions firstOnly = mt :: ms) :
    m.allMatches t (exclusions ∪ t.members mt.anchor) firstOnly = ms := by
  have hanchors : m.anchors t (exclusions ∪ t.members mt.anchor) =
      (m.anchors t exclusions).filter (· != mt.anchor) := by
    unfold anchors
    rw [List.filter_filter]
    refine List.filter_congr fun v hv => ?_
    rw [Bool.eq_iff_iff]
    simp only [Bool.and_eq_true, IdSet.disjoint_iff, IdSet.mem_union, not_or, bne_iff_ne, ne_eq]
    constructor
    · intro hfree
      refine ⟨fun hva => ?_, fun e he => (hfree.1 e he).1, hfree.2⟩
      exact (hfree.1 v (hself v hv)).2 (hva ▸ hself v hv)
    · intro hfree
      obtain ⟨hne, hold, hadm⟩ := hfree
      refine ⟨fun e he => ⟨hold e he, fun hea => ?_⟩, hadm⟩
      exact hne (hapart v mt.anchor e he hea)
  rw [allMatches, hanchors]
  refine filterMap_filter_ne ?_ (fun v m' hm' => (h.primary_of_matchAt? hm').1) hms
  exact (IdSet.nodup_toList t.vertices).filter _

end Matcher

/-! ## The cursor -/

theorem Graph.deadScope?_eq_none {g : Graph} {scopes : IdSet}
    (h : ∀ s ∈ scopes, g.containsScope s = true) : g.deadScope? scopes = none := by
  rw [deadScope?, Option.map_eq_none_iff, List.find?_eq_none]
  intro s hs
  simp [h s hs]

/-- The whole graph has no removed scope in it. -/
theorem Selection.deadScope?_whole (g : Graph) : g.deadScope? (whole g).scopes = none :=
  Graph.deadScope?_eq_none fun _ hs => (IdSet.mem_below.1 hs).2

namespace MotifCursor

theorem advance_advance (c : MotifCursor) : c.advance.advance = c.advance := by
  obtain ⟨contraction, matcher, firstOnly, exclusions, pending, last⟩ := c
  cases pending with
  | some m => rfl
  | none => cases h : matcher.firstMatch? contraction.target exclusions firstOnly <;>
      simp [advance, h]

theorem contraction_advance (c : MotifCursor) : c.advance.contraction = c.contraction := by
  unfold advance
  split <;> rfl

theorem contraction_next (c : MotifCursor) : c.next.2.contraction = c.contraction := by
  have hc := c.contraction_advance
  unfold next
  dsimp only
  split
  · exact hc
  · split
    · exact hc
    · exact hc

instance : Cursor.Lawful MotifCursor where
  hasNext_hasNext c := by
    show (c.advance.advance.pending.isSome, c.advance.advance) = _
    rw [advance_advance]
    rfl
  next_hasNext c := by
    show next c.advance = next c
    simp only [next, advance_advance]
  next_of_spent c h := by
    have hp : c.advance.pending = none := by simpa [Cursor.hasNext] using h
    show next c = (_, c.advance)
    simp [next, hp]
  graph_after call c := by
    cases call with
    | hasNext => exact congrArg (·.view.graph) c.contraction_advance
    | next => exact congrArg (·.view.graph) c.contraction_next
  domain_after call c := by
    cases call with
    | hasNext => exact congrArg (·.view.mask) c.contraction_advance
    | next => exact congrArg (·.view.mask) c.contraction_next
  pairs_hasNext _ := rfl
  capacity_hasNext c := congrArg (·.topology.vertices.size) c.contraction_advance

/-- The matches still to come are `ms`, and what is pending is the first of them. -/
structure Awaits (c : MotifCursor) (ms : List Match) : Prop where
  contracts : ∃ v test, c.contraction = View.contract v test
  usable : c.matcher.Usable
  rest : c.matcher.allMatches c.contraction.target c.exclusions c.firstOnly = ms
  pending : ∀ m, c.pending = some m → ms.head? = some m

/-- The state of a cursor that was not called yet. -/
def start (contraction : Contraction) (matcher : Matcher) (firstOnly : Bool) : MotifCursor :=
  ⟨contraction, matcher, firstOnly, ∅, none, none⟩

theorem new_of_ofMotif {motif : Motif} {m : Matcher} (h : Matcher.ofMotif motif = .ok m) {v : View}
    {test : Option VertexTest} {firstOnly : Bool} : new v test motif firstOnly =
      .ok (start (test.elim v.uncontracted v.contract) m firstOnly) := by
  rw [new, h]
  rfl

/-- At first every match is still to come. -/
theorem awaits_start {motif : Motif} {m : Matcher} (h : Matcher.ofMotif motif = .ok m) (v : View)
    (test : Option VertexTest) (firstOnly : Bool) :
    (start (test.elim v.uncontracted v.contract) m firstOnly).Awaits
      (m.allMatches (test.elim v.uncontracted v.contract).target ∅ firstOnly) :=
  ⟨⟨v, _, Contraction.elim_contract v test⟩, Matcher.usable_of_ofMotif h, rfl,
    fun m hpending => by cases hpending⟩

/-- The state in which a match is pending if there is one. -/
theorem Awaits.advance_eq {c : MotifCursor} {ms : List Match} (h : c.Awaits ms) :
    c.advance = { c with pending := ms.head? } := by
  have hpending := h.pending
  have hrest := h.rest
  obtain ⟨contraction, matcher, firstOnly, exclusions, pending, last⟩ := c
  cases pending with
  | some m => simp [advance, hpending m rfl]
  | none =>
    have hfirst : matcher.firstMatch? contraction.target exclusions firstOnly = ms.head? := by
      rw [Matcher.firstMatch?_eq_head?]
      exact congrArg List.head? hrest
    simp [advance, hfirst]

theorem Awaits.advance {c : MotifCursor} {ms : List Match} (h : c.Awaits ms) :
    c.advance.Awaits ms := by
  rw [h.advance_eq]
  exact ⟨h.contracts, h.usable, h.rest, fun m hm => hm⟩

/-- The elements that the next match claims. -/
theorem Awaits.expand_primary {c : MotifCursor} {m : Match} {ms : List Match}
    (h : c.Awaits (m :: ms)) : c.contraction.expand m.primary = c.contraction.members m.anchor := by
  have hmem : m ∈ c.matcher.allMatches c.contraction.target c.exclusions c.firstOnly := by
    rw [h.rest]
    exact List.mem_cons_self
  obtain ⟨-, hat⟩ := Matcher.mem_allMatches.1 hmem
  rw [(h.usable.primary_of_matchAt? hat).2, Contraction.expand_singleton]

/-- Taking a match leaves the others. -/
theorem Awaits.accept {c : MotifCursor} {m : Match} {ms : List Match} (h : c.Awaits (m :: ms)) :
    (c.accept m).2.Awaits ms := by
  refine ⟨h.contracts, h.usable, ?_, fun m hm => by cases hm⟩
  show c.matcher.allMatches c.contraction.target
    (c.exclusions ∪ c.contraction.expand m.primary) c.firstOnly = ms
  rw [h.expand_primary]
  obtain ⟨v, test, hc⟩ := h.contracts
  refine h.usable.allMatches_union (fun r hr => ?_) (fun r r' e he he' => ?_) h.rest
  · rw [hc] at hr ⊢
    exact Contraction.mem_members_self hr
  · rw [hc] at he he'
    exact Contraction.eq_of_mem_members he he'

theorem Awaits.hasNext_eq {c : MotifCursor} {ms : List Match} (h : c.Awaits ms) :
    (Cursor.hasNext c).1 = decide (0 < ms.length) := by
  show c.advance.pending.isSome = _
  rw [h.advance_eq]
  cases ms <;> simp

theorem Awaits.hasNext_nil {c : MotifCursor} (h : c.Awaits []) :
    Cursor.hasNext c = (false, c.advance) :=
  Prod.ext h.hasNext_eq rfl

theorem Awaits.hasNext_cons {c : MotifCursor} {m : Match} {ms : List Match}
    (h : c.Awaits (m :: ms)) : Cursor.hasNext c = (true, c.advance) :=
  Prod.ext h.hasNext_eq rfl

theorem Awaits.next_nil {c : MotifCursor} (h : c.Awaits []) :
    next c = (.error .exhausted, c.advance) := by
  simp [next, h.advance_eq]

/-- A removed scope in the view keeps the match from being taken. -/
theorem Awaits.next_dead {c : MotifCursor} {m : Match} {ms : List Match} {ref : DeadRef}
    (h : c.Awaits (m :: ms))
    (hdead : c.contraction.view.graph.deadScope? c.contraction.view.mask.scopes = some ref) :
    next c = (.error (.dead ref), c.advance) := by
  simp [next, h.advance_eq, hdead]

theorem Awaits.next_cons {c : MotifCursor} {m : Match} {ms : List Match} (h : c.Awaits (m :: ms))
    (hlive : c.contraction.view.graph.deadScope? c.contraction.view.mask.scopes = none) :
    next c = (.ok (c.contraction.selection m.vertices), (c.accept m).2) := by
  simp [next, h.advance_eq, hlive, MotifCursor.accept]

/-! ## How many matches are still to come -/

theorem Awaits.next {c : MotifCursor} {ms : List Match} (h : c.Awaits ms) :
    (∃ e, next c = (.error e, c.advance)) ∨
      ∃ m rest s, ms = m :: rest ∧ next c = (.ok s, (c.accept m).2) := by
  cases ms with
  | nil => exact .inl ⟨_, h.next_nil⟩
  | cons m ms =>
    cases hd : c.contraction.view.graph.deadScope? c.contraction.view.mask.scopes with
    | some ref => exact .inl ⟨_, h.next_dead hd⟩
    | none => exact .inr ⟨m, ms, _, rfl, h.next_cons hd⟩

theorem Awaits.endsWithin {c : MotifCursor} {ms : List Match} (h : c.Awaits ms) :
    Cursor.EndsWithin ms.length c := by
  refine Cursor.endsWithin_of (P := fun k c => ∃ ms, Awaits c ms ∧ ms.length ≤ k)
    (fun k c hc => ?_) (fun k c e hc he => ?_) (fun k c s hc hs => ?_) ⟨ms, h, Nat.le_refl _⟩
  · obtain ⟨ms, hc, hk⟩ := hc
    exact ⟨ms, hc.advance, hk⟩
  · obtain ⟨ms, hc, hk⟩ := hc
    refine ⟨ms, ?_, hk⟩
    obtain ⟨e', hn⟩ | ⟨m, rest, s, -, hn⟩ := hc.next
    · have hstate : (Cursor.next c).2 = c.advance := congrArg Prod.snd hn
      rw [hstate]
      exact hc.advance
    · have hres : (Cursor.next c).1 = .ok s := congrArg Prod.fst hn
      rw [hres] at he
      cases he
  · obtain ⟨ms, hc, hk⟩ := hc
    obtain ⟨e, hn⟩ | ⟨m, rest, s', rfl, hn⟩ := hc.next
    · have hres : (Cursor.next c).1 = .error e := congrArg Prod.fst hn
      rw [hres] at hs
      cases hs
    · have hstate : (Cursor.next c).2 = (c.accept m).2 := congrArg Prod.snd hn
      rw [hstate]
      rw [List.length_cons] at hk
      exact ⟨rest.length, by omega, rest, hc.accept, Nat.le_refl _⟩

/-- There are no more matches than vertices. -/
theorem Awaits.length_le {c : MotifCursor} {ms : List Match} (h : c.Awaits ms) :
    ms.length ≤ Cursor.capacity c := by
  rw [← h.rest]
  exact (List.length_filterMap_le _ _).trans (List.length_filter_le _ _)

theorem Awaits.after {c : MotifCursor} {ms : List Match} (h : c.Awaits ms) (call : Cursor.Call) :
    ∃ ms', (Cursor.after call c).Awaits ms' := by
  cases call with
  | hasNext => exact ⟨ms, h.advance⟩
  | next =>
    show ∃ ms', (MotifCursor.next c).2.Awaits ms'
    obtain ⟨e, hn⟩ | ⟨m, rest, s, rfl, hn⟩ := h.next
    · rw [hn]
      exact ⟨ms, h.advance⟩
    · rw [hn]
      exact ⟨rest, h.accept⟩

theorem Awaits.measured {c : MotifCursor} {ms : List Match} (h : c.Awaits ms) :
    Cursor.Measured c := by
  refine Cursor.measured_of (P := fun c => ∃ ms, Awaits c ms) (fun c call hc => ?_) (fun c hc => ?_)
    ⟨ms, h⟩
  · obtain ⟨ms, hc⟩ := hc
    exact hc.after call
  · obtain ⟨ms, hc⟩ := hc
    exact hc.endsWithin.mono hc.length_le

/-! ## The run -/

/-- The state `c` of a cursor that started as `start` and gave the matches `done`, with `rest`
still to come. -/
structure Reached (start : MotifCursor) (done rest : List Match) (c : MotifCursor) : Prop where
  awaits : c.Awaits rest
  contraction : c.contraction = start.contraction
  exclusions : c.exclusions = .unionOf done fun m => start.contraction.members m.anchor
  last : c.last = done.getLast?

theorem unionOf_concat {α : Type} (l : List α) (x : α) (f : α → IdSet) :
    IdSet.unionOf (l ++ [x]) f = IdSet.unionOf l f ∪ f x := by
  apply IdSet.ext_mem
  intro e
  simp only [IdSet.mem_unionOf, IdSet.mem_union, List.mem_append, List.mem_singleton, or_and_right,
    exists_or, exists_eq_left]

variable {start c : MotifCursor} {done rest : List Match}

theorem Reached.advance (h : Reached start done rest c) : Reached start done rest c.advance := by
  have hstate := h.awaits.advance_eq
  refine ⟨h.awaits.advance, ?_, ?_, ?_⟩
  · rw [contraction_advance, h.contraction]
  · rw [hstate, ← h.exclusions]
  · rw [hstate, ← h.last]

theorem Reached.accept {m : Match} (h : Reached start done (m :: rest) c) :
    Reached start (done ++ [m]) rest (c.accept m).2 := by
  refine ⟨h.awaits.accept, h.contraction, ?_, ?_⟩
  · show c.exclusions ∪ c.contraction.expand m.primary = _
    rw [h.awaits.expand_primary, h.exclusions, h.contraction, unionOf_concat]
  · rw [List.getLast?_concat]
    rfl

/-- Calling for a selection moves the next match to those given, if there is one. -/
theorem Reached.next {ms : List Match} {k : Nat} (h : Reached start (ms.take k) (ms.drop k) c)
    (hlive : start.contraction.view.graph.deadScope? start.contraction.view.mask.scopes = none) :
    Reached start (ms.take (k + 1)) (ms.drop (k + 1)) (Cursor.next c).2 := by
  cases hm : ms[k]? with
  | none =>
    have hk : ms.length ≤ k := List.getElem?_eq_none_iff.1 hm
    have hnil : ms.drop k = [] := List.drop_of_length_le hk
    have htake : ms.take k = ms.take (k + 1) := by
      rw [List.take_of_length_le hk, List.take_of_length_le (by omega)]
    rw [hnil, htake] at h
    rw [List.drop_of_length_le (by omega)]
    have hstate : (Cursor.next c).2 = c.advance := congrArg Prod.snd h.awaits.next_nil
    rw [hstate]
    exact h.advance
  | some m =>
    obtain ⟨hk, rfl⟩ := List.getElem?_eq_some_iff.1 hm
    rw [List.drop_eq_getElem_cons hk] at h
    rw [← h.contraction] at hlive
    have hstate : (Cursor.next c).2 = (c.accept ms[k]).2 :=
      congrArg Prod.snd (h.awaits.next_cons hlive)
    rw [hstate, ← List.take_concat_get' _ _ hk]
    exact h.accept

/-- What a cursor does that gives the matches `ms`, one after the other, whatever it is asked in
between. -/
structure Replays (c : MotifCursor) (ms : List Match) : Prop where
  /-- Taking selections while there are more ends, with one for each match. -/
  drains : ∃ c', Cursor.Yields c (ms.map fun m => c.contraction.selection m.vertices) c' ∧
    Cursor.drain c = (.ok (ms.map fun m => c.contraction.selection m.vertices), c')
  asks : ∀ calls, (Cursor.hasNext (Cursor.afterAll calls c)).1 =
    decide (calls.count .next < ms.length)
  gives : ∀ calls, (Cursor.next (Cursor.afterAll calls c)).1 =
    (ms[calls.count .next]?).elim (.error .exhausted)
      fun m => .ok (c.contraction.selection m.vertices)
  /-- The captures are those of the latest match. -/
  captures : ∀ calls capture, Cursor.captured (Cursor.afterAll calls c) capture =
    (ms.take (calls.count .next)).getLast?.elim ∅
      fun m => c.contraction.expand (m.captured capture)
  /-- Excluded is what stands behind the anchors of the matches given. -/
  excludes : ∀ calls, (Cursor.afterAll calls c).exclusions =
    .unionOf (ms.take (calls.count .next)) fun m => c.contraction.members m.anchor
  /-- No element is claimed twice. -/
  claims : ms.Pairwise fun m m' =>
    (c.contraction.expand m.primary).disjoint (c.contraction.expand m'.primary)

theorem Reached.afterAll {ms : List Match} {k : Nat} (h : Reached start (ms.take k) (ms.drop k) c)
    (hlive : start.contraction.view.graph.deadScope? start.contraction.view.mask.scopes = none)
    (calls : List Cursor.Call) :
    Reached start (ms.take (k + calls.count .next)) (ms.drop (k + calls.count .next))
      (Cursor.afterAll calls c) := by
  induction calls generalizing k c with
  | nil => exact h
  | cons call calls ih =>
    cases call with
    | hasNext => exact ih h.advance
    | next =>
      have hcount : k + (Cursor.Call.next :: calls).count .next = k + 1 + calls.count .next := by
        rw [List.count_cons_self]
        omega
      rw [hcount]
      exact ih (h.next hlive)

/-- What a state gives that was reached by `k` calls for a selection. -/
theorem Reached.next_fst {ms : List Match} {k : Nat}
    (h : Reached start (ms.take k) (ms.drop k) c)
    (hlive : start.contraction.view.graph.deadScope? start.contraction.view.mask.scopes = none) :
    (Cursor.next c).1 = (ms[k]?).elim (.error .exhausted)
      fun m => .ok (start.contraction.selection m.vertices) := by
  cases hm : ms[k]? with
  | none =>
    have hnil : ms.drop k = [] := List.drop_of_length_le (List.getElem?_eq_none_iff.1 hm)
    rw [hnil] at h
    exact congrArg Prod.fst h.awaits.next_nil
  | some m =>
    obtain ⟨hk, rfl⟩ := List.getElem?_eq_some_iff.1 hm
    rw [List.drop_eq_getElem_cons hk] at h
    rw [← h.contraction] at hlive ⊢
    exact congrArg Prod.fst (h.awaits.next_cons hlive)

theorem Awaits.yields {ms : List Match} (h : c.Awaits ms)
    (hlive : c.contraction.view.graph.deadScope? c.contraction.view.mask.scopes = none) :
    ∃ c', Cursor.Yields c (ms.map fun m => c.contraction.selection m.vertices) c' := by
  induction ms generalizing c with
  | nil => exact ⟨_, .spent h.hasNext_eq⟩
  | cons m ms ih =>
    have hadvance := h.advance
    rw [← contraction_advance] at hlive ⊢
    have hnext := hadvance.next_cons hlive
    obtain ⟨c', hy⟩ := ih hadvance.accept hlive
    refine ⟨c', .more h.hasNext_eq (congrArg Prod.fst hnext) ?_⟩
    show Cursor.Yields (MotifCursor.next c.advance).2 _ c'
    rw [hnext]
    exact hy

/-- Matches of one search claim nothing twice. -/
theorem Awaits.claims {ms : List Match} (h : c.Awaits ms) : ms.Pairwise fun m m' =>
    (c.contraction.expand m.primary).disjoint (c.contraction.expand m'.primary) := by
  have hclaim : ∀ m ∈ ms, c.contraction.expand m.primary = c.contraction.members m.anchor := by
    intro m hm
    rw [← h.rest] at hm
    rw [(h.usable.primary_of_matchAt? (Matcher.mem_allMatches.1 hm).2).2,
      Contraction.expand_singleton]
  have hdistinct : ms.Pairwise fun m m' => m.anchor ≠ m'.anchor := by
    have hasc := Matcher.ascending_allMatches c.matcher c.contraction.target c.exclusions c.firstOnly
    rw [h.rest, List.pairwise_map] at hasc
    exact hasc.imp Nat.ne_of_lt
  obtain ⟨v, test, hc⟩ := h.contracts
  refine hdistinct.imp_of_mem fun {m m'} hm hm' hne => ?_
  rw [hclaim m hm, hclaim m' hm', IdSet.disjoint_iff, hc]
  intro e he he'
  exact hne (Contraction.eq_of_mem_members he he')

theorem Awaits.replays {ms : List Match} (h : c.Awaits ms) (hexclusions : c.exclusions = ∅)
    (hlast : c.last = none)
    (hlive : c.contraction.view.graph.deadScope? c.contraction.view.mask.scopes = none) :
    c.Replays ms := by
  have hreached : ∀ calls, Reached c (ms.take (List.count .next calls))
      (ms.drop (List.count .next calls)) (Cursor.afterAll calls c) := by
    intro calls
    have hstart : Reached c (ms.take 0) (ms.drop 0) c := ⟨h, rfl, hexclusions, hlast⟩
    have hrun := hstart.afterAll hlive calls
    rwa [Nat.zero_add] at hrun
  constructor
  case drains =>
    obtain ⟨c', hy⟩ := h.yields hlive
    exact ⟨c', hy, (Cursor.drain_eq_ok_iff (h.endsWithin.mono h.length_le)).2 hy⟩
  case asks =>
    intro calls
    rw [(hreached calls).awaits.hasNext_eq, List.length_drop, decide_eq_decide]
    omega
  case gives =>
    intro calls
    exact (hreached calls).next_fst hlive
  case captures =>
    intro calls capture
    have hr := hreached calls
    show (Cursor.afterAll calls c).captured capture = _
    rw [captured, hr.last, hr.contraction]
  case excludes =>
    intro calls
    exact (hreached calls).exclusions
  case claims =>
    exact h.claims

end MotifCursor

/-- **Stepping through the matches of a usable motif gives all of them.** Over a view whose
scopes are live, contracted or not, the cursor gives the matches of one search that excludes
nothing, in their order, whatever it is asked in between. -/
theorem MotifCursor.replays_of_validate {motif : Motif} {p : Nat} (hm : motif.validate = .ok p)
    {v : View} (hlive : ∀ s ∈ v.mask.scopes, v.graph.containsScope s = true)
    (test : Option VertexTest) (firstOnly : Bool) :
    ∃ m c, Matcher.ofMotif motif = .ok m ∧ MotifCursor.new v test motif firstOnly = .ok c ∧
      c.contraction = test.elim v.uncontracted v.contract ∧
      c.Replays (m.allMatches c.contraction.target ∅ firstOnly) := by
  have hof : Matcher.ofMotif motif = .ok ⟨motif, p, motif.searchOrder p⟩ := by
    rw [Matcher.ofMotif, hm]
    rfl
  have hnone : (test.elim v.uncontracted v.contract).view.graph.deadScope?
      (test.elim v.uncontracted v.contract).view.mask.scopes = none := by
    rw [Contraction.view_elim_contract]
    exact Graph.deadScope?_eq_none hlive
  exact ⟨_, _, hof, MotifCursor.new_of_ofMotif hof, rfl,
    (MotifCursor.awaits_start hof v test firstOnly).replays rfl rfl hnone⟩

/-- A merge reads two operations in a row, and one beside them. -/
def braided : Definition where
  name := "braided"
  stages :=
    [⟨"in", [], .source ⟨"hdfs", "in", none, true⟩⟩,
      ⟨"parse", ["in"], .each ⟨"parse", none, none, ["key"], .results⟩⟩,
      ⟨"clean", ["parse"], .each ⟨"clean", none, none, ["key"], .results⟩⟩,
      ⟨"trim", ["in"], .each ⟨"trim", none, none, ["key"], .results⟩⟩,
      ⟨"both", ["clean", "trim"], .merge⟩,
      ⟨"out", ["both"], .sink ⟨"hdfs", "out", none, true⟩⟩]

/-- With adjacent operations merged, two groups feed the merge: the cursor gives a match for
each, and the merge is part of both. -/
theorem replays_braided : ∃ g m c, braided.toGraph = .ok g ∧ feedsMerge.validate = .ok 0 ∧
    (∀ s ∈ (View.whole g).mask.scopes, g.containsScope s = true) ∧
      Matcher.ofMotif feedsMerge = .ok m ∧
        MotifCursor.new (.whole g) (some (.kind .each)) feedsMerge false = .ok c ∧
          c.Replays (m.allMatches c.contraction.target ∅ false) ∧
            (m.allMatches c.contraction.target ∅ false).map (fun mt =>
              ((c.contraction.expand mt.primary).toList, mt.secondary.toList)) =
              [([3, 4], [6]), ([5], [6])] := by
  have hany : (braided.toGraph.toOption.any fun g => (Matcher.ofMotif feedsMerge).toOption.any
      fun m => decide ((m.allMatches ((View.whole g).contract (.kind .each)).target ∅ false).map
        (fun mt => ((((View.whole g).contract (.kind .each)).expand mt.primary).toList,
          mt.secondary.toList)) = [([3, 4], [6]), ([5], [6])])) = true := by cbv
  obtain ⟨g, hd, hany⟩ := exists_ok_of_any hany
  obtain ⟨m, hm, hmatches⟩ := exists_ok_of_any hany
  have hvalid : feedsMerge.validate = .ok 0 := by cbv
  have hlive : ∀ s ∈ (View.whole g).mask.scopes, g.containsScope s = true :=
    fun s hs => (IdSet.mem_below.1 hs).2
  obtain ⟨m', c, hm', hc, hcontraction, hreplays⟩ :=
    MotifCursor.replays_of_validate hvalid hlive (some (.kind .each)) false
  cases hm.symm.trans hm'
  refine ⟨g, m, c, hd, hvalid, hlive, hm, hc, hreplays, ?_⟩
  rw [hcontraction]
  exact of_decide_eq_true hmatches

end Dataflow
