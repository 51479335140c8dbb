import Mathlib.Logic.Relation
import Dataflow.Proofs.Flow.Insertion
import Dataflow.Proofs.Flow.Removal

/-!
# What rewiring connects

An element that one scope enters can be left out: what reads it reads what feeds it
instead. `Skips g g' n o` says that `g'` is `g` with `n` left out, which `o` alone
feeds. Nothing else is connected anew or parted, and every input stays at its position.
That is what an insertion does, read backwards, and what splicing an element out does,
in a graph with cycles too. It fails in one case: where the element is its own single
input, its outputs have nothing to be wired to and are lost.

Results:

* `skips_insertAfter`, `skips_insertOnScope`: the two insertions;
* `skips_removePassThrough_iff`, `slots_removePassThrough_self`: splicing out, and the case in
  which inputs are lost;
* `Agrees.keeps_connections`: these together, with replacement in a graph without cycles;
* `selfFed_loses_input`: a merge that loses its input.
-/
namespace Dataflow
namespace Graph

open Relation

variable {g g' : Graph} {n o : ElementId}

/-- `g'` is `g` with `n` left out, which `o` alone feeds: the other elements are the same, the
same of them are connected, and each is fed at the same positions from the same elements, with
`o` in the place of `n`. -/
structure Skips (g g' : Graph) (n o : ElementId) : Prop where
  gone : g'.contains n = false
  element? : ∀ e, e ≠ n → g'.element? e = g.element? e
  feed : ∃ k, g.slots n = [(k, o)]
  reaches : ∀ u v, u ≠ n → v ≠ n → (TransGen g.Leads u v ↔ TransGen g'.Leads u v)
  slots : ∀ e, e ≠ n → ((g.slots e).map (Prod.map id (instead n o))).Perm (g'.slots e)

/-! ## Walks past an element -/

/-- Two graphs that feed `e` at the same positions from corresponding elements. -/
theorem leads_iff_of_slots (h : g.Agrees) (h' : g'.Agrees) {κ : ElementId → ElementId}
    {e : ElementId} (hslots : ((g.slots e).map (Prod.map id κ)).Perm (g'.slots e))
    {a : ElementId} : g'.Leads a e ↔ ∃ a', g.Leads a' e ∧ κ a' = a := by
  have hin : ((g.inputs e).map κ).Perm (g'.inputs e) := by
    have hmap := hslots.map Prod.snd
    rw [List.map_map, map_snd_slots] at hmap
    rw [← map_snd_slots, List.map_map]
    exact hmap
  simp only [← h'.mem_inputs, ← hin.mem_iff, List.mem_map, h.mem_inputs]

/-- A walk through `n` goes on from `o`, the only element before it. -/
theorem transGen_iff_of_slots (h : g.Agrees) (h' : g'.Agrees) (hne : o ≠ n)
    (hfeed : ∀ a, g.Leads a n ↔ a = o) (hnone : ∀ a, ¬ g'.Leads a n)
    (hslots : ∀ e, e ≠ n → ((g.slots e).map (Prod.map id (instead n o))).Perm (g'.slots e))
    {u v : ElementId} (hu : u ≠ n) (hv : v ≠ n) :
    TransGen g.Leads u v ↔ TransGen g'.Leads u v := by
  have hstep : ∀ {a c}, c ≠ n → g.Leads a c → g'.Leads (instead n o a) c := fun hc hl =>
    (leads_iff_of_slots h h' (hslots _ hc)).2 ⟨_, hl, rfl⟩
  constructor
  · intro huv
    obtain ⟨w, huw, hwv⟩ := TransGen.tail'_iff.1 huv
    have hwalk : ReflTransGen g'.Leads (instead n o u) (instead n o w) := by
      refine ReflTransGen.lift' (instead n o) (fun a c hl => ?_) _ _ huw
      show ReflTransGen g'.Leads (instead n o a) (instead n o c)
      by_cases hc : c = n
      · -- the step into `n` is one that is left out
        have ha := (hfeed a).1 (hc ▸ hl)
        rw [hc, ha, instead_self, instead_of_ne hne]
      · rw [instead_of_ne hc]
        exact .single (hstep hc hl)
    rw [instead_of_ne hu] at hwalk
    exact TransGen.tail'_iff.2 ⟨_, hwalk, hstep hv hwv⟩
  · refine TransGen.closed (fun a c hl => ?_) u v
    have hc : c ≠ n := fun hcn => hnone a (hcn ▸ hl)
    obtain ⟨b, hbc, hba⟩ := (leads_iff_of_slots h h' (hslots c hc)).1 hl
    by_cases hb : b = n
    · -- the step stands for the two around `n`
      have ha : a = o := by rw [← hba, hb, instead_self]
      subst hb
      exact .tail (.single ((hfeed a).2 ha)) hbc
    · rw [instead_of_ne hb] at hba
      exact .single (hba ▸ hbc)

theorem skips_of_slots (h : g.Agrees) (h' : g'.Agrees) (hgone : g'.contains n = false)
    (helement : ∀ e, e ≠ n → g'.element? e = g.element? e) {k : Nat}
    (hfeed : g.slots n = [(k, o)]) (hne : o ≠ n) (hnone : ∀ a, ¬ g'.Leads a n)
    (hslots : ∀ e, e ≠ n → ((g.slots e).map (Prod.map id (instead n o))).Perm (g'.slots e)) :
    Skips g g' n o where
  gone := hgone
  element? := helement
  feed := ⟨k, hfeed⟩
  reaches u v hu hv := by
    have honly : ∀ a, g.Leads a n ↔ a = o := fun a => by
      rw [← h.mem_inputs, ← map_snd_slots, hfeed]
      exact List.mem_singleton
    exact transGen_iff_of_slots h h' hne honly hnone hslots hu hv
  slots := hslots

/-- What is left of the inputs where only those from some elements stay. -/
theorem slots_eq_filter (h : g.Agrees) (h' : g'.Agrees) {e : ElementId} {q : ElementId → Bool}
    (hkept : ∀ s sc, sc.target = e →
      (g'.scope? s = some sc ↔ g.scope? s = some sc ∧ q sc.origin = true)) :
    g'.slots e = (g.slots e).filter fun x => q x.2 := by
  have hmem : ∀ s, s ∈ (g.incoming e).filter (fun s => q ((g.scope? s).elim 0 Scope.origin)) ↔
      ∃ sc, g'.scope? s = some sc ∧ sc.target = e := by
    intro s
    rw [List.mem_filter, h.mem_incoming]
    constructor
    · rintro ⟨⟨sc, hsc, ht⟩, hq⟩
      rw [hsc] at hq
      exact ⟨sc, (hkept s sc ht).2 ⟨hsc, hq⟩, ht⟩
    · rintro ⟨sc, hsc', ht⟩
      obtain ⟨hsc, hq⟩ := (hkept s sc ht).1 hsc'
      exact ⟨⟨sc, hsc, ht⟩, by rw [hsc]; exact hq⟩
  have hsame : ∀ s ∈ (g.incoming e).filter (fun s => q ((g.scope? s).elim 0 Scope.origin)),
      g'.scope? s = g.scope? s := by
    intro s hs
    obtain ⟨sc, hsc', ht⟩ := (hmem s).1 hs
    rw [hsc', ((hkept s sc ht).1 hsc').1]
  have hin := h'.incoming_eq hmem <| ((h.incoming_sorted e).filter _).imp_of_mem
    fun {s t} hs ht hst => by
      rw [Precedes, ordinalOf, ordinalOf, hsame s hs, hsame t ht]
      exact hst
  rw [h'.slots_eq_map, h.slots_eq_map, hin, List.filter_map]
  refine List.map_congr_left fun s hs => ?_
  rw [ordinalOf, ordinalOf, hsame s hs]

/-! ## Insertions -/

theorem Agrees.not_leads_size (h : g.Agrees) (a : ElementId) : ¬ g.Leads a g.size := fun hl =>
  Nat.lt_irrefl _ (h.lt_size_of_leads hl).2

theorem skips_insertAfter (h : g.Agrees) {id : ElementId} (hid : g.contains id = true)
    (x : Element) : Skips (g.insertAfter id x).2 g g.size id := by
  have hlt := lt_size_of_contains hid
  have hby := h.bypasses_insertAfter (x := x) hlt
  exact skips_of_slots (agrees_insertAfter h hlt x) h hby.gone hby.element?
    (h.slots_insertAfter_new hlt) hby.ne h.not_leads_size
    fun e he => List.Perm.of_eq (hby.slots e he).symm

theorem skips_insertOnScope (h : g.Agrees) {i : ScopeId} {sc : Scope} (hi : g.scope? i = some sc)
    (x : Element) : Skips (g.insertOnScope i x).2 g g.size sc.origin :=
  skips_of_slots (agrees_insertOnScope h hi x) h (contains_size g)
    (fun e he => by rw [element?_insertOnScope hi, if_neg he]) (h.slots_insertOnScope_new hi)
    (Nat.ne_of_lt (h.origin_lt hi)) h.not_leads_size fun _ he => h.slots_insertOnScope hi he

/-! ## Splicing out -/

/-- What is spliced out has one input. -/
theorem exists_arrivals_of_removePassThrough {p : ElementId}
    (hp : (g.removePassThrough p).1 = true) : ∃ i, g.arrivals p = [i] := by
  unfold removePassThrough at hp
  split at hp
  · next i ha => exact ⟨i, ha⟩
  · cases hp

section PassThrough

variable {p : ElementId} {i : ScopeId} {sc : Scope} (ha : g.arrivals p = [i])
  (hi : g.scope? i = some sc) (h : g.Agrees) (hp : g.contains p = true)
include ha hi h

theorem slots_of_arrivals : g.slots p = [(sc.ordinal, sc.origin)] :=
  (h.soleInput_of_arrivals ha).slots_eq h hi

include hp

theorem skips_removePassThrough (ho : sc.origin ≠ p) :
    Skips g (g.removePassThrough p).2 p sc.origin := by
  have hby := h.bypasses_removePassThrough ha hi hp ho
  exact skips_of_slots h (agrees_removePassThrough h ha hi) hby.gone hby.element?
    (slots_of_arrivals ha hi h) ho (fun _ hl => (h.leads_removePassThrough ha hi hp ho hl).1 rfl)
    fun e he => List.Perm.of_eq (hby.slots e he).symm

/-- An element that is its own input takes every scope with it that it touches. -/
theorem scope?_removePassThrough_self (ho : sc.origin = p) (s : ScopeId) :
    (g.removePassThrough p).2.scope? s =
      (g.scope? s).filter fun tc => decide (tc.origin ≠ p ∧ tc.target ≠ p) := by
  have hm := samePlaces_moveOutgoing g p sc.origin
  have hA := agrees_moveOutgoing h p (h.origin_lt hi)
  rw [removePassThrough_eq ha hi, hA.scope?_removeElement (by rw [hm.contains]; exact hp),
    h.scope?_moveOutgoing, ho]
  cases g.scope? s with
  | none => rfl
  | some tc =>
    by_cases hto : tc.origin = p
    · simp [Scope.rerouted, Scope.fromOrigin, hto, Option.filter]
    · simp [Scope.rerouted, hto]

/-- What such an element fed is fed by the others alone. -/
theorem slots_removePassThrough_self (ho : sc.origin = p) {e : ElementId} (he : e ≠ p) :
    (g.removePassThrough p).2.slots e = (g.slots e).filter fun x => decide (x.2 ≠ p) := by
  refine slots_eq_filter (q := fun a => decide (a ≠ p)) h (agrees_removePassThrough h ha hi)
    fun s tc ht => ?_
  rw [scope?_removePassThrough_self ha hi h hp ho, Option.filter_eq_some_iff]
  simp [ht, he]

theorem leads_removePassThrough_self (ho : sc.origin = p) {a c : ElementId} :
    (g.removePassThrough p).2.Leads a c ↔ g.Leads a c ∧ a ≠ p ∧ c ≠ p := by
  constructor
  · rintro ⟨s, tc, htc, rfl, rfl⟩
    rw [scope?_removePassThrough_self ha hi h hp ho, Option.filter_eq_some_iff] at htc
    exact ⟨⟨s, tc, htc.1, rfl, rfl⟩, of_decide_eq_true htc.2⟩
  · rintro ⟨⟨s, tc, htc, rfl, rfl⟩, hends⟩
    refine ⟨s, tc, ?_, rfl, rfl⟩
    rw [scope?_removePassThrough_self ha hi h hp ho, Option.filter_eq_some_iff]
    exact ⟨htc, decide_eq_true hends⟩

/-- Nothing is parted or connected anew, also where inputs are lost: no walk from elsewhere
enters an element that is its own input. -/
theorem transGen_removePassThrough {u v : ElementId} (hu : u ≠ p) (hv : v ≠ p) :
    TransGen g.Leads u v ↔ TransGen (g.removePassThrough p).2.Leads u v := by
  have hslots := slots_of_arrivals ha hi h
  by_cases ho : sc.origin = p
  · have hself : ∀ {a}, g.Leads a p → a = p := fun {a} hl => by
      rw [← h.mem_inputs, ← map_snd_slots, hslots, ho] at hl
      exact List.mem_singleton.1 hl
    constructor
    · intro huv
      have hoff : v ≠ p ∧ TransGen (g.removePassThrough p).2.Leads u v := by
        clear hv
        induction huv with
        | single hl =>
          have hv : _ ≠ p := fun hv => hu (hself (hv ▸ hl))
          exact ⟨hv, .single ((leads_removePassThrough_self ha hi h hp ho).2 ⟨hl, hu, hv⟩)⟩
        | tail _ hl ih =>
          have hv : _ ≠ p := fun hv => ih.1 (hself (hv ▸ hl))
          exact ⟨hv, ih.2.tail ((leads_removePassThrough_self ha hi h hp ho).2 ⟨hl, ih.1, hv⟩)⟩
      exact hoff.2
    · exact TransGen.mono (fun a c hl => ((leads_removePassThrough_self ha hi h hp ho).1 hl).1) u v
  · exact (skips_removePassThrough ha hi h hp ho).reaches u v hu hv

/-- The element can be left out exactly if it is not its own input, or feeds nothing else. -/
theorem skips_removePassThrough_iff : Skips g (g.removePassThrough p).2 p sc.origin ↔
    (sc.origin = p → ∀ e, g.Leads p e → e = p) := by
  have h' := agrees_removePassThrough h ha hi
  constructor
  · intro hskips ho e hl
    by_contra he
    have hl' := (leads_iff_of_slots h h' (hskips.slots e he)).2 ⟨p, hl, rfl⟩
    rw [instead_self, ho] at hl'
    exact ((leads_removePassThrough_self ha hi h hp ho).1 hl').2.1 rfl
  · intro hall
    by_cases ho : sc.origin = p
    · have hg := shrinks_removePassThrough ha hi
      have hgone : (g.removePassThrough p).2.contains p = false := by
        rw [Graph.contains, hg.element?, if_pos rfl]
        rfl
      refine ⟨hgone, fun e he => hg.element?_of_ne he, ⟨_, slots_of_arrivals ha hi h⟩,
        fun u v hu hv => transGen_removePassThrough ha hi h hp hu hv, fun e he => ?_⟩
      have hkept : ∀ x ∈ g.slots e, x.2 ≠ p := fun x hx hxp =>
        he (hall ho e (h.mem_inputs.1 (by
          rw [← map_snd_slots, List.mem_map]
          exact ⟨x, hx, hxp⟩)))
      have hsame : (g.slots e).map (Prod.map id (instead p sc.origin)) = g.slots e := by
        rw [ho]
        conv_rhs => rw [← List.map_id (g.slots e)]
        exact List.map_congr_left fun x hx => by simp [Prod.map, instead_of_ne (hkept x hx)]
      rw [hsame, slots_removePassThrough_self ha hi h hp ho he,
        List.filter_eq_self.2 fun x hx => decide_eq_true (hkept x hx)]
    · exact skips_removePassThrough ha hi h hp ho

end PassThrough

/-- Rewiring in any graph whose adjacency lists agree with its scopes, with cycles or without.
After an insertion, behind an element or on a scope, the new element is fed at position zero
from where it went in, and the graph with it left out is the one before. Where an element with
a single input is spliced out, nothing else is parted or connected anew. The graph is then the
one before with the element left out, unless that element is its own input and feeds another
one: its readers lose the inputs that they had from it. Where an element gives way to the one
that it alone feeds, in a graph without cycles, there are no cycles after it; the inputs of the
first become those of the second, and the other readers of the first read the second, all at
the same positions. -/
theorem Agrees.keeps_connections (h : g.Agrees) :
    (∀ id x n g', g.contains id = true → g.insertAfter id x = (n, g') →
      Skips g' g n id ∧ g'.element? n = some x ∧ g'.slots n = [(0, id)]) ∧
    (∀ i sc x n g', g.scope? i = some sc → g.insertOnScope i x = (n, g') →
      Skips g' g n sc.origin ∧ g'.element? n = some x ∧ g'.slots n = [(0, sc.origin)]) ∧
    (∀ p g', g.contains p = true → g.removePassThrough p = (true, g') →
      ∃ k o, g.slots p = [(k, o)] ∧
        (∀ u v, u ≠ p → v ≠ p → (TransGen g.Leads u v ↔ TransGen g'.Leads u v)) ∧
        (Skips g g' p o ↔ (o = p → ∀ e, g.Leads p e → e = p)) ∧
        (o = p → ∀ e, e ≠ p → g'.slots e = (g.slots e).filter fun x => decide (x.2 ≠ p))) ∧
    ∀ b t, g.contains b = true → g.Leads b t → (∀ a, g.Leads a t → a = b) → g.Acyclic →
      (g.replaceElement b t).Acyclic ∧ (g.replaceElement b t).slots t = g.slots b ∧
        ∀ e, e ≠ b → e ≠ t →
          (g.replaceElement b t).slots e = (g.slots e).map (Prod.map id (instead b t)) := by
  refine ⟨fun id x n g' hid heq => ?_, fun i sc x n g' hi heq => ?_, fun p g' hp heq => ?_,
    fun b t hb hlead honly hacyc => ?_⟩
  · obtain rfl : g.size = n := (fst_insertAfter id x).symm.trans (congrArg Prod.fst heq)
    obtain rfl : (g.insertAfter id x).2 = g' := congrArg Prod.snd heq
    exact ⟨skips_insertAfter h hid x, by rw [element?_insertAfter, if_pos rfl],
      h.slots_insertAfter_new (lt_size_of_contains hid)⟩
  · obtain rfl : g.size = n := (fst_insertOnScope i x).symm.trans (congrArg Prod.fst heq)
    obtain rfl : (g.insertOnScope i x).2 = g' := congrArg Prod.snd heq
    exact ⟨skips_insertOnScope h hi x, by rw [element?_insertOnScope hi, if_pos rfl],
      h.slots_insertOnScope_new hi⟩
  · obtain ⟨i, ha⟩ := exists_arrivals_of_removePassThrough (congrArg Prod.fst heq)
    obtain rfl : (g.removePassThrough p).2 = g' := congrArg Prod.snd heq
    obtain ⟨sc, hi, -⟩ := (h.arrivals_iff p i).1 (by rw [ha]; exact List.mem_singleton_self i)
    exact ⟨sc.ordinal, sc.origin, slots_of_arrivals ha hi h,
      fun u v hu hv => transGen_removePassThrough ha hi h hp hu hv,
      skips_removePassThrough_iff ha hi h hp,
      fun ho e he => slots_removePassThrough_self ha hi h hp ho he⟩
  · have hw : g.GivesWay b t := ⟨h, hacyc, hb, hlead, honly⟩
    exact ⟨hw.acyclic_replaceElement, hw.slots_self, fun e heb het => hw.slots_of_ne heb het⟩

/-- An element with one input and two readers, of which the second reads it at position one. -/
def wired : Graph :=
  let g := ["in", "p", "m", "r"].foldl (fun g name => (g.addElement ⟨name, .merge⟩).2)
    (empty "wired")
  (((g.addScope 2 3 0).2.addScope 3 4 0).2.addScope 3 5 1).2

theorem agrees_wired : wired.Agrees := by
  refine agrees_addScope (agrees_addScope (agrees_addScope ?_ ?_ ?_) ?_ ?_) ?_ ?_
  · exact agrees_addElement (agrees_addElement (agrees_addElement (agrees_addElement
      (agrees_empty _) _) _) _) _
  all_goals decide

theorem leads_wired {a c : ElementId} (hl : wired.Leads a c) :
    (a = 2 ∧ c = 3) ∨ (a = 3 ∧ (c = 4 ∨ c = 5)) := by
  obtain ⟨s, sc, hs, rfl, rfl⟩ := hl
  match s, hs with
  | 0, hs => cases hs; exact .inl ⟨rfl, rfl⟩
  | 1, hs => cases hs; exact .inr ⟨rfl, .inl rfl⟩
  | 2, hs => cases hs; exact .inr ⟨rfl, .inr rfl⟩
  | _ + 3, hs => cases hs

/-- A new element goes in behind it, or before one of its readers; it is spliced out; and its
first reader takes its place. -/
theorem wired_keeps_connections :
    Skips (wired.insertAfter 3 ⟨"n", .pipe⟩).2 wired 6 3 ∧
    Skips (wired.insertOnScope 2 ⟨"n", .pipe⟩).2 wired 6 3 ∧
    (∃ g', wired.removePassThrough 3 = (true, g') ∧ Skips wired g' 3 2) ∧
    (wired.replaceElement 3 4).Acyclic ∧
      (wired.replaceElement 3 4).slots 4 = [(0, 2)] ∧
      (wired.replaceElement 3 4).slots 5 = [(1, 4)] := by
  have hslots : wired.slots 3 = [(0, 2)] ∧ wired.slots 5 = [(1, 3)] := by decide +kernel
  obtain ⟨hafter, hon, hsplice, hreplace⟩ := agrees_wired.keeps_connections
  obtain ⟨k, o, hfeed, -, hskips, -⟩ := hsplice 3 _ rfl rfl
  obtain ⟨-, rfl⟩ : k = 0 ∧ o = 2 := by simpa [hslots.1] using hfeed.symm
  have hacyc : wired.Acyclic := ⟨id, fun a c hl => by
    rcases leads_wired hl with ⟨rfl, rfl⟩ | ⟨rfl, rfl | rfl⟩ <;> decide⟩
  obtain ⟨hacyc', hself, hother⟩ := hreplace 3 4 rfl ⟨1, _, rfl, rfl, rfl⟩
    (fun a hl => by
      rcases leads_wired hl with ⟨-, hc⟩ | ⟨ha, -⟩
      · cases hc
      · exact ha) hacyc
  refine ⟨(hafter 3 _ _ _ rfl rfl).1, (hon 2 _ _ _ _ rfl rfl).1,
    ⟨_, rfl, hskips.2 fun ho => absurd ho (by decide)⟩, hacyc', by rw [hself, hslots.1], ?_⟩
  rw [hother 5 (by decide) (by decide), hslots.2]
  rfl

/-- A pipe that reads itself, and a merge that reads the pipe. -/
def selfFed : Graph :=
  let g := ((empty "self-fed").addElement ⟨"p", .pipe⟩).2
  (((g.addElement ⟨"m", .merge⟩).2.addScope 2 2 0).2.addScope 2 3 0).2

/-- The pipe is spliced out, with success, and the merge is left without its input. -/
theorem selfFed_loses_input : selfFed.Agrees ∧ selfFed.contains 2 = true ∧
    ∃ g', selfFed.removePassThrough 2 = (true, g') ∧ g'.contains 3 = true ∧
      selfFed.slots 3 = [(0, 2)] ∧ g'.slots 3 = [] := by
  refine ⟨?_, rfl, _, rfl, ?_⟩
  · refine agrees_addScope (agrees_addScope ?_ ?_ ?_) ?_ ?_
    · exact agrees_addElement (agrees_addElement (agrees_empty _) _) _
    all_goals decide
  · decide +kernel

end Graph
end Dataflow
