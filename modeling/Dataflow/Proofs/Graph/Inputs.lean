import Dataflow.Topology.Basic
import Dataflow.Proofs.Graph.Splicing

/-!
# The inputs of an element

Where the adjacency lists agree with the scopes, everything a traversal sees is a
statement about the scope arena. `Leads a b` says that some scope goes from `a` to
`b`; the inputs of an element are the origins of what enters it, sorted by ordinal
and then by id.

Results:

* `Agrees.mem_edgesOut`, `Agrees.mem_edgesIn`, `Agrees.mem_successors`,
  `Agrees.mem_predecessors`: adjacency in terms of scopes;
* `Agrees.incoming_eq`: the sorted inputs are the only sorted list of what enters;
* `Agrees.slots_eq`: two graphs whose scopes into an element correspond, in order and at the
  same positions, feed it from corresponding elements.
-/
namespace Dataflow
namespace Graph

variable {g g' : Graph}

/-- Some scope goes from `a` to `b`. -/
def Leads (g : Graph) (a b : ElementId) : Prop :=
  ∃ s sc, g.scope? s = some sc ∧ sc.origin = a ∧ sc.target = b

/-- `s` stands before `t` among the inputs of an element. -/
def Precedes (g : Graph) (s t : ScopeId) : Prop :=
  g.ordinalOf s < g.ordinalOf t ∨ (g.ordinalOf s = g.ordinalOf t ∧ s < t)

/-- The elements that feed `e`, one for each scope, in the order of the inputs. -/
def inputs (g : Graph) (e : ElementId) : List ElementId := (g.edgesIn e).map Prod.snd

/-- The positions of the inputs of `e`, each with the element that feeds it there. -/
def slots (g : Graph) (e : ElementId) : List (Nat × ElementId) :=
  (g.edgesIn e).map fun i => (g.ordinalOf i.1, i.2)

theorem map_snd_slots (g : Graph) (e : ElementId) : (g.slots e).map Prod.snd = g.inputs e := by
  simp [slots, inputs]

/-- `t` in place of `b`. -/
def instead (b t e : ElementId) : ElementId := if e = b then t else e

theorem instead_self (b t : ElementId) : instead b t b = t := if_pos rfl

theorem instead_of_ne {b t e : ElementId} (h : e ≠ b) : instead b t e = e := if_neg h

theorem apply_instead {V : Type _} {val : ElementId → V} {b t : ElementId}
    (h : val t = val b) (e : ElementId) : val (instead b t e) = val e := by
  by_cases he : e = b
  · rw [he, instead_self, h]
  · rw [instead_of_ne he]

theorem ordinalOf_eq {s : ScopeId} {sc : Scope} (h : g.scope? s = some sc) :
    g.ordinalOf s = sc.ordinal := by
  rw [ordinalOf, h]; rfl

theorem Precedes.asymm {s t : ScopeId} (h : g.Precedes s t) (h' : g.Precedes t s) : False := by
  rcases h with h | ⟨h, hs⟩ <;> rcases h' with h' | ⟨h', hs'⟩
  · exact Nat.lt_asymm h h'
  · exact Nat.lt_irrefl _ (h' ▸ h)
  · exact Nat.lt_irrefl _ (h ▸ h')
  · exact Nat.lt_asymm hs hs'

/-! ## Adjacency in terms of scopes -/

theorem Agrees.lt_size_of_leads (h : g.Agrees) {a b : ElementId} (hl : g.Leads a b) :
    a < g.size ∧ b < g.size := by
  obtain ⟨s, sc, hs, rfl, rfl⟩ := hl
  exact ⟨h.origin_lt hs, h.target_lt hs⟩

theorem Agrees.mem_edgesOut (h : g.Agrees) {a t : ElementId} {s : ScopeId} :
    (s, t) ∈ g.edgesOut a ↔ ∃ sc, g.scope? s = some sc ∧ sc.origin = a ∧ sc.target = t := by
  simp only [edgesOut, List.mem_filterMap, Option.map_eq_some_iff, Prod.mk.injEq]
  constructor
  · rintro ⟨s', hs', sc, hsc, rfl, rfl⟩
    obtain ⟨sc', hsc', ho⟩ := (h.outgoing_iff a s').1 hs'
    rw [hsc] at hsc'; cases hsc'
    exact ⟨sc, hsc, ho, rfl⟩
  · rintro ⟨sc, hsc, ho, rfl⟩
    exact ⟨s, (h.outgoing_iff a s).2 ⟨sc, hsc, ho⟩, sc, hsc, rfl, rfl⟩

theorem Agrees.mem_incoming (h : g.Agrees) {e : ElementId} {s : ScopeId} :
    s ∈ g.incoming e ↔ ∃ sc, g.scope? s = some sc ∧ sc.target = e := by
  rw [incoming, List.mem_mergeSort, h.arrivals_iff]

theorem Agrees.mem_edgesIn (h : g.Agrees) {a e : ElementId} {s : ScopeId} :
    (s, a) ∈ g.edgesIn e ↔ ∃ sc, g.scope? s = some sc ∧ sc.origin = a ∧ sc.target = e := by
  simp only [edgesIn, List.mem_filterMap, Option.map_eq_some_iff, Prod.mk.injEq]
  constructor
  · rintro ⟨s', hs', sc, hsc, rfl, rfl⟩
    obtain ⟨sc', hsc', ht⟩ := h.mem_incoming.1 hs'
    rw [hsc] at hsc'; cases hsc'
    exact ⟨sc, hsc, rfl, ht⟩
  · rintro ⟨sc, hsc, rfl, ht⟩
    exact ⟨s, h.mem_incoming.2 ⟨sc, hsc, ht⟩, sc, hsc, rfl, rfl⟩

theorem Agrees.mem_successors (h : g.Agrees) {a b : ElementId} :
    b ∈ g.successors a ↔ g.Leads a b := by
  simp only [successors, Topology.successors, IdSet.mem_ofList, topology, List.mem_map]
  constructor
  · rintro ⟨⟨s, t⟩, hs, rfl⟩
    obtain ⟨sc, hsc, ho, ht⟩ := h.mem_edgesOut.1 hs
    exact ⟨s, sc, hsc, ho, ht⟩
  · rintro ⟨s, sc, hsc, ho, ht⟩
    exact ⟨(s, b), h.mem_edgesOut.2 ⟨sc, hsc, ho, ht⟩, rfl⟩

theorem Agrees.mem_inputs (h : g.Agrees) {a e : ElementId} : a ∈ g.inputs e ↔ g.Leads a e := by
  simp only [inputs, List.mem_map]
  constructor
  · rintro ⟨⟨s, o⟩, hs, rfl⟩
    obtain ⟨sc, hsc, ho, ht⟩ := h.mem_edgesIn.1 hs
    exact ⟨s, sc, hsc, ho, ht⟩
  · rintro ⟨s, sc, hsc, ho, ht⟩
    exact ⟨(s, a), h.mem_edgesIn.2 ⟨sc, hsc, ho, ht⟩, rfl⟩

theorem Agrees.mem_predecessors (h : g.Agrees) {a b : ElementId} :
    a ∈ g.predecessors b ↔ g.Leads a b := by
  rw [← h.mem_inputs]
  exact IdSet.mem_ofList

/-! ## The order of the inputs -/

theorem Agrees.incoming_nodup (h : g.Agrees) (e : ElementId) : (g.incoming e).Nodup :=
  (List.mergeSort_perm _ _).nodup_iff.2 (h.arrivals_nodup e)

theorem Agrees.incoming_sorted (h : g.Agrees) (e : ElementId) :
    (g.incoming e).Pairwise g.Precedes := by
  -- on plain numbers, since an id hides its order from the decision procedure
  have htrans : ∀ a b c x y z : Nat, (a < b ∨ a = b ∧ x ≤ y) → (b < c ∨ b = c ∧ y ≤ z) →
      (a < c ∨ a = c ∧ x ≤ z) := by omega
  have htotal : ∀ a b x y : Nat, (a < b ∨ a = b ∧ x ≤ y) ∨ (b < a ∨ b = a ∧ y ≤ x) := by omega
  have hs : (g.incoming e).Pairwise fun s t =>
      decide (g.ordinalOf s < g.ordinalOf t ∨ (g.ordinalOf s = g.ordinalOf t ∧ s ≤ t)) = true :=
    List.pairwise_mergeSort
      (fun a b c hab hbc => by
        simp only [decide_eq_true_eq] at hab hbc ⊢
        exact htrans _ _ _ _ _ _ hab hbc)
      (fun a b => by
        simp only [Bool.or_eq_true, decide_eq_true_eq]
        exact htotal _ _ _ _)
      (g.arrivals e)
  refine (hs.and (h.incoming_nodup e)).imp ?_
  rintro a b ⟨hab, hne⟩
  rcases of_decide_eq_true hab with hlt | ⟨heq, hle⟩
  · exact .inl hlt
  · exact .inr ⟨heq, Nat.lt_of_le_of_ne hle hne⟩

/-- What enters an element has one sorted list. -/
theorem Agrees.incoming_eq (h : g.Agrees) {e : ElementId} {l : List ScopeId}
    (hmem : ∀ s, s ∈ l ↔ ∃ sc, g.scope? s = some sc ∧ sc.target = e)
    (hsorted : l.Pairwise g.Precedes) : g.incoming e = l := by
  have hnodup : l.Nodup := hsorted.imp fun hst => by
    rintro rfl; exact hst.asymm hst
  have hperm : (g.incoming e).Perm l := by
    rw [List.perm_ext_iff_of_nodup (h.incoming_nodup e) hnodup]
    intro s
    rw [h.mem_incoming, hmem]
  exact hperm.eq_of_pairwise (fun _ _ _ _ hab hba => absurd hba fun hba => hab.asymm hba)
    (h.incoming_sorted e) hsorted

theorem Agrees.edgesIn_eq (h : g.Agrees) (e : ElementId) :
    g.edgesIn e = (g.incoming e).map fun s => (s, (g.scope? s).elim 0 Scope.origin) := by
  have hlive : ∀ s ∈ g.incoming e, ∃ sc, g.scope? s = some sc := fun s hs => by
    obtain ⟨sc, hsc, -⟩ := h.mem_incoming.1 hs
    exact ⟨sc, hsc⟩
  rw [edgesIn]
  generalize g.incoming e = l at hlive
  induction l with
  | nil => rfl
  | cons s rest ih =>
    obtain ⟨sc, hsc⟩ := hlive s List.mem_cons_self
    have ih := ih fun t ht => hlive t (List.mem_cons_of_mem s ht)
    simp only [List.filterMap_cons, hsc, Option.map_some, List.map_cons, ih, Option.elim_some]

theorem Agrees.inputs_eq (h : g.Agrees) (e : ElementId) :
    g.inputs e = (g.incoming e).map fun s => (g.scope? s).elim 0 Scope.origin := by
  rw [inputs, h.edgesIn_eq, List.map_map]
  rfl

theorem Agrees.slots_eq_map (h : g.Agrees) (e : ElementId) : g.slots e =
    (g.incoming e).map fun s => (g.ordinalOf s, (g.scope? s).elim 0 Scope.origin) := by
  rw [slots, h.edgesIn_eq, List.map_map]
  rfl

/-- Two graphs feed `e` and `e'` from corresponding elements if `ρ` sends the scopes into `e` in
the one onto those into `e'` in the other, in order and at the same positions. -/
theorem Agrees.slots_eq (h : g.Agrees) (h' : g'.Agrees) {e e' : ElementId}
    (ρ : ScopeId → ScopeId) (κ : ElementId → ElementId)
    (hto : ∀ s sc, g.scope? s = some sc → sc.target = e →
      ∃ sc', g'.scope? (ρ s) = some sc' ∧ sc'.target = e' ∧ sc'.ordinal = sc.ordinal ∧
        sc'.origin = κ sc.origin)
    (honto : ∀ s' sc', g'.scope? s' = some sc' → sc'.target = e' →
      ∃ s sc, g.scope? s = some sc ∧ sc.target = e ∧ ρ s = s')
    (hmono : ∀ s ∈ g.incoming e, ∀ t ∈ g.incoming e, g.ordinalOf s = g.ordinalOf t → s < t →
      ρ s < ρ t) :
    g'.slots e' = (g.slots e).map (Prod.map id κ) := by
  have hord : ∀ s ∈ g.incoming e, g'.ordinalOf (ρ s) = g.ordinalOf s := by
    intro s hs
    obtain ⟨sc, hsc, ht⟩ := h.mem_incoming.1 hs
    obtain ⟨sc', hsc', -, hk, -⟩ := hto s sc hsc ht
    rw [ordinalOf_eq hsc, ordinalOf_eq hsc', hk]
  have hin : g'.incoming e' = (g.incoming e).map ρ := by
    refine h'.incoming_eq (fun s' => ?_) ?_
    · rw [List.mem_map]
      constructor
      · rintro ⟨s, hs, rfl⟩
        obtain ⟨sc, hsc, ht⟩ := h.mem_incoming.1 hs
        obtain ⟨sc', hsc', ht', -⟩ := hto s sc hsc ht
        exact ⟨sc', hsc', ht'⟩
      · rintro ⟨sc', hsc', ht'⟩
        obtain ⟨s, sc, hsc, ht, rfl⟩ := honto s' sc' hsc' ht'
        exact ⟨s, h.mem_incoming.2 ⟨sc, hsc, ht⟩, rfl⟩
    · refine List.pairwise_map.2 ((h.incoming_sorted e).imp_of_mem ?_)
      intro s t hs ht hst
      unfold Precedes at hst ⊢
      rw [hord s hs, hord t ht]
      exact hst.imp_right fun ⟨heq, hlt⟩ => ⟨heq, hmono s hs t ht heq hlt⟩
  rw [h'.slots_eq_map, h.slots_eq_map, hin, List.map_map, List.map_map]
  refine List.map_congr_left fun s hs => ?_
  obtain ⟨sc, hsc, ht⟩ := h.mem_incoming.1 hs
  obtain ⟨sc', hsc', -, -, ho⟩ := hto s sc hsc ht
  simp only [Function.comp_apply, Prod.map, id, hord s hs, hsc, hsc', Option.elim_some, ho]

/-- Two graphs feed `e` at the same positions if `σ` sends the scopes into `e` in the one onto
those in the other, whatever their order. -/
theorem Agrees.slots_perm (h : g.Agrees) (h' : g'.Agrees) {e : ElementId}
    (σ : ScopeId → ScopeId) (κ : ElementId → ElementId)
    (hfrom : ∀ s sc', g'.scope? s = some sc' → sc'.target = e →
      ∃ sc, g.scope? (σ s) = some sc ∧ sc.target = e ∧ sc.ordinal = sc'.ordinal ∧
        sc.origin = κ sc'.origin)
    (honto : ∀ s sc, g.scope? s = some sc → sc.target = e →
      ∃ s' sc', g'.scope? s' = some sc' ∧ sc'.target = e ∧ σ s' = s)
    (hinj : ∀ s ∈ g'.incoming e, ∀ t ∈ g'.incoming e, σ s = σ t → s = t) :
    ((g'.slots e).map (Prod.map id κ)).Perm (g.slots e) := by
  have hin : ((g'.incoming e).map σ).Perm (g.incoming e) := by
    have hnodup : ((g'.incoming e).map σ).Nodup := List.pairwise_map.2
      ((h'.incoming_nodup e).imp_of_mem fun hs ht hne heq => hne (hinj _ hs _ ht heq))
    refine (List.perm_ext_iff_of_nodup hnodup (h.incoming_nodup e)).2 fun s => ?_
    rw [List.mem_map, h.mem_incoming]
    constructor
    · rintro ⟨s', hs', rfl⟩
      obtain ⟨sc', hsc', ht⟩ := h'.mem_incoming.1 hs'
      obtain ⟨sc, hsc, ht', -⟩ := hfrom s' sc' hsc' ht
      exact ⟨sc, hsc, ht'⟩
    · rintro ⟨sc, hsc, ht⟩
      obtain ⟨s', sc', hsc', ht', hσ⟩ := honto s sc hsc ht
      exact ⟨s', h'.mem_incoming.2 ⟨sc', hsc', ht'⟩, hσ⟩
  have hmap := hin.map fun s => (g.ordinalOf s, (g.scope? s).elim 0 Scope.origin)
  rw [h.slots_eq_map, h'.slots_eq_map, List.map_map]
  rw [List.map_map] at hmap
  refine List.Perm.trans (List.Perm.of_eq (List.map_congr_left fun s hs => ?_)) hmap
  obtain ⟨sc', hsc', ht⟩ := h'.mem_incoming.1 hs
  obtain ⟨sc, hsc, -, hk, ho⟩ := hfrom s sc' hsc' ht
  simp [ordinalOf_eq hsc', ordinalOf_eq hsc, hsc, hsc', hk, ho]

/-- `Agrees.slots_eq` where the scopes keep their ids. -/
theorem Agrees.slots_of_kept (h : g.Agrees) (h' : g'.Agrees) {e e' : ElementId}
    (κ : ElementId → ElementId)
    (hto : ∀ s sc, g.scope? s = some sc → sc.target = e →
      ∃ sc', g'.scope? s = some sc' ∧ sc'.target = e' ∧ sc'.ordinal = sc.ordinal ∧
        sc'.origin = κ sc.origin)
    (honto : ∀ s sc', g'.scope? s = some sc' → sc'.target = e' →
      ∃ sc, g.scope? s = some sc ∧ sc.target = e) :
    g'.slots e' = (g.slots e).map (Prod.map id κ) := by
  refine h.slots_eq h' id κ hto (fun s sc' hs ht => ?_) fun _ _ _ _ _ hlt => hlt
  obtain ⟨sc, hsc, ht'⟩ := honto s sc' hs ht
  exact ⟨s, sc, hsc, ht', rfl⟩

theorem inputs_of_slots {e : ElementId} {κ : ElementId → ElementId}
    (h : g'.slots e = (g.slots e).map (Prod.map id κ)) :
    g'.inputs e = (g.inputs e).map κ := by
  rw [← map_snd_slots, ← map_snd_slots, h, List.map_map, List.map_map]
  rfl

/-- Where corresponding elements have the same values, `e` receives the same. -/
theorem map_slots_eq {V : Type _} {e : ElementId} {κ : ElementId → ElementId}
    {val : ElementId → V} (hκ : ∀ a, val (κ a) = val a)
    (h : g'.slots e = (g.slots e).map (Prod.map id κ)) :
    (g'.slots e).map (Prod.map id val) = (g.slots e).map (Prod.map id val) := by
  rw [h, List.map_map]
  exact List.map_congr_left fun x _ => Prod.ext rfl (hκ x.2)

theorem map_inputs_eq {V : Type _} {e : ElementId} {val : ElementId → V}
    (h : (g'.slots e).map (Prod.map id val) = (g.slots e).map (Prod.map id val)) :
    (g'.inputs e).map val = (g.inputs e).map val := by
  have hmap := congrArg (List.map Prod.snd) h
  rw [List.map_map, List.map_map] at hmap
  rw [← map_snd_slots, ← map_snd_slots, List.map_map, List.map_map]
  exact hmap

end Graph
end Dataflow
