import Dataflow.Proofs.Graph.Arena

/-!
# What removals and rewirings do to the arenas

`removeScope`, `removeElement`, `retarget` and `reorigin` each change one scope or
drop some; the compound rewirings are folds of these over an adjacency list. Each
is described by its effect on `scope?` as a function of the scope alone: `rerouted`
for a scope whose origin moves, `spliced` for one at a replaced element.
-/
namespace Dataflow

/-- The scope with another origin; its resolved fields are lost. -/
def Scope.fromOrigin (sc : Scope) (o : ElementId) : Scope := { sc with origin := o, fields := none }

/-- The scope with another target and position; its resolved fields are lost. -/
def Scope.toTarget (sc : Scope) (t : ElementId) (k : Nat) : Scope :=
  { sc with target := t, ordinal := k, fields := none }

/-- What becomes of a scope when everything that leaves `e` starts at `o` instead. -/
def Scope.rerouted (e o : ElementId) (sc : Scope) : Scope :=
  if sc.origin = e then sc.fromOrigin o else sc

@[simp] theorem Scope.target_rerouted {e o : ElementId} {sc : Scope} :
    (sc.rerouted e o).target = sc.target := by
  unfold rerouted; split <;> rfl

@[simp] theorem Scope.ordinal_rerouted {e o : ElementId} {sc : Scope} :
    (sc.rerouted e o).ordinal = sc.ordinal := by
  unfold rerouted; split <;> rfl

theorem Scope.origin_rerouted {e o : ElementId} {sc : Scope} :
    (sc.rerouted e o).origin = if sc.origin = e then o else sc.origin := by
  unfold rerouted; split <;> rfl

namespace Graph

variable {g : Graph}

/-! ## Removing scopes -/

theorem removeScope_of_none {i : ScopeId} (h : g.scope? i = none) : (g.removeScope i).2 = g := by
  simp only [removeScope, h]

theorem scope?_removeScope (i s : ScopeId) :
    (g.removeScope i).2.scope? s = if s = i then none else g.scope? s := by
  cases h : g.scope? i with
  | none =>
    rw [removeScope_of_none h]
    split
    · next hs => rw [hs, h]
    · rfl
  | some sc =>
    simp only [removeScope, h, scope?_modifyNode]
    exact scope?_setScope (lt_scopes_of_scope? h) s

theorem element?_removeScope (i : ScopeId) (e : ElementId) :
    (g.removeScope i).2.element? e = g.element? e := by
  simp only [removeScope]
  split
  · rfl
  · simp only [element?_modifyNode, implies_true]
    rfl

@[simp] theorem size_removeScope (i : ScopeId) : (g.removeScope i).2.size = g.size := by
  simp only [removeScope]
  split
  · rfl
  · simp [setScope, size, modifyNode]

@[simp] theorem length_scopes_removeScope (i : ScopeId) :
    (g.removeScope i).2.scopes.length = g.scopes.length := by
  simp only [removeScope]
  split
  · rfl
  · simp [setScope]

/-- A scope that does not leave `e` is not in its list. -/
theorem Agrees.filter_outgoing (h : g.Agrees) {i : ScopeId} {e : ElementId}
    (hi : ∀ sc, g.scope? i = some sc → sc.origin ≠ e) :
    (g.outgoing e).filter (· != i) = g.outgoing e := by
  refine List.filter_eq_self.2 fun s hs => bne_iff_ne.2 ?_
  rintro rfl
  obtain ⟨sc, hsc, ho⟩ := (h.outgoing_iff e s).1 hs
  exact hi sc hsc ho

theorem Agrees.filter_arrivals (h : g.Agrees) {i : ScopeId} {e : ElementId}
    (hi : ∀ sc, g.scope? i = some sc → sc.target ≠ e) :
    (g.arrivals e).filter (· != i) = g.arrivals e := by
  refine List.filter_eq_self.2 fun s hs => bne_iff_ne.2 ?_
  rintro rfl
  obtain ⟨sc, hsc, ht⟩ := (h.arrivals_iff e s).1 hs
  exact hi sc hsc ht

theorem Agrees.outgoing_removeScope (h : g.Agrees) (i : ScopeId) (e : ElementId) :
    (g.removeScope i).2.outgoing e = (g.outgoing e).filter (· != i) := by
  cases hi : g.scope? i with
  | none =>
    rw [removeScope_of_none hi, h.filter_outgoing]
    intro sc hsc
    rw [hi] at hsc
    cases hsc
  | some sc =>
    simp only [removeScope, hi, outgoing_modifyNode, implies_true, outgoing_drop]
    split
    · rfl
    · next he =>
      refine (h.filter_outgoing fun sc' hsc' ho => ?_).symm
      rw [hi] at hsc'
      cases hsc'
      exact he ho.symm

theorem Agrees.arrivals_removeScope (h : g.Agrees) (i : ScopeId) (e : ElementId) :
    (g.removeScope i).2.arrivals e = (g.arrivals e).filter (· != i) := by
  cases hi : g.scope? i with
  | none =>
    rw [removeScope_of_none hi, h.filter_arrivals]
    intro sc hsc
    rw [hi] at hsc
    cases hsc
  | some sc =>
    simp only [removeScope, hi, arrivals_modifyNode, implies_true, arrivals_drop]
    split
    · rfl
    · next he =>
      refine (h.filter_arrivals fun sc' hsc' ht => ?_).symm
      rw [hi] at hsc'
      cases hsc'
      exact he ht.symm

theorem agrees_removeScope (h : g.Agrees) (i : ScopeId) : (g.removeScope i).2.Agrees where
  outgoing_iff e s := by
    rw [h.outgoing_removeScope, scope?_removeScope]
    by_cases hs : s = i <;> simp [hs, h.outgoing_iff]
  arrivals_iff e s := by
    rw [h.arrivals_removeScope, scope?_removeScope]
    by_cases hs : s = i <;> simp [hs, h.arrivals_iff]
  outgoing_nodup e := by rw [h.outgoing_removeScope]; exact (h.outgoing_nodup e).filter _
  arrivals_nodup e := by rw [h.arrivals_removeScope]; exact (h.arrivals_nodup e).filter _

theorem scope?_removeScopes (ids : List ScopeId) (s : ScopeId) :
    (g.removeScopes ids).scope? s = if s ∈ ids then none else g.scope? s := by
  induction ids generalizing g with
  | nil => simp [removeScopes]
  | cons i rest ih =>
    have hr : g.removeScopes (i :: rest) = (g.removeScope i).2.removeScopes rest := rfl
    rw [hr, ih, scope?_removeScope]
    by_cases hs : s ∈ rest
    · simp [hs]
    · by_cases hi : s = i <;> simp [hs, hi]

theorem element?_removeScopes (ids : List ScopeId) (e : ElementId) :
    (g.removeScopes ids).element? e = g.element? e := by
  induction ids generalizing g with
  | nil => rfl
  | cons i rest ih => exact (ih (g := (g.removeScope i).2)).trans (element?_removeScope i e)

theorem size_removeScopes (ids : List ScopeId) : (g.removeScopes ids).size = g.size := by
  induction ids generalizing g with
  | nil => rfl
  | cons i rest ih => exact (ih (g := (g.removeScope i).2)).trans (size_removeScope i)

theorem agrees_removeScopes (h : g.Agrees) (ids : List ScopeId) : (g.removeScopes ids).Agrees := by
  induction ids generalizing g with
  | nil => exact h
  | cons i rest ih => exact ih (agrees_removeScope h i)

/-! ## Removing an element -/

theorem element?_clear (i e : ElementId) :
    (g.modifyNode i fun n => { n with element := none }).element? e =
      if e = i then none else g.element? e := by
  simp only [element?, modifyNode, List.getElem?_modify]
  by_cases h : e = i
  · subst h; cases g.nodes[e]? <;> simp
  · cases g.nodes[e]? <;> simp [h, Ne.symm h]

theorem element?_removeElement (i e : ElementId) :
    (g.removeElement i).2.element? e = if e = i then none else g.element? e := by
  simp only [removeElement]
  split
  · next h =>
    split
    · next he => rw [he, h]
    · rfl
  · rw [element?_clear, element?_removeScopes]

@[simp] theorem size_removeElement (i : ElementId) : (g.removeElement i).2.size = g.size := by
  simp only [removeElement]
  split
  · rfl
  · rw [size_modifyNode, size_removeScopes]

theorem Agrees.scope?_removeElement (h : g.Agrees) {i : ElementId} (hi : g.contains i = true)
    (s : ScopeId) : (g.removeElement i).2.scope? s =
      (g.scope? s).filter fun sc => decide (sc.origin ≠ i ∧ sc.target ≠ i) := by
  obtain ⟨x, hx⟩ := Option.isSome_iff_exists.1 hi
  simp only [removeElement, hx, scope?_modifyNode, scope?_removeScopes, List.mem_append,
    h.outgoing_iff, h.arrivals_iff]
  cases hs : g.scope? s with
  | none => simp
  | some sc =>
    by_cases ho : sc.origin = i
    · simp [ho, Option.filter]
    · by_cases ht : sc.target = i <;> simp [ho, ht, Option.filter]

theorem agrees_removeElement (h : g.Agrees) (i : ElementId) : (g.removeElement i).2.Agrees := by
  simp only [removeElement]
  split
  · exact h
  · have h' := agrees_removeScopes h (g.outgoing i ++ g.arrivals i)
    exact {
      outgoing_iff := fun e s => by
        rw [outgoing_modifyNode (by intro; rfl)]; exact h'.outgoing_iff e s
      arrivals_iff := fun e s => by
        rw [arrivals_modifyNode (by intro; rfl)]; exact h'.arrivals_iff e s
      outgoing_nodup := fun e => by
        rw [outgoing_modifyNode (by intro; rfl)]; exact h'.outgoing_nodup e
      arrivals_nodup := fun e => by
        rw [arrivals_modifyNode (by intro; rfl)]; exact h'.arrivals_nodup e }

/-! ## Moving one end of a scope -/

theorem scope?_retarget (i : ScopeId) (t : ElementId) (k : Nat) (s : ScopeId) :
    (g.retarget i t k).scope? s =
      if s = i then (g.scope? i).map (·.toTarget t k) else g.scope? s := by
  cases h : g.scope? i with
  | none =>
    simp only [retarget, h, Option.map_none]
    split
    · next hs => rw [hs, h]
    · rfl
  | some sc =>
    simp only [retarget, h]
    rw [scope?_setScope (by simpa using lt_scopes_of_scope? h)]
    rfl

theorem scope?_reorigin (i : ScopeId) (o : ElementId) (s : ScopeId) :
    (g.reorigin i o).scope? s =
      if s = i then (g.scope? i).map (·.fromOrigin o) else g.scope? s := by
  cases h : g.scope? i with
  | none =>
    simp only [reorigin, h, Option.map_none]
    split
    · next hs => rw [hs, h]
    · rfl
  | some sc =>
    simp only [reorigin, h]
    rw [scope?_setScope (by simpa using lt_scopes_of_scope? h)]
    rfl

theorem element?_setScope (i : ScopeId) (o : Option Scope) (e : ElementId) :
    (g.setScope i o).element? e = g.element? e := rfl

theorem element?_retarget (i : ScopeId) (t : ElementId) (k : Nat) (e : ElementId) :
    (g.retarget i t k).element? e = g.element? e := by
  simp only [retarget]
  split
  · rfl
  · simp only [element?_setScope, element?_modifyNode, implies_true]

theorem element?_reorigin (i : ScopeId) (o : ElementId) (e : ElementId) :
    (g.reorigin i o).element? e = g.element? e := by
  simp only [reorigin]
  split
  · rfl
  · simp only [element?_setScope, element?_modifyNode, implies_true]

@[simp] theorem size_retarget (i : ScopeId) (t : ElementId) (k : Nat) :
    (g.retarget i t k).size = g.size := by
  simp only [retarget]
  split
  · rfl
  · simp [setScope, size, modifyNode]

@[simp] theorem size_reorigin (i : ScopeId) (o : ElementId) : (g.reorigin i o).size = g.size := by
  simp only [reorigin]
  split
  · rfl
  · simp [setScope, size, modifyNode]

@[simp] theorem length_scopes_retarget (i : ScopeId) (t : ElementId) (k : Nat) :
    (g.retarget i t k).scopes.length = g.scopes.length := by
  simp only [retarget]
  split
  · rfl
  · simp [setScope]

@[simp] theorem length_scopes_reorigin (i : ScopeId) (o : ElementId) :
    (g.reorigin i o).scopes.length = g.scopes.length := by
  simp only [reorigin]
  split
  · rfl
  · simp [setScope]

theorem Agrees.outgoing_reorigin (h : g.Agrees) {i : ScopeId} {sc : Scope}
    (hi : g.scope? i = some sc) {o : ElementId} (ho : o < g.size) (e : ElementId) :
    (g.reorigin i o).outgoing e =
      if e = o then (g.outgoing e).filter (· != i) ++ [i] else (g.outgoing e).filter (· != i) := by
  have hkeep : ∀ e, e ≠ sc.origin → (g.outgoing e).filter (· != i) = g.outgoing e := by
    refine fun e he => h.filter_outgoing fun sc' hsc' ho' => ?_
    rw [hi] at hsc'
    cases hsc'
    exact he ho'.symm
  have hout : ∀ (g : Graph) (o : Option Scope), (g.setScope i o).outgoing e = g.outgoing e :=
    fun _ _ => rfl
  simp only [reorigin, hi, hout, outgoing_append, outgoing_drop, size_modifyNode, ho, and_true]
  by_cases he : e = sc.origin
  · simp [he]
  · simp [he, hkeep e he]

theorem Agrees.arrivals_retarget (h : g.Agrees) {i : ScopeId} {sc : Scope}
    (hi : g.scope? i = some sc) {t : ElementId} {k : Nat} (ht : t < g.size) (e : ElementId) :
    (g.retarget i t k).arrivals e =
      if e = t then (g.arrivals e).filter (· != i) ++ [i] else (g.arrivals e).filter (· != i) := by
  have hkeep : ∀ e, e ≠ sc.target → (g.arrivals e).filter (· != i) = g.arrivals e := by
    refine fun e he => h.filter_arrivals fun sc' hsc' ht' => ?_
    rw [hi] at hsc'
    cases hsc'
    exact he ht'.symm
  have harr : ∀ (g : Graph) (o : Option Scope), (g.setScope i o).arrivals e = g.arrivals e :=
    fun _ _ => rfl
  simp only [retarget, hi, harr, arrivals_append, arrivals_drop, size_modifyNode, ht, and_true]
  by_cases he : e = sc.target
  · simp [he]
  · simp [he, hkeep e he]

theorem arrivals_reorigin (i : ScopeId) (o e : ElementId) :
    (g.reorigin i o).arrivals e = g.arrivals e := by
  have harr : ∀ (g : Graph) (o : Option Scope), (g.setScope i o).arrivals e = g.arrivals e :=
    fun _ _ => rfl
  simp only [reorigin]
  split
  · rfl
  · simp only [harr, arrivals_modifyNode, implies_true]

theorem outgoing_retarget (i : ScopeId) (t : ElementId) (k : Nat) (e : ElementId) :
    (g.retarget i t k).outgoing e = g.outgoing e := by
  have hout : ∀ (g : Graph) (o : Option Scope), (g.setScope i o).outgoing e = g.outgoing e :=
    fun _ _ => rfl
  simp only [retarget]
  split
  · rfl
  · simp only [hout, outgoing_modifyNode, implies_true]

/-- A list without `i`, then `i`: the form of an adjacency list that a scope moved to. -/
theorem nodup_moved {l : List ScopeId} (h : l.Nodup) (i : ScopeId) :
    (l.filter (· != i) ++ [i]).Nodup := by
  refine List.nodup_append.2 ⟨h.filter _, List.pairwise_singleton _ _, ?_⟩
  rintro a ha b hb rfl
  rw [List.mem_singleton.1 hb] at ha
  simp at ha

theorem agrees_reorigin (h : g.Agrees) (i : ScopeId) {o : ElementId} (ho : o < g.size) :
    (g.reorigin i o).Agrees := by
  cases hi : g.scope? i with
  | none =>
    have : g.reorigin i o = g := by simp only [reorigin, hi]
    rw [this]; exact h
  | some sc =>
    refine ⟨fun e s => ?_, fun e s => ?_, fun e => ?_, fun e => ?_⟩
    · rw [h.outgoing_reorigin hi ho, scope?_reorigin, hi]
      by_cases hs : s = i
      · by_cases he : e = o
        · simp [hs, he, Scope.fromOrigin]
        · simp [hs, he, Scope.fromOrigin, Ne.symm he]
      · by_cases he : e = o <;> simp [hs, he, h.outgoing_iff]
    · rw [arrivals_reorigin, scope?_reorigin, hi, h.arrivals_iff]
      by_cases hs : s = i
      · subst hs; simp [hi, Scope.fromOrigin]
      · simp [hs]
    · rw [h.outgoing_reorigin hi ho]
      split
      · exact nodup_moved (h.outgoing_nodup e) i
      · exact (h.outgoing_nodup e).filter _
    · rw [arrivals_reorigin]; exact h.arrivals_nodup e

theorem agrees_retarget (h : g.Agrees) (i : ScopeId) {t : ElementId} (k : Nat) (ht : t < g.size) :
    (g.retarget i t k).Agrees := by
  cases hi : g.scope? i with
  | none =>
    have : g.retarget i t k = g := by simp only [retarget, hi]
    rw [this]; exact h
  | some sc =>
    refine ⟨fun e s => ?_, fun e s => ?_, fun e => ?_, fun e => ?_⟩
    · rw [outgoing_retarget, scope?_retarget, hi, h.outgoing_iff]
      by_cases hs : s = i
      · subst hs; simp [hi, Scope.toTarget]
      · simp [hs]
    · rw [h.arrivals_retarget hi ht, scope?_retarget, hi]
      by_cases hs : s = i
      · by_cases he : e = t
        · simp [hs, he, Scope.toTarget]
        · simp [hs, he, Scope.toTarget, Ne.symm he]
      · by_cases he : e = t <;> simp [hs, he, h.arrivals_iff]
    · rw [outgoing_retarget]; exact h.outgoing_nodup e
    · rw [h.arrivals_retarget hi ht]
      split
      · exact nodup_moved (h.arrivals_nodup e) i
      · exact (h.arrivals_nodup e).filter _

end Graph
end Dataflow
