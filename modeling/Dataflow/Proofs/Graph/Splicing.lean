import Dataflow.Proofs.Graph.Rewiring

/-!
# What the compound rewirings do to the arenas

`insertAfter`, `insertOnScope`, `removePassThrough` and `replaceElement` are built
from additions, removals and folds of `retarget` and `reorigin`. For each of them
one equation gives the scope at an id after the edit from the scope there before
it, and the adjacency lists agree again.
-/
namespace Dataflow

/-- What becomes of a scope that enters a replaced element. -/
def Scope.splicedIn (w : ElementId) (sc : Scope) : Option Scope :=
  if sc.origin = w then none else some (sc.toTarget w sc.ordinal)

/-- What becomes of a scope that leaves a replaced element. -/
def Scope.splicedOut (w : ElementId) (sc : Scope) : Option Scope :=
  if sc.target = w then none else some (sc.fromOrigin w)

/-- What becomes of a scope when `w` replaces `old`. -/
def Scope.spliced (old w : ElementId) (sc : Scope) : Option Scope :=
  if sc.target = old then
    if sc.origin = old ∨ sc.origin = w then none else some (sc.toTarget w sc.ordinal)
  else if sc.origin = old then
    if sc.target = w then none else some (sc.fromOrigin w)
  else some sc

namespace Graph

variable {g : Graph}

/-- Both graphs have the same elements and as many places for scopes. -/
structure SamePlaces (g g' : Graph) : Prop where
  size : g'.size = g.size
  element? : ∀ e, g'.element? e = g.element? e
  scopes : g'.scopes.length = g.scopes.length

theorem SamePlaces.refl (g : Graph) : SamePlaces g g := ⟨rfl, fun _ => rfl, rfl⟩

theorem SamePlaces.trans {g₁ g₂ g₃ : Graph} (h : SamePlaces g₁ g₂) (h' : SamePlaces g₂ g₃) :
    SamePlaces g₁ g₃ :=
  ⟨h'.size.trans h.size, fun e => (h'.element? e).trans (h.element? e), h'.scopes.trans h.scopes⟩

theorem SamePlaces.contains {g g' : Graph} (h : SamePlaces g g') (e : ElementId) :
    g'.contains e = g.contains e := by
  rw [Graph.contains, h.element? e, Graph.contains]

theorem samePlaces_removeScope (g : Graph) (i : ScopeId) : SamePlaces g (g.removeScope i).2 :=
  ⟨size_removeScope i, element?_removeScope i, length_scopes_removeScope i⟩

theorem samePlaces_reorigin (g : Graph) (i : ScopeId) (o : ElementId) :
    SamePlaces g (g.reorigin i o) :=
  ⟨size_reorigin i o, element?_reorigin i o, length_scopes_reorigin i o⟩

theorem samePlaces_retarget (g : Graph) (i : ScopeId) (t : ElementId) (k : Nat) :
    SamePlaces g (g.retarget i t k) :=
  ⟨size_retarget i t k, element?_retarget i t k, length_scopes_retarget i t k⟩

/-- An edit of single scopes, applied to each scope of a list. -/
theorem samePlaces_foldl {f : Graph → ScopeId → Graph} (hf : ∀ g i, SamePlaces g (f g i))
    (ids : List ScopeId) (g : Graph) : SamePlaces g (ids.foldl f g) := by
  induction ids generalizing g with
  | nil => exact .refl g
  | cons i rest ih => exact (hf g i).trans (ih (f g i))

/-- Each step changes the scope at its id by `φ`, and changing it twice is changing
it once. -/
theorem scope?_foldl {f : Graph → ScopeId → Graph} (φ : Scope → Option Scope)
    (hf : ∀ g i s, (f g i).scope? s = if s = i then (g.scope? i).bind φ else g.scope? s)
    (hφ : ∀ sc sc', φ sc = some sc' → φ sc' = some sc') (ids : List ScopeId) (g : Graph)
    (s : ScopeId) :
    (ids.foldl f g).scope? s = if s ∈ ids then (g.scope? s).bind φ else g.scope? s := by
  induction ids generalizing g with
  | nil => simp
  | cons i rest ih =>
    rw [List.foldl_cons, ih, hf]
    by_cases hs : s = i
    · subst hs
      by_cases hr : s ∈ rest
      · simp only [hr, if_true, List.mem_cons_self]
        cases hsc : (g.scope? s).bind φ with
        | none => rfl
        | some sc' =>
          obtain ⟨sc, -, h⟩ := Option.bind_eq_some_iff.1 hsc
          exact hφ sc sc' h
      · simp [hr]
    · by_cases hr : s ∈ rest <;> simp [hs, hr]

theorem agrees_foldl {f : Graph → ScopeId → Graph} {n : Nat}
    (hf : ∀ g i, g.size = n → g.Agrees → (f g i).size = n ∧ (f g i).Agrees) (ids : List ScopeId)
    {g : Graph} (hn : g.size = n) (h : g.Agrees) : (ids.foldl f g).Agrees := by
  induction ids generalizing g with
  | nil => exact h
  | cons i rest ih =>
    obtain ⟨h1, h2⟩ := hf g i hn h
    exact ih h1 h2

/-! ## Moving what leaves an element -/

theorem samePlaces_moveOutgoing (g : Graph) (e o : ElementId) :
    SamePlaces g (g.moveOutgoing e o) :=
  samePlaces_foldl (fun g i => samePlaces_reorigin g i o) _ g

theorem Agrees.scope?_moveOutgoing (h : g.Agrees) (e o : ElementId) (s : ScopeId) :
    (g.moveOutgoing e o).scope? s = (g.scope? s).map (Scope.rerouted e o) := by
  have hφ : ∀ sc sc' : Scope, some (sc.fromOrigin o) = some sc' →
      some (sc'.fromOrigin o) = some sc' := by
    rintro sc sc' ⟨⟩; rfl
  rw [moveOutgoing, scope?_foldl (fun sc => some (sc.fromOrigin o))
    (fun g i s => by rw [scope?_reorigin]; cases g.scope? i <;> rfl) hφ]
  simp only [h.outgoing_iff]
  cases hs : g.scope? s with
  | none => simp
  | some sc =>
    by_cases ho : sc.origin = e <;> simp [Scope.rerouted, ho]

theorem agrees_moveOutgoing (h : g.Agrees) (e : ElementId) {o : ElementId} (ho : o < g.size) :
    (g.moveOutgoing e o).Agrees := by
  refine agrees_foldl (n := g.size) (fun g' i hn h' => ⟨?_, ?_⟩) _ rfl h
  · rw [size_reorigin, hn]
  · exact agrees_reorigin h' i (by rw [hn]; exact ho)

/-! ## Inserting an element -/

@[simp] theorem fst_insertAfter (id : ElementId) (x : Element) :
    (g.insertAfter id x).1 = g.size := rfl

theorem Agrees.scope?_insertAfter (h : g.Agrees) (id : ElementId) (x : Element) (s : ScopeId) :
    (g.insertAfter id x).2.scope? s =
      if s = g.scopes.length then some ⟨id, g.size, 0, none⟩
      else (g.scope? s).map (Scope.rerouted id g.size) := by
  have hm := samePlaces_moveOutgoing (g.addElement x).2 id g.size
  show ((((g.addElement x).2.moveOutgoing id g.size).addScope id g.size 0).2).scope? s = _
  rw [scope?_addScope, hm.scopes, (agrees_addElement h x).scope?_moveOutgoing]
  rfl

theorem element?_insertAfter (id : ElementId) (x : Element) (e : ElementId) :
    (g.insertAfter id x).2.element? e = if e = g.size then some x else g.element? e := by
  have hm := samePlaces_moveOutgoing (g.addElement x).2 id g.size
  show ((((g.addElement x).2.moveOutgoing id g.size).addScope id g.size 0).2).element? e = _
  rw [element?_addScope, hm.element?, element?_addElement]

@[simp] theorem size_insertAfter (id : ElementId) (x : Element) :
    (g.insertAfter id x).2.size = g.size + 1 := by
  have hm := samePlaces_moveOutgoing (g.addElement x).2 id g.size
  show ((((g.addElement x).2.moveOutgoing id g.size).addScope id g.size 0).2).size = _
  rw [size_addScope, hm.size, size_addElement]

theorem agrees_insertAfter (h : g.Agrees) {id : ElementId} (hid : id < g.size) (x : Element) :
    (g.insertAfter id x).2.Agrees := by
  have hm := samePlaces_moveOutgoing (g.addElement x).2 id g.size
  have hlt : g.size < (g.addElement x).2.size := by simp
  refine agrees_addScope (agrees_moveOutgoing (agrees_addElement h x) id hlt) ?_ ?_
  · rw [hm.size, size_addElement]; exact Nat.lt_succ_of_lt hid
  · rw [hm.size, size_addElement]; exact Nat.lt_succ_self _

theorem insertOnScope_eq {i : ScopeId} {sc : Scope} (hi : g.scope? i = some sc) (x : Element) :
    (g.insertOnScope i x).2 =
      (((g.addElement x).2.retarget i g.size 0).addScope g.size sc.target sc.ordinal).2 := by
  simp only [insertOnScope, hi]
  rfl

@[simp] theorem fst_insertOnScope (i : ScopeId) (x : Element) :
    (g.insertOnScope i x).1 = g.size := by
  unfold insertOnScope
  cases g.scope? i <;> rfl

theorem scope?_insertOnScope {i : ScopeId} {sc : Scope} (hi : g.scope? i = some sc) (x : Element)
    (s : ScopeId) : (g.insertOnScope i x).2.scope? s =
      if s = g.scopes.length then some ⟨g.size, sc.target, sc.ordinal, none⟩
      else if s = i then some (sc.toTarget g.size 0) else g.scope? s := by
  have hm := samePlaces_retarget (g.addElement x).2 i g.size 0
  rw [insertOnScope_eq hi, scope?_addScope, hm.scopes, scope?_retarget]
  simp only [scope?_addElement, scopes_addElement, hi, Option.map_some]

theorem element?_insertOnScope {i : ScopeId} {sc : Scope} (hi : g.scope? i = some sc) (x : Element)
    (e : ElementId) :
    (g.insertOnScope i x).2.element? e = if e = g.size then some x else g.element? e := by
  rw [insertOnScope_eq hi, element?_addScope, element?_retarget, element?_addElement]

theorem size_insertOnScope {i : ScopeId} {sc : Scope} (hi : g.scope? i = some sc) (x : Element) :
    (g.insertOnScope i x).2.size = g.size + 1 := by
  rw [insertOnScope_eq hi, size_addScope, size_retarget, size_addElement]

theorem agrees_insertOnScope (h : g.Agrees) {i : ScopeId} {sc : Scope} (hi : g.scope? i = some sc)
    (x : Element) : (g.insertOnScope i x).2.Agrees := by
  rw [insertOnScope_eq hi]
  have ht := h.target_lt hi
  refine agrees_addScope (agrees_retarget (agrees_addElement h x) i 0 ?_) ?_ ?_
  · simp
  · simp
  · rw [size_retarget, size_addElement]; exact Nat.lt_succ_of_lt ht

/-! ## Splicing an element out -/

theorem removePassThrough_eq {id : ElementId} {i : ScopeId} {sc : Scope}
    (ha : g.arrivals id = [i]) (hi : g.scope? i = some sc) :
    (g.removePassThrough id).2 = ((g.moveOutgoing id sc.origin).removeElement id).2 := by
  simp only [removePassThrough, ha, hi]

theorem Agrees.scope?_removePassThrough (h : g.Agrees) {id : ElementId} {i : ScopeId} {sc : Scope}
    (hid : g.contains id = true) (ha : g.arrivals id = [i]) (hi : g.scope? i = some sc)
    (ho : sc.origin ≠ id) (s : ScopeId) : (g.removePassThrough id).2.scope? s =
      if s = i then none else (g.scope? s).map (Scope.rerouted id sc.origin) := by
  have hm := samePlaces_moveOutgoing g id sc.origin
  have hA := agrees_moveOutgoing h id (h.origin_lt hi)
  have ht : ∀ s sc', g.scope? s = some sc' → (sc'.target = id ↔ s = i) := by
    intro s sc' hs
    have h1 : s ∈ g.arrivals id ↔ sc'.target = id := by simp [h.arrivals_iff, hs]
    rw [← h1, ha, List.mem_singleton]
  rw [removePassThrough_eq ha hi, hA.scope?_removeElement (by rw [hm.contains]; exact hid),
    h.scope?_moveOutgoing]
  cases hs : g.scope? s with
  | none => simp
  | some sc' =>
    have ht' := ht s sc' hs
    by_cases hsi : s = i
    · have htar := ht'.2 hsi
      simp [hsi, htar, Option.filter]
    · have htar : sc'.target ≠ id := fun e => hsi (ht'.1 e)
      have horg : (sc'.rerouted id sc.origin).origin ≠ id := by
        rw [Scope.origin_rerouted]
        split
        · exact ho
        · assumption
      simp [hsi, htar, horg, Option.filter]

theorem element?_removePassThrough {id : ElementId} {i : ScopeId} {sc : Scope}
    (ha : g.arrivals id = [i]) (hi : g.scope? i = some sc) (e : ElementId) :
    (g.removePassThrough id).2.element? e = if e = id then none else g.element? e := by
  rw [removePassThrough_eq ha hi, element?_removeElement,
    (samePlaces_moveOutgoing g id sc.origin).element?]

theorem size_removePassThrough {id : ElementId} {i : ScopeId} {sc : Scope}
    (ha : g.arrivals id = [i]) (hi : g.scope? i = some sc) :
    (g.removePassThrough id).2.size = g.size := by
  rw [removePassThrough_eq ha hi, size_removeElement,
    (samePlaces_moveOutgoing g id sc.origin).size]

theorem agrees_removePassThrough (h : g.Agrees) {id : ElementId} {i : ScopeId} {sc : Scope}
    (ha : g.arrivals id = [i]) (hi : g.scope? i = some sc) :
    (g.removePassThrough id).2.Agrees := by
  rw [removePassThrough_eq ha hi]
  exact agrees_removeElement (agrees_moveOutgoing h id (h.origin_lt hi)) id

/-! ## Replacing an element -/

theorem scope?_spliceInput (w : ElementId) (i s : ScopeId) :
    (spliceInput w g i).scope? s =
      if s = i then (g.scope? i).bind (Scope.splicedIn w) else g.scope? s := by
  cases hi : g.scope? i with
  | none =>
    simp only [spliceInput, hi, Option.bind_none]
    split
    · next hs => rw [hs, hi]
    · rfl
  | some sc =>
    simp only [spliceInput, hi, Option.bind_some, Scope.splicedIn]
    by_cases ho : sc.origin = w
    · simp only [ho, if_true, scope?_removeScope]
    · simp only [ho, if_false, scope?_retarget, hi, Option.map_some]

theorem scope?_spliceOutput (w : ElementId) (i s : ScopeId) :
    (spliceOutput w g i).scope? s =
      if s = i then (g.scope? i).bind (Scope.splicedOut w) else g.scope? s := by
  cases hi : g.scope? i with
  | none =>
    simp only [spliceOutput, hi, Option.bind_none]
    split
    · next hs => rw [hs, hi]
    · rfl
  | some sc =>
    simp only [spliceOutput, hi, Option.bind_some, Scope.splicedOut]
    by_cases ho : sc.target = w
    · simp only [ho, if_true, scope?_removeScope]
    · simp only [ho, if_false, scope?_reorigin, hi, Option.map_some]

theorem samePlaces_spliceInput (w : ElementId) (g : Graph) (i : ScopeId) :
    SamePlaces g (spliceInput w g i) := by
  unfold spliceInput
  split
  · exact .refl g
  · split
    · exact samePlaces_removeScope g i
    · exact samePlaces_retarget g i w _

theorem samePlaces_spliceOutput (w : ElementId) (g : Graph) (i : ScopeId) :
    SamePlaces g (spliceOutput w g i) := by
  unfold spliceOutput
  split
  · exact .refl g
  · split
    · exact samePlaces_removeScope g i
    · exact samePlaces_reorigin g i w

theorem agrees_spliceInput (h : g.Agrees) {w : ElementId} (hw : w < g.size) (i : ScopeId) :
    (spliceInput w g i).Agrees := by
  unfold spliceInput
  split
  · exact h
  · split
    · exact agrees_removeScope h i
    · exact agrees_retarget h i _ hw

theorem agrees_spliceOutput (h : g.Agrees) {w : ElementId} (hw : w < g.size) (i : ScopeId) :
    (spliceOutput w g i).Agrees := by
  unfold spliceOutput
  split
  · exact h
  · split
    · exact agrees_removeScope h i
    · exact agrees_reorigin h i hw

/-- The graph between the two passes of a replacement: the inputs are moved. -/
def withInputsSpliced (g : Graph) (old w : ElementId) : Graph :=
  (g.arrivals old).foldl (spliceInput w) g

/-- The graph after both passes of a replacement: the outputs are moved too. -/
def withOutputsSpliced (g : Graph) (old w : ElementId) : Graph :=
  (g.outgoing old).foldl (spliceOutput w) g

theorem replaceElement_eq (old w : ElementId) : g.replaceElement old w =
    (((g.withInputsSpliced old w).withOutputsSpliced old w).removeElement old).2 := rfl

theorem samePlaces_withInputsSpliced (g : Graph) (old w : ElementId) :
    SamePlaces g (g.withInputsSpliced old w) :=
  samePlaces_foldl (samePlaces_spliceInput w) _ g

theorem samePlaces_withOutputsSpliced (g : Graph) (old w : ElementId) :
    SamePlaces g (g.withOutputsSpliced old w) :=
  samePlaces_foldl (samePlaces_spliceOutput w) _ g

theorem agrees_withInputsSpliced (h : g.Agrees) (old : ElementId) {w : ElementId}
    (hw : w < g.size) : (g.withInputsSpliced old w).Agrees := by
  refine agrees_foldl (n := g.size) (fun g' i hn h' => ⟨?_, ?_⟩) _ rfl h
  · rw [(samePlaces_spliceInput w g' i).size, hn]
  · exact agrees_spliceInput h' (by rw [hn]; exact hw) i

theorem agrees_withOutputsSpliced (h : g.Agrees) (old : ElementId) {w : ElementId}
    (hw : w < g.size) : (g.withOutputsSpliced old w).Agrees := by
  refine agrees_foldl (n := g.size) (fun g' i hn h' => ⟨?_, ?_⟩) _ rfl h
  · rw [(samePlaces_spliceOutput w g' i).size, hn]
  · exact agrees_spliceOutput h' (by rw [hn]; exact hw) i

theorem Agrees.scope?_withInputsSpliced (h : g.Agrees) (old w : ElementId) (s : ScopeId) :
    (g.withInputsSpliced old w).scope? s =
      (g.scope? s).bind fun sc => if sc.target = old then sc.splicedIn w else some sc := by
  have hφ : ∀ sc sc', Scope.splicedIn w sc = some sc' → Scope.splicedIn w sc' = some sc' := by
    intro sc sc' h
    unfold Scope.splicedIn at h
    split at h
    · cases h
    · next ho => cases h; exact if_neg ho
  rw [withInputsSpliced, scope?_foldl _ (fun g i s => scope?_spliceInput w i s) hφ]
  simp only [h.arrivals_iff]
  cases hs : g.scope? s with
  | none => simp
  | some sc => by_cases ht : sc.target = old <;> simp [ht]

theorem Agrees.scope?_withOutputsSpliced (h : g.Agrees) (old w : ElementId) (s : ScopeId) :
    (g.withOutputsSpliced old w).scope? s =
      (g.scope? s).bind fun sc => if sc.origin = old then sc.splicedOut w else some sc := by
  have hφ : ∀ sc sc', Scope.splicedOut w sc = some sc' → Scope.splicedOut w sc' = some sc' := by
    intro sc sc' h
    unfold Scope.splicedOut at h
    split at h
    · cases h
    · next ho => cases h; exact if_neg ho
  rw [withOutputsSpliced, scope?_foldl _ (fun g i s => scope?_spliceOutput w i s) hφ]
  simp only [h.outgoing_iff]
  cases hs : g.scope? s with
  | none => simp
  | some sc => by_cases ht : sc.origin = old <;> simp [ht]

/-- The three passes of a replacement, on one scope. -/
theorem Agrees.scope?_replaceElement (h : g.Agrees) {old w : ElementId}
    (hold : g.contains old = true) (hw : w < g.size) (hne : w ≠ old) (s : ScopeId) :
    (g.replaceElement old w).scope? s = (g.scope? s).bind (Scope.spliced old w) := by
  have p1 := samePlaces_withInputsSpliced g old w
  have p2 := samePlaces_withOutputsSpliced (g.withInputsSpliced old w) old w
  have h1 := agrees_withInputsSpliced h old hw
  have h2 := agrees_withOutputsSpliced h1 old (by rw [p1.size]; exact hw)
  rw [replaceElement_eq,
    h2.scope?_removeElement (by rw [p2.contains, p1.contains]; exact hold),
    h1.scope?_withOutputsSpliced, h.scope?_withInputsSpliced]
  cases hs : g.scope? s with
  | none => rfl
  | some sc =>
    simp only [Option.bind_some, Scope.spliced, Scope.splicedIn]
    by_cases ht : sc.target = old
    · by_cases hw : sc.origin = w
      · simp [ht, hw]
      · by_cases ho : sc.origin = old
        · simp [ht, ho, Scope.toTarget, Scope.splicedOut, Ne.symm hne]
        · simp [ht, hw, ho, Scope.toTarget, hne, Option.filter]
    · by_cases ho : sc.origin = old
      · by_cases hw : sc.target = w
        · simp [ho, hw, Scope.splicedOut, hne]
        · simp [ht, ho, hw, Scope.splicedOut, Scope.fromOrigin, hne, Option.filter]
      · simp [ht, ho, Option.filter]

theorem element?_replaceElement (old w e : ElementId) :
    (g.replaceElement old w).element? e = if e = old then none else g.element? e := by
  rw [replaceElement_eq, element?_removeElement, (samePlaces_withOutputsSpliced _ old w).element?,
    (samePlaces_withInputsSpliced g old w).element?]

theorem size_replaceElement (old w : ElementId) : (g.replaceElement old w).size = g.size := by
  rw [replaceElement_eq, size_removeElement, (samePlaces_withOutputsSpliced _ old w).size,
    (samePlaces_withInputsSpliced g old w).size]

theorem agrees_replaceElement (h : g.Agrees) (old : ElementId) {w : ElementId} (hw : w < g.size) :
    (g.replaceElement old w).Agrees := by
  have p1 := samePlaces_withInputsSpliced g old w
  exact agrees_removeElement (agrees_withOutputsSpliced (agrees_withInputsSpliced h old hw) old
    (by rw [p1.size]; exact hw)) old

end Graph
end Dataflow
