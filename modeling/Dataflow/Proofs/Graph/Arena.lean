import Dataflow.Graph.Edit

/-!
# What an edit does to the arenas

A scope is known in three places: in the scope arena, in the list of the scopes
that leave its origin and in the list of those that enter its target. `Agrees`
says that the three tell the same story. Every edit is described by what it does
to `element?` and `scope?`; the lists then follow from `Agrees`, which every edit
keeps.

Results:

* `scope?_addScope`, `scope?_removeElement`, `scope?_moveOutgoing`,
  `scope?_replaceElement`: the scope arena after an edit;
* `agrees_addScope`, `agrees_removeElement`, `agrees_moveOutgoing`,
  `agrees_replaceElement`: the lists agree again after it.
-/
namespace Dataflow
namespace Graph

variable {g : Graph}

/-- The adjacency lists hold each live scope once, at its two ends, and nothing else. -/
structure Agrees (g : Graph) : Prop where
  outgoing_iff : ∀ e s, s ∈ g.outgoing e ↔ ∃ sc, g.scope? s = some sc ∧ sc.origin = e
  arrivals_iff : ∀ e s, s ∈ g.arrivals e ↔ ∃ sc, g.scope? s = some sc ∧ sc.target = e
  outgoing_nodup : ∀ e, (g.outgoing e).Nodup
  arrivals_nodup : ∀ e, (g.arrivals e).Nodup

/-! ## Reading one place -/

theorem element?_of_size_le {e : ElementId} (h : g.size ≤ e) : g.element? e = none := by
  have hn : g.nodes[e]? = none := List.getElem?_eq_none h
  simp [element?, hn]

theorem lt_size_of_contains {e : ElementId} (h : g.contains e = true) : e < g.size := by
  by_cases he : e < g.size
  · exact he
  · rw [contains, element?_of_size_le (Nat.le_of_not_lt he)] at h
    cases h

theorem lt_scopes_of_scope? {s : ScopeId} {sc : Scope} (h : g.scope? s = some sc) :
    s < g.scopes.length := by
  by_cases hs : s < g.scopes.length
  · exact hs
  · have hn : g.scopes[s]? = none := List.getElem?_eq_none (Nat.le_of_not_lt hs)
    rw [scope?, hn] at h
    cases h

theorem scope?_fresh : g.scope? g.scopes.length = none := by
  simp [scope?]

theorem outgoing_of_size_le {e : ElementId} (h : g.size ≤ e) : g.outgoing e = [] := by
  have hn : g.nodes[e]? = none := List.getElem?_eq_none h
  simp [outgoing, hn]

theorem arrivals_of_size_le {e : ElementId} (h : g.size ≤ e) : g.arrivals e = [] := by
  have hn : g.nodes[e]? = none := List.getElem?_eq_none h
  simp [arrivals, hn]

theorem Agrees.origin_lt (h : g.Agrees) {s : ScopeId} {sc : Scope} (hs : g.scope? s = some sc) :
    sc.origin < g.size := by
  by_cases hlt : sc.origin < g.size
  · exact hlt
  · have hm := (h.outgoing_iff sc.origin s).2 ⟨sc, hs, rfl⟩
    rw [outgoing_of_size_le (Nat.le_of_not_lt hlt)] at hm
    cases hm

theorem Agrees.target_lt (h : g.Agrees) {s : ScopeId} {sc : Scope} (hs : g.scope? s = some sc) :
    sc.target < g.size := by
  by_cases hlt : sc.target < g.size
  · exact hlt
  · have hm := (h.arrivals_iff sc.target s).2 ⟨sc, hs, rfl⟩
    rw [arrivals_of_size_le (Nat.le_of_not_lt hlt)] at hm
    cases hm

/-! ## Changing one place -/

@[simp] theorem size_modifyNode {i : ElementId} {f : Node → Node} :
    (g.modifyNode i f).size = g.size := by simp [modifyNode, size]

@[simp] theorem scope?_modifyNode {i : ElementId} {f : Node → Node} {s : ScopeId} :
    (g.modifyNode i f).scope? s = g.scope? s := rfl

@[simp] theorem scopes_modifyNode {i : ElementId} {f : Node → Node} :
    (g.modifyNode i f).scopes = g.scopes := rfl

theorem element?_modifyNode {i : ElementId} {f : Node → Node}
    (hf : ∀ n, (f n).element = n.element) (e : ElementId) :
    (g.modifyNode i f).element? e = g.element? e := by
  simp only [element?, modifyNode, List.getElem?_modify]
  cases g.nodes[e]? with
  | none => rfl
  | some n => by_cases h : i = e <;> simp [h, hf]

/-- A list that is kept at every place, after it was changed at one place. -/
theorem elim_modifyNode {i : ElementId} {f : Node → Node} {list : Node → List ScopeId}
    {c : List ScopeId → List ScopeId} (hf : ∀ n, list (f n) = c (list n))
    (e : ElementId) : (g.modifyNode i f).nodes[e]?.elim [] list =
      if e = i ∧ i < g.size then c (g.nodes[e]?.elim [] list)
      else g.nodes[e]?.elim [] list := by
  simp only [modifyNode, List.getElem?_modify]
  by_cases h : e = i
  · subst h
    by_cases hlt : e < g.size
    · obtain ⟨n, hn⟩ : ∃ n, g.nodes[e]? = some n := ⟨_, List.getElem?_eq_getElem hlt⟩
      simp [hn, hlt, hf]
    · have hn : g.nodes[e]? = none := List.getElem?_eq_none (Nat.le_of_not_lt hlt)
      simp [hn, hlt]
  · cases g.nodes[e]? <;> simp [h, Ne.symm h]

/-- Where the change leaves the empty list alone, it does not matter whether the place is there. -/
theorem elim_modifyNode_of_nil {i : ElementId} {f : Node → Node} {list : Node → List ScopeId}
    {c : List ScopeId → List ScopeId} (hf : ∀ n, list (f n) = c (list n))
    (hnil : c [] = []) (e : ElementId) : (g.modifyNode i f).nodes[e]?.elim [] list =
      if e = i then c (g.nodes[e]?.elim [] list) else g.nodes[e]?.elim [] list := by
  rw [elim_modifyNode hf]
  by_cases hlt : i < g.size
  · simp [hlt]
  · have hn : g.nodes[i]? = none := List.getElem?_eq_none (Nat.le_of_not_lt hlt)
    rw [if_neg fun h => hlt h.2]
    split
    · next h => rw [h, hn]; exact hnil.symm
    · rfl

/-- Appending to the list of what leaves `i`. -/
theorem outgoing_append {i : ElementId} {s : ScopeId} (e : ElementId) :
    (g.modifyNode i fun n => { n with outgoing := n.outgoing ++ [s] }).outgoing e =
      if e = i ∧ i < g.size then g.outgoing e ++ [s] else g.outgoing e :=
  elim_modifyNode (c := (· ++ [s])) (fun _ => rfl) e

theorem outgoing_drop {i : ElementId} {s : ScopeId} (e : ElementId) :
    (g.modifyNode i fun n => { n with outgoing := n.outgoing.filter (· != s) }).outgoing e =
      if e = i then (g.outgoing e).filter (· != s) else g.outgoing e :=
  elim_modifyNode_of_nil (c := List.filter (· != s)) (fun _ => rfl) rfl e

/-- Appending to the list of what enters `i`. -/
theorem arrivals_append {i : ElementId} {s : ScopeId} (e : ElementId) :
    (g.modifyNode i fun n => { n with incoming := n.incoming ++ [s] }).arrivals e =
      if e = i ∧ i < g.size then g.arrivals e ++ [s] else g.arrivals e :=
  elim_modifyNode (c := (· ++ [s])) (fun _ => rfl) e

theorem arrivals_drop {i : ElementId} {s : ScopeId} (e : ElementId) :
    (g.modifyNode i fun n => { n with incoming := n.incoming.filter (· != s) }).arrivals e =
      if e = i then (g.arrivals e).filter (· != s) else g.arrivals e :=
  elim_modifyNode_of_nil (c := List.filter (· != s)) (fun _ => rfl) rfl e

theorem outgoing_modifyNode {i : ElementId} {f : Node → Node}
    (hf : ∀ n, (f n).outgoing = n.outgoing) (e : ElementId) :
    (g.modifyNode i f).outgoing e = g.outgoing e :=
  (elim_modifyNode (c := id) hf e).trans (ite_self _)

theorem arrivals_modifyNode {i : ElementId} {f : Node → Node}
    (hf : ∀ n, (f n).incoming = n.incoming) (e : ElementId) :
    (g.modifyNode i f).arrivals e = g.arrivals e :=
  (elim_modifyNode (c := id) hf e).trans (ite_self _)

theorem scope?_setScope {i : ScopeId} {o : Option Scope} (h : i < g.scopes.length) (s : ScopeId) :
    (g.setScope i o).scope? s = if s = i then o else g.scope? s := by
  simp only [scope?, setScope, List.getElem?_set, if_pos h]
  by_cases hs : s = i
  · subst hs; cases o <;> simp
  · simp [hs, Ne.symm hs]

/-! ## Additions -/

@[simp] theorem size_addElement {x : Element} : (g.addElement x).2.size = g.size + 1 := by
  simp [addElement, size]

@[simp] theorem fst_addElement {x : Element} : (g.addElement x).1 = g.size := rfl

@[simp] theorem scope?_addElement {x : Element} {s : ScopeId} :
    (g.addElement x).2.scope? s = g.scope? s := rfl

@[simp] theorem scopes_addElement {x : Element} : (g.addElement x).2.scopes = g.scopes := rfl

theorem nodes_addElement {x : Element} (e : ElementId) :
    (g.addElement x).2.nodes[e]? =
      if e = g.nodes.length then some ⟨some x, [], []⟩ else g.nodes[e]? := by
  simp only [addElement, List.getElem?_append]
  rcases Nat.lt_trichotomy e g.nodes.length with h | h | h
  · simp [h, Nat.ne_of_lt h]
  · subst h; simp
  · have hn : g.nodes[e]? = none := List.getElem?_eq_none (Nat.le_of_lt h)
    have h0 : ¬ e - g.nodes.length = 0 := Nat.sub_ne_zero_of_lt h
    rw [if_neg (Nat.lt_asymm h), if_neg (Ne.symm (Nat.ne_of_lt h)), hn, List.getElem?_cons,
      if_neg h0, List.getElem?_nil]

theorem element?_addElement {x : Element} (e : ElementId) :
    (g.addElement x).2.element? e = if e = g.size then some x else g.element? e := by
  show (((g.addElement x).2.nodes[e]?).bind Node.element) = if e = g.nodes.length then _ else _
  rw [nodes_addElement]
  split <;> rfl

theorem outgoing_addElement {x : Element} (e : ElementId) :
    (g.addElement x).2.outgoing e = g.outgoing e := by
  simp only [outgoing, nodes_addElement]
  split
  · next h => subst h; simp
  · rfl

theorem arrivals_addElement {x : Element} (e : ElementId) :
    (g.addElement x).2.arrivals e = g.arrivals e := by
  simp only [arrivals, nodes_addElement]
  split
  · next h => subst h; simp
  · rfl

theorem agrees_empty (name : String) : (empty name).Agrees := by
  have hout : ∀ e, (empty name).outgoing e = [] := fun e => by
    match e with
    | 0 => rfl
    | 1 => rfl
    | e + 2 => rfl
  have harr : ∀ e, (empty name).arrivals e = [] := fun e => by
    match e with
    | 0 => rfl
    | 1 => rfl
    | e + 2 => rfl
  have hsc : ∀ s, (empty name).scope? s = none := fun s => by simp [scope?, empty]
  refine ⟨fun e s => ?_, fun e s => ?_, fun e => ?_, fun e => ?_⟩
  · simp [hout, hsc]
  · simp [harr, hsc]
  · rw [hout]; exact .nil
  · rw [harr]; exact .nil

theorem agrees_addElement (h : g.Agrees) (x : Element) : (g.addElement x).2.Agrees where
  outgoing_iff e s := by rw [outgoing_addElement]; exact h.outgoing_iff e s
  arrivals_iff e s := by rw [arrivals_addElement]; exact h.arrivals_iff e s
  outgoing_nodup e := by rw [outgoing_addElement]; exact h.outgoing_nodup e
  arrivals_nodup e := by rw [arrivals_addElement]; exact h.arrivals_nodup e

@[simp] theorem fst_addScope {o t : ElementId} {k : Nat} : (g.addScope o t k).1 = g.scopes.length :=
  rfl

@[simp] theorem size_addScope {o t : ElementId} {k : Nat} : (g.addScope o t k).2.size = g.size := by
  simp [addScope, modifyNode, size]

@[simp] theorem length_scopes_addScope {o t : ElementId} {k : Nat} :
    (g.addScope o t k).2.scopes.length = g.scopes.length + 1 := by
  simp [addScope, modifyNode]

theorem scope?_addScope {o t : ElementId} {k : Nat} (s : ScopeId) :
    (g.addScope o t k).2.scope? s =
      if s = g.scopes.length then some ⟨o, t, k, none⟩ else g.scope? s := by
  simp only [addScope, scope?_modifyNode]
  simp only [scope?, List.getElem?_append]
  rcases Nat.lt_trichotomy s g.scopes.length with h | h | h
  · simp [h, Nat.ne_of_lt h]
  · subst h; simp
  · have hn : g.scopes[s]? = none := List.getElem?_eq_none (Nat.le_of_lt h)
    have h0 : ¬ s - g.scopes.length = 0 := Nat.sub_ne_zero_of_lt h
    rw [if_neg (Nat.lt_asymm h), if_neg (Ne.symm (Nat.ne_of_lt h)), hn, List.getElem?_cons,
      if_neg h0, List.getElem?_nil]

theorem element?_addScope {o t : ElementId} {k : Nat} (e : ElementId) :
    (g.addScope o t k).2.element? e = g.element? e := by
  simp only [addScope, element?_modifyNode, implies_true]
  rfl

theorem outgoing_addScope {o t : ElementId} {k : Nat} (ho : o < g.size) (e : ElementId) :
    (g.addScope o t k).2.outgoing e =
      if e = o then g.outgoing e ++ [g.scopes.length] else g.outgoing e := by
  simp only [addScope, outgoing_modifyNode, implies_true, outgoing_append]
  simp only [size, outgoing] at ho ⊢
  simp only [ho, and_true]

theorem arrivals_addScope {o t : ElementId} {k : Nat} (ht : t < g.size) (e : ElementId) :
    (g.addScope o t k).2.arrivals e =
      if e = t then g.arrivals e ++ [g.scopes.length] else g.arrivals e := by
  simp only [addScope, arrivals_append, arrivals_modifyNode, implies_true, size_modifyNode]
  simp only [size, arrivals] at ht ⊢
  simp only [ht, and_true]

theorem Agrees.not_mem_outgoing_fresh (h : g.Agrees) (e : ElementId) :
    g.scopes.length ∉ g.outgoing e := by
  rw [h.outgoing_iff, scope?_fresh]
  rintro ⟨_, hs, -⟩
  cases hs

theorem Agrees.not_mem_arrivals_fresh (h : g.Agrees) (e : ElementId) :
    g.scopes.length ∉ g.arrivals e := by
  rw [h.arrivals_iff, scope?_fresh]
  rintro ⟨_, hs, -⟩
  cases hs

theorem agrees_addScope (h : g.Agrees) {o t : ElementId} {k : Nat} (ho : o < g.size)
    (ht : t < g.size) : (g.addScope o t k).2.Agrees where
  outgoing_iff e s := by
    have hf := h.not_mem_outgoing_fresh e
    rw [outgoing_addScope ho, scope?_addScope]
    by_cases hs : s = g.scopes.length
    · subst hs
      by_cases he : e = o
      · simp [he]
      · simp [he, hf, Ne.symm he]
    · by_cases he : e = o <;> simp [he, hs, h.outgoing_iff]
  arrivals_iff e s := by
    have hf := h.not_mem_arrivals_fresh e
    rw [arrivals_addScope ht, scope?_addScope]
    by_cases hs : s = g.scopes.length
    · subst hs
      by_cases he : e = t
      · simp [he]
      · simp [he, hf, Ne.symm he]
    · by_cases he : e = t <;> simp [he, hs, h.arrivals_iff]
  outgoing_nodup e := by
    rw [outgoing_addScope ho]
    split
    · exact List.nodup_append.2 ⟨h.outgoing_nodup e, List.pairwise_singleton _ _, by
        rintro a ha b hb rfl
        rw [List.mem_singleton.1 hb] at ha
        exact h.not_mem_outgoing_fresh e ha⟩
    · exact h.outgoing_nodup e
  arrivals_nodup e := by
    rw [arrivals_addScope ht]
    split
    · exact List.nodup_append.2 ⟨h.arrivals_nodup e, List.pairwise_singleton _ _, by
        rintro a ha b hb rfl
        rw [List.mem_singleton.1 hb] at ha
        exact h.not_mem_arrivals_fresh e ha⟩
    · exact h.arrivals_nodup e

end Graph
end Dataflow
