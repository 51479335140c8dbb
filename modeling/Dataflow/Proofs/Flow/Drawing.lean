import Dataflow.Proofs.Flow.Names
import Dataflow.Proofs.Success

/-!
# Names that are drawn

A name for a boundary is looked for by counting up from the last number that was drawn, until
the name under the number is free. Stages may be called like boundaries, and a boundary that is
taken out leaves its name free again; the counter never runs back, so no name comes twice.

Results:

* `search_iff`: where the search ends, and that it does;
* `Command.naming_perform`: what leaves the counter where it is;
* `Mutates.counter_le`: nothing that is done to a graph turns the counter back;
* `draws`: what holds of a name that is drawn.
-/
namespace Dataflow
namespace Graph

open Relation

variable {g g' : Graph}

/-! ## The search for a free name -/

/-- The search as a loop: with the counter at `n`, the next number is tried. It is taken if its
name is free; otherwise the search goes on from there. It ends with the counter at `m`. -/
inductive Search (g : Graph) : Nat → Nat → Prop
  | free {n : Nat} (h : g.find (boundaryName (n + 1)) = none) : Search g n (n + 1)
  | taken {n m : Nat} (h : (g.find (boundaryName (n + 1))).isSome = true)
      (hrest : Search g (n + 1) m) : Search g n m

theorem Search.unique {n m m' : Nat} (h : Search g n m) (h' : Search g n m') : m = m' := by
  induction h with
  | free h =>
    cases h' with
    | free _ => rfl
    | taken ht _ => rw [h] at ht; cases ht
  | taken ht _ ih =>
    cases h' with
    | free h => rw [h] at ht; cases ht
    | taken _ hrest' => exact ih hrest'

theorem search_of_free {n m : Nat} (hlt : n < m) (hfree : g.find (boundaryName m) = none)
    (htaken : ∀ k, n < k → k < m → (g.find (boundaryName k)).isSome = true) : Search g n m := by
  obtain ⟨d, rfl⟩ := Nat.exists_eq_add_of_lt hlt
  induction d generalizing n with
  | zero => exact .free hfree
  | succ d ih =>
    have hshift : n + (d + 1) + 1 = n + 1 + d + 1 := by omega
    rw [hshift] at hfree htaken ⊢
    exact .taken (htaken (n + 1) (by omega) (by omega))
      (ih (by omega) hfree fun k hk => htaken k (by omega))

/-- The search ends, and it ends in one way. -/
theorem search_iff {n : Nat} : Search g g.boundaryCount n ↔ n = g.nextBoundaryNumber := by
  obtain ⟨hfree, hlt, htaken⟩ := find_nextBoundaryName g
  have hends : Search g g.boundaryCount g.nextBoundaryNumber := search_of_free hlt hfree htaken
  exact ⟨fun h => h.unique hends, fun h => h ▸ hends⟩

/-- Each number that is passed over is the name of an element. -/
theorem nextBoundaryNumber_le (g : Graph) :
    g.nextBoundaryNumber ≤ g.boundaryCount + g.size + 1 := by
  unfold nextBoundaryNumber
  cases h : ((List.range (g.size + 1)).map (g.boundaryCount + 1 + ·)).find? fun n =>
      (g.find (boundaryName n)).isNone with
  | none => exact Nat.le_refl _
  | some n =>
    obtain ⟨k, hk, rfl⟩ := List.mem_map.1 (List.mem_of_find?_eq_some h)
    have := List.mem_range.1 hk
    rw [Option.getD_some]
    omega

/-! ## Commands that draw no name -/

theorem naming_foldlM {α : Type} {f : Graph → α → Except DeadRef Graph}
    (hf : ∀ g a g', f g a = .ok g' → g'.naming = g.naming) {l : List α}
    (h : l.foldlM f g = .ok g') : g'.naming = g.naming := by
  induction l generalizing g with
  | nil => cases h; rfl
  | cons a rest ih =>
    rw [List.foldlM_cons] at h
    obtain ⟨g₁, h₁, h⟩ := bind_eq_ok.1 h
    exact (ih h).trans (hf g a g₁ h₁)

namespace Checked

theorem naming_modifyNode {id : ElementId} {f : Node → Node}
    (h : Checked.modifyNode g id f = .ok g') : g'.naming = g.naming := by
  obtain ⟨-, -, h⟩ := bind_eq_ok.1 h
  cases h
  rfl

theorem naming_addScope {o t : ElementId} {k : Nat} {r : ScopeId × Graph}
    (h : addScope g o t k = .ok r) : r.2.naming = g.naming := by
  obtain ⟨g₁, h₁, h⟩ := bind_eq_ok.1 h
  obtain ⟨g₂, h₂, h⟩ := bind_eq_ok.1 h
  cases h
  exact (naming_modifyNode h₂).trans (naming_modifyNode h₁ :)

theorem naming_connect {o t : ElementId} {r : ScopeId × Graph} (h : connect g o t = .ok r) :
    r.2.naming = g.naming := by
  obtain ⟨-, -, h⟩ := bind_eq_ok.1 h
  exact naming_addScope h

theorem naming_addSource {name : String} {tap : Tap} {r : ElementId × Graph}
    (h : addSource g name tap = .ok r) : r.2.naming = g.naming := by
  obtain ⟨r₁, h₁, h⟩ := bind_eq_ok.1 h
  cases h
  exact (naming_addScope h₁ :)

theorem naming_addSink {name : String} {tap : Tap} {input : ElementId} {r : ElementId × Graph}
    (h : addSink g name tap input = .ok r) : r.2.naming = g.naming := by
  obtain ⟨r₁, h₁, h⟩ := bind_eq_ok.1 h
  obtain ⟨r₂, h₂, h⟩ := bind_eq_ok.1 h
  cases h
  exact (naming_addScope h₂).trans (naming_addScope h₁ :)

theorem naming_addInputs {id : ElementId} {inputs : List ElementId}
    (h : addInputs g id inputs = .ok g') : g'.naming = g.naming := by
  refine naming_foldlM (fun g p g' h => ?_) h
  obtain ⟨r, hr, h⟩ := bind_eq_ok.1 h
  cases h
  exact naming_addScope hr

theorem naming_addStage {name : String} {kind : Kind} {inputs : List ElementId}
    {r : ElementId × Graph} (h : addStage g name kind inputs = .ok r) :
    r.2.naming = g.naming := by
  obtain ⟨g₁, h₁, h⟩ := bind_eq_ok.1 h
  cases h
  exact (naming_addInputs h₁ :)

theorem naming_removeScope {i : ScopeId} {r : Option Scope × Graph}
    (h : removeScope g i = .ok r) : r.2.naming = g.naming := by
  unfold removeScope at h
  split at h
  · cases h; rfl
  · obtain ⟨g₁, h₁, h⟩ := bind_eq_ok.1 h
    obtain ⟨g₂, h₂, h⟩ := bind_eq_ok.1 h
    cases h
    exact (naming_modifyNode h₂).trans (naming_modifyNode h₁ :)

theorem naming_removeElement {id : ElementId} {r : Option Element × Graph}
    (h : removeElement g id = .ok r) : r.2.naming = g.naming := by
  unfold removeElement at h
  split at h
  · cases h; rfl
  · obtain ⟨g₁, h₁, h⟩ := bind_eq_ok.1 h
    obtain ⟨g₂, h₂, h⟩ := bind_eq_ok.1 h
    cases h
    refine (naming_modifyNode h₂).trans (naming_foldlM (fun g s g' h => ?_) h₁)
    obtain ⟨r, hr, h⟩ := bind_eq_ok.1 h
    cases h
    exact naming_removeScope hr

theorem naming_retarget {i : ScopeId} {t : ElementId} {k : Nat}
    (h : retarget g i t k = .ok g') : g'.naming = g.naming := by
  obtain ⟨s, -, h⟩ := bind_eq_ok.1 h
  obtain ⟨g₁, h₁, h⟩ := bind_eq_ok.1 h
  obtain ⟨g₂, h₂, h⟩ := bind_eq_ok.1 h
  cases h
  exact (naming_modifyNode h₂).trans (naming_modifyNode h₁)

theorem naming_reorigin {i : ScopeId} {o : ElementId} (h : reorigin g i o = .ok g') :
    g'.naming = g.naming := by
  obtain ⟨s, -, h⟩ := bind_eq_ok.1 h
  obtain ⟨g₁, h₁, h⟩ := bind_eq_ok.1 h
  obtain ⟨g₂, h₂, h⟩ := bind_eq_ok.1 h
  cases h
  exact (naming_modifyNode h₂).trans (naming_modifyNode h₁)

theorem naming_moveOutgoing {id o : ElementId} (h : moveOutgoing g id o = .ok g') :
    g'.naming = g.naming := by
  obtain ⟨-, -, h⟩ := bind_eq_ok.1 h
  exact naming_foldlM (fun _ _ _ => naming_reorigin) h

theorem naming_insertAfter {id : ElementId} {e : Element} {r : ElementId × Graph}
    (h : insertAfter g id e = .ok r) : r.2.naming = g.naming := by
  obtain ⟨g₁, h₁, h⟩ := bind_eq_ok.1 h
  obtain ⟨r₂, h₂, h⟩ := bind_eq_ok.1 h
  cases h
  exact (naming_addScope h₂).trans (naming_moveOutgoing h₁ :)

theorem naming_insertOnScope {i : ScopeId} {e : Element} {r : ElementId × Graph}
    (h : insertOnScope g i e = .ok r) : r.2.naming = g.naming := by
  obtain ⟨s, -, h⟩ := bind_eq_ok.1 h
  obtain ⟨g₁, h₁, h⟩ := bind_eq_ok.1 h
  obtain ⟨r₂, h₂, h⟩ := bind_eq_ok.1 h
  cases h
  exact (naming_addScope h₂).trans (naming_retarget h₁ :)

theorem naming_spliceInput {w : ElementId} {i : ScopeId} (h : spliceInput w g i = .ok g') :
    g'.naming = g.naming := by
  obtain ⟨s, -, h⟩ := bind_eq_ok.1 h
  split at h
  · obtain ⟨r, hr, h⟩ := bind_eq_ok.1 h
    cases h
    exact naming_removeScope hr
  · exact naming_retarget h

theorem naming_spliceOutput {w : ElementId} {i : ScopeId} (h : spliceOutput w g i = .ok g') :
    g'.naming = g.naming := by
  obtain ⟨s, -, h⟩ := bind_eq_ok.1 h
  split at h
  · obtain ⟨r, hr, h⟩ := bind_eq_ok.1 h
    cases h
    exact naming_removeScope hr
  · exact naming_reorigin h

theorem naming_replaceElement {old w : ElementId} (h : replaceElement g old w = .ok g') :
    g'.naming = g.naming := by
  obtain ⟨-, -, h⟩ := bind_eq_ok.1 h
  obtain ⟨g₁, h₁, h⟩ := bind_eq_ok.1 h
  obtain ⟨g₂, h₂, h⟩ := bind_eq_ok.1 h
  obtain ⟨r, hr, h⟩ := bind_eq_ok.1 h
  cases h
  exact (naming_removeElement hr).trans ((naming_foldlM (fun _ _ _ => naming_spliceOutput) h₂).trans
    (naming_foldlM (fun _ _ _ => naming_spliceInput) h₁))

theorem naming_removePassThrough {id : ElementId} {r : Bool × Graph}
    (h : removePassThrough g id = .ok r) : r.2.naming = g.naming := by
  obtain ⟨-, -, h⟩ := bind_eq_ok.1 h
  split at h
  · obtain ⟨s, -, h⟩ := bind_eq_ok.1 h
    obtain ⟨g₁, h₁, h⟩ := bind_eq_ok.1 h
    obtain ⟨r, hr, h⟩ := bind_eq_ok.1 h
    cases h
    exact (naming_removeElement hr).trans (naming_moveOutgoing h₁)
  · cases h; rfl

end Checked

/-- No command draws a name but the one that is for it. -/
theorem Command.naming_perform {c : Command} (hc : c ≠ .nextBoundaryName)
    (h : c.perform g = .ok g') : g'.naming = g.naming := by
  cases c with
  | addElement e => cases h; rfl
  | addScope o t k =>
    obtain ⟨r, hr, rfl⟩ := map_eq_ok.1 h
    exact Checked.naming_addScope hr
  | connect o t =>
    obtain ⟨r, hr, rfl⟩ := map_eq_ok.1 h
    exact Checked.naming_connect hr
  | addSource name tap =>
    obtain ⟨r, hr, rfl⟩ := map_eq_ok.1 h
    exact Checked.naming_addSource hr
  | addSink name tap input =>
    obtain ⟨r, hr, rfl⟩ := map_eq_ok.1 h
    exact Checked.naming_addSink hr
  | addStage name kind inputs =>
    obtain ⟨r, hr, rfl⟩ := map_eq_ok.1 h
    exact Checked.naming_addStage hr
  | removeScope i =>
    obtain ⟨r, hr, rfl⟩ := map_eq_ok.1 h
    exact Checked.naming_removeScope hr
  | removeElement id =>
    obtain ⟨r, hr, rfl⟩ := map_eq_ok.1 h
    exact Checked.naming_removeElement hr
  | insertAfter id e =>
    obtain ⟨r, hr, rfl⟩ := map_eq_ok.1 h
    exact Checked.naming_insertAfter hr
  | insertOnScope i e =>
    obtain ⟨r, hr, rfl⟩ := map_eq_ok.1 h
    exact Checked.naming_insertOnScope hr
  | replaceElement old w => exact Checked.naming_replaceElement h
  | removePassThrough id =>
    obtain ⟨r, hr, rfl⟩ := map_eq_ok.1 h
    exact Checked.naming_removePassThrough hr
  | nextBoundaryName => exact absurd rfl hc
  | clearFields => cases h; rfl

/-! ## The counter only goes up -/

/-- What can be done to a graph: it is given a command, a rule is applied, its fields are
resolved, or what stands in its arenas is written over at will. -/
inductive Mutates (g : Graph) : Graph → Prop
  | command (c : Command) {g' : Graph} (h : c.perform g = .ok g') : Mutates g g'
  | rule (r : Rule) : Mutates g (r.apply g).2
  | resolve : Mutates g g.resolveFields.2
  | write (nodes : List Node) (scopes : List (Option Scope)) : Mutates g { g with nodes, scopes }

theorem counter_le_of_naming (h : g'.naming = g.naming) : g.boundaryCount ≤ g'.boundaryCount :=
  Nat.le_of_eq (congrArg Prod.snd h).symm

theorem counter_lt_nextBoundaryName (g : Graph) :
    g.boundaryCount < g.nextBoundaryName.2.boundaryCount :=
  (find_nextBoundaryName g).2.1

theorem Command.counter_le {c : Command} (h : c.perform g = .ok g') :
    g.boundaryCount ≤ g'.boundaryCount := by
  by_cases hc : c = .nextBoundaryName
  · subst hc
    cases h
    exact Nat.le_of_lt (counter_lt_nextBoundaryName g)
  · exact counter_le_of_naming (naming_perform hc h)

theorem counter_le_boundaryAfter (g : Graph) (scheme : String) (id : ElementId) :
    g.boundaryCount ≤ (g.boundaryAfter scheme id).boundaryCount :=
  Nat.le_trans (Nat.le_of_lt (counter_lt_nextBoundaryName g))
    (counter_le_of_naming (naming_insertAfter g.nextBoundaryName.2 id (g.drawBoundary scheme).1))

theorem counter_le_boundaryOn (g : Graph) (scheme : String) (s : ScopeId) :
    g.boundaryCount ≤ (g.boundaryOn scheme s).boundaryCount :=
  Nat.le_trans (Nat.le_of_lt (counter_lt_nextBoundaryName g))
    (counter_le_of_naming (naming_insertOnScope g.nextBoundaryName.2 s (g.drawBoundary scheme).1))

theorem counter_le_cutScopes (g : Graph) (scheme : String) (cut : IdSet) :
    g.boundaryCount ≤ (g.cutScopes scheme cut).boundaryCount := by
  have hloop : ∀ (l : List ScopeId) (g : Graph),
      g.boundaryCount ≤ (l.foldl (fun g s => g.boundaryOn scheme s) g).boundaryCount := by
    intro l
    induction l with
    | nil => exact fun _ => Nat.le_refl _
    | cons s rest ih => exact fun g => Nat.le_trans (counter_le_boundaryOn g scheme s) (ih _)
  exact hloop cut.toList g

theorem Rewritten.counter_le (h : Rewritten g g') : g.boundaryCount ≤ g'.boundaryCount := by
  cases h with
  | same => exact Nat.le_refl _
  | after scheme id => exact counter_le_boundaryAfter g scheme id
  | on scheme s => exact counter_le_boundaryOn g scheme s
  | cut scheme cut => exact counter_le_cutScopes g scheme cut
  | spliced id => exact counter_le_of_naming (naming_removePassThrough g id)
  | replaced old w => exact counter_le_of_naming (naming_replaceElement g old w)

theorem Mutates.counter_le (h : Mutates g g') : g.boundaryCount ≤ g'.boundaryCount := by
  cases h with
  | command c h => exact c.counter_le h
  | rule r => exact (rewritten_apply r g).counter_le
  | resolve => exact counter_le_of_naming (naming_resolveFields g)
  | write nodes scopes => exact Nat.le_refl _

theorem counter_le_of_mutations (h : ReflTransGen Mutates g g') :
    g.boundaryCount ≤ g'.boundaryCount := by
  induction h with
  | refl => exact Nat.le_refl _
  | tail _ hstep ih => exact Nat.le_trans ih hstep.counter_le

/-! ## What is drawn -/

/-- What holds of the next name that is drawn for a boundary. -/
structure Draws (g : Graph) : Prop where
  /-- The search for it ends, in one way. -/
  ends : ∀ n, Search g g.boundaryCount n ↔
    g.nextBoundaryName = (boundaryName n, { g with boundaryCount := n })
  /-- It takes no more rounds than there are elements, and one. -/
  bounded : g.nextBoundaryName.2.boundaryCount ≤ g.boundaryCount + g.size + 1
  free : ∀ e ∈ g.innerElements, g.nameOf e ≠ g.nextBoundaryName.1
  /-- Whatever is done to the graph from then on, the name is not drawn again. -/
  unrepeated : ∀ g', ReflTransGen Mutates g.nextBoundaryName.2 g' →
    g'.nextBoundaryName.1 ≠ g.nextBoundaryName.1

theorem draws (g : Graph) : g.Draws where
  ends n := by
    rw [search_iff]
    refine ⟨fun h => by rw [h]; rfl, fun h => ?_⟩
    exact (congrArg boundaryCount (Prod.mk.inj h).2).symm
  bounded := nextBoundaryNumber_le g
  free := find_eq_none_iff.1 (find_nextBoundaryName g).1
  unrepeated g' h heq := by
    have hle : g.nextBoundaryNumber ≤ g'.boundaryCount := counter_le_of_mutations h
    have hlt : g'.boundaryCount < g'.nextBoundaryNumber := counter_lt_nextBoundaryName g'
    have hsame : g'.nextBoundaryNumber = g.nextBoundaryNumber := boundaryName_injective heq
    omega

end Graph
end Dataflow
