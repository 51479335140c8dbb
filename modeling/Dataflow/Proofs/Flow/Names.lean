import Mathlib.Logic.Relation
import Dataflow.Proofs.Flow.Naming
import Dataflow.Proofs.Rule.Application

/-!
# Names stay apart

Elements are told apart by their names, the two extents aside: `find` looks an element up by
its name, and the edges of a step graph name a tap. No edit renames an element, and whatever
a rule puts in has a name that was drawn when nothing had it. So names that are pairwise
distinct stay so under every rule and under field resolution, on any graph and whatever the
outcome; a rule that places several boundaries draws each name when the one before is in place.

Results:

* `find_eq_none_iff`, `DistinctNames.find_eq_some_iff`: what looking up a name finds;
* `DistinctNames.of_inherits`, `DistinctNames.of_grows`: what keeps names apart;
* `DistinctNames.of_applies`: rules and field resolution do.
-/
namespace Dataflow
namespace Graph

open Relation

variable {g g' g'' : Graph} {scheme : String}

/-- No two live elements have one name, extents aside. -/
def DistinctNames (g : Graph) : Prop :=
  ∀ a ∈ g.innerElements, ∀ b ∈ g.innerElements, g.nameOf a = g.nameOf b → a = b

instance (g : Graph) : Decidable g.DistinctNames :=
  inferInstanceAs (Decidable (∀ a ∈ g.innerElements.toList, ∀ b ∈ g.innerElements.toList,
    g.nameOf a = g.nameOf b → a = b))

/-! ## Looking up a name -/

theorem nameOf_eq {e : ElementId} {x : Element} (h : g.element? e = some x) :
    g.nameOf e = x.name := by
  rw [nameOf, h, Option.elim_some]

theorem mem_innerElements_iff {e : ElementId} :
    e ∈ g.innerElements ↔ isExtent e = false ∧ ∃ x, g.element? e = some x := by
  rw [mem_innerElements, contains, Option.isSome_iff_exists, and_comm]

theorem find_eq_none_iff {name : String} :
    g.find name = none ↔ ∀ e ∈ g.innerElements, g.nameOf e ≠ name := by
  simp [find, IdSet.mem_def]

theorem mem_of_find {name : String} {e : ElementId} (h : g.find name = some e) :
    e ∈ g.innerElements ∧ g.nameOf e = name :=
  ⟨List.mem_of_find?_eq_some h, (name_of_find h).2⟩

/-- Where names are distinct, looking one up finds the element that has it. -/
theorem DistinctNames.find_eq_some_iff (h : g.DistinctNames) {name : String} {e : ElementId} :
    g.find name = some e ↔ e ∈ g.innerElements ∧ g.nameOf e = name := by
  refine ⟨mem_of_find, fun ⟨he, hname⟩ => ?_⟩
  cases hf : g.find name with
  | none => exact absurd hname (find_eq_none_iff.1 hf e he)
  | some e' =>
    obtain ⟨he', hname'⟩ := mem_of_find hf
    rw [h e' he' e he (hname'.trans hname.symm)]

/-! ## Edits that put nothing in -/

/-- Whatever stands in `g'` stands in `g` under the same name. -/
def Inherits (g g' : Graph) : Prop :=
  ∀ e x', g'.element? e = some x' → ∃ x, g.element? e = some x ∧ x.name = x'.name

theorem Inherits.trans (h : Inherits g g') (h' : Inherits g' g'') : Inherits g g'' := by
  intro e x'' hx''
  obtain ⟨x', hx', hname'⟩ := h' e x'' hx''
  obtain ⟨x, hx, hname⟩ := h e x' hx'
  exact ⟨x, hx, hname.trans hname'⟩

theorem Inherits.refl (g : Graph) : Inherits g g := fun _ x' hx' => ⟨x', hx', rfl⟩

theorem inherits_of_element? (h : ∀ e, g'.element? e = g.element? e) : Inherits g g' :=
  fun e x' hx' => ⟨x', (h e).symm.trans hx', rfl⟩

theorem inherits_removeElement (g : Graph) (p : ElementId) :
    Inherits g (g.removeElement p).2 := by
  intro e x' hx'
  rw [element?_removeElement] at hx'
  split at hx'
  · cases hx'
  · exact ⟨x', hx', rfl⟩

theorem inherits_removePassThrough (g : Graph) (p : ElementId) :
    Inherits g (g.removePassThrough p).2 := by
  unfold removePassThrough
  split
  · next input _ =>
    cases g.scope? input with
    | none => exact inherits_removeElement g p
    | some s =>
      have hmove := inherits_of_element? (samePlaces_moveOutgoing g p s.origin).element?
      exact hmove.trans (inherits_removeElement _ p)
  · exact .refl g

theorem inherits_replaceElement (g : Graph) (old w : ElementId) :
    Inherits g (g.replaceElement old w) := by
  intro e x' hx'
  rw [element?_replaceElement] at hx'
  split at hx'
  · cases hx'
  · exact ⟨x', hx', rfl⟩

theorem Relabels.inherits (h : g.Relabels g') : Inherits g g' := by
  intro e x' hx'
  obtain ⟨x, hx, hname, -⟩ := h.element_from e x' hx'
  exact ⟨x, hx, hname.symm⟩

theorem DistinctNames.of_inherits (h : g.DistinctNames) (hi : Inherits g g') :
    g'.DistinctNames := by
  intro a ha b hb heq
  obtain ⟨hea, x', hx'⟩ := mem_innerElements_iff.1 ha
  obtain ⟨heb, y', hy'⟩ := mem_innerElements_iff.1 hb
  obtain ⟨x, hx, hxname⟩ := hi a x' hx'
  obtain ⟨y, hy, hyname⟩ := hi b y' hy'
  refine h a (mem_innerElements_iff.2 ⟨hea, x, hx⟩) b (mem_innerElements_iff.2 ⟨heb, y, hy⟩) ?_
  rw [nameOf_eq hx, nameOf_eq hy, hxname, hyname, ← nameOf_eq hx', ← nameOf_eq hy', heq]

/-! ## Edits that put in a boundary -/

/-- An element under a name that nothing has keeps names apart. -/
theorem DistinctNames.of_grows {x : Element} (h : g.DistinctNames) (hg : Grows g g' x)
    (hfree : g.find x.name = none) : g'.DistinctNames := by
  -- what was there keeps its name, which is not the new one
  have hold : ∀ e ∈ g'.innerElements, e ≠ g.size →
      e ∈ g.innerElements ∧ g'.nameOf e = g.nameOf e ∧ g'.nameOf e ≠ x.name := by
    intro e he hne
    obtain ⟨hext, y, hy⟩ := mem_innerElements_iff.1 he
    have hy' : g.element? e = some y := by rwa [hg.element?, if_neg hne] at hy
    have hinner := mem_innerElements_iff.2 ⟨hext, y, hy'⟩
    have hname : g'.nameOf e = g.nameOf e := by rw [nameOf_eq hy, nameOf_eq hy']
    exact ⟨hinner, hname, hname ▸ find_eq_none_iff.1 hfree e hinner⟩
  have hnew : g'.nameOf g.size = x.name := nameOf_eq (by rw [hg.element?, if_pos rfl])
  intro a ha b hb heq
  by_cases hna : a = g.size <;> by_cases hnb : b = g.size
  · rw [hna, hnb]
  · rw [hna, hnew] at heq
    exact absurd heq.symm (hold b hb hnb).2.2
  · rw [hnb, hnew] at heq
    exact absurd heq (hold a ha hna).2.2
  · obtain ⟨hia, hsa, -⟩ := hold a ha hna
    obtain ⟨hib, hsb, -⟩ := hold b hb hnb
    exact h a hia b hib (by rw [← hsa, ← hsb, heq])

/-- A boundary goes in on a scope that was removed as well, with nothing leading to it. -/
theorem grows_boundaryOn_any (g : Graph) (scheme : String) (s : ScopeId) :
    Grows g (g.boundaryOn scheme s) (g.drawBoundary scheme).1 := by
  cases hs : g.scope? s with
  | some sc => exact grows_boundaryOn g scheme hs
  | none =>
    have hdead : ({ g with boundaryCount := g.nextBoundaryNumber } : Graph).scope? s = none := hs
    refine ⟨size_boundaryOn g scheme s, fun e => ?_, rfl⟩
    show (({ g with boundaryCount := g.nextBoundaryNumber } : Graph).insertOnScope s
      (g.drawBoundary scheme).1).2.element? e = _
    simp only [insertOnScope, hdead]
    exact element?_addElement e

theorem DistinctNames.boundaryAfter (h : g.DistinctNames) (scheme : String) (id : ElementId) :
    (g.boundaryAfter scheme id).DistinctNames :=
  h.of_grows (grows_boundaryAfter g scheme id) (find_nextBoundaryName g).1

theorem DistinctNames.boundaryOn (h : g.DistinctNames) (scheme : String) (s : ScopeId) :
    (g.boundaryOn scheme s).DistinctNames :=
  h.of_grows (grows_boundaryOn_any g scheme s) (find_nextBoundaryName g).1

theorem DistinctNames.cutScopes (h : g.DistinctNames) (scheme : String) (cut : IdSet) :
    (g.cutScopes scheme cut).DistinctNames := by
  have hloop : ∀ (l : List ScopeId) (g : Graph), g.DistinctNames →
      (l.foldl (fun g s => g.boundaryOn scheme s) g).DistinctNames := by
    intro l
    induction l with
    | nil => exact fun _ hg => hg
    | cons s rest ih => exact fun g hg => ih _ (hg.boundaryOn scheme s)
  exact hloop cut.toList g h

/-! ## Rules and field resolution -/

/-- What a rule can make of a graph. -/
inductive Rewritten (g : Graph) : Graph → Prop
  | same : Rewritten g g
  | after (scheme : String) (id : ElementId) : Rewritten g (g.boundaryAfter scheme id)
  | on (scheme : String) (s : ScopeId) : Rewritten g (g.boundaryOn scheme s)
  | cut (scheme : String) (cut : IdSet) : Rewritten g (g.cutScopes scheme cut)
  | spliced (id : ElementId) : Rewritten g (g.removePassThrough id).2
  | replaced (old w : ElementId) : Rewritten g (g.replaceElement old w)

/-- Each rule leaves the graph as it is, or makes the one change that it looks for. -/
theorem rewritten_apply (r : Rule) (g : Graph) : Rewritten g (r.apply g).2 := by
  cases r with
  | splitInsertion scheme =>
    rw [Rule.apply, SplitInsertion.apply_eq]
    exact changeAt_induction .same fun _ _ => .after scheme _
  | jobPartitioning scheme =>
    rw [Rule.apply, JobPartitioning.apply_eq]
    exact changeAt_induction .same fun _ _ => .cut scheme _
  | joinIsolation scheme =>
    rw [Rule.apply, JoinIsolation.apply_eq]
    exact changeAt_induction .same fun _ _ => .on scheme _
  | sourceNormalization scheme rules =>
    rw [Rule.apply, SourceNormalization.apply_eq]
    exact changeAt_induction .same fun _ _ => .cut scheme _
  | passThrough =>
    rw [Rule.apply, PassThrough.apply_eq]
    exact changeAt_induction .same fun _ _ => .spliced _
  | boundaryCollapse rules =>
    rw [Rule.apply, BoundaryCollapse.apply_eq]
    exact changeAt_induction .same fun _ _ => .replaced _ _

theorem DistinctNames.of_rewritten (h : g.DistinctNames) (hr : Rewritten g g') :
    g'.DistinctNames := by
  cases hr with
  | same => exact h
  | after scheme id => exact h.boundaryAfter scheme id
  | on scheme s => exact h.boundaryOn scheme s
  | cut scheme cut => exact h.cutScopes scheme cut
  | spliced id => exact h.of_inherits (inherits_removePassThrough g id)
  | replaced old w => exact h.of_inherits (inherits_replaceElement g old w)

/-- What planning does to a graph: it applies a rule, or resolves the fields. Either may fail and
leave what was done so far. -/
inductive Applies (g : Graph) : Graph → Prop
  | rule (r : Rule) : Applies g (r.apply g).2
  | resolve : Applies g g.resolveFields.2

theorem DistinctNames.of_applies (h : g.DistinctNames) (happlies : ReflTransGen Applies g g') :
    g'.DistinctNames := by
  induction happlies with
  | refl => exact h
  | tail _ hstep ih =>
    cases hstep with
    | rule r => exact ih.of_rewritten (rewritten_apply r _)
    | resolve => exact ih.of_inherits (relabels_resolveFields _).inherits

end Graph
end Dataflow
