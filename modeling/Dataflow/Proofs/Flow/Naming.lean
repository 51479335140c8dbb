import Dataflow.Proofs.Flow.Schemes
import Dataflow.Proofs.Graph.Sessions

/-!
# Where boundaries keep their data

The identifier of a boundary is its name below that of the pipeline, and no number is drawn
twice for a name. So a boundary has a place of its own among the boundaries of a graph, and
rewiring, removals and field resolution leave it there.

Results:

* `naming_replaceElement`, `naming_removePassThrough`, `naming_resolveFields`: what draws no
  name leaves the numbers as they are;
* `Allotted`: every boundary has its own place in the scheme that boundaries are drawn with;
* `Shapings.allotted`, `Allotted.replaceElement`, `Allotted.resolveFields`: it stays so.
-/
namespace Dataflow
namespace Graph

variable {g g' : Graph} {scheme pipeline : String}

/-- What the names of boundaries depend on: the name of the graph, and the number that was
drawn last. -/
def naming (g : Graph) : String × Nat := (g.name, g.boundaryCount)

theorem naming_foldl {α : Type} {f : Graph → α → Graph} (hf : ∀ g a, (f g a).naming = g.naming)
    (l : List α) (g : Graph) : (l.foldl f g).naming = g.naming := by
  induction l generalizing g with
  | nil => rfl
  | cons a rest ih => exact (ih _).trans (hf g a)

theorem naming_removeScope (g : Graph) (i : ScopeId) : (g.removeScope i).2.naming = g.naming := by
  unfold removeScope
  split <;> rfl

theorem naming_removeElement (g : Graph) (e : ElementId) :
    (g.removeElement e).2.naming = g.naming := by
  unfold removeElement
  split
  · rfl
  · exact naming_foldl naming_removeScope _ g

theorem naming_retarget (g : Graph) (i : ScopeId) (e : ElementId) (n : Nat) :
    (g.retarget i e n).naming = g.naming := by
  unfold retarget
  split <;> rfl

theorem naming_reorigin (g : Graph) (i : ScopeId) (e : ElementId) :
    (g.reorigin i e).naming = g.naming := by
  unfold reorigin
  split <;> rfl

theorem naming_moveOutgoing (g : Graph) (e o : ElementId) :
    (g.moveOutgoing e o).naming = g.naming :=
  naming_foldl (fun g s => naming_reorigin g s o) _ g

theorem naming_insertAfter (g : Graph) (e : ElementId) (x : Element) :
    (g.insertAfter e x).2.naming = g.naming :=
  naming_moveOutgoing (g.addElement x).2 e (g.addElement x).1

theorem naming_insertOnScope (g : Graph) (i : ScopeId) (x : Element) :
    (g.insertOnScope i x).2.naming = g.naming := by
  simp only [insertOnScope]
  cases g.scope? i with
  | none => rfl
  | some sc => exact naming_retarget (g.addElement x).2 i (g.addElement x).1 0

theorem naming_replaceElement (g : Graph) (b t : ElementId) :
    (g.replaceElement b t).naming = g.naming := by
  have hin : ∀ (g : Graph) (s : ScopeId), (spliceInput t g s).naming = g.naming := by
    intro g s
    unfold spliceInput
    split
    · rfl
    · split
      · exact naming_removeScope g s
      · exact naming_retarget g s t _
  have hout : ∀ (g : Graph) (s : ScopeId), (spliceOutput t g s).naming = g.naming := by
    intro g s
    unfold spliceOutput
    split
    · rfl
    · split
      · exact naming_removeScope g s
      · exact naming_reorigin g s t
  unfold replaceElement
  rw [naming_removeElement, naming_foldl hout, naming_foldl hin]

theorem naming_removePassThrough (g : Graph) (p : ElementId) :
    (g.removePassThrough p).2.naming = g.naming := by
  unfold removePassThrough
  split
  · rw [naming_removeElement]
    split
    · rfl
    · exact naming_moveOutgoing g p _
  · rfl

theorem naming_resolveFields (g : Graph) : g.resolveFields.2.naming = g.naming := by
  have hlabel : ∀ (g : Graph) (e : ElementId) (f : Fields),
      (Resolution.label g e f).naming = g.naming := by
    intro g e f
    unfold Resolution.label
    refine (naming_foldl (f := fun g s => g.setFields s f) (fun _ _ => rfl) _ _).trans ?_
    split <;> rfl
  have heach : ∀ (l : List ElementId) (g : Graph),
      (Resolution.resolveEach l g).2.naming = g.naming := by
    intro l
    induction l with
    | nil => exact fun _ => rfl
    | cons e rest ih =>
      intro g
      unfold Resolution.resolveEach
      split
      · exact ih g
      · split
        · rfl
        · exact (ih _).trans (hlabel g e _)
  unfold resolveFields
  split
  · rfl
  · exact heach _ _

/-! ## Places -/

/-- The identifier that a boundary with the number `n` has in a pipeline of that name. -/
def boundaryPlace (pipeline : String) (n : Nat) : String := pipeline ++ "/" ++ boundaryName n

theorem boundaryPlace_injective {pipeline : String} {m n : Nat}
    (h : boundaryPlace pipeline m = boundaryPlace pipeline n) : m = n := by
  have hlist := congrArg String.toList h
  simp only [boundaryPlace, String.toList_append] at hlist
  exact boundaryName_injective (String.toList_inj.1 (List.append_cancel_left hlist))

theorem location?_drawBoundary {e : ElementId}
    (h : g'.element? e = some (g.drawBoundary scheme).1) :
    g'.location? e = some (scheme, boundaryPlace g.name g.nextBoundaryNumber) :=
  location?_eq h

/-- Every boundary has a place of its own in the scheme, under a number that was drawn. -/
structure Allotted (scheme pipeline : String) (g : Graph) : Prop where
  name : g.name = pipeline
  place : ∀ b, g.hasKind Kind.isBoundary b = true → ∃ n, 0 < n ∧ n ≤ g.boundaryCount ∧
    g.location? b = some (scheme, boundaryPlace pipeline n)
  distinct : ∀ b c, g.hasKind Kind.isBoundary b = true → g.hasKind Kind.isBoundary c = true →
    g.location? b = g.location? c → b = c

/-- No place is lost or moved where no boundary is new and no name is drawn. -/
theorem Allotted.of_naming (h : g.Allotted scheme pipeline) (hn : g'.naming = g.naming)
    (hold : ∀ b, g'.hasKind Kind.isBoundary b = true →
      g.hasKind Kind.isBoundary b = true ∧ g'.location? b = g.location? b) :
    g'.Allotted scheme pipeline := by
  obtain ⟨hname, hcount⟩ := Prod.mk.inj hn
  refine ⟨hname.trans h.name, fun b hb => ?_, fun b c hb hc heq => ?_⟩
  · obtain ⟨hb', hloc⟩ := hold b hb
    rw [hcount, hloc]
    exact h.place b hb'
  · obtain ⟨hb', hlocb⟩ := hold b hb
    obtain ⟨hc', hlocc⟩ := hold c hc
    exact h.distinct b c hb' hc' (hlocb.symm.trans (heq.trans hlocc))

/-- A boundary that is drawn gets a place that none has had. -/
theorem Allotted.of_grows (h : g.Allotted scheme pipeline)
    (hg : Grows g g' (g.drawBoundary scheme).1)
    (hn : g'.naming = (g.name, g.nextBoundaryNumber)) : g'.Allotted scheme pipeline := by
  obtain ⟨hname, hcount⟩ := Prod.mk.inj hn
  have hlt := (find_nextBoundaryName g).2.1
  have hnew := location?_drawBoundary hg.element?_new
  rw [h.name] at hnew
  -- the place of a boundary that was there has a smaller number
  have hold : ∀ b, b < g.size → g'.hasKind Kind.isBoundary b = true →
      g.hasKind Kind.isBoundary b = true ∧ g'.location? b = g.location? b := by
    intro b hb hk
    exact ⟨(hg.hasKind_old hb).symm.trans hk, location?_congr (hg.element?_old hb)⟩
  have hne : ∀ b, b < g.size → g'.hasKind Kind.isBoundary b = true →
      g'.location? b ≠ g'.location? g.size := by
    intro b hb hk heq
    obtain ⟨hk', hloc⟩ := hold b hb hk
    obtain ⟨n, -, hn, hplace⟩ := h.place b hk'
    rw [hloc, hplace, hnew] at heq
    have := boundaryPlace_injective (Prod.mk.inj (Option.some.inj heq)).2
    omega
  refine ⟨hname.trans h.name, fun b hb => ?_, fun b c hb hc heq => ?_⟩
  · rw [hcount]
    rcases hg.old_or_new (contains_of_hasKind hb) with hb' | rfl
    · obtain ⟨hk, hloc⟩ := hold b hb' hb
      obtain ⟨n, hpos, hn, hplace⟩ := h.place b hk
      exact ⟨n, hpos, Nat.le_trans hn (Nat.le_of_lt hlt), hloc.trans hplace⟩
    · exact ⟨g.nextBoundaryNumber, Nat.lt_of_le_of_lt (Nat.zero_le _) hlt, Nat.le_refl _, hnew⟩
  · rcases hg.old_or_new (contains_of_hasKind hb) with hb' | rfl <;>
      rcases hg.old_or_new (contains_of_hasKind hc) with hc' | rfl
    · obtain ⟨hkb, hlocb⟩ := hold b hb' hb
      obtain ⟨hkc, hlocc⟩ := hold c hc' hc
      exact h.distinct b c hkb hkc (hlocb.symm.trans (heq.trans hlocc))
    · exact absurd heq (hne b hb' hb)
    · exact absurd heq.symm (hne c hc' hc)
    · rfl

/-! ## Edits -/

/-- Where an element was taken away, the others have the places that they had. -/
theorem Allotted.of_shrinks {p : ElementId} (h : g.Allotted scheme pipeline) (hg : Shrinks g g' p)
    (hn : g'.naming = g.naming) : g'.Allotted scheme pipeline := by
  refine h.of_naming hn fun b hb => ?_
  obtain ⟨hne, hsame⟩ := hg.of_contains (contains_of_hasKind hb)
  rw [hg.hasKind_of_ne hne] at hb
  exact ⟨hb, location?_congr hsame⟩

theorem Allotted.replaceElement (h : g.Allotted scheme pipeline) (b t : ElementId) :
    (g.replaceElement b t).Allotted scheme pipeline :=
  h.of_shrinks (shrinks_replaceElement g b t) (naming_replaceElement g b t)

theorem Allotted.resolveFields (h : g.Allotted scheme pipeline) :
    g.resolveFields.2.Allotted scheme pipeline := by
  refine h.of_naming (naming_resolveFields g) fun b hb => ⟨?_, location?_resolveFields g b⟩
  exact ((relabels_resolveFields g).hasKind (alike_of_boundaries fun _ => rfl)).1 hb

theorem Shapes.allotted (h : Shapes scheme g g') (ha : g.Allotted scheme pipeline) :
    g'.Allotted scheme pipeline := by
  cases h with
  | @after id hid =>
    exact ha.of_grows (grows_boundaryAfter g scheme id) (naming_insertAfter _ id _)
  | @on i hi =>
    obtain ⟨sc, hsc, -⟩ := hi
    exact ha.of_grows (grows_boundaryOn g scheme hsc) (naming_insertOnScope _ i _)
  | @splice p i sc hin hi hp =>
    exact ha.of_shrinks (shrinks_removePassThrough hin hi) (naming_removePassThrough g p)

theorem Shapings.allotted (h : Shapings scheme g g') (ha : g.Allotted scheme pipeline) :
    g'.Allotted scheme pipeline := by
  induction h with
  | refl => exact ha
  | tail _ hab ih => exact hab.allotted ih

end Graph
end Dataflow
