import Dataflow.Proofs.Flow.Edits
import Dataflow.Rule.SourceNormalization

/-!
# The schemes of taps

No edit changes the scheme of a tap: fields are resolved, but a tap stays where it is.
What an edit adds has the scheme of the boundaries that it draws.

Results:

* `location?_resolveFields`, `scheme?_resolveFields`: field resolution moves no tap;
* `Edits.scheme?_cases`: the schemes of a graph that edits lead to;
* `Edits.scheme?_boundary`: every boundary has the scheme that boundaries are drawn with.
-/
namespace Dataflow
namespace Graph

open Relation

variable {g g' : Graph} {scheme : String} {rules : TapRules}

/-- The scheme of the tap that the element is, if it is one. -/
def scheme? (g : Graph) (e : ElementId) : Option String :=
  (SourceNormalization.tapOf g e).map Tap.scheme

theorem scheme?_eq {e : ElementId} {x : Element} (h : g.element? e = some x) :
    g.scheme? e = x.kind.tap?.map Tap.scheme := by
  rw [scheme?, SourceNormalization.tapOf, kind?, h]
  rfl

theorem scheme?_congr {e : ElementId} (h : g'.element? e = g.element? e) :
    g'.scheme? e = g.scheme? e := by
  rw [scheme?, scheme?, SourceNormalization.tapOf, SourceNormalization.tapOf, kind?, kind?, h]

/-- Where the data of the tap is that the element is, if it is one: its scheme and its
identifier. -/
def location? (g : Graph) (e : ElementId) : Option (String × String) :=
  (SourceNormalization.tapOf g e).map fun t => (t.scheme, t.identifier)

theorem location?_eq {e : ElementId} {x : Element} (h : g.element? e = some x) :
    g.location? e = x.kind.tap?.map fun t => (t.scheme, t.identifier) := by
  rw [location?, SourceNormalization.tapOf, kind?, h]
  rfl

theorem location?_congr {e : ElementId} (h : g'.element? e = g.element? e) :
    g'.location? e = g.location? e := by
  rw [location?, location?, SourceNormalization.tapOf, SourceNormalization.tapOf, kind?, kind?, h]

theorem scheme?_eq_fst (g : Graph) (e : ElementId) :
    g.scheme? e = (g.location? e).map Prod.fst := by
  rw [scheme?, location?, Option.map_map]
  rfl

/-! ## Field resolution -/

theorem location?_setTapFields (i : ElementId) (f : Fields) (e : ElementId) :
    (g.setTapFields i f).location? e = g.location? e := by
  by_cases hei : e = i
  · cases hx : g.element? e with
    | none => exact location?_congr (by rw [element?_setTapFields, if_pos hei, hx]; rfl)
    | some x =>
      have hx' : (g.setTapFields i f).element? e =
          some { x with kind := x.kind.withTapFields f } := by
        rw [element?_setTapFields, if_pos hei, hx]
        rfl
      rw [location?_eq hx, location?_eq hx']
      cases x.kind <;> rfl
  · exact location?_congr (by rw [element?_setTapFields, if_neg hei])

theorem location?_label (i : ElementId) (f : Fields) (e : ElementId) :
    (Resolution.label g i f).location? e = g.location? e := by
  have hfold : ∀ (l : List ScopeId) (g : Graph),
      (l.foldl (fun g s => g.setFields s f) g).location? e = g.location? e := by
    intro l
    induction l with
    | nil => exact fun _ => rfl
    | cons s rest ih => exact fun g => (ih _).trans rfl
  unfold Resolution.label
  by_cases hb : g.hasKind Kind.isBoundary i = true
  · simp only [hb, if_true]
    rw [hfold, location?_setTapFields]
  · simp only [hb, Bool.false_eq_true, if_false]
    rw [hfold]

theorem location?_resolveEach (l : List ElementId) (g : Graph) (e : ElementId) :
    (Resolution.resolveEach l g).2.location? e = g.location? e := by
  induction l generalizing g with
  | nil => rfl
  | cons i rest ih =>
    unfold Resolution.resolveEach
    split
    · exact ih g
    · split
      · rfl
      · rw [ih, location?_label]

theorem location?_resolveFields (g : Graph) (e : ElementId) :
    g.resolveFields.2.location? e = g.location? e := by
  unfold resolveFields
  split
  · rfl
  · rw [location?_resolveEach]
    rfl

theorem scheme?_resolveFields (g : Graph) (e : ElementId) :
    g.resolveFields.2.scheme? e = g.scheme? e := by
  rw [scheme?_eq_fst, scheme?_eq_fst, location?_resolveFields]

/-! ## Edits -/

theorem Grows.scheme?_cases {name place : String}
    (h : Grows g g' ⟨name, .boundary (.temporary scheme place)⟩) {e : ElementId}
    (he : g'.contains e = true) : (g.contains e = true ∧ g'.scheme? e = g.scheme? e) ∨
      (g.size ≤ e ∧ g'.scheme? e = some scheme) := by
  rcases h.old_or_new he with hlt | rfl
  · have hsame := h.element?_old hlt
    rw [contains, hsame] at he
    exact .inl ⟨he, scheme?_congr hsame⟩
  · exact .inr ⟨Nat.le_refl _, scheme?_eq h.element?_new⟩

/-- What an edit leaves has its scheme, what it adds has that of boundaries. -/
theorem Edit.scheme?_cases (h : Edit scheme rules g g') {e : ElementId}
    (he : g'.contains e = true) : (g.contains e = true ∧ g'.scheme? e = g.scheme? e) ∨
      (g.size ≤ e ∧ g'.scheme? e = some scheme) := by
  cases h with
  | recount n => exact .inl ⟨he, rfl⟩
  | after name place hid => exact (grows_insertAfter rfl _).scheme?_cases he
  | on name place hi _ _ => exact (grows_insertOnScope hi rfl).scheme?_cases he
  | splice ha hi hp =>
    have hsame := ((shrinks_removePassThrough ha hi).of_contains he).2
    rw [contains, hsame] at he
    exact .inl ⟨he, scheme?_congr hsame⟩
  | @replace b t _ _ hr hsym =>
    have hsame := ((shrinks_replaceElement g b t).of_contains he).2
    rw [contains, hsame] at he
    exact .inl ⟨he, scheme?_congr hsame⟩
  | resolve =>
    exact .inl ⟨(relabels_resolveFields g).contains.1 he, scheme?_resolveFields g e⟩

theorem Edits.scheme?_cases (h : Edits scheme rules g g') (hs : g.Shaped) {e : ElementId}
    (he : g'.contains e = true) : (g.contains e = true ∧ g'.scheme? e = g.scheme? e) ∨
      (g.size ≤ e ∧ g'.scheme? e = some scheme) := by
  refine (h.induction (P := fun a => g.size ≤ a.size ∧ ∀ e, a.contains e = true →
    (g.contains e = true ∧ a.scheme? e = g.scheme? e) ∨
      (g.size ≤ e ∧ a.scheme? e = some scheme)) hs ⟨Nat.le_refl _, fun _ he => .inl ⟨he, rfl⟩⟩
    fun a b ha ⟨hsize, hall⟩ hab => ⟨?_, fun e he => ?_⟩).2.2 e he
  · exact Nat.le_trans hsize (Edit.keeps.{0} ha hab).2.size_le
  · rcases hab.scheme?_cases he with ⟨hlive, hsame⟩ | ⟨hge, hnew⟩
    · rw [hsame]
      exact hall e hlive
    · exact .inr ⟨Nat.le_trans hsize hge, hnew⟩

/-- Where there was no boundary to begin with, each one has the scheme of those that are
drawn. -/
theorem Edits.scheme?_boundary (h : Edits scheme rules g g') (hs : g.Shaped)
    (hnone : ∀ e, g.hasKind Kind.isBoundary e = false) {b : ElementId}
    (hb : g'.hasKind Kind.isBoundary b = true) : g'.scheme? b = some scheme := by
  have hlive := contains_of_hasKind hb
  rcases h.scheme?_cases hs hlive with ⟨hold, -⟩ | ⟨-, hnew⟩
  · have hkeeps := (Edits.keeps.{0} h hs).2
    rw [hkeeps.hasKind_eq (fun _ => rfl) (lt_size_of_contains hold) hlive, hnone] at hb
    cases hb
  · exact hnew

end Graph
end Dataflow
