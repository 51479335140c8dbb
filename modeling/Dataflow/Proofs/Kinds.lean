import Dataflow.Graph.Basic

/-!
# What is known from the kind of an element

Most arguments about a graph ask for the kinds of its elements only: which ones are
taps, which pass on what they receive, and which do the work of a step.

Results:

* `Kind.isWork_iff`, `works_iff`: what works is neither a tap nor an extent;
* `Alike.trans`: being the same kind, but for the fields of a boundary;
* `hasKind_iff`, `hasKind_imp`, `hasKind_eq_false`: from kinds to elements.
-/
namespace Dataflow
namespace Kind

def isSource : Kind → Bool
  | source _ => true
  | _ => false

def isSink : Kind → Bool
  | sink _ => true
  | _ => false

def isPipe : Kind → Bool
  | pipe => true
  | _ => false

/-- A co-group or a hash join. -/
def isJoin : Kind → Bool
  | group .coGroup _ | hashJoin _ => true
  | _ => false

def isHashJoin : Kind → Bool
  | hashJoin _ => true
  | _ => false

/-- Puts out the one value it receives. -/
def passesOn (k : Kind) : Bool := k.isSink || k.isBoundary

/-- Neither a tap nor an extent. -/
def isWork (k : Kind) : Bool := !k.isTap && !k.isExtent

theorem isBoundary_iff {k : Kind} : k.isBoundary = true ↔ ∃ t, k = .boundary t := by
  constructor
  · intro h
    cases k <;> first | exact ⟨_, rfl⟩ | exact absurd h Bool.false_ne_true
  · rintro ⟨t, rfl⟩; rfl

theorem eq_pipe_of_isPipe {k : Kind} (h : k.isPipe = true) : k = .pipe := by
  cases k <;> first | rfl | exact absurd h Bool.false_ne_true

theorem isWork_iff {k : Kind} : k.isWork = true ↔ k.isTap = false ∧ k.isExtent = false := by
  simp [isWork]

theorem isTap_of_isWork {k : Kind} (h : k.isWork = true) : k.isTap = false := (isWork_iff.1 h).1

theorem isWork_of_isGrouping {k : Kind} (h : k.isGrouping = true) : k.isWork = true := by
  cases k <;> first | rfl | exact absurd h Bool.false_ne_true

theorem isTap_of_isGrouping {k : Kind} (h : k.isGrouping = true) : k.isTap = false :=
  isTap_of_isWork (isWork_of_isGrouping h)

theorem isWork_of_isProcessing {k : Kind} (h : k.isProcessing = true) : k.isWork = true := by
  cases k <;> first | rfl | exact absurd h Bool.false_ne_true

theorem isWork_of_isEvery {k : Kind} (h : k.isEvery = true) : k.isWork = true := by
  cases k <;> first | rfl | exact absurd h Bool.false_ne_true

theorem isGrouping_or_isProcessing {k : Kind} (h : k.isWork = true) :
    k.isGrouping = true ∨ k.isProcessing = true := by
  cases k <;> first | exact .inl rfl | exact .inr rfl | exact absurd h Bool.false_ne_true

theorem isProcessing_of_isGrouping {k : Kind} (h : k.isGrouping = true) :
    k.isProcessing = false := by
  cases k <;> first | rfl | exact absurd h Bool.false_ne_true

theorem isEvery_of_isGrouping {k : Kind} (h : k.isGrouping = true) : k.isEvery = false := by
  cases k <;> first | rfl | exact absurd h Bool.false_ne_true

theorem isSink_of_isWork {k : Kind} (h : k.isWork = true) : k.isSink = false := by
  cases k <;> first | rfl | exact absurd h Bool.false_ne_true

theorem isSink_of_isProcessing {k : Kind} (h : k.isProcessing = true) : k.isSink = false :=
  isSink_of_isWork (isWork_of_isProcessing h)

theorem isSink_of_isPipe {k : Kind} (h : k.isPipe = true) : k.isSink = false := by
  rw [eq_pipe_of_isPipe h]; rfl

theorem isSource_of_isPipe {k : Kind} (h : k.isPipe = true) : k.isSource = false := by
  rw [eq_pipe_of_isPipe h]; rfl

theorem isEvery_of_isPipe {k : Kind} (h : k.isPipe = true) : k.isEvery = false := by
  rw [eq_pipe_of_isPipe h]; rfl

theorem feedsEvery_of_isPipe {k : Kind} (h : k.isPipe = true) : k.feedsEvery = false := by
  rw [eq_pipe_of_isPipe h]; rfl

theorem passesOn_of_isPipe {k : Kind} (h : k.isPipe = true) : k.passesOn = false := by
  rw [eq_pipe_of_isPipe h]; rfl

theorem isSource_of_isBoundary {k : Kind} (h : k.isBoundary = true) : k.isSource = false := by
  obtain ⟨t, rfl⟩ := isBoundary_iff.1 h; rfl

theorem isSink_of_isBoundary {k : Kind} (h : k.isBoundary = true) : k.isSink = false := by
  obtain ⟨t, rfl⟩ := isBoundary_iff.1 h; rfl

theorem isEvery_of_isBoundary {k : Kind} (h : k.isBoundary = true) : k.isEvery = false := by
  obtain ⟨t, rfl⟩ := isBoundary_iff.1 h; rfl

theorem isEvery_of_isHashJoin {k : Kind} (h : k.isHashJoin = true) : k.isEvery = false := by
  cases k <;> first | rfl | exact absurd h Bool.false_ne_true

theorem isEvery_of_isBuffer {k : Kind} (h : k.isBuffer = true) : k.isEvery = true := by
  cases k <;> first | rfl | exact absurd h Bool.false_ne_true

/-- The everies are what feeds an every and processes. -/
theorem isEvery_of_feedsEvery {k : Kind} (h : k.feedsEvery = true) (hp : k.isProcessing = true) :
    k.isEvery = true := by
  cases k <;> first | rfl | exact absurd h Bool.false_ne_true | exact absurd hp Bool.false_ne_true

theorem feedsEvery_of_isTap {k : Kind} (h : k.isTap = true) : k.feedsEvery = false := by
  cases k <;> first | rfl | exact absurd h Bool.false_ne_true

theorem passesOn_of_isBoundary {k : Kind} (h : k.isBoundary = true) : k.passesOn = true := by
  simp [passesOn, h]

theorem passesOn_of_isGrouping {k : Kind} (h : k.isGrouping = true) : k.passesOn = false := by
  cases k <;> first | rfl | exact absurd h Bool.false_ne_true

theorem passesOn_of_isEvery {k : Kind} (h : k.isEvery = true) : k.passesOn = false := by
  cases k <;> first | rfl | exact absurd h Bool.false_ne_true

theorem passesOn_of_feedsEvery {k : Kind} (h : k.feedsEvery = true) : k.passesOn = false := by
  cases k <;> first | rfl | exact absurd h Bool.false_ne_true

theorem passesOn_of_isHashJoin {k : Kind} (h : k.isHashJoin = true) : k.passesOn = false := by
  cases k <;> first | rfl | exact absurd h Bool.false_ne_true

theorem isTap_of_isSource {k : Kind} (h : k.isSource = true) : k.isTap = true := by
  cases k <;> first | rfl | exact absurd h Bool.false_ne_true

theorem isTap_of_passesOn {k : Kind} (h : k.passesOn = true) : k.isTap = true := by
  cases k <;> first | rfl | exact absurd h Bool.false_ne_true

theorem isTap_of_isSink {k : Kind} (h : k.isSink = true) : k.isTap = true :=
  isTap_of_passesOn (by simp [passesOn, h])

/-- The taps are the sources and what passes on. -/
theorem passesOn_of_isTap {k : Kind} (h : k.isTap = true) (hs : k.isSource = false) :
    k.passesOn = true := by
  cases k <;> first
    | rfl
    | exact absurd h Bool.false_ne_true
    | exact absurd hs.symm Bool.false_ne_true

/-- The same kind, but for the fields of a boundary. -/
def Alike (k k' : Kind) : Prop := k' = k ∨ (k.isBoundary = true ∧ k'.isBoundary = true)

theorem Alike.symm {k k' : Kind} (h : Alike k k') : Alike k' k :=
  h.imp Eq.symm And.symm

/-- What does not depend on the tap of a boundary is the same for kinds that are alike. -/
theorem Alike.congr {α : Type _} {f : Kind → α} {k k' : Kind} (h : Alike k k')
    (hf : ∀ t t', f (.boundary t') = f (.boundary t)) : f k' = f k := by
  rcases h with rfl | ⟨h, h'⟩
  · rfl
  · obtain ⟨t, rfl⟩ := isBoundary_iff.1 h
    obtain ⟨t', rfl⟩ := isBoundary_iff.1 h'
    exact hf t t'

theorem Alike.trans {k₁ k₂ k₃ : Kind} (h : Alike k₁ k₂) (h' : Alike k₂ k₃) : Alike k₁ k₃ := by
  rcases h with rfl | ⟨h1, h2⟩
  · exact h'
  · rcases h' with rfl | ⟨-, h3⟩
    · exact .inr ⟨h1, h2⟩
    · exact .inr ⟨h1, h3⟩

end Kind

namespace Graph

variable {g : Graph} {p q : Kind → Bool} {e : ElementId}

theorem hasKind_iff : g.hasKind p e = true ↔ ∃ x, g.element? e = some x ∧ p x.kind = true := by
  simp only [hasKind, kind?, Option.any_eq_true, Option.map_eq_some_iff]
  constructor
  · rintro ⟨_, ⟨x, hx, rfl⟩, hp⟩
    exact ⟨x, hx, hp⟩
  · rintro ⟨x, hx, hp⟩
    exact ⟨x.kind, ⟨x, hx, rfl⟩, hp⟩

theorem isExtent_iff : isExtent e = true ↔ e = head ∨ e = tail := by
  simp [isExtent]

theorem contains_iff : g.contains e = true ↔ ∃ x, g.element? e = some x :=
  Option.isSome_iff_exists

theorem contains_of_hasKind (h : g.hasKind p e = true) : g.contains e = true := by
  obtain ⟨x, hx, -⟩ := hasKind_iff.1 h
  exact contains_iff.2 ⟨x, hx⟩

/-- An element of one kind is of a wider one. -/
theorem hasKind_imp (hpq : ∀ k, p k = true → q k = true) (h : g.hasKind p e = true) :
    g.hasKind q e = true := by
  obtain ⟨x, hx, hp⟩ := hasKind_iff.1 h
  exact hasKind_iff.2 ⟨x, hx, hpq x.kind hp⟩

/-- An element of one kind is not of another one. -/
theorem hasKind_eq_false (hpq : ∀ k, p k = true → q k = false) (h : g.hasKind p e = true) :
    g.hasKind q e = false := by
  obtain ⟨x, hx, hp⟩ := hasKind_iff.1 h
  rw [hasKind, kind?, hx]
  exact hpq x.kind hp

/-- A live element that is neither a tap nor an extent. -/
def Works (g : Graph) (e : ElementId) : Prop := g.hasKind Kind.isWork e = true

theorem Works.contains (h : g.Works e) : g.contains e = true := contains_of_hasKind h

theorem Works.not_isTap (h : g.Works e) : g.hasKind Kind.isTap e = false :=
  hasKind_eq_false (fun _ => Kind.isTap_of_isWork) h

theorem not_works_of_isTap (h : g.hasKind Kind.isTap e = true) : ¬ g.Works e := by
  intro hw
  rw [hw.not_isTap] at h
  cases h

/-- A live element works, or is a tap, or is an extent. -/
theorem works_iff : g.Works e ↔
    g.contains e = true ∧ g.hasKind Kind.isTap e = false ∧ g.hasKind Kind.isExtent e = false := by
  unfold Works hasKind kind? contains
  cases g.element? e with
  | none => simp
  | some x => simp [Kind.isWork_iff]

end Graph
end Dataflow
