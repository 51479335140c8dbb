/-!
# Finite sets of ids

Elements and scopes are addressed by numbers. A set of ids is its ascending
list, so two sets with the same members are the same value and every traversal
of a set has one order.

Results:

* `IdSet.ext_mem`: sets with the same members are equal;
* `IdSet.mem_insert`, `mem_union`, `mem_filter`, `mem_sdiff`, `mem_ofList`: what
  each operation does to membership.
-/
namespace Dataflow

/-- A finite set of ids, kept as its ascending list. -/
structure IdSet where
  toList : List Nat
  ascending : toList.Pairwise (· < ·)
  deriving DecidableEq, Repr

namespace IdSet

instance : Membership Nat IdSet := ⟨fun s x => x ∈ s.toList⟩

instance (x : Nat) (s : IdSet) : Decidable (x ∈ s) := inferInstanceAs (Decidable (x ∈ s.toList))

theorem mem_def {x : Nat} {s : IdSet} : x ∈ s ↔ x ∈ s.toList := Iff.rfl

theorem nodup_toList (s : IdSet) : s.toList.Nodup := s.ascending.imp Nat.ne_of_lt

/-! ## Ascending lists -/

/-- Puts `x` at its place in an ascending list, unless it is there. -/
def place (x : Nat) : List Nat → List Nat
  | [] => [x]
  | y :: ys => if x < y then x :: y :: ys else if x = y then y :: ys else y :: place x ys

theorem mem_place {x z : Nat} {l : List Nat} : z ∈ place x l ↔ z = x ∨ z ∈ l := by
  induction l with
  | nil => simp [place]
  | cons y ys ih =>
    unfold place
    split
    · simp
    · split
      · subst_vars; simp
      · simp [ih, or_left_comm]

theorem pairwise_place {x : Nat} {l : List Nat} (h : l.Pairwise (· < ·)) :
    (place x l).Pairwise (· < ·) := by
  induction l with
  | nil => simp [place]
  | cons y ys ih =>
    obtain ⟨hy, hys⟩ := List.pairwise_cons.1 h
    unfold place
    split
    · next hxy =>
      refine List.pairwise_cons.2 ⟨fun z hz => ?_, h⟩
      rcases List.mem_cons.1 hz with rfl | hz
      · exact hxy
      · exact Nat.lt_trans hxy (hy z hz)
    · split
      · exact h
      · refine List.pairwise_cons.2 ⟨fun z hz => ?_, ih hys⟩
        rcases mem_place.1 hz with rfl | hz
        · omega
        · exact hy z hz

theorem eq_of_same_members : ∀ {l m : List Nat}, l.Pairwise (· < ·) → m.Pairwise (· < ·) →
    (∀ x, x ∈ l ↔ x ∈ m) → l = m
  | [], [], _, _, _ => rfl
  | [], b :: _, _, _, h => absurd ((h b).2 (by simp)) (by simp)
  | a :: _, [], _, _, h => absurd ((h a).1 (by simp)) (by simp)
  | a :: l, b :: m, hl, hm, h => by
    obtain ⟨ha, hl'⟩ := List.pairwise_cons.1 hl
    obtain ⟨hb, hm'⟩ := List.pairwise_cons.1 hm
    have hab : a = b := by
      rcases List.mem_cons.1 ((h a).1 (by simp)) with rfl | ham
      · rfl
      · rcases List.mem_cons.1 ((h b).2 (by simp)) with rfl | hbl
        · rfl
        · have := hb a ham; have := ha b hbl; omega
    subst hab
    congr 1
    refine eq_of_same_members hl' hm' fun x => ⟨fun hx => ?_, fun hx => ?_⟩
    · rcases List.mem_cons.1 ((h x).1 (by simp [hx])) with rfl | hx'
      · have := ha x hx; omega
      · exact hx'
    · rcases List.mem_cons.1 ((h x).2 (by simp [hx])) with rfl | hx'
      · have := hb x hx; omega
      · exact hx'

/-- Sets with the same members are equal. -/
theorem ext_mem {s t : IdSet} (h : ∀ x, x ∈ s ↔ x ∈ t) : s = t := by
  obtain ⟨l, hl⟩ := s
  obtain ⟨m, hm⟩ := t
  have : l = m := eq_of_same_members hl hm h
  subst this
  rfl

/-! ## Operations -/

def empty : IdSet := ⟨[], .nil⟩

instance : EmptyCollection IdSet := ⟨empty⟩

instance : Inhabited IdSet := ⟨empty⟩

@[simp] theorem not_mem_empty {x : Nat} : x ∉ (∅ : IdSet) := List.not_mem_nil

def insert (x : Nat) (s : IdSet) : IdSet := ⟨place x s.toList, pairwise_place s.ascending⟩

@[simp] theorem mem_insert {x z : Nat} {s : IdSet} : z ∈ s.insert x ↔ z = x ∨ z ∈ s := mem_place

def singleton (x : Nat) : IdSet := ⟨[x], List.pairwise_singleton _ _⟩

@[simp] theorem mem_singleton {x z : Nat} : z ∈ singleton x ↔ z = x := List.mem_singleton

/-- The set of the members of a list, in whatever order and however often. -/
def ofList (l : List Nat) : IdSet := l.foldr insert ∅

@[simp] theorem mem_ofList {z : Nat} {l : List Nat} : z ∈ ofList l ↔ z ∈ l := by
  induction l with
  | nil => simp [ofList]
  | cons y ys ih => simpa [ofList] using or_congr_right ih

def union (s t : IdSet) : IdSet := t.toList.foldr insert s

instance : Union IdSet := ⟨union⟩

@[simp] theorem mem_union {z : Nat} {s t : IdSet} : z ∈ s ∪ t ↔ z ∈ s ∨ z ∈ t := by
  have key : ∀ l : List Nat, z ∈ l.foldr insert s ↔ z ∈ s ∨ z ∈ l := by
    intro l
    induction l with
    | nil => simp
    | cons y ys ih => simp [ih, or_left_comm]
  exact key t.toList

def filter (p : Nat → Bool) (s : IdSet) : IdSet := ⟨s.toList.filter p, s.ascending.filter p⟩

@[simp] theorem mem_filter {z : Nat} {p : Nat → Bool} {s : IdSet} :
    z ∈ s.filter p ↔ z ∈ s ∧ p z = true := List.mem_filter

/-- The members of `s` that are not in `t`. -/
def sdiff (s t : IdSet) : IdSet := s.filter fun x => decide (x ∉ t)

instance : SDiff IdSet := ⟨sdiff⟩

@[simp] theorem mem_sdiff {z : Nat} {s t : IdSet} : z ∈ s \ t ↔ z ∈ s ∧ z ∉ t := by
  show z ∈ s.filter _ ↔ _
  simp

/-- The ids below `n` that satisfy `p`. -/
def below (n : Nat) (p : Nat → Bool) : IdSet :=
  ⟨(List.range n).filter p, List.pairwise_lt_range.filter p⟩

@[simp] theorem mem_below {z n : Nat} {p : Nat → Bool} : z ∈ below n p ↔ z < n ∧ p z = true := by
  simp [below, mem_def]

/-- The union of the sets `f x` for the members `x` of a list. -/
def unionOf {α : Type} (l : List α) (f : α → IdSet) : IdSet := l.foldr (fun x s => s ∪ f x) ∅

@[simp] theorem mem_unionOf {α : Type} {z : Nat} {l : List α} {f : α → IdSet} :
    z ∈ unionOf l f ↔ ∃ x ∈ l, z ∈ f x := by
  induction l with
  | nil => simp [unionOf]
  | cons y ys ih =>
    have : unionOf (y :: ys) f = unionOf ys f ∪ f y := rfl
    simp [this, ih, or_comm]

def isEmpty (s : IdSet) : Bool := s.toList.isEmpty

def size (s : IdSet) : Nat := s.toList.length

/-- The smallest member. -/
def min? (s : IdSet) : Option Nat := s.toList.head?

theorem mem_of_min? {s : IdSet} {r : Nat} (h : s.min? = some r) : r ∈ s :=
  List.mem_of_mem_head? h

theorem exists_min? {s : IdSet} {x : Nat} (h : x ∈ s) : ∃ r, s.min? = some r := by
  unfold min?
  cases hs : s.toList with
  | nil => rw [mem_def, hs] at h; cases h
  | cons r rest => exact ⟨r, rfl⟩

theorem le_of_min? {s : IdSet} {r x : Nat} (h : s.min? = some r) (hx : x ∈ s) : r ≤ x := by
  obtain ⟨l, hl⟩ := s
  cases l with
  | nil => cases h
  | cons y ys =>
    cases h
    rcases List.mem_cons.1 hx with rfl | hx
    · exact Nat.le_refl _
    · exact Nat.le_of_lt ((List.pairwise_cons.1 hl).1 x hx)

/-- No id is in both sets. -/
def disjoint (s t : IdSet) : Bool := s.toList.all fun x => decide (x ∉ t)

theorem disjoint_iff {s t : IdSet} : s.disjoint t = true ↔ ∀ x ∈ s, x ∉ t := by
  simp [disjoint, mem_def]

theorem isEmpty_iff {s : IdSet} : s.isEmpty = true ↔ s = ∅ := by
  refine ⟨fun h => ext_mem fun x => ?_, fun h => by subst h; rfl⟩
  have : s.toList = [] := by simpa [isEmpty] using h
  simp [mem_def, this]
  exact not_mem_empty

theorem size_lt_two_iff {s : IdSet} : s.size < 2 ↔ ∀ x ∈ s, ∀ y ∈ s, x = y := by
  obtain ⟨l, hl⟩ := s
  show l.length < 2 ↔ ∀ x ∈ l, ∀ y ∈ l, x = y
  match l, hl with
  | [], _ => simp
  | [x], _ => simp
  | x :: y :: rest, hl =>
    have hxy : x < y := (List.pairwise_cons.1 hl).1 y List.mem_cons_self
    refine ⟨fun h => absurd h (by simp), fun h => ?_⟩
    exact absurd (h x List.mem_cons_self y (by simp)) (Nat.ne_of_lt hxy)

end IdSet

end Dataflow
