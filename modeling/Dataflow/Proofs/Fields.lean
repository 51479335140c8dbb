import Mathlib.Data.List.Induction
import Mathlib.Data.List.Nodup
import Dataflow.Fields
import Dataflow.Proofs.Success

/-!
# Name lists and field sets

A list of names becomes a field set in one of two ways: what comes again is dropped, or it is
refused and reported where it comes for the second time. Field sets that repeat no name are
closed under concatenation and subtraction. The order of names decides the layout of a tuple,
so each operation is described as a list and not as a set.

Results:

* `repeated_eq_nil_iff`, `ofNames?_eq`: when a name counts as repeated, and what becomes of a list;
* `repeats_repeated`: which names are reported, and in which order;
* `append?_eq_ok_iff`, `append?_eq_error_iff`, `subtract_known`: the operations on known sets;
* `algebra_of_distinct`: what holds of field sets that repeat no name.
-/
namespace Dataflow
namespace Fields

/-! ## Repeated names -/

theorem repeatedFrom_concat (seen again l : List String) (name : String) :
    repeatedFrom seen again (l ++ [name]) =
      if (name ∈ seen ∨ name ∈ l) ∧ name ∉ repeatedFrom seen again l then
        repeatedFrom seen again l ++ [name]
      else repeatedFrom seen again l := by
  induction l generalizing seen again with
  | nil => by_cases hs : name ∈ seen <;> by_cases ha : name ∈ again <;> simp [repeatedFrom, hs, ha]
  | cons x rest ih =>
    rw [List.cons_append]
    unfold repeatedFrom
    by_cases hx : x ∈ seen
    · have hmem : name ∈ seen ∨ name ∈ x :: rest ↔ name ∈ seen ∨ name ∈ rest := by
        rw [List.mem_cons]
        constructor
        · rintro (h | rfl | h)
          · exact .inl h
          · exact .inl hx
          · exact .inr h
        · exact Or.imp_right .inr
      simp only [hmem, if_neg (not_not.2 hx)]
      split <;> exact ih _ _
    · have hmem : name ∈ seen ∨ name ∈ x :: rest ↔ name ∈ seen ++ [x] ∨ name ∈ rest := by
        rw [List.mem_cons, List.mem_append, List.mem_singleton, or_assoc]
      simp only [hmem, if_pos hx]
      exact ih _ _

/-- A name counts as repeated when it comes for the second time. -/
theorem repeated_concat (l : List String) (name : String) : repeated (l ++ [name]) =
    if name ∈ l ∧ name ∉ repeated l then repeated l ++ [name] else repeated l := by
  have h := repeatedFrom_concat [] [] l name
  simp only [List.not_mem_nil, false_or] at h
  exact h

theorem mem_repeated_iff {l : List String} {name : String} :
    name ∈ repeated l ↔ 2 ≤ l.count name := by
  induction l using List.reverseRecOn with
  | nil => simp [repeated, repeatedFrom]
  | append_singleton l x ih =>
    rw [repeated_concat, List.count_append]
    by_cases hx : x = name
    · subst hx
      rw [List.count_singleton_self]
      have hmem : x ∈ l ↔ 1 ≤ l.count x := List.one_le_count_iff.symm
      split
      · next h => simp [hmem.1 h.1]
      · next h =>
        rw [hmem, ih] at h
        rw [ih]
        omega
    · rw [List.count_singleton, beq_false_of_ne hx]
      split <;> simp [ih, Ne.symm hx]

theorem repeated_eq_nil_iff {l : List String} : repeated l = [] ↔ l.Nodup := by
  rw [List.eq_nil_iff_forall_not_mem, List.nodup_iff_count_le_one]
  refine forall_congr' fun name => ?_
  rw [mem_repeated_iff]
  omega

theorem nodup_repeated (l : List String) : (repeated l).Nodup := by
  induction l using List.reverseRecOn with
  | nil => exact .nil
  | append_singleton l x ih =>
    rw [repeated_concat]
    split
    · next h => exact List.nodup_append.2 ⟨ih, List.nodup_singleton x, by
        rintro a ha b hb rfl
        exact h.2 (List.mem_singleton.1 hb ▸ ha)⟩
    · exact ih

/-- At place `i` the name stands for the second time. -/
def SecondAt (l : List String) (name : String) (i : Nat) : Prop :=
  l[i]? = some name ∧ (l.take i).count name = 1

theorem SecondAt.lt {l : List String} {name : String} {i : Nat} (h : SecondAt l name i) :
    i < l.length :=
  (List.getElem?_eq_some_iff.1 h.1).1

theorem SecondAt.append {l : List String} {name : String} {i : Nat} (h : SecondAt l name i)
    (l' : List String) : SecondAt (l ++ l') name i := by
  refine ⟨?_, ?_⟩
  · rw [List.getElem?_append_left h.lt]
    exact h.1
  · rw [List.take_append_of_le_length (Nat.le_of_lt h.lt)]
    exact h.2

/-- What is new among the repeated names has come for the second time at the end. -/
theorem secondAt_concat {l : List String} {name : String} (hmem : name ∈ l)
    (hnew : name ∉ repeated l) : SecondAt (l ++ [name]) name l.length := by
  have hone := List.one_le_count_iff.2 hmem
  rw [mem_repeated_iff] at hnew
  refine ⟨by simp, ?_⟩
  rw [List.take_left]
  omega

theorem exists_secondAt {l : List String} {name : String} (h : name ∈ repeated l) :
    ∃ i, SecondAt l name i := by
  induction l using List.reverseRecOn with
  | nil => cases h
  | append_singleton l x ih =>
    by_cases hold : name ∈ repeated l
    · obtain ⟨i, hi⟩ := ih hold
      exact ⟨i, hi.append [x]⟩
    · rw [repeated_concat] at h
      split at h
      · next hx =>
        obtain rfl := List.mem_singleton.1 ((List.mem_append.1 h).resolve_left hold)
        exact ⟨l.length, secondAt_concat hx.1 hx.2⟩
      · exact absurd h hold

/-- The names that stand more than once, each once, where their second places come. -/
structure Repeats (l again : List String) : Prop where
  nodup : again.Nodup
  mem_iff : ∀ name, name ∈ again ↔ 2 ≤ l.count name
  ordered : again.Pairwise fun a b => ∃ i j, SecondAt l a i ∧ SecondAt l b j ∧ i < j

theorem repeats_repeated (l : List String) : Repeats l (repeated l) where
  nodup := nodup_repeated l
  mem_iff _ := mem_repeated_iff
  ordered := by
    induction l using List.reverseRecOn with
    | nil => exact .nil
    | append_singleton l x ih =>
      have hold : (repeated l).Pairwise fun a b =>
          ∃ i j, SecondAt (l ++ [x]) a i ∧ SecondAt (l ++ [x]) b j ∧ i < j :=
        ih.imp fun ⟨i, j, hi, hj, hlt⟩ => ⟨i, j, hi.append [x], hj.append [x], hlt⟩
      rw [repeated_concat]
      split
      · next h =>
        refine List.pairwise_append.2 ⟨hold, List.pairwise_singleton _ _, fun a ha b hb => ?_⟩
        obtain rfl := List.mem_singleton.1 hb
        obtain ⟨i, hi⟩ := exists_secondAt ha
        exact ⟨i, l.length, hi.append [b], secondAt_concat h.1 h.2, hi.lt⟩
      · exact hold

/-! ## Reading a list of names -/

theorem ofNames?_eq (l : List String) : ofNames? l =
    if l.Nodup then .ok (known l) else .error ⟨repeated l⟩ := by
  unfold ofNames?
  split
  · next h => rw [if_pos (repeated_eq_nil_iff.1 h)]
  · next h => rw [if_neg fun hl => h (repeated_eq_nil_iff.2 hl)]

theorem mem_firstOccurrences {l : List String} {name : String} :
    name ∈ firstOccurrences l ↔ name ∈ l := by
  induction l with
  | nil => exact Iff.rfl
  | cons x rest ih =>
    by_cases hx : name = x <;> simp [firstOccurrences, ih, hx]

theorem nodup_firstOccurrences (l : List String) : (firstOccurrences l).Nodup := by
  induction l with
  | nil => exact .nil
  | cons x rest ih =>
    refine List.nodup_cons.2 ⟨fun hx => ?_, ih.filter _⟩
    simpa using (List.mem_filter.1 hx).2

/-- The names come in the order in which they first stand in the list. -/
theorem pairwise_firstOccurrences (l : List String) :
    (firstOccurrences l).Pairwise fun a b => l.idxOf a < l.idxOf b := by
  induction l with
  | nil => exact .nil
  | cons x rest ih =>
    have hne : ∀ a ∈ (firstOccurrences rest).filter (· != x), x ≠ a := fun a ha =>
      (bne_iff_ne.1 (List.mem_filter.1 ha).2).symm
    refine List.pairwise_cons.2 ⟨fun a ha => ?_, (ih.filter _).imp_of_mem fun {a b} ha hb hlt => ?_⟩
    · rw [List.idxOf_cons_self, List.idxOf_cons_ne _ (hne a ha)]
      exact Nat.succ_pos _
    · rw [List.idxOf_cons_ne _ (hne a ha), List.idxOf_cons_ne _ (hne b hb)]
      exact Nat.succ_lt_succ hlt

/-- The set repeats no name. -/
def Distinct : Fields → Prop
  | unknown => True
  | known names => names.Nodup

instance : DecidablePred Distinct
  | unknown => inferInstanceAs (Decidable True)
  | known names => inferInstanceAs (Decidable names.Nodup)

/-- The two readings of a list of names: one drops what comes again, one refuses it. -/
structure Reads (l : List String) : Prop where
  kept : ∃ names, of l = known names ∧ names.Nodup ∧ (∀ name, name ∈ names ↔ name ∈ l) ∧
    names.Pairwise fun a b => l.idxOf a < l.idxOf b
  accepted : ∀ f, ofNames? l = .ok f ↔ l.Nodup ∧ f = known l
  refused : ∀ e, ofNames? l = .error e → ¬ l.Nodup ∧ Repeats l e.names

theorem reads (l : List String) : Reads l where
  kept := ⟨_, rfl, nodup_firstOccurrences l, fun _ => mem_firstOccurrences,
    pairwise_firstOccurrences l⟩
  accepted f := by
    rw [ofNames?_eq]
    split
    · next h => simp [h, eq_comm]
    · next h => simp [h]
  refused e he := by
    rw [ofNames?_eq] at he
    split at he
    · cases he
    · next h =>
      cases he
      exact ⟨h, repeats_repeated l⟩

/-! ## The algebra of known sets -/

variable {left right : List String}

theorem filter_mem_eq_nil_iff : right.filter (· ∈ left) = [] ↔ left.Disjoint right := by
  rw [List.filter_eq_nil_iff]
  simp [List.Disjoint, imp_not_comm]

theorem append?_known : (known left).append? (known right) =
    if right.filter (· ∈ left) = [] then .ok (known (left ++ right))
    else .error ⟨right.filter (· ∈ left)⟩ := by
  have hfilter : right.filter left.contains = right.filter (· ∈ left) :=
    List.filter_congr fun name _ => List.contains_eq_mem name left
  simp only [append?, hfilter]
  split
  · next h => rw [if_pos h]
  · next h => rw [if_neg h]

/-- Concatenation asks that no name is shared. -/
theorem append?_eq_ok_iff {f : Fields} : (known left).append? (known right) = .ok f ↔
    left.Disjoint right ∧ f = known (left ++ right) := by
  rw [append?_known, ← filter_mem_eq_nil_iff]
  split
  · next h => simp [h, eq_comm]
  · next h => simp [h]

theorem append?_eq_error_iff {e : DuplicateFields} : (known left).append? (known right) = .error e ↔
    ¬ left.Disjoint right ∧ e.names = right.filter (· ∈ left) := by
  rw [append?_known, ← filter_mem_eq_nil_iff]
  split
  · next h => simp [h]
  · next h =>
    obtain ⟨names⟩ := e
    simp [h, eq_comm]

theorem append?_unknown (a : Fields) : a.append? unknown = .ok unknown := by
  cases a <;> rfl

theorem subtract_known : (known left).subtract (known right) =
    known (left.filter (· ∉ right)) := by
  refine congrArg known (List.filter_congr fun name _ => ?_)
  simp

/-- What two known sets make together. -/
structure Combines (left right : List String) : Prop where
  appended : ∀ f, (known left).append? (known right) = .ok f ↔
    left.Disjoint right ∧ f = known (left ++ right)
  /-- The shared names are reported in the order of `right`. -/
  shared : ∀ e, (known left).append? (known right) = .error e ↔
    ¬ left.Disjoint right ∧ e.names = right.filter (· ∈ left)
  missing : (known left).missing (known right) = [] ↔ right ⊆ left
  /-- What is left has the order of `left`, and with what was taken it makes up `left`. -/
  subtracted : ∃ rest, (known left).subtract (known right) = known rest ∧ rest.Sublist left ∧
    (∀ name, name ∈ rest ↔ name ∈ left ∧ name ∉ right) ∧
    (rest ++ right.filter (· ∈ left)).Perm left

theorem combines (hl : left.Nodup) (hr : right.Nodup) : Combines left right where
  appended _ := append?_eq_ok_iff
  shared _ := append?_eq_error_iff
  missing := by
    rw [missing, List.filter_eq_nil_iff]
    simp [List.subset_def]
  subtracted := by
    refine ⟨_, subtract_known, List.filter_sublist, fun name => by simp, ?_⟩
    have hd : (left.filter (· ∉ right)).Disjoint (right.filter (· ∈ left)) := fun name h h' => by
      simp only [List.mem_filter, decide_eq_true_eq] at h h'
      exact h.2 h'.1
    have hnodup := List.nodup_append'.2 ⟨hl.filter _, hr.filter _, hd⟩
    refine (List.perm_ext_iff_of_nodup hnodup hl).2 fun name => ?_
    by_cases hn : name ∈ right <;> simp [hn]

/-! ## Sets of either kind -/

variable {a b c f g : Fields}

theorem distinct_of_append? (ha : a.Distinct) (hb : b.Distinct) (h : a.append? b = .ok f) :
    f.Distinct := by
  cases a with
  | unknown => cases h; trivial
  | known left =>
    cases b with
    | unknown => cases h; trivial
    | known right =>
      obtain ⟨hd, rfl⟩ := append?_eq_ok_iff.1 h
      exact List.nodup_append'.2 ⟨ha, hb, hd⟩

theorem distinct_subtract (ha : a.Distinct) (b : Fields) : (a.subtract b).Distinct := by
  cases a with
  | unknown => trivial
  | known left =>
    cases b with
    | unknown => trivial
    | known right => exact List.Nodup.filter _ ha

/-- Where both ways of concatenating three sets go through, they agree. -/
theorem append?_assoc (hf : (a.append? b >>= (·.append? c)) = .ok f)
    (hg : (b.append? c >>= a.append?) = .ok g) : f = g := by
  obtain ⟨ab, hab, hf'⟩ := bind_eq_ok.1 hf
  obtain ⟨bc, hbc, hg'⟩ := bind_eq_ok.1 hg
  clear hf hg
  cases a with
  | unknown => cases hab; cases hf'; cases hg'; rfl
  | known left =>
    cases b with
    | unknown => cases hab; cases hf'; cases hbc; cases hg'; rfl
    | known mid =>
      cases c with
      | unknown =>
        rw [append?_unknown] at hf' hbc
        cases hf'; cases hbc; cases hg'; rfl
      | known right =>
        obtain ⟨-, rfl⟩ := append?_eq_ok_iff.1 hab
        obtain ⟨-, rfl⟩ := append?_eq_ok_iff.1 hf'
        obtain ⟨-, rfl⟩ := append?_eq_ok_iff.1 hbc
        obtain ⟨-, rfl⟩ := append?_eq_ok_iff.1 hg'
        rw [List.append_assoc]

/-- What holds of field sets that repeat no name. -/
structure Algebra (a b c : Fields) : Prop where
  append_distinct : ∀ f, a.append? b = .ok f → f.Distinct
  subtract_distinct : (a.subtract b).Distinct
  append_assoc : ∀ f g, (a.append? b >>= (·.append? c)) = .ok f →
    (b.append? c >>= a.append?) = .ok g → f = g
  known : ∀ left right, a = known left → b = known right → Combines left right

/-- **Field sets repeat no name, and their algebra holds.** -/
theorem algebra_of_distinct (ha : a.Distinct) (hb : b.Distinct) :
    (∀ l, Reads l) ∧ ∀ c, Algebra a b c := by
  refine ⟨reads, fun c => ⟨fun f => distinct_of_append? ha hb, distinct_subtract ha b,
    fun f g => append?_assoc, ?_⟩⟩
  rintro left right rfl rfl
  exact combines ha hb

/-- A list whose names come again in the other order, and two sets that share a name. -/
theorem algebra_overlapping :
    (known ["word", "count"]).Distinct ∧ (known ["count", "line"]).Distinct ∧
      Reads ["a", "b", "b", "a"] ∧ repeated ["a", "b", "b", "a"] = ["b", "a"] ∧
      Algebra (known ["word", "count"]) (known ["count", "line"]) unknown ∧
      (known ["word", "count"]).append? (known ["count", "line"]) = .error ⟨["count"]⟩ := by
  have ha : (known ["word", "count"]).Distinct := by decide
  have hb : (known ["count", "line"]).Distinct := by decide
  obtain ⟨hreads, halgebra⟩ := algebra_of_distinct ha hb
  exact ⟨ha, hb, hreads _, by decide, halgebra unknown, by decide⟩

end Fields
end Dataflow
