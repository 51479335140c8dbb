/-!
# What it takes to succeed

A computation that may fail succeeds if each of its parts does. The lemmas here take
a success apart: a bind into its two steps, a traversal of a list into one success
for each member, at the same place. A failure is that of the part which failed.
`exists_ok_of_any` finds a success by evaluation.
-/
namespace Dataflow

variable {ε ε' α β : Type}

theorem bind_eq_ok {x : Except ε α} {f : α → Except ε β} {b : β} :
    x >>= f = .ok b ↔ ∃ a, x = .ok a ∧ f a = .ok b := by
  cases x <;> simp [bind, Except.bind]

theorem bind_eq_error {x : Except ε α} {f : α → Except ε β} {e : ε} :
    x >>= f = .error e ↔ x = .error e ∨ ∃ a, x = .ok a ∧ f a = .error e := by
  cases x <;> simp [bind, Except.bind]

theorem map_eq_ok {x : Except ε α} {f : α → β} {b : β} :
    x.map f = .ok b ↔ ∃ a, x = .ok a ∧ f a = b := by
  cases x <;> simp [Except.map]

theorem map_eq_error {x : Except ε α} {f : α → β} {e : ε} :
    x.map f = .error e ↔ x = .error e := by
  cases x <;> simp [Except.map]

theorem mapError_eq_error {x : Except ε α} {f : ε → ε'} {e' : ε'} :
    x.mapError f = .error e' ↔ ∃ e, x = .error e ∧ f e = e' := by
  cases x with
  | error e =>
    constructor
    · exact fun h => ⟨e, rfl, Except.error.inj h⟩
    · rintro ⟨_, h, rfl⟩
      cases h
      rfl
  | ok a =>
    refine ⟨fun h => ?_, fun h => ?_⟩
    · cases h
    · obtain ⟨e, h, -⟩ := h
      cases h

theorem mapError_eq_ok {x : Except ε α} {f : ε → ε'} {a : α} :
    x.mapError f = .ok a ↔ x = .ok a := by
  cases x with
  | error e => exact ⟨fun h => (nomatch h), fun h => (nomatch h)⟩
  | ok b =>
    refine ⟨fun h => ?_, fun h => ?_⟩
    · have hb : (Except.ok b : Except ε' α) = .ok a := h
      cases hb; rfl
    · cases h; rfl

/-- A computation whose result passes a test succeeds. -/
theorem exists_ok_of_any {x : Except ε α} {test : α → Bool} (h : x.toOption.any test = true) :
    ∃ a, x = .ok a ∧ test a = true := by
  cases x with
  | error e => cases h
  | ok a => exact ⟨a, rfl, h⟩

theorem length_of_mapM {f : α → Except ε β} {l : List α} {r : List β} (h : l.mapM f = .ok r) :
    r.length = l.length := by
  induction l generalizing r with
  | nil => cases h; rfl
  | cons a rest ih =>
    rw [List.mapM_cons, bind_eq_ok] at h
    obtain ⟨b, -, h⟩ := h
    obtain ⟨bs, hbs, h⟩ := bind_eq_ok.1 h
    cases h
    simp [ih hbs]

/-- A traversal succeeds if it does so at each member. -/
theorem exists_ok_of_mapM {f : α → Except ε β} {l : List α} (h : ∀ a ∈ l, ∃ b, f a = .ok b) :
    ∃ r, l.mapM f = .ok r := by
  induction l with
  | nil => exact ⟨[], rfl⟩
  | cons a rest ih =>
    obtain ⟨b, hb⟩ := h a List.mem_cons_self
    obtain ⟨bs, hbs⟩ := ih fun a' ha' => h a' (List.mem_cons_of_mem a ha')
    refine ⟨b :: bs, ?_⟩
    rw [List.mapM_cons, hb, hbs]
    rfl

/-- Each place of a traversed list has its result at the same place. -/
theorem getElem?_of_mapM {f : α → Except ε β} {l : List α} {r : List β} (h : l.mapM f = .ok r)
    {i : Nat} {a : α} (ha : l[i]? = some a) : ∃ b, r[i]? = some b ∧ f a = .ok b := by
  induction l generalizing r i with
  | nil => cases ha
  | cons x rest ih =>
    rw [List.mapM_cons, bind_eq_ok] at h
    obtain ⟨b, hb, h⟩ := h
    obtain ⟨bs, hbs, h⟩ := bind_eq_ok.1 h
    cases h
    cases i with
    | zero => cases ha; exact ⟨b, rfl, hb⟩
    | succ i => exact ih hbs ha

theorem exists_mapM_iff {f : α → Except ε β} {l : List α} :
    (∃ r, l.mapM f = .ok r) ↔ ∀ a ∈ l, ∃ b, f a = .ok b := by
  refine ⟨fun ⟨r, hr⟩ a ha => ?_, exists_ok_of_mapM⟩
  obtain ⟨i, hi⟩ := List.mem_iff_getElem?.1 ha
  obtain ⟨b, -, hb⟩ := getElem?_of_mapM hr hi
  exact ⟨b, hb⟩

/-- Each result of a traversal comes from the same place of the list. -/
theorem getElem?_of_mapM_result {f : α → Except ε β} {l : List α} {r : List β}
    (h : l.mapM f = .ok r) {i : Nat} {b : β} (hb : r[i]? = some b) :
    ∃ a, l[i]? = some a ∧ f a = .ok b := by
  have hi : i < l.length := by
    rw [← length_of_mapM h]
    exact (List.getElem?_eq_some_iff.1 hb).1
  obtain ⟨b', hb', hf⟩ := getElem?_of_mapM h (List.getElem?_eq_getElem hi)
  rw [hb] at hb'; cases hb'
  exact ⟨l[i], List.getElem?_eq_getElem hi, hf⟩

/-- A traversal fails at the first member that does. -/
theorem mapM_eq_error_iff {f : α → Except ε β} {l : List α} {e : ε} :
    l.mapM f = .error e ↔ ∃ before a after, l = before ++ a :: after ∧
      (∀ x ∈ before, ∃ b, f x = .ok b) ∧ f a = .error e := by
  induction l with
  | nil =>
    constructor
    · intro h
      cases h
    · rintro ⟨before, a, after, h, -⟩
      exact absurd h.symm (List.append_ne_nil_of_right_ne_nil before (List.cons_ne_nil a after))
  | cons x rest ih =>
    rw [List.mapM_cons, bind_eq_error]
    constructor
    · rintro (hx | ⟨b, hb, h⟩)
      · exact ⟨[], x, rest, rfl, by simp, hx⟩
      · rcases bind_eq_error.1 h with h | ⟨bs, -, h⟩
        · obtain ⟨before, a, after, rfl, hok, ha⟩ := ih.1 h
          refine ⟨x :: before, a, after, rfl, fun y hy => ?_, ha⟩
          rcases List.mem_cons.1 hy with rfl | hy
          · exact ⟨b, hb⟩
          · exact hok y hy
        · cases h
    · rintro ⟨before, a, after, heq, hok, ha⟩
      cases before with
      | nil =>
        cases heq
        exact .inl ha
      | cons y before =>
        cases heq
        obtain ⟨b, hb⟩ := hok x List.mem_cons_self
        refine .inr ⟨b, hb, bind_eq_error.2 (.inl (ih.2 ⟨before, a, after, rfl, ?_, ha⟩))⟩
        exact fun y hy => hok y (List.mem_cons_of_mem x hy)

/-! ## Traversals with the places -/

section Places

variable {f : α × Nat → Except ε β} {l : List α} {Q : α → Prop} {P : α → ε → Prop}

/-- Where success does not depend on the place, each member has to succeed. -/
theorem exists_mapM_zipIdx_iff (hok : ∀ a i, (∃ b, f (a, i) = .ok b) ↔ Q a) :
    (∃ r, l.zipIdx.mapM f = .ok r) ↔ ∀ a ∈ l, Q a := by
  rw [exists_mapM_iff]
  constructor
  · intro h a ha
    obtain ⟨i, hi⟩ := List.mem_iff_getElem?.1 ha
    have hmem : (a, i) ∈ l.zipIdx := List.mk_mem_zipIdx_iff_getElem?.2 hi
    exact (hok a i).1 (h _ hmem)
  · rintro h ⟨a, i⟩ hx
    exact (hok a i).2 (h a (List.fst_mem_of_mem_zipIdx hx))

/-- A traversal with the places fails at the first member that does at its place. -/
theorem mapM_zipIdx_eq_error_iff (hok : ∀ a i, (∃ b, f (a, i) = .ok b) ↔ Q a)
    (herror : ∀ a i e, f (a, i) = .error e ↔ P a e) {e : ε} : l.zipIdx.mapM f = .error e ↔
      ∃ before a after, l = before ++ a :: after ∧ (∀ x ∈ before, Q x) ∧ P a e := by
  rw [mapM_eq_error_iff]
  constructor
  · rintro ⟨before, ⟨a, i⟩, after, heq, hbefore, ha⟩
    refine ⟨before.map Prod.fst, a, after.map Prod.fst, ?_, fun x hx => ?_, (herror a i e).1 ha⟩
    · have hl : l.zipIdx.map Prod.fst = l := List.zipIdx_map_fst 0 l
      rw [← hl, heq, List.map_append, List.map_cons]
    · obtain ⟨⟨x, j⟩, hxj, rfl⟩ := List.mem_map.1 hx
      exact (hok x j).1 (hbefore _ hxj)
  · rintro ⟨before, a, after, rfl, hbefore, ha⟩
    refine ⟨before.zipIdx, (a, before.length), after.zipIdx (before.length + 1), ?_, ?_,
      (herror _ _ e).2 ha⟩
    · rw [List.zipIdx_append, List.zipIdx_cons, Nat.zero_add]
    · rintro ⟨x, j⟩ hx
      exact (hok x j).2 (hbefore x (List.fst_mem_of_mem_zipIdx hx))

end Places

end Dataflow
