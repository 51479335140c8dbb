import Dataflow.Cursor.Basic
import Dataflow.Proofs.Success
import Mathlib.Logic.Relation

/-!
# What a cursor may do when it is called

Asking a cursor whether there is more may cache work and so change its state, but nobody can
tell: the answer stays the same, and so does what the next call gives. Once the answer is no,
the state does not change any more. `Cursor.Lawful` says this of every state of a cursor, so
that a cursor that wraps a lawful one can be shown lawful in turn.

Results:

* `Lawful.results_eq_filter`: asking more or less often changes no result;
* `Lawful.results_of_spent`: a spent cursor gives nothing any more;
* `endsWithin_of`: a bound on what is to come, from one that every call keeps;
* `drain_eq_ok_iff`: what draining yields, where the capacity is such a bound;
* `Measured`: the capacity is such a bound, and stays one;
* `within_of`: which elements the selections may have, from what every call keeps.
-/
namespace Dataflow

open Relation

namespace Cursor

/-- What can be asked of a cursor. -/
inductive Call where
  | hasNext
  | next
  deriving DecidableEq, Repr

section Calls

variable {σ : Type} [Cursor σ]

/-- The state after a call. -/
def after : Call → σ → σ
  | .hasNext, c => (hasNext c).2
  | .next, c => (next c).2

/-- The state after a sequence of calls. -/
def afterAll (calls : List Call) (c : σ) : σ := calls.foldl (fun c call => after call c) c

/-- What the calls for a selection give, in order. -/
def results : List Call → σ → List (Except CursorError Selection)
  | [], _ => []
  | .hasNext :: calls, c => results calls (hasNext c).2
  | .next :: calls, c => (next c).1 :: results calls (next c).2

/-- The selections that a sequence of calls gives. -/
def taken (calls : List Call) (c : σ) : List Selection := (results calls c).filterMap Except.toOption

/-- No sequence of calls gives more than `k` selections. -/
def EndsWithin (k : Nat) (c : σ) : Prop := ∀ calls, (taken calls c).length ≤ k

/-- Taking selections while there are more gives `parts` and ends in `c'`. -/
inductive Yields : σ → List Selection → σ → Prop
  | spent {c : σ} (h : (hasNext c).1 = false) : Yields c [] (hasNext c).2
  | more {c c' : σ} {s : Selection} {parts : List Selection} (h : (hasNext c).1 = true)
      (hs : (next (hasNext c).2).1 = .ok s) (hrest : Yields (next (hasNext c).2).2 parts c') :
      Yields c (s :: parts) c'

@[simp] theorem taken_nil (c : σ) : taken [] c = [] := rfl

@[simp] theorem taken_hasNext (calls : List Call) (c : σ) :
    taken (.hasNext :: calls) c = taken calls (hasNext c).2 := rfl

theorem taken_next_of_ok (calls : List Call) {c : σ} {s : Selection} (h : (next c).1 = .ok s) :
    taken (.next :: calls) c = s :: taken calls (next c).2 := by
  simp only [taken, results, h]
  rfl

theorem taken_next_of_error (calls : List Call) {c : σ} {e : CursorError}
    (h : (next c).1 = .error e) : taken (.next :: calls) c = taken calls (next c).2 := by
  simp only [taken, results, h]
  rfl

/-! ## How much is still to come -/

theorem EndsWithin.hasNext {k : Nat} {c : σ} (h : EndsWithin k c) :
    EndsWithin k (hasNext c).2 :=
  fun calls => h (.hasNext :: calls)

theorem EndsWithin.next_error {k : Nat} {c : σ} {e : CursorError} (h : EndsWithin k c)
    (he : (next c).1 = .error e) : EndsWithin k (next c).2 := by
  intro calls
  have hlen := h (.next :: calls)
  rwa [taken_next_of_error calls he] at hlen

/-- A selection that is taken is one less to come. -/
theorem EndsWithin.next_ok {k : Nat} {c : σ} {s : Selection} (h : EndsWithin k c)
    (hs : (next c).1 = .ok s) : 0 < k ∧ EndsWithin (k - 1) (next c).2 := by
  have hlen : ∀ calls, (taken calls (next c).2).length + 1 ≤ k := by
    intro calls
    have hlen := h (.next :: calls)
    rwa [taken_next_of_ok calls hs] at hlen
  refine ⟨?_, fun calls => ?_⟩
  · have := hlen []
    omega
  · have := hlen calls
    omega

theorem EndsWithin.mono {j k : Nat} {c : σ} (h : EndsWithin j c) (hjk : j ≤ k) :
    EndsWithin k c :=
  fun calls => Nat.le_trans (h calls) hjk

/-- A bound that every call keeps, and that a selection brings down, is one for all calls. -/
theorem endsWithin_of {P : Nat → σ → Prop}
    (hask : ∀ k c, P k c → P k (Cursor.hasNext c).2)
    (hfail : ∀ k c e, P k c → (next c).1 = .error e → P k (next c).2)
    (hgive : ∀ k c s, P k c → (next c).1 = .ok s → ∃ j, j < k ∧ P j (next c).2)
    {k : Nat} {c : σ} (h : P k c) : EndsWithin k c := by
  intro calls
  induction calls generalizing k c with
  | nil => simp
  | cons call calls ih =>
    cases call with
    | hasNext => exact ih (hask k c h)
    | next =>
      cases hn : (next c).1 with
      | error e =>
        rw [taken_next_of_error calls hn]
        exact ih (hfail k c e h hn)
      | ok s =>
        obtain ⟨j, hjk, hj⟩ := hgive k c s h hn
        rw [taken_next_of_ok calls hn, List.length_cons]
        have := ih hj
        omega

theorem EndsWithin.next {k : Nat} {c : σ} (h : EndsWithin k c) : EndsWithin k (next c).2 := by
  cases hn : (Cursor.next c).1 with
  | error e => exact h.next_error hn
  | ok s => exact (h.next_ok hn).2.mono (Nat.sub_le k 1)

/-! ## What calls lead to -/

/-- One call leads from the one state to the other. -/
def Moves (c c' : σ) : Prop := ∃ call, after call c = c'

theorem moves_hasNext (c : σ) : Moves c (Cursor.hasNext c).2 := ⟨.hasNext, rfl⟩

theorem moves_next (c : σ) : Moves c (Cursor.next c).2 := ⟨.next, rfl⟩

theorem reaches_afterAll (calls : List Call) (c : σ) : ReflTransGen Moves c (afterAll calls c) := by
  induction calls generalizing c with
  | nil => exact .refl
  | cons call calls ih => exact .head ⟨call, rfl⟩ (ih (after call c))

/-- The capacity bounds what is still to come, now and after any calls. -/
def Measured (c : σ) : Prop := ∀ c', ReflTransGen Moves c c' → EndsWithin (capacity c') c'

theorem Measured.endsWithin {c : σ} (h : Measured c) : EndsWithin (capacity c) c := h c .refl

theorem Measured.of_reaches {c c' : σ} (h : Measured c) (hrun : ReflTransGen Moves c c') :
    Measured c' :=
  fun d hd => h d (hrun.trans hd)

/-- It is enough that every call keeps what bounds it. -/
theorem measured_of {P : σ → Prop} (hafter : ∀ c call, P c → P (after call c))
    (hbound : ∀ c, P c → EndsWithin (capacity c) c) {c : σ} (h : P c) : Measured c := by
  intro c' hrun
  refine hbound c' ?_
  induction hrun with
  | refl => exact h
  | tail _ hstep ih =>
    obtain ⟨call, rfl⟩ := hstep
    exact hafter _ call ih

/-! ## What is given -/

/-- What calls give has its elements among those with `p`. -/
def Within (p : ElementId → Prop) (c : σ) : Prop :=
  ∀ calls, ∀ s ∈ taken calls c, ∀ e ∈ s.elements, p e

variable {p : ElementId → Prop}

theorem Within.hasNext {c : σ} (h : Within p c) : Within p (Cursor.hasNext c).2 :=
  fun calls => h (.hasNext :: calls)

theorem Within.next {c : σ} (h : Within p c) : Within p (Cursor.next c).2 := by
  intro calls s hs
  have htaken := h (.next :: calls) s
  cases hn : (Cursor.next c).1 with
  | error e =>
    rw [taken_next_of_error calls hn] at htaken
    exact htaken hs
  | ok first =>
    rw [taken_next_of_ok calls hn] at htaken
    exact htaken (List.mem_cons_of_mem first hs)

theorem Within.of_next {c : σ} {s : Selection} (h : Within p c) (hs : (Cursor.next c).1 = .ok s) :
    ∀ e ∈ s.elements, p e := by
  refine h [.next] s ?_
  rw [taken_next_of_ok [] hs]
  exact List.mem_cons_self

/-- It is enough that every call keeps what keeps a selection within. -/
theorem within_of {P : σ → Prop} (hask : ∀ c, P c → P (Cursor.hasNext c).2)
    (hnext : ∀ c, P c → P (Cursor.next c).2)
    (hgive : ∀ c s, P c → (Cursor.next c).1 = .ok s → ∀ e ∈ s.elements, p e) {c : σ} (h : P c) :
    Within p c := by
  intro calls
  induction calls generalizing c with
  | nil => simp
  | cons call calls ih =>
    cases call with
    | hasNext => exact ih (hask c h)
    | next =>
      cases hn : (Cursor.next c).1 with
      | error e =>
        rw [taken_next_of_error calls hn]
        exact ih (hnext c h)
      | ok s =>
        rw [taken_next_of_ok calls hn]
        intro s' hs'
        rcases List.mem_cons.1 hs' with rfl | hs'
        · exact hgive c s' h hn
        · exact ih (hnext c h) s' hs'

theorem Within.of_yields {c c' : σ} {parts : List Selection} (h : Within p c)
    (hy : Yields c parts c') : ∀ part ∈ parts, ∀ e ∈ part.elements, p e := by
  induction hy with
  | spent => simp
  | more _ hs _ ih =>
    intro part hpart
    rcases List.mem_cons.1 hpart with rfl | hpart
    · exact h.hasNext.of_next hs
    · exact ih h.hasNext.next part hpart

/-! ## Taking everything -/

theorem take_of_spent {c : σ} (h : (Cursor.hasNext c).1 = false) (budget : Nat) :
    take (budget + 1) c = (.ok [], (Cursor.hasNext c).2) := by
  rw [take, show Cursor.hasNext c = (false, (Cursor.hasNext c).2) from Prod.ext h rfl]

theorem take_of_error {c : σ} {e : CursorError} (h : (Cursor.hasNext c).1 = true)
    (he : (Cursor.next (Cursor.hasNext c).2).1 = .error e) (budget : Nat) :
    take (budget + 1) c = (.error e, (Cursor.next (Cursor.hasNext c).2).2) := by
  rw [take, show Cursor.hasNext c = (true, (Cursor.hasNext c).2) from Prod.ext h rfl]
  dsimp only
  rw [show Cursor.next (Cursor.hasNext c).2 = (.error e, _) from Prod.ext he rfl]

theorem take_of_ok {c : σ} {s : Selection} (h : (Cursor.hasNext c).1 = true)
    (hs : (Cursor.next (Cursor.hasNext c).2).1 = .ok s) (budget : Nat) :
    take (budget + 1) c =
      ((take budget (Cursor.next (Cursor.hasNext c).2).2).1.map (s :: ·),
        (take budget (Cursor.next (Cursor.hasNext c).2).2).2) := by
  rw [take, show Cursor.hasNext c = (true, (Cursor.hasNext c).2) from Prod.ext h rfl]
  dsimp only
  rw [show Cursor.next (Cursor.hasNext c).2 = (.ok s, _) from Prod.ext hs rfl]
  dsimp only
  generalize take budget (Cursor.next (Cursor.hasNext c).2).2 = outcome
  obtain ⟨result, c'⟩ := outcome
  cases result <;> rfl

/-- With budget for all that is to come, taking is not cut short. -/
theorem take_eq_ok_iff {k budget : Nat} {c c' : σ} {parts : List Selection}
    (h : EndsWithin k c) (hk : k < budget) :
    take budget c = (.ok parts, c') ↔ Yields c parts c' := by
  induction budget generalizing k c parts with
  | zero => omega
  | succ budget ih =>
    cases hmore : (Cursor.hasNext c).1 with
    | false =>
      rw [take_of_spent hmore]
      constructor
      · intro heq
        cases heq
        exact .spent hmore
      · intro hy
        cases hy with
        | spent => rfl
        | more htrue => simp [hmore] at htrue
    | true =>
      cases hs : (Cursor.next (Cursor.hasNext c).2).1 with
      | error e =>
        rw [take_of_error hmore hs]
        constructor
        · intro heq
          cases heq
        · intro hy
          cases hy with
          | spent hfalse => simp [hmore] at hfalse
          | more _ hok => simp [hs] at hok
      | ok s =>
        obtain ⟨hpos, hrest⟩ := h.hasNext.next_ok hs
        have hbudget : k - 1 < budget := by omega
        rw [take_of_ok hmore hs, Prod.mk.injEq, map_eq_ok]
        constructor
        · intro heq
          obtain ⟨⟨rest, hok, rfl⟩, hstate⟩ := heq
          exact .more hmore hs ((ih hrest hbudget).1 (Prod.ext hok hstate))
        · intro hy
          cases hy with
          | spent hfalse => simp [hmore] at hfalse
          | more _ hok hy =>
            rw [hs] at hok
            cases hok
            have heq := (ih hrest hbudget).2 hy
            exact ⟨⟨_, congrArg Prod.fst heq, rfl⟩, congrArg Prod.snd heq⟩

/-- Where the capacity bounds what is to come, draining takes it all. -/
theorem drain_eq_ok_iff {c c' : σ} {parts : List Selection} (h : EndsWithin (capacity c) c) :
    drain c = (.ok parts, c') ↔ Yields c parts c' :=
  take_eq_ok_iff h (Nat.lt_succ_self _)

end Calls

/-! ## The laws -/

/-- Asking first changes nothing that can be seen, and a spent cursor stays as it is. -/
class Lawful (σ : Type) [Cursor σ] : Prop where
  hasNext_hasNext : ∀ c : σ, hasNext (hasNext c).2 = hasNext c
  next_hasNext : ∀ c : σ, next (hasNext c).2 = next c
  next_of_spent : ∀ c : σ, (hasNext c).1 = false → next c = (.error .exhausted, (hasNext c).2)
  graph_after : ∀ (call : Call) (c : σ), graph (after call c) = graph c
  domain_after : ∀ (call : Call) (c : σ), domain (after call c) = domain c
  pairs_hasNext : ∀ c : σ, pairs (hasNext c).2 = pairs c
  capacity_hasNext : ∀ c : σ, capacity (hasNext c).2 = capacity c

namespace Lawful

variable {σ : Type} [Cursor σ] [Lawful σ]

@[simp] theorem graph_hasNext (c : σ) : graph (hasNext c).2 = graph c := graph_after .hasNext c

@[simp] theorem graph_next (c : σ) : graph (next c).2 = graph c := graph_after .next c

@[simp] theorem domain_hasNext (c : σ) : domain (hasNext c).2 = domain c := domain_after .hasNext c

@[simp] theorem domain_next (c : σ) : domain (next c).2 = domain c := domain_after .next c

theorem graph_of_reaches {c c' : σ} (h : ReflTransGen Moves c c') : graph c' = graph c := by
  induction h with
  | refl => rfl
  | tail _ hstep ih =>
    obtain ⟨call, rfl⟩ := hstep
    rw [graph_after, ih]

attribute [simp] hasNext_hasNext next_hasNext pairs_hasNext capacity_hasNext

/-- How often a cursor is asked in between changes no result. -/
theorem results_eq_filter (calls : List Call) (c : σ) :
    results calls c = results (calls.filter (· == .next)) c := by
  -- a state that was asked gives the same results, which is the case of one call to ask
  have hasked : ∀ (n : Nat) (c : σ), results (List.replicate n .next) (hasNext c).2 =
      results (List.replicate n .next) c := by
    intro n c
    cases n with
    | zero => rfl
    | succ n => simp [List.replicate_succ, results]
  have hfilter : ∀ calls : List Call, ∃ n, calls.filter (· == .next) = List.replicate n .next := by
    intro calls
    refine ⟨(calls.filter (· == .next)).length, List.eq_replicate_of_mem fun call hcall => ?_⟩
    simpa using (List.mem_filter.1 hcall).2
  induction calls generalizing c with
  | nil => rfl
  | cons call calls ih =>
    cases call with
    | hasNext =>
      obtain ⟨n, hn⟩ := hfilter calls
      show results calls (hasNext c).2 = results (calls.filter (· == .next)) c
      rw [ih, hn, hasked]
    | next =>
      show (next c).1 :: results calls (next c).2 =
        (next c).1 :: results (calls.filter (· == .next)) (next c).2
      rw [ih]

/-- Once there is no more, there is never more again. -/
theorem results_of_spent {c : σ} (h : (hasNext c).1 = false) (calls : List Call) :
    ∀ r ∈ results calls (hasNext c).2, r = .error .exhausted := by
  induction calls with
  | nil => simp [results]
  | cons call calls ih =>
    cases call with
    | hasNext => simpa [results] using ih
    | next =>
      intro r hr
      simp only [results, next_hasNext, next_of_spent c h, List.mem_cons] at hr
      rcases hr with hr | hr
      · exact hr
      · exact ih r hr

end Lawful
end Cursor

/-! ## One selection -/

instance : Cursor.Lawful OnceCursor where
  hasNext_hasNext _ := rfl
  next_hasNext _ := rfl
  next_of_spent c h := by
    have hy : c.yielded = true := by simpa [Cursor.hasNext] using h
    simp [Cursor.next, Cursor.hasNext, hy]
  graph_after call c := by
    cases call
    · rfl
    · simp only [Cursor.after, Cursor.next, Cursor.graph]
      split <;> rfl
  domain_after call c := by
    cases call
    · rfl
    · simp only [Cursor.after, Cursor.next, Cursor.domain]
      split <;> rfl
  pairs_hasNext _ := rfl
  capacity_hasNext _ := rfl

theorem OnceCursor.endsWithin (c : OnceCursor) : Cursor.EndsWithin (Cursor.capacity c) c := by
  refine Cursor.endsWithin_of (P := fun k (c : OnceCursor) => Cursor.capacity c ≤ k)
    (fun _ _ h => h) (fun k c e h he => ?_) (fun k c s h hs => ?_) (Nat.le_refl _)
  · cases hy : c.yielded with
    | true => simpa [Cursor.next, hy] using h
    | false => simp [Cursor.next, hy] at he
  · cases hy : c.yielded with
    | true => simp [Cursor.next, hy] at hs
    | false =>
      simp only [Cursor.capacity, hy, Bool.false_eq_true, if_false] at h
      exact ⟨0, h, by simp [Cursor.next, Cursor.capacity, hy]⟩

theorem OnceCursor.measured (c : OnceCursor) : Cursor.Measured c :=
  fun c' _ => c'.endsWithin

end Dataflow
