import Dataflow.Cursor.Paths
import Dataflow.Cursor.Remainder
import Dataflow.Proofs.Cursor.Laws
import Mathlib.Logic.Relation

/-!
# Cursors that wrap a cursor

A path cursor refills its queue from the wrapped cursor, one selection at a time; a remainder
cursor passes selections through until the wrapped cursor is spent. What one call can do is
said here once for each of the two, in terms of the calls on the wrapped cursor, and a lawful
cursor is lawful when wrapped.

Results:

* `PathCursor.fill_refills`, `PathCursor.fill_preserves`: what filling the queue can do;
* `PathCursor.next_fst`, `PathCursor.next_snd`: a path from the filled queue;
* `RemainderCursor.call_cases`: the situations in which a remainder cursor is called, with one
  equation for each;
* `RemainderCursor.next_cases`: what a call for a selection does to it;
* `RemainderCursor.endsWithin`: how much a remainder cursor can still give;
* `PathCursor.reaches_inner`, `RemainderCursor.reaches_inner`: what happens to the wrapped cursor.
-/
namespace Dataflow

open Cursor Relation

namespace PathCursor

variable {σ : Type} [Cursor σ]

/-- One step of filling the queue while it is empty: the wrapped cursor is asked, or it is
called and gives nothing that can be split, or what it gives is split. -/
inductive Refill : PathCursor σ → PathCursor σ → Prop
  | ask (inner : σ) (longest : Bool) (pairs : List (ElementId × ElementId)) :
      Refill ⟨inner, longest, [], pairs⟩ ⟨(Cursor.hasNext inner).2, longest, [], pairs⟩
  | drop (inner : σ) (longest : Bool) (pairs : List (ElementId × ElementId)) :
      Refill ⟨inner, longest, [], pairs⟩ ⟨(Cursor.next inner).2, longest, [], pairs⟩
  | split {inner : σ} {s : Selection} {longest : Bool} {queue : List Selection}
      {pair : ElementId × ElementId} (pairs : List (ElementId × ElementId))
      (h : (Cursor.next inner).1 = .ok s)
      (hd : decompose (Cursor.graph inner) longest s = .ok (queue, pair)) :
      Refill ⟨inner, longest, [], pairs⟩ ⟨(Cursor.next inner).2, longest, queue, pairs ++ [pair]⟩

section Fill

variable {inner : σ} {longest : Bool} {pairs : List (ElementId × ElementId)}

theorem fill_of_spent (h : (Cursor.hasNext inner).1 = false) (budget : Nat) :
    fill (budget + 1) ⟨inner, longest, [], pairs⟩ =
      (.ok (), ⟨(Cursor.hasNext inner).2, longest, [], pairs⟩) := by
  simp only [fill, List.isEmpty_nil, Bool.not_true, Bool.false_eq_true, if_false]
  rw [show Cursor.hasNext inner = (false, (Cursor.hasNext inner).2) from Prod.ext h rfl]

variable [Lawful σ]

/-- The wrapped cursor has more, so it is called. -/
theorem fill_of_more (h : (Cursor.hasNext inner).1 = true) (budget : Nat) :
    fill (budget + 1) ⟨inner, longest, [], pairs⟩ =
      match (Cursor.next inner).1 with
      | .error e => (.error e, ⟨(Cursor.next inner).2, longest, [], pairs⟩)
      | .ok s =>
        match decompose (Cursor.graph inner) longest s with
        | .error e => (.error e, ⟨(Cursor.next inner).2, longest, [], pairs⟩)
        | .ok (queue, pair) =>
          fill budget ⟨(Cursor.next inner).2, longest, queue, pairs ++ [pair]⟩ := by
  have hnext := Lawful.next_hasNext inner
  have hgraph := Lawful.graph_next inner
  simp only [fill, List.isEmpty_nil, Bool.not_true, Bool.false_eq_true, if_false]
  rw [show Cursor.hasNext inner = (true, (Cursor.hasNext inner).2) from Prod.ext h rfl]
  dsimp only
  rw [hnext]
  generalize Cursor.next inner = answer at hgraph ⊢
  obtain ⟨result, inner'⟩ := answer
  cases result with
  | error e => rfl
  | ok s =>
    simp only at hgraph ⊢
    cases hd : decompose (Cursor.graph inner) longest s with
    | error e => simp only [hgraph, hd]
    | ok split => obtain ⟨queue, pair⟩ := split; simp only [hgraph, hd]

theorem fill_of_error {e : CursorError} (h : (Cursor.hasNext inner).1 = true)
    (he : (Cursor.next inner).1 = .error e) (budget : Nat) :
    fill (budget + 1) ⟨inner, longest, [], pairs⟩ =
      (.error e, ⟨(Cursor.next inner).2, longest, [], pairs⟩) := by
  rw [fill_of_more h, he]

theorem fill_of_reject {s : Selection} {e : CursorError} (h : (Cursor.hasNext inner).1 = true)
    (hs : (Cursor.next inner).1 = .ok s)
    (hd : decompose (Cursor.graph inner) longest s = .error e) (budget : Nat) :
    fill (budget + 1) ⟨inner, longest, [], pairs⟩ =
      (.error e, ⟨(Cursor.next inner).2, longest, [], pairs⟩) := by
  rw [fill_of_more h, hs]
  simp only [hd]

theorem fill_of_split {s : Selection} {queue : List Selection} {pair : ElementId × ElementId}
    (h : (Cursor.hasNext inner).1 = true) (hs : (Cursor.next inner).1 = .ok s)
    (hd : decompose (Cursor.graph inner) longest s = .ok (queue, pair)) (budget : Nat) :
    fill (budget + 1) ⟨inner, longest, [], pairs⟩ =
      fill budget ⟨(Cursor.next inner).2, longest, queue, pairs ++ [pair]⟩ := by
  rw [fill_of_more h, hs]
  simp only [hd]

end Fill

variable [Lawful σ]

theorem fill_refills (budget : Nat) (c : PathCursor σ) :
    ReflTransGen Refill c (c.fill budget).2 := by
  induction budget generalizing c with
  | zero => exact .refl
  | succ budget ih =>
    obtain ⟨inner, longest, queue, pairs⟩ := c
    cases queue with
    | cons s queue => exact .refl
    | nil =>
      cases hmore : (Cursor.hasNext inner).1 with
      | false =>
        rw [fill_of_spent hmore]
        exact .single (.ask inner longest pairs)
      | true =>
        cases hs : (Cursor.next inner).1 with
        | error e =>
          rw [fill_of_error hmore hs]
          exact .single (.drop inner longest pairs)
        | ok s =>
          cases hd : decompose (Cursor.graph inner) longest s with
          | error e =>
            rw [fill_of_reject hmore hs hd]
            exact .single (.drop inner longest pairs)
          | ok found =>
            rw [fill_of_split hmore hs hd]
            exact .head (.split pairs hs hd) (ih _)

/-- What every step of a refill keeps, filling the queue keeps. -/
theorem fill_preserves {P : PathCursor σ → Prop} (hstep : ∀ c c', Refill c c' → P c → P c')
    (budget : Nat) {c : PathCursor σ} (h : P c) : P (c.fill budget).2 := by
  have hrun := fill_refills budget c
  generalize (c.fill budget).2 = c' at hrun
  induction hrun with
  | refl => exact h
  | tail _ hlast ih => exact hstep _ _ hlast ih

theorem queue_of_fill_error {budget : Nat} {c : PathCursor σ} {e : CursorError}
    (h : (c.fill budget).1 = .error e) : (c.fill budget).2.queue = [] := by
  induction budget generalizing c with
  | zero => cases h
  | succ budget ih =>
    obtain ⟨inner, longest, queue, pairs⟩ := c
    cases queue with
    | cons s queue => cases h
    | nil =>
      cases hmore : (Cursor.hasNext inner).1 with
      | false => simp [fill_of_spent hmore]
      | true =>
        cases hs : (Cursor.next inner).1 with
        | error e => simp [fill_of_error hmore hs]
        | ok s =>
          cases hd : decompose (Cursor.graph inner) longest s with
          | error e => simp [fill_of_reject hmore hs hd]
          | ok found =>
            rw [fill_of_split hmore hs hd] at h ⊢
            exact ih h

/-- The state whose queue is filled for the next path. -/
def filled (c : PathCursor σ) : PathCursor σ := (c.fill (Cursor.capacity c.inner + 1)).2

omit [Lawful σ] in
/-- The first path of the filled queue is given, if filling does not fail. -/
theorem next_fst (c : PathCursor σ) : (next c).1 =
    (c.fill (Cursor.capacity c.inner + 1)).1.bind fun _ =>
      c.filled.queue.head?.elim (.error .exhausted) .ok := by
  unfold next filled
  generalize c.fill (Cursor.capacity c.inner + 1) = found
  obtain ⟨result, inner, longest, queue, pairs⟩ := found
  cases result with
  | error e => rfl
  | ok _ => cases queue <;> rfl

/-- The rest of the queue is left. -/
theorem next_snd (c : PathCursor σ) :
    (next c).2 = { c.filled with queue := c.filled.queue.tail } := by
  have herror : ∀ e, (c.fill (Cursor.capacity c.inner + 1)).1 = .error e → c.filled.queue = [] :=
    fun e he => queue_of_fill_error he
  unfold filled at herror ⊢
  unfold next
  generalize c.fill (Cursor.capacity c.inner + 1) = found at herror ⊢
  obtain ⟨result, inner, longest, queue, pairs⟩ := found
  cases result with
  | error e =>
    have hqueue : queue = [] := herror e rfl
    simp [hqueue]
  | ok _ => cases queue <;> rfl

theorem graph_refill {c c' : PathCursor σ} (h : Refill c c') :
    Cursor.graph c'.inner = Cursor.graph c.inner := by
  cases h <;> simp

theorem domain_refill {c c' : PathCursor σ} (h : Refill c c') :
    Cursor.domain c'.inner = Cursor.domain c.inner := by
  cases h <;> simp

theorem graph_filled (c : PathCursor σ) : Cursor.graph c.filled.inner = Cursor.graph c.inner :=
  fill_preserves (P := fun c' => Cursor.graph c'.inner = Cursor.graph c.inner)
    (fun _ _ hstep h => (graph_refill hstep).trans h) _ rfl

theorem domain_filled (c : PathCursor σ) : Cursor.domain c.filled.inner = Cursor.domain c.inner :=
  fill_preserves (P := fun c' => Cursor.domain c'.inner = Cursor.domain c.inner)
    (fun _ _ hstep h => (domain_refill hstep).trans h) _ rfl

omit [Lawful σ] in
/-- Filling the queue calls the wrapped cursor. -/
theorem moves_inner_of_refill {c c' : PathCursor σ} (h : Refill c c') : Moves c.inner c'.inner := by
  cases h with
  | ask => exact moves_hasNext _
  | drop => exact moves_next _
  | split => exact moves_next _

theorem reaches_inner_filled (c : PathCursor σ) : ReflTransGen Moves c.inner c.filled.inner :=
  fill_preserves (P := fun c' => ReflTransGen Moves c.inner c'.inner)
    (fun _ _ hstep h => h.tail (moves_inner_of_refill hstep)) _ .refl

/-- Whatever is called, the wrapped cursor is only called. -/
theorem reaches_inner {c c' : PathCursor σ} (h : ReflTransGen Moves c c') :
    ReflTransGen Moves c.inner c'.inner := by
  refine ReflTransGen.lift' PathCursor.inner (fun c c' hstep => ?_) _ _ h
  obtain ⟨call, rfl⟩ := hstep
  cases call with
  | hasNext =>
    obtain ⟨inner, longest, queue, pairs⟩ := c
    cases queue with
    | nil => exact .single (moves_hasNext inner)
    | cons s queue => exact .refl
  | next =>
    show ReflTransGen Moves c.inner (next c).2.inner
    rw [next_snd]
    exact reaches_inner_filled c

/-- The wrapped cursor may be asked before the queue is filled. -/
theorem fill_asked (budget : Nat) (inner : σ) (longest : Bool)
    (pairs : List (ElementId × ElementId)) :
    fill (budget + 1) ⟨(Cursor.hasNext inner).2, longest, [], pairs⟩ =
      fill (budget + 1) ⟨inner, longest, [], pairs⟩ := by
  simp [fill]

instance : Lawful (PathCursor σ) where
  hasNext_hasNext c := by
    obtain ⟨inner, longest, queue, pairs⟩ := c
    cases queue with
    | nil => simp [Cursor.hasNext, hasNext]
    | cons s queue => rfl
  next_hasNext c := by
    obtain ⟨inner, longest, queue, pairs⟩ := c
    cases queue with
    | nil =>
      show next ⟨(Cursor.hasNext inner).2, longest, [], pairs⟩ = next ⟨inner, longest, [], pairs⟩
      simp only [next, Lawful.capacity_hasNext, fill_asked]
    | cons s queue => rfl
  next_of_spent c h := by
    obtain ⟨inner, longest, queue, pairs⟩ := c
    cases queue with
    | nil =>
      have hspent : (Cursor.hasNext inner).1 = false := h
      show next ⟨inner, longest, [], pairs⟩ = (_, ⟨(Cursor.hasNext inner).2, longest, [], pairs⟩)
      simp [next, fill_of_spent hspent]
    | cons s queue => cases h
  graph_after call c := by
    cases call with
    | hasNext =>
      obtain ⟨inner, longest, queue, pairs⟩ := c
      cases queue with
      | nil => exact Lawful.graph_hasNext inner
      | cons s queue => rfl
    | next =>
      show Cursor.graph (next c).2.inner = _
      rw [next_snd]
      exact graph_filled c
  domain_after call c := by
    cases call with
    | hasNext =>
      obtain ⟨inner, longest, queue, pairs⟩ := c
      cases queue with
      | nil => exact Lawful.domain_hasNext inner
      | cons s queue => rfl
    | next =>
      show Cursor.domain (next c).2.inner = _
      rw [next_snd]
      exact domain_filled c
  pairs_hasNext c := by
    obtain ⟨inner, longest, queue, pairs⟩ := c
    cases queue <;> rfl
  capacity_hasNext c := by
    obtain ⟨inner, longest, queue, pairs⟩ := c
    cases queue with
    | nil => simp [Cursor.hasNext, hasNext, Cursor.capacity]
    | cons s queue => rfl

end PathCursor

namespace RemainderCursor

variable {σ : Type} [Cursor σ]

/-- The state after the wrapped cursor was asked. -/
def asked (c : RemainderCursor σ) : RemainderCursor σ :=
  { c with inner := (Cursor.hasNext c.inner).2 }

/-! What asking and taking do, in each situation: the wrapped cursor has more, or it is spent
and the remainder is out of reach, or the remainder is settled. -/

section Steps

variable {c : RemainderCursor σ}

theorem mk_asked :
    ({ c with inner := (Cursor.hasNext c.inner).2 } : RemainderCursor σ) = c.asked := rfl

theorem hasNext_of_more (h : (Cursor.hasNext c.inner).1 = true) : hasNext c = (true, c.asked) := by
  rw [hasNext, show Cursor.hasNext c.inner = (true, (Cursor.hasNext c.inner).2) from Prod.ext h rfl]
  rfl

theorem hasNext_of_blocked {ref : DeadRef} (h : (Cursor.hasNext c.inner).1 = false)
    (hb : c.asked.blocked? = some ref) : hasNext c = (true, c.asked) := by
  rw [hasNext, show Cursor.hasNext c.inner = (false, (Cursor.hasNext c.inner).2) from Prod.ext h rfl]
  show (if c.asked.blocked?.isSome then _ else _) = _
  rw [hb]
  rfl

theorem hasNext_of_settled (h : (Cursor.hasNext c.inner).1 = false)
    (hb : c.asked.blocked? = none) :
    hasNext c = (c.asked.settle.remainder.isSome, c.asked.settle) := by
  rw [hasNext, show Cursor.hasNext c.inner = (false, (Cursor.hasNext c.inner).2) from Prod.ext h rfl]
  show (if c.asked.blocked?.isSome then _ else _) = _
  rw [hb]
  rfl

theorem next_of_blocked {ref : DeadRef} (h : (Cursor.hasNext c.inner).1 = false)
    (hb : c.asked.blocked? = some ref) : next c = (.error (.dead ref), c.asked) := by
  rw [next, show Cursor.hasNext c.inner = (false, (Cursor.hasNext c.inner).2) from Prod.ext h rfl]
  simp only [mk_asked, hb]

theorem next_of_settled (h : (Cursor.hasNext c.inner).1 = false)
    (hb : c.asked.blocked? = none) : next c =
      (c.asked.settle.remainder.elim (.error .exhausted) .ok,
        { c.asked.settle with remainder := none }) := by
  rw [next, show Cursor.hasNext c.inner = (false, (Cursor.hasNext c.inner).2) from Prod.ext h rfl]
  simp only [mk_asked, hb]
  generalize c.asked.settle = settled
  obtain ⟨inner, multiEdge, mask, remainder, computed⟩ := settled
  cases remainder <;> rfl

theorem computed_settle : c.settle.computed = true := by
  unfold settle
  split
  · next hc => exact hc
  · rfl

theorem settle_settle : c.settle.settle = c.settle := by
  rw [settle, if_pos computed_settle]

theorem blocked?_settle : c.settle.blocked? = none := by
  unfold settle blocked?
  split
  · rfl
  · rfl

theorem inner_settle : c.settle.inner = c.inner := by
  unfold settle
  split <;> rfl

variable [Lawful σ]

theorem next_of_error {e : CursorError} (h : (Cursor.hasNext c.inner).1 = true)
    (he : (Cursor.next c.inner).1 = .error e) :
    next c = (.error e, { c with inner := (Cursor.next c.inner).2 }) := by
  rw [next, show Cursor.hasNext c.inner = (true, (Cursor.hasNext c.inner).2) from Prod.ext h rfl]
  simp only [Lawful.next_hasNext]
  rw [show Cursor.next c.inner = (.error e, (Cursor.next c.inner).2) from Prod.ext he rfl]

theorem next_of_ok {s : Selection} (h : (Cursor.hasNext c.inner).1 = true)
    (hs : (Cursor.next c.inner).1 = .ok s) :
    next c = (.ok s, { c with inner := (Cursor.next c.inner).2, mask := c.mask ∪ s }) := by
  rw [next, show Cursor.hasNext c.inner = (true, (Cursor.hasNext c.inner).2) from Prod.ext h rfl]
  simp only [Lawful.next_hasNext]
  rw [show Cursor.next c.inner = (.ok s, (Cursor.next c.inner).2) from Prod.ext hs rfl]

theorem hasNext_inner_asked : Cursor.hasNext c.asked.inner = Cursor.hasNext c.inner :=
  Lawful.hasNext_hasNext c.inner

theorem asked_asked : c.asked.asked = c.asked := by
  simp [asked]

/-- Looking whether only the remainder can come asks the wrapped cursor once more. -/
theorem atRemainder_asked : c.asked.atRemainder = (!(Cursor.hasNext c.inner).1, c.asked) := by
  rw [atRemainder, hasNext_inner_asked]
  rfl

theorem hasNext_inner_settle :
    Cursor.hasNext c.asked.settle.inner = Cursor.hasNext c.inner := by
  rw [inner_settle, hasNext_inner_asked]

theorem asked_settle : c.asked.settle.asked = c.asked.settle := by
  have h : (Cursor.hasNext c.asked.settle.inner).2 = c.asked.settle.inner := by
    rw [hasNext_inner_settle, inner_settle]
    rfl
  rw [asked, h]

end Steps

/-- The ways in which a remainder cursor is called: with the wrapped cursor, with a remainder
that is out of reach, or with a settled remainder. -/
theorem call_cases (c : RemainderCursor σ) :
    (Cursor.hasNext c.inner).1 = true ∨
    ((Cursor.hasNext c.inner).1 = false ∧ ∃ ref, c.asked.blocked? = some ref) ∨
    ((Cursor.hasNext c.inner).1 = false ∧ c.asked.blocked? = none) := by
  cases (Cursor.hasNext c.inner).1
  · cases c.asked.blocked? <;> simp
  · simp

/-- Asking leaves the wrapped cursor asked, and settles the remainder if it gets there. -/
theorem hasNext_snd_cases (c : RemainderCursor σ) :
    (hasNext c).2 = c.asked ∨ (hasNext c).2 = c.asked.settle := by
  obtain h | ⟨h, ref, hb⟩ | ⟨h, hb⟩ := c.call_cases
  · exact .inl (congrArg Prod.snd (hasNext_of_more h))
  · exact .inl (congrArg Prod.snd (hasNext_of_blocked h hb))
  · exact .inr (congrArg Prod.snd (hasNext_of_settled h hb))

theorem inner_hasNext (c : RemainderCursor σ) : (hasNext c).2.inner = (Cursor.hasNext c.inner).2 := by
  obtain h | h := c.hasNext_snd_cases
  · rw [h]
    rfl
  · rw [h]
    exact inner_settle

variable [Lawful σ]

/-- What a call for a selection does: the wrapped cursor fails or gives a part, or it is spent
and the remainder is out of reach or taken. -/
theorem next_cases (c : RemainderCursor σ) :
    (∃ e, (Cursor.next c.inner).1 = .error e ∧
      next c = (.error e, { c with inner := (Cursor.next c.inner).2 })) ∨
    (∃ s, (Cursor.next c.inner).1 = .ok s ∧
      next c = (.ok s, { c with inner := (Cursor.next c.inner).2, mask := c.mask ∪ s })) ∨
    ((Cursor.hasNext c.inner).1 = false ∧ ∃ ref, next c = (.error (.dead ref), c.asked)) ∨
    ((Cursor.hasNext c.inner).1 = false ∧
      next c = (c.asked.settle.remainder.elim (.error .exhausted) .ok,
        { c.asked.settle with remainder := none })) := by
  obtain h | ⟨h, ref, hb⟩ | ⟨h, hb⟩ := c.call_cases
  · cases hs : (Cursor.next c.inner).1 with
    | error e => exact .inl ⟨e, rfl, next_of_error h hs⟩
    | ok s => exact .inr (.inl ⟨s, rfl, next_of_ok h hs⟩)
  · exact .inr (.inr (.inl ⟨h, ref, next_of_blocked h hb⟩))
  · exact .inr (.inr (.inr ⟨h, next_of_settled h hb⟩))

/-- A call for a selection calls the wrapped cursor, or asks it in vain. -/
theorem inner_next (c : RemainderCursor σ) : (next c).2.inner = (Cursor.next c.inner).2 := by
  have hspent : (Cursor.hasNext c.inner).1 = false →
      (Cursor.hasNext c.inner).2 = (Cursor.next c.inner).2 := fun h => by
    rw [Lawful.next_of_spent c.inner h]
  obtain ⟨e, -, hc⟩ | ⟨s, -, hc⟩ | ⟨h, ref, hc⟩ | ⟨h, hc⟩ := c.next_cases
  · rw [hc]
  · rw [hc]
  · rw [hc]
    exact hspent h
  · rw [hc]
    exact inner_settle.trans (hspent h)

instance : Lawful (RemainderCursor σ) where
  hasNext_hasNext c := by
    show hasNext (hasNext c).2 = hasNext c
    obtain h | ⟨h, ref, hb⟩ | ⟨h, hb⟩ := c.call_cases
    · have h' : (Cursor.hasNext c.asked.inner).1 = true := by rwa [hasNext_inner_asked]
      rw [hasNext_of_more h, hasNext_of_more h', asked_asked]
    · have h' : (Cursor.hasNext c.asked.inner).1 = false := by rwa [hasNext_inner_asked]
      have hb' : c.asked.asked.blocked? = some ref := by rwa [asked_asked]
      rw [hasNext_of_blocked h hb, hasNext_of_blocked h' hb', asked_asked]
    · have h' : (Cursor.hasNext c.asked.settle.inner).1 = false := by rwa [hasNext_inner_settle]
      have hb' : c.asked.settle.asked.blocked? = none := by rw [asked_settle, blocked?_settle]
      rw [hasNext_of_settled h hb, hasNext_of_settled h' hb', asked_settle, settle_settle]
  next_hasNext c := by
    show next (hasNext c).2 = next c
    obtain h | ⟨h, ref, hb⟩ | ⟨h, hb⟩ := c.call_cases
    · have h' : (Cursor.hasNext c.asked.inner).1 = true := by rwa [hasNext_inner_asked]
      have hnext : Cursor.next c.asked.inner = Cursor.next c.inner := Lawful.next_hasNext c.inner
      rw [hasNext_of_more h]
      cases hs : (Cursor.next c.inner).1 with
      | error e =>
        rw [next_of_error h hs, next_of_error h' (hnext ▸ hs), hnext]
        rfl
      | ok s =>
        rw [next_of_ok h hs, next_of_ok h' (hnext ▸ hs), hnext]
        rfl
    · have h' : (Cursor.hasNext c.asked.inner).1 = false := by rwa [hasNext_inner_asked]
      have hb' : c.asked.asked.blocked? = some ref := by rwa [asked_asked]
      rw [hasNext_of_blocked h hb, next_of_blocked h hb, next_of_blocked h' hb', asked_asked]
    · have h' : (Cursor.hasNext c.asked.settle.inner).1 = false := by rwa [hasNext_inner_settle]
      have hb' : c.asked.settle.asked.blocked? = none := by rw [asked_settle, blocked?_settle]
      rw [hasNext_of_settled h hb, next_of_settled h hb, next_of_settled h' hb', asked_settle,
        settle_settle]
  next_of_spent c hspent := by
    replace hspent : (hasNext c).1 = false := hspent
    show next c = (.error .exhausted, (hasNext c).2)
    obtain h | ⟨h, ref, hb⟩ | ⟨h, hb⟩ := c.call_cases
    · simp [hasNext_of_more h] at hspent
    · simp [hasNext_of_blocked h hb] at hspent
    · rw [hasNext_of_settled h hb] at hspent ⊢
      have hnone : c.asked.settle.remainder = none := by simpa using hspent
      rw [next_of_settled h hb]
      generalize c.asked.settle = settled at hnone ⊢
      obtain ⟨inner, multiEdge, mask, remainder, computed⟩ := settled
      obtain rfl : remainder = none := hnone
      rfl
  graph_after call c := by
    cases call with
    | hasNext =>
      exact (congrArg Cursor.graph c.inner_hasNext).trans (Lawful.graph_hasNext c.inner)
    | next => exact (congrArg Cursor.graph c.inner_next).trans (Lawful.graph_next c.inner)
  domain_after call c := by
    cases call with
    | hasNext =>
      exact (congrArg Cursor.domain c.inner_hasNext).trans (Lawful.domain_hasNext c.inner)
    | next => exact (congrArg Cursor.domain c.inner_next).trans (Lawful.domain_next c.inner)
  pairs_hasNext c := (congrArg Cursor.pairs c.inner_hasNext).trans (Lawful.pairs_hasNext c.inner)
  capacity_hasNext c := by
    have h := (congrArg Cursor.capacity c.inner_hasNext).trans (Lawful.capacity_hasNext c.inner)
    exact congrArg (· + 1) h

/-- What the wrapped cursor still gives, and the remainder unless it was taken, are no more
than `n`. -/
def Bounded (n : Nat) (c : RemainderCursor σ) : Prop :=
  ∃ k, EndsWithin k c.inner ∧
    k + (if c.computed = true ∧ c.remainder = none then 0 else 1) ≤ n

omit [Lawful σ] in
theorem bounded_asked {n : Nat} {c : RemainderCursor σ} (h : Bounded n c) : Bounded n c.asked := by
  obtain ⟨k, hk, hn⟩ := h
  exact ⟨k, hk.hasNext, hn⟩

omit [Lawful σ] in
theorem bounded_settle {n : Nat} {c : RemainderCursor σ} (h : Bounded n c) :
    Bounded n c.settle := by
  obtain ⟨k, hk, hn⟩ := h
  unfold settle
  split
  · exact ⟨k, hk, hn⟩
  · next hc =>
    refine ⟨k, hk, ?_⟩
    have hone : k + 1 ≤ n := by simpa [hc] using hn
    dsimp only
    split <;> omega

omit [Lawful σ] in
theorem bounded_hasNext {n : Nat} {c : RemainderCursor σ} (h : Bounded n c) :
    Bounded n (hasNext c).2 := by
  obtain hc | hc := c.hasNext_snd_cases
  · rw [hc]
    exact bounded_asked h
  · rw [hc]
    exact bounded_settle (bounded_asked h)

/-- A call that fails takes nothing away, but may have found the remainder empty. -/
theorem bounded_of_error {n : Nat} {c : RemainderCursor σ} {e : CursorError} (h : Bounded n c)
    (he : (next c).1 = .error e) : Bounded n (next c).2 := by
  obtain ⟨e', hs, hnext⟩ | ⟨s, -, hnext⟩ | ⟨-, ref, hnext⟩ | ⟨-, hnext⟩ := c.next_cases
  · obtain ⟨j, hj, hn⟩ := h
    rw [hnext]
    exact ⟨j, hj.next_error hs, hn⟩
  · rw [hnext] at he
    cases he
  · rw [hnext]
    exact bounded_asked h
  · obtain ⟨j, hj, hn⟩ := bounded_settle (bounded_asked h)
    rw [hnext]
    refine ⟨j, hj, ?_⟩
    simp only [computed_settle, and_self, if_true]
    omega

/-- A call that gives a selection leaves one fewer to give. -/
theorem exists_bounded_of_ok {n : Nat} {c : RemainderCursor σ} {s : Selection} (h : Bounded n c)
    (hs : (next c).1 = .ok s) : ∃ j, j < n ∧ Bounded j (next c).2 := by
  obtain ⟨e, -, hnext⟩ | ⟨s', hs', hnext⟩ | ⟨-, ref, hnext⟩ | ⟨-, hnext⟩ := c.next_cases
  · rw [hnext] at hs
    cases hs
  · obtain ⟨j, hj, hn⟩ := h
    obtain ⟨hpos, hrest⟩ := hj.next_ok hs'
    rw [hnext]
    refine ⟨n - 1, by omega, j - 1, hrest, ?_⟩
    dsimp only
    omega
  · rw [hnext] at hs
    cases hs
  · obtain ⟨j, hj, hn⟩ := bounded_settle (bounded_asked h)
    rw [hnext] at hs ⊢
    cases hr : c.asked.settle.remainder with
    | none =>
      rw [hr] at hs
      cases hs
    | some r =>
      simp only [hr, reduceCtorEq, and_false, if_false] at hn
      refine ⟨n - 1, by omega, j, hj, ?_⟩
      simp only [computed_settle, and_self, if_true]
      omega

/-- The remainder comes after all that the wrapped cursor gives. -/
theorem endsWithin {k : Nat} {c : RemainderCursor σ} (h : EndsWithin k c.inner) :
    EndsWithin (k + 1) c :=
  endsWithin_of (P := Bounded) (fun _ _ => bounded_hasNext) (fun _ _ _ => bounded_of_error)
    (fun _ _ _ => exists_bounded_of_ok) ⟨k, h, by split <;> omega⟩

/-- Whatever is called, the wrapped cursor is only called. -/
theorem reaches_inner {c c' : RemainderCursor σ} (h : ReflTransGen Moves c c') :
    ReflTransGen Moves c.inner c'.inner := by
  refine ReflTransGen.lift RemainderCursor.inner (fun c c' hstep => ?_) _ _ h
  obtain ⟨call, rfl⟩ := hstep
  cases call with
  | hasNext => exact ⟨.hasNext, c.inner_hasNext.symm⟩
  | next => exact ⟨.next, c.inner_next.symm⟩

theorem measured {c : RemainderCursor σ} (h : Measured c.inner) : Measured c :=
  fun c' hrun => endsWithin (h c'.inner (reaches_inner hrun))

end RemainderCursor
end Dataflow
