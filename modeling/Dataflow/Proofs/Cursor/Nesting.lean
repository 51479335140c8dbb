import Dataflow.Proofs.Cursor.Motif
import Dataflow.Proofs.Cursor.Splitting

/-!
# Cursors wrapped in any way

A nest says which cursors are wrapped around which, down to one selection or the matches of a
motif. Every cursor that a nest describes is lawful and measured, which is shown along the
nest, one kind of cursor at a time.

That a cursor has more does not mean that the next call gives a selection. A path cursor
decides by the wrapped cursor, and a selection whose one leaf is out of reach of its one root
splits into no path at all. Where the graph has no cycle there is no such selection.

Results:

* `PathCursor.next_exhausted_iff`: when a path cursor runs dry;
* `Nest.next_exhausted_iff`: when any cursor does;
* `Nest.reliable`: what the calls on a cursor can rely on.
-/
namespace Dataflow

open Dataflow.Graph Cursor Relation

/-! ## Running dry -/

namespace PathCursor

variable {σ : Type} [Cursor σ]

/-- The queue is empty, and all that the wrapped cursor still gives splits into no path, until
it is spent or is in a state `p`. -/
inductive Dry (p : σ → Prop) : PathCursor σ → Prop
  | stop {inner : σ} (longest : Bool) (pairs : List (ElementId × ElementId))
      (h : (Cursor.hasNext inner).1 = true → p inner) : Dry p ⟨inner, longest, [], pairs⟩
  | barren {inner : σ} {s : Selection} {longest : Bool} {pair : ElementId × ElementId}
      (pairs : List (ElementId × ElementId)) (hmore : (Cursor.hasNext inner).1 = true)
      (hs : (Cursor.next inner).1 = .ok s)
      (hd : decompose (Cursor.graph inner) longest s = .ok ([], pair))
      (hrest : Dry p ⟨(Cursor.next inner).2, longest, [], pairs ++ [pair]⟩) :
      Dry p ⟨inner, longest, [], pairs⟩

/-- What the queue gives once it is filled. -/
def filledFirst (budget : Nat) (c : PathCursor σ) : Except CursorError Selection :=
  (c.fill budget).1.bind fun _ => (c.fill budget).2.queue.head?.elim (.error .exhausted) .ok

theorem decompose_ne_exhausted {g : Graph} {longest : Bool} {s : Selection} :
    decompose g longest s ≠ .error .exhausted := by
  unfold decompose
  dsimp only
  split <;> simp

variable {p : σ → Prop} {inner : σ} {longest : Bool} {pairs : List (ElementId × ElementId)}

theorem not_dry_of_cons {s : Selection} {queue : List Selection} :
    ¬ Dry p ⟨inner, longest, s :: queue, pairs⟩ := by
  intro h
  cases h

/-- With more to come, a cursor is dry if the wrapped one is, or if what it gives splits into no
path and the cursor is dry after that. -/
theorem dry_iff_of_more (hmore : (Cursor.hasNext inner).1 = true) :
    Dry p ⟨inner, longest, [], pairs⟩ ↔ p inner ∨
      ∃ s pair, (Cursor.next inner).1 = .ok s ∧
        decompose (Cursor.graph inner) longest s = .ok ([], pair) ∧
          Dry p ⟨(Cursor.next inner).2, longest, [], pairs ++ [pair]⟩ := by
  constructor
  · intro h
    cases h with
    | stop _ _ h => exact .inl (h hmore)
    | barren _ _ hs hd hrest => exact .inr ⟨_, _, hs, hd, hrest⟩
  · intro h
    obtain h | ⟨s, pair, hs, hd, hrest⟩ := h
    · exact .stop longest pairs fun _ => h
    · exact .barren pairs hmore hs hd hrest

variable [Lawful σ]

/-- With budget for all that is to come, filling the queue fails to find a path exactly if the
cursor is dry. -/
theorem filledFirst_exhausted_iff {k budget : Nat} {c : PathCursor σ} (hend : EndsWithin k c.inner)
    (hk : k < budget)
    (hp : ∀ d, ReflTransGen Moves c.inner d → (Cursor.hasNext d).1 = true →
      ((Cursor.next d).1 = .error .exhausted ↔ p d)) :
    c.filledFirst budget = .error .exhausted ↔ c.Dry p := by
  induction budget generalizing k c with
  | zero => omega
  | succ budget ih =>
    obtain ⟨inner, longest, queue, pairs⟩ := c
    cases queue with
    | cons s queue =>
      have hfirst : filledFirst (budget + 1) ⟨inner, longest, s :: queue, pairs⟩ = .ok s := rfl
      simp [hfirst, not_dry_of_cons]
    | nil =>
      cases hmore : (Cursor.hasNext inner).1 with
      | false =>
        have hdry : Dry p ⟨inner, longest, [], pairs⟩ := .stop longest pairs (by simp [hmore])
        simp [filledFirst, fill_of_spent hmore, Except.bind, hdry]
      | true =>
        have hhere := hp inner .refl hmore
        rw [dry_iff_of_more hmore, ← hhere]
        cases hs : (Cursor.next inner).1 with
        | error e => simp [filledFirst, fill_of_error hmore hs, Except.bind]
        | ok s =>
          cases hd : decompose (Cursor.graph inner) longest s with
          | error e =>
            have hne : e ≠ .exhausted := fun he => decompose_ne_exhausted (he ▸ hd)
            simp [filledFirst, fill_of_reject hmore hs hd, Except.bind, hne, hd]
          | ok found =>
            obtain ⟨queue, pair⟩ := found
            obtain ⟨hpos, hrest⟩ := hend.next_ok hs
            have hsplit : filledFirst (budget + 1) ⟨inner, longest, [], pairs⟩ =
                filledFirst budget ⟨(Cursor.next inner).2, longest, queue, pairs ++ [pair]⟩ := by
              simp only [filledFirst, fill_of_split hmore hs hd]
            have hdone := ih (c := ⟨(Cursor.next inner).2, longest, queue, pairs ++ [pair]⟩) hrest
              (by omega) fun d hrun => hp d (.head (moves_next inner) hrun)
            rw [hsplit, hdone]
            cases queue with
            | cons q queue => simp [not_dry_of_cons, hd]
            | nil =>
              obtain ⟨root, leaf⟩ := pair
              simp [hd]

/-- When a path cursor has nothing to give. -/
theorem next_exhausted_iff {c : PathCursor σ} (h : Measured c.inner)
    (hp : ∀ d, ReflTransGen Moves c.inner d → (Cursor.hasNext d).1 = true →
      ((Cursor.next d).1 = .error .exhausted ↔ p d)) :
    (Cursor.next c).1 = .error .exhausted ↔ c.Dry p := by
  rw [← filledFirst_exhausted_iff h.endsWithin (Nat.lt_succ_self _) hp]
  exact Eq.congr_left (next_fst c)

omit [Lawful σ] in
/-- Where there is no cycle, every selection that splits has a path. -/
theorem decompose_ne_nil {g : Graph} (hg : g.Agrees) (hends : g.EndsLive) (hacyc : g.Acyclic)
    {s : Selection} {pair : ElementId × ElementId} :
    decompose g longest s ≠ .ok ([], pair) := by
  intro h
  obtain ⟨hr, hl, hunreached⟩ := (decompose_eq_nil_iff hg hends).1 h
  have hroot : pair.1 ∈ (s.view g).topology.vertices :=
    (Topology.mem_roots.1 (hr ▸ IdSet.mem_singleton.2 rfl)).1
  have hacyc' := View.acyclic_of_acyclic (v := s.view g) hg hacyc
  exact hunreached (reaches_of_singletons (View.sound_of_endsLive hg hends) hr hl hacyc' hroot).2

end PathCursor

/-! ## Nests -/

/-- The state in which a motif cursor is made. -/
def MotifCursor.Fresh (c : MotifCursor) : Prop :=
  ∃ view test motif firstOnly, MotifCursor.new view test motif firstOnly = .ok c

/-- Which cursors are wrapped around which. -/
inductive Nest where
  | once (g : Graph) (s : Selection)
  | motif (c : MotifCursor) (h : c.Fresh)
  | paths (inner : Nest) (longestFirst : Bool)
  | remainder (inner : Nest) (multiEdge : Bool)

namespace Nest

/-- The states of the outermost cursor. -/
def State : Nest → Type
  | once _ _ => OnceCursor
  | motif _ _ => MotifCursor
  | paths inner _ => PathCursor inner.State
  | remainder inner _ => RemainderCursor inner.State

instance cursor : (n : Nest) → Cursor n.State
  | once _ _ => inferInstanceAs (Cursor OnceCursor)
  | motif _ _ => inferInstanceAs (Cursor MotifCursor)
  | paths inner _ =>
    let _ := inner.cursor
    inferInstanceAs (Cursor (PathCursor inner.State))
  | remainder inner _ =>
    let _ := inner.cursor
    inferInstanceAs (Cursor (RemainderCursor inner.State))

instance lawful : (n : Nest) → Lawful n.State
  | once _ _ => inferInstanceAs (Lawful OnceCursor)
  | motif _ _ => inferInstanceAs (Lawful MotifCursor)
  | paths inner _ =>
    have := inner.lawful
    inferInstanceAs (Lawful (PathCursor inner.State))
  | remainder inner _ =>
    have := inner.lawful
    inferInstanceAs (Lawful (RemainderCursor inner.State))

/-- The outermost cursor before any call. -/
def start : (n : Nest) → n.State
  | once g s => OnceCursor.new g s
  | motif c _ => c
  | paths inner longestFirst => PathCursor.new inner.start longestFirst
  | remainder inner multiEdge => RemainderCursor.new inner.start multiEdge

/-- There seems to be more, but all of it is selections that split into no path. -/
def Dries : (n : Nest) → n.State → Prop
  | once _ _, _ => False
  | motif _ _, _ => False
  | paths inner _, c => PathCursor.Dry inner.Dries c
  | remainder inner _, c =>
    (hasNext (RemainderCursor.inner c)).1 = true ∧ inner.Dries (RemainderCursor.inner c)

end Nest

theorem MotifCursor.Fresh.awaits {c : MotifCursor} (h : c.Fresh) : ∃ ms, c.Awaits ms := by
  obtain ⟨v, test, motif, firstOnly, hnew⟩ := h
  obtain ⟨m, hm, rfl⟩ := map_eq_ok.1 hnew
  exact ⟨_, ⟨v, _, Contraction.elim_contract v test⟩, Matcher.usable_of_ofMotif hm, rfl,
    fun m hpending => by cases hpending⟩

namespace Nest

theorem measured : (n : Nest) → Measured n.start
  | once g s => OnceCursor.measured (.new g s)
  | motif c h => by
    obtain ⟨ms, hms⟩ := h.awaits
    exact hms.measured
  | paths inner _ => PathCursor.measured inner.measured
  | remainder inner _ => RemainderCursor.measured inner.measured

/-- A cursor that has more gives nothing exactly if it runs dry. -/
theorem next_exhausted_iff : (n : Nest) → {c : n.State} → ReflTransGen Moves n.start c →
    (hasNext c).1 = true → ((next c).1 = .error .exhausted ↔ n.Dries c)
  | once g s, c, _, hmore => by
    change OnceCursor at c
    have hfresh : c.yielded = false := by
      replace hmore : (!c.yielded) = true := hmore
      simpa using hmore
    have hnext : (Cursor.next c).1 = .ok c.domain := by simp [Cursor.next, hfresh]
    exact iff_of_false (fun he => by cases hnext.symm.trans he) id
  | motif m h, c, _, hmore => by
    change MotifCursor at c
    have hpending : c.advance.pending.isSome = true := hmore
    obtain ⟨m, hm⟩ := Option.isSome_iff_exists.1 hpending
    refine iff_of_false (fun he => ?_) id
    replace he : c.next.1 = .error .exhausted := he
    simp only [MotifCursor.next, hm] at he
    split at he <;> cases he
  | paths inner longest, c, hrun, _ => by
    change PathCursor inner.State at c
    have hinner : ReflTransGen Moves inner.start c.inner := PathCursor.reaches_inner hrun
    exact PathCursor.next_exhausted_iff (inner.measured.of_reaches hinner)
      fun d hd hmore => inner.next_exhausted_iff (hinner.trans hd) hmore
  | remainder inner multi, c, hrun, hmore => by
    change RemainderCursor inner.State at c
    have hinner : ReflTransGen Moves inner.start c.inner := RemainderCursor.reaches_inner hrun
    show (RemainderCursor.next c).1 = _ ↔ (hasNext c.inner).1 = true ∧ inner.Dries c.inner
    obtain h | ⟨h, ref, hb⟩ | ⟨h, hb⟩ := c.call_cases
    · rw [← inner.next_exhausted_iff hinner h]
      cases hs : (next c.inner).1 with
      | error e => simp [RemainderCursor.next_of_error h hs, h]
      | ok s => simp [RemainderCursor.next_of_ok h hs]
    · simp [RemainderCursor.next_of_blocked h hb, h]
    · -- there is a remainder, since there is more and the wrapped cursor is spent
      replace hmore : (RemainderCursor.hasNext c).1 = true := hmore
      rw [RemainderCursor.hasNext_of_settled h hb] at hmore
      obtain ⟨r, hr⟩ := Option.isSome_iff_exists.1 hmore
      simp [RemainderCursor.next_of_settled h hb, hr, h]

/-- Over a graph without cycles no cursor runs dry. -/
theorem not_dries : (n : Nest) → {c : n.State} → (graph c).Agrees → (graph c).EndsLive →
    (graph c).Acyclic → (hasNext c).1 = true → ¬ n.Dries c
  | once _ _, _, _, _, _, _ => id
  | motif _ _, _, _, _, _, _ => id
  | paths inner longest, c, hg, hends, hacyc, hmore => by
    change PathCursor inner.State at c
    intro hdries
    replace hdries : c.Dry inner.Dries := hdries
    cases hdries with
    | stop _ _ h => exact inner.not_dries hg hends hacyc hmore (h hmore)
    | barren _ _ _ hd _ => exact PathCursor.decompose_ne_nil hg hends hacyc hd
  | remainder inner multi, c, hg, hends, hacyc, _ => by
    intro hdries
    exact inner.not_dries hg hends hacyc hdries.1 hdries.2

/-- What the calls on the cursor of a nest can rely on. -/
structure Reliable (n : Nest) : Prop where
  /-- Asking more or less often changes no result. -/
  asks : ∀ calls, results calls n.start = results (calls.filter (· == .next)) n.start
  /-- Once there is no more, nothing is given any more. -/
  ends : ∀ calls, (hasNext (afterAll calls n.start)).1 = false →
    ∀ more, ∀ r ∈ results more (hasNext (afterAll calls n.start)).2, r = .error .exhausted
  /-- While there is more, the next call is in vain exactly if the cursor runs dry. -/
  gives : ∀ calls, (hasNext (afterAll calls n.start)).1 = true →
    ((next (afterAll calls n.start)).1 = .error .exhausted ↔ n.Dries (afterAll calls n.start))
  /-- That takes a cycle. -/
  ordered : (graph n.start).Agrees → (graph n.start).EndsLive → (graph n.start).Acyclic →
    ∀ calls, (hasNext (afterAll calls n.start)).1 = true →
      (next (afterAll calls n.start)).1 ≠ .error .exhausted

/-- **What a cursor promises, however it is built and whatever is called.** Asking can be left
out, and a spent cursor stays spent; a cursor that has more may still give nothing, but only if
it splits selections whose leaf is out of reach. -/
theorem reliable (n : Nest) : n.Reliable where
  asks calls := Lawful.results_eq_filter calls n.start
  ends calls hspent more := Lawful.results_of_spent hspent more
  gives calls hmore := n.next_exhausted_iff (reaches_afterAll calls n.start) hmore
  ordered hg hends hacyc calls hmore := by
    have hgraph := Lawful.graph_of_reaches (reaches_afterAll calls n.start)
    rw [Ne, n.next_exhausted_iff (reaches_afterAll calls n.start) hmore]
    rw [← hgraph] at hg hends hacyc
    exact n.not_dries hg hends hacyc hmore

end Nest

/-- Two pipes that read themselves, one behind the root and one before the leaf, and no way from
the root to the leaf. -/
def untied : Graph :=
  let g := ["first", "ahead", "behind", "last"].foldl
    (fun g name => (g.addElement ⟨name, .pipe⟩).2) (empty "untied")
  ((((g.addScope 2 3 0).2.addScope 3 3 1).2.addScope 4 4 0).2.addScope 4 5 0).2

theorem agrees_untied : untied.Agrees := by
  refine agrees_addScope (agrees_addScope (agrees_addScope (agrees_addScope ?_ ?_ ?_) ?_ ?_) ?_ ?_)
    ?_ ?_
  · exact agrees_addElement (agrees_addElement (agrees_addElement (agrees_addElement
      (agrees_empty _) _) _) _) _
  all_goals decide

/-- The paths of all that is not an extent. -/
def untiedPaths : Nest := .paths (.once untied ((Selection.whole untied).withoutExtents untied)) false

theorem answers_untied : (hasNext untiedPaths.start).1 = true ∧
    (next untiedPaths.start).1 = .error .exhausted ∧
      (hasNext (next untiedPaths.start).2).1 = false := by
  refine ⟨?_, ?_, ?_⟩ <;> cbv

/-- There seems to be more, and then there is nothing, though nothing was taken. -/
theorem untied_runs_dry : untied.Agrees ∧ ¬ ∀ calls,
    (hasNext (afterAll calls untiedPaths.start)).1 = true →
      (next (afterAll calls untiedPaths.start)).1 ≠ .error .exhausted := by
  obtain ⟨hmore, hnext, -⟩ := answers_untied
  exact ⟨agrees_untied, fun h => h [] hmore hnext⟩

/-- The cursor runs dry with the first call, and is spent from then on. -/
theorem reliable_untied : untiedPaths.Dries untiedPaths.start ∧
    results [.hasNext, .next, .hasNext, .next] untiedPaths.start =
      results [.next, .next] untiedPaths.start ∧
    ∀ more, ∀ r ∈ results more (hasNext (afterAll [.next] untiedPaths.start)).2,
      r = .error .exhausted := by
  obtain ⟨hmore, hnext, hspent⟩ := answers_untied
  have h := untiedPaths.reliable
  exact ⟨(h.gives [] hmore).1 hnext, h.asks [.hasNext, .next, .hasNext, .next],
    h.ends [.next] hspent⟩

end Dataflow
