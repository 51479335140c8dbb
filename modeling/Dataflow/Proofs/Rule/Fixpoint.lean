import Dataflow.Definition.Build
import Dataflow.Proofs.Flow.Insertion
import Dataflow.Proofs.Rule.Application

/-!
# What a rule reports

A rule that reports no change, or fails, leaves the graph as it is: it edits nothing
before it has found what to edit, and draws no name. A change that it reports is one,
for an element comes or goes with it. So the loop around a rule is a function of the
changes alone: it settles with a count exactly if so many applications report changes,
the next one reports none, and the limit is above the count.

Results:

* `Rule.apply_unchanged_iff`: a rule leaves the graph alone exactly if it reports no change;
* `Rule.fixpoint_eq_ok_iff`: when the loop settles, with which count and where;
* `Rule.settles_after_changes`: both together, and what they say of further runs.
-/
namespace Dataflow

open Dataflow.Graph

variable {g g' : Graph}

/-! ## What a change does to the arena -/

namespace Graph

theorem size_cutScopes (g : Graph) (scheme : String) (cut : IdSet) :
    (g.cutScopes scheme cut).size = g.size + cut.toList.length := by
  rw [cutScopes]
  generalize cut.toList = l
  induction l generalizing g with
  | nil => rfl
  | cons s rest ih =>
    rw [List.foldl_cons, ih, size_boundaryOn, List.length_cons]
    omega

theorem ne_of_size_lt (h : g.size < g'.size) : g' ≠ g := by
  rintro rfl
  exact Nat.lt_irrefl _ h

theorem cutScopes_ne {scheme : String} {cut : IdSet} (h : cut.toList ≠ []) :
    g.cutScopes scheme cut ≠ g := by
  refine ne_of_size_lt ?_
  rw [size_cutScopes]
  exact Nat.lt_add_of_pos_right (List.length_pos_iff.2 h)

/-- An element that is gone was there before. -/
theorem ne_of_removed {e : ElementId} (h : g.contains e = true) (h' : g'.element? e = none) :
    g' ≠ g := by
  rintro rfl
  rw [Graph.contains, h'] at h
  cases h

end Graph

namespace Rule

variable {r : Rule}

/-! ## One application -/

/-- A rule leaves the graph as it is exactly if it reports no change, by its answer or by
failing. -/
theorem apply_unchanged_iff (r : Rule) (g : Graph) :
    (r.apply g).2 = g ↔ (r.apply g).1 ≠ .ok true := by
  cases r with
  | splitInsertion scheme =>
    rw [Rule.apply, SplitInsertion.apply_eq]
    refine changeAt_unchanged_iff fun id _ => ne_of_size_lt ?_
    rw [(grows_boundaryAfter g scheme id).size]
    exact Nat.lt_succ_self _
  | jobPartitioning scheme =>
    rw [Rule.apply, JobPartitioning.apply_eq]
    exact changeAt_unchanged_iff fun cut hcut =>
      cutScopes_ne (JobPartitioning.ne_nil_of_findCut hcut)
  | joinIsolation scheme =>
    rw [Rule.apply, JoinIsolation.apply_eq]
    refine changeAt_unchanged_iff fun s _ => ne_of_size_lt ?_
    rw [size_boundaryOn]
    exact Nat.lt_succ_self _
  | sourceNormalization scheme rules =>
    rw [Rule.apply, SourceNormalization.apply_eq]
    exact changeAt_unchanged_iff fun cut hcut =>
      cutScopes_ne (SourceNormalization.ne_nil_of_findCut hcut)
  | passThrough =>
    rw [Rule.apply, PassThrough.apply_eq]
    refine changeAt_unchanged_iff fun id hid => ?_
    obtain ⟨hpipe, i, hi⟩ := PassThrough.isPipe_of_removable hid
    refine ne_of_removed (contains_of_hasKind hpipe) ?_
    simp [removePassThrough, hi, element?_removeElement]
  | boundaryCollapse rules =>
    rw [Rule.apply, BoundaryCollapse.apply_eq]
    refine changeAt_unchanged_iff fun bt hbt => ne_of_removed (e := bt.1) ?_ ?_
    · exact contains_of_hasKind (BoundaryCollapse.canReplace_of_collapsible hbt).1
    · rw [element?_replaceElement, if_pos rfl]

/-- A rule that reports no change has changed nothing. -/
theorem eq_of_apply (h : r.apply g = (.ok false, g')) : g' = g := by
  have hsame := (apply_unchanged_iff r g).2 (by rw [h]; exact fun he => by cases he)
  rwa [h] at hsame

/-! ## Any number of applications -/

/-- So many applications in a row, each of which reports a change, lead from one graph to
another. -/
inductive Changes (r : Rule) : Nat → Graph → Graph → Prop
  | none (g : Graph) : Changes r 0 g g
  | next {n : Nat} {g a g' : Graph} (happly : r.apply g = (.ok true, a)) (h : Changes r n a g') :
    Changes r (n + 1) g g'

/-- The loop counts the changes up to the first application that reports none. -/
theorem iterate_eq_ok_iff {limit budget changes n : Nat} :
    r.iterate limit budget changes g = (.ok n, g') ↔
      ∃ k < budget, n = changes + k ∧ r.Changes k g g' ∧ r.apply g' = (.ok false, g') := by
  induction budget generalizing g changes with
  | zero => simp [iterate]
  | succ budget ih =>
    unfold iterate
    rcases happly : r.apply g with ⟨e | changed, g1⟩
    · constructor
      · intro h; cases h
      · rintro ⟨k, -, -, hk, hend⟩
        cases hk with
        | none => rw [happly] at hend; cases hend
        | next hstep _ => rw [happly] at hstep; cases hstep
    · cases changed with
      | false =>
        obtain rfl := eq_of_apply happly
        constructor
        · intro h
          cases h
          exact ⟨0, Nat.succ_pos _, rfl, .none _, happly⟩
        · rintro ⟨k, -, rfl, hk, hend⟩
          cases hk with
          | none => rfl
          | next hstep _ => rw [happly] at hstep; cases hstep
      | true =>
        dsimp only
        rw [ih]
        constructor
        · rintro ⟨k, hk, rfl, hrun, hend⟩
          exact ⟨k + 1, Nat.succ_lt_succ hk, by omega, .next happly hrun, hend⟩
        · rintro ⟨k, hk, rfl, hrun, hend⟩
          cases hrun with
          | none => rw [happly] at hend; cases hend
          | next hstep hrest =>
            rw [happly] at hstep
            cases hstep
            exact ⟨_, Nat.lt_of_succ_lt_succ hk, by omega, hrest, hend⟩

/-- The loop settles with `n` changes exactly if `n` applications report changes, the next one
reports none, and the limit is above `n`. -/
theorem fixpoint_eq_ok_iff {limit n : Nat} : r.fixpoint limit g = (.ok n, g') ↔
    n < limit ∧ r.Changes n g g' ∧ r.apply g' = (.ok false, g') := by
  rw [fixpoint, iterate_eq_ok_iff]
  constructor
  · rintro ⟨k, hk, rfl, h⟩
    rw [Nat.zero_add]
    exact ⟨hk, h⟩
  · rintro ⟨hn, h⟩
    exact ⟨n, hn, (Nat.zero_add n).symm, h⟩

/-- A rule leaves the graph exactly as it was if it reports no change or fails, and only then.
So for every limit the loop settles with `n` changes exactly if the limit is above `n`, the
first `n` applications report changes and the next one does not. Where it settles it settles
again at once, and a higher limit makes no difference. -/
theorem settles_after_changes (r : Rule) (g : Graph) :
    ((r.apply g).2 = g ↔ (r.apply g).1 ≠ .ok true) ∧
    (∀ limit n g', r.fixpoint limit g = (.ok n, g') ↔
      n < limit ∧ ∃ a, r.Changes n g a ∧ r.apply a = (.ok false, g')) ∧
    ∀ limit n g', r.fixpoint limit g = (.ok n, g') →
      (∀ limit' > 0, r.fixpoint limit' g' = (.ok 0, g')) ∧
      ∀ limit' ≥ limit, r.fixpoint limit' g = (.ok n, g') := by
  refine ⟨apply_unchanged_iff r g, fun limit n g' => ?_, fun limit n g' hrun => ?_⟩
  · rw [fixpoint_eq_ok_iff]
    constructor
    · rintro ⟨hn, hrun, hend⟩
      exact ⟨hn, g', hrun, hend⟩
    · rintro ⟨hn, a, hrun, hend⟩
      obtain rfl := eq_of_apply hend
      exact ⟨hn, hrun, hend⟩
  · obtain ⟨hn, hchanges, hend⟩ := fixpoint_eq_ok_iff.1 hrun
    exact ⟨fun limit' hpos => fixpoint_eq_ok_iff.2 ⟨hpos, .none g', hend⟩,
      fun limit' hle => fixpoint_eq_ok_iff.2 ⟨Nat.lt_of_lt_of_le hn hle, hchanges, hend⟩⟩

/-- Two pipes in a row before a merge. -/
def piped : Definition where
  name := "piped"
  stages :=
    [⟨"in", [], .source ⟨"hdfs", "in", none, true⟩⟩,
      ⟨"p", ["in"], .pipe⟩, ⟨"q", ["p"], .pipe⟩, ⟨"m", ["q"], .merge⟩,
      ⟨"out", ["m"], .sink ⟨"hdfs", "out", none, true⟩⟩]

/-- Both pipes go, which takes a limit of three; nothing goes after that. -/
theorem settles_piped : ∃ g g', piped.toGraph = .ok g ∧
    passThrough.fixpoint 3 g = (.ok 2, g') ∧ passThrough.Changes 2 g g' ∧ g' ≠ g ∧
      passThrough.fixpoint 1 g' = (.ok 0, g') ∧ passThrough.fixpoint 100 g = (.ok 2, g') := by
  have hany : (piped.toGraph.toOption.any fun g =>
      decide ((passThrough.fixpoint 3 g).1 = .ok 2 ∧ (passThrough.fixpoint 3 g).2 ≠ g)) = true := by
    decide +kernel
  obtain ⟨g, hd, hany⟩ := exists_ok_of_any hany
  obtain ⟨hcount, hne⟩ := of_decide_eq_true hany
  have hrun : passThrough.fixpoint 3 g = (.ok 2, (passThrough.fixpoint 3 g).2) :=
    Prod.ext hcount rfl
  obtain ⟨-, hiff, hmore⟩ := settles_after_changes passThrough g
  obtain ⟨-, a, hchanges, hend⟩ := (hiff 3 2 _).1 hrun
  rw [eq_of_apply hend] at hrun hne
  obtain ⟨hagain, hlimit⟩ := hmore 3 2 a hrun
  exact ⟨g, a, hd, hrun, hchanges, hne, hagain 1 Nat.one_pos, hlimit 100 (by decide)⟩

end Rule
end Dataflow
