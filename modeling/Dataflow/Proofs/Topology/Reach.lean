import Mathlib.Logic.Relation
import Dataflow.Topology.Reach
import Dataflow.Proofs.Graph.Inputs

/-!
# A breadth-first walk finds what is reachable

`explore` is followed by two facts: what it lists lies in every set that holds the
start and is closed under `next`, and with enough budget what it lists is closed
under `next` itself. A vertex is queued once, so the queue and the ids that are
still to be found bound the steps that are left.

Results:

* `explore_subset`, `explore_closed`: the two facts;
* `explore_add_budget`: the walk comes to its end within the budget;
* `mem_descendants`, `mem_ancestors`: what an element reaches along at least one scope,
  and what reaches it.
-/
namespace Dataflow

open Relation

variable {next : Nat → List Nat}

theorem mem_newcomers {found l : List Nat} {v : Nat} :
    v ∈ newcomers found l ↔ v ∈ l ∧ v ∉ found := by
  induction l generalizing found with
  | nil => simp [newcomers]
  | cons w rest ih =>
    unfold newcomers
    split
    · next hw =>
      rw [ih, List.mem_cons]
      constructor
      · rintro ⟨h, hv⟩
        exact ⟨.inr h, hv⟩
      · rintro ⟨rfl | h, hv⟩
        · exact absurd hw hv
        · exact ⟨h, hv⟩
    · next hw =>
      rw [List.mem_cons, ih, List.mem_cons, List.mem_cons]
      by_cases hvw : v = w
      · subst hvw; simp [hw]
      · simp [hvw]

theorem newcomers_nodup {found l : List Nat} : (newcomers found l).Nodup := by
  induction l generalizing found with
  | nil => exact .nil
  | cons w rest ih =>
    unfold newcomers
    split
    · exact ih
    · refine List.nodup_cons.2 ⟨fun h => ?_, ih⟩
      exact (mem_newcomers.1 h).2 List.mem_cons_self

/-- What is found, with what is new beside it. -/
theorem nodup_append_newcomers {found l : List Nat} (h : found.Nodup) :
    (found ++ newcomers found l).Nodup := by
  refine List.nodup_append.2 ⟨h, newcomers_nodup, ?_⟩
  rintro a ha b hb rfl
  exact (mem_newcomers.1 hb).2 ha

/-- The walk only adds to what was found. -/
theorem found_subset_explore (budget : Nat) {found queue : List Nat} {v : Nat} (hv : v ∈ found) :
    v ∈ explore next budget found queue := by
  induction budget generalizing found queue with
  | zero => exact hv
  | succ budget ih =>
    cases queue with
    | nil => exact hv
    | cons w queue => exact ih (List.mem_append_left _ hv)

/-- The walk stays in every closed set that holds what was found and what the
queue leads to. -/
theorem explore_subset {P : Nat → Prop} (hP : ∀ v, P v → ∀ w ∈ next v, P w) (budget : Nat)
    {found queue : List Nat} (hf : ∀ v ∈ found, P v) (hq : ∀ v ∈ queue, ∀ w ∈ next v, P w) :
    ∀ v ∈ explore next budget found queue, P v := by
  induction budget generalizing found queue with
  | zero => exact hf
  | succ budget ih =>
    cases queue with
    | nil => exact hf
    | cons w queue =>
      have hnew : ∀ v ∈ newcomers found (next w), P v := fun v hv =>
        hq w List.mem_cons_self v (mem_newcomers.1 hv).1
      refine ih (fun v hv => ?_) (fun v hv => ?_)
      · rcases List.mem_append.1 hv with hv | hv
        · exact hf v hv
        · exact hnew v hv
      · rcases List.mem_append.1 hv with hv | hv
        · exact hq v (List.mem_cons_of_mem w hv)
        · exact hP v (hnew v hv)

/-- A list of distinct ids below a bound is no longer than the bound. -/
theorem length_le_of_nodup_of_lt {l : List Nat} {n : Nat} (h : l.Nodup) (hlt : ∀ v ∈ l, v < n) :
    l.length ≤ n := by
  have hs : l ⊆ List.range n := fun v hv => List.mem_range.2 (hlt v hv)
  simpa using h.length_le_of_subset hs

/-- A set without a member of a larger one is smaller. -/
theorem IdSet.size_lt_size {s t : IdSet} (h : ∀ x ∈ s, x ∈ t) {y : Nat} (ht : y ∈ t)
    (hs : y ∉ s) : s.size < t.size := by
  have hnodup : (y :: s.toList).Nodup := List.nodup_cons.2 ⟨hs, s.nodup_toList⟩
  refine hnodup.length_le_of_subset fun x hx => ?_
  rcases List.mem_cons.1 hx with rfl | hx
  · exact ht
  · exact h x hx

theorem lt_of_mem_append_newcomers {n : Nat} {found l : List Nat} (hfound : ∀ v ∈ found, v < n)
    (hl : ∀ v ∈ l, v < n) : ∀ v ∈ found ++ newcomers found l, v < n := by
  intro v hv
  rcases List.mem_append.1 hv with hv | hv
  · exact hfound v hv
  · exact hl v (mem_newcomers.1 hv).1

/-- With a budget for the queue and for every id that is not found yet, the walk
lists whatever the queue leads to, and what it lists is closed. -/
theorem explore_closed {n : Nat} (hn : ∀ v, ∀ w ∈ next v, w < n) (budget : Nat)
    (found queue : List Nat) (hnodup : found.Nodup) (hlt : ∀ v ∈ found, v < n)
    (hbudget : queue.length + (n - found.length) ≤ budget)
    (hdone : ∀ v ∈ found, v ∈ queue ∨ ∀ w ∈ next v, w ∈ found) :
    (∀ v ∈ queue, ∀ w ∈ next v, w ∈ explore next budget found queue) ∧
      ∀ v ∈ explore next budget found queue, ∀ w ∈ next v,
        w ∈ explore next budget found queue := by
  induction budget generalizing found queue with
  | zero =>
    have hq : queue = [] := List.length_eq_zero_iff.1 (by omega)
    subst hq
    refine ⟨by simp, fun v hv w hw => ?_⟩
    rcases hdone v hv with h | h
    · cases h
    · exact h w hw
  | succ budget ih =>
    cases queue with
    | nil =>
      refine ⟨by simp, fun v hv w hw => ?_⟩
      rcases hdone v hv with h | h
      · cases h
      · exact h w hw
    | cons x queue =>
      have hnodup' := nodup_append_newcomers (l := next x) hnodup
      have hlt' := lt_of_mem_append_newcomers hlt (hn x)
      have hlen := length_le_of_nodup_of_lt hnodup' hlt'
      -- everything next to `x` is found from here on
      have hx : ∀ w ∈ next x, w ∈ found ++ newcomers found (next x) := by
        intro w hw
        by_cases hwf : w ∈ found
        · exact List.mem_append_left _ hwf
        · exact List.mem_append_right _ (mem_newcomers.2 ⟨hw, hwf⟩)
      obtain ⟨hqueue, hclosed⟩ := ih _ (queue ++ newcomers found (next x)) hnodup' hlt'
        (by
          simp only [List.length_append, List.length_cons] at hlen hbudget ⊢
          omega)
        (fun v hv => by
          rcases List.mem_append.1 hv with hv | hv
          · rcases hdone v hv with h | h
            · rcases List.mem_cons.1 h with rfl | h
              · exact .inr hx
              · exact .inl (List.mem_append_left _ h)
            · exact .inr fun w hw => List.mem_append_left _ (h w hw)
          · exact .inl (List.mem_append_right _ hv))
      refine ⟨fun v hv w hw => ?_, hclosed⟩
      rcases List.mem_cons.1 hv with rfl | hv
      · exact found_subset_explore budget (hx w hw)
      · exact hqueue v (List.mem_append_left _ hv) w hw

/-- With that budget the queue runs empty, so a larger one changes nothing. -/
theorem explore_add_budget {n : Nat} (hn : ∀ v, ∀ w ∈ next v, w < n) (budget more : Nat)
    (found queue : List Nat) (hnodup : found.Nodup) (hlt : ∀ v ∈ found, v < n)
    (hbudget : queue.length + (n - found.length) ≤ budget) :
    explore next (budget + more) found queue = explore next budget found queue := by
  induction budget generalizing found queue with
  | zero =>
    have hq : queue = [] := List.length_eq_zero_iff.1 (by omega)
    subst hq
    cases more <;> rfl
  | succ budget ih =>
    rw [Nat.succ_add]
    cases queue with
    | nil => rfl
    | cons x queue =>
      have hnodup' := nodup_append_newcomers (l := next x) hnodup
      have hlt' := lt_of_mem_append_newcomers hlt (hn x)
      have hlen := length_le_of_nodup_of_lt hnodup' hlt'
      refine ih _ (queue ++ newcomers found (next x)) hnodup' hlt' ?_
      simp only [List.length_append, List.length_cons] at hlen hbudget ⊢
      omega

/-- The walk from a list of found starts lists what one of them reaches. -/
theorem mem_explore_starts {n : Nat} (hn : ∀ v, ∀ w ∈ next v, w < n) {starts : List Nat}
    (hnodup : starts.Nodup) (hlt : ∀ v ∈ starts, v < n) {w : Nat} :
    w ∈ explore next (n + 1) starts starts ↔
      ∃ v ∈ starts, ReflTransGen (fun a b => b ∈ next a) v w := by
  constructor
  · exact explore_subset (P := fun w => ∃ v ∈ starts, ReflTransGen (fun a b => b ∈ next a) v w)
      (fun a ⟨v, hv, ha⟩ b hb => ⟨v, hv, ha.tail hb⟩) _ (fun a ha => ⟨a, ha, .refl⟩)
      (fun a ha b hb => ⟨a, ha, .single hb⟩) w
  · rintro ⟨v, hv, h⟩
    have hlen := length_le_of_nodup_of_lt hnodup hlt
    obtain ⟨-, hclosed⟩ := explore_closed hn (n + 1) starts starts hnodup hlt
      (by omega) (fun a ha => .inl ha)
    induction h with
    | refl => exact found_subset_explore _ hv
    | tail _ hab ih => exact hclosed _ ih _ hab

/-- The walk from a found start lists what the start reaches. -/
theorem mem_explore {n : Nat} (hn : ∀ v, ∀ w ∈ next v, w < n) {v w : Nat} (hv : v < n) :
    w ∈ explore next (n + 1) [v] [v] ↔ ReflTransGen (fun a b => b ∈ next a) v w := by
  rw [mem_explore_starts hn (List.pairwise_singleton _ _) (by simpa using hv)]
  simp

/-- The walk from a start that is not found yet lists what lies behind it. -/
theorem mem_explore_nil {n : Nat} (hn : ∀ v, ∀ w ∈ next v, w < n) {v w : Nat} :
    w ∈ explore next (n + 1) [] [v] ↔ TransGen (fun a b => b ∈ next a) v w := by
  constructor
  · refine explore_subset (P := TransGen (fun a b => b ∈ next a) v)
      (fun a ha b hb => ha.tail hb) _ (fun a ha => by cases ha) (fun a ha b hb => ?_) w
    rw [List.mem_singleton.1 ha] at hb
    exact .single hb
  · intro h
    obtain ⟨hqueue, hclosed⟩ := explore_closed hn (n + 1) [] [v]
      .nil (by simp) (by simp only [List.length_singleton, List.length_nil]; omega) (by simp)
    induction h with
    | single hab => exact hqueue v List.mem_cons_self _ hab
    | tail _ hab ih => exact hclosed _ ih _ hab

namespace Graph

variable {g : Graph}

/-- The descendants of an element are what it reaches along at least one scope. -/
theorem Agrees.mem_descendants (h : g.Agrees) {a b : ElementId} :
    b ∈ g.topology.descendants a ↔ TransGen g.Leads a b := by
  have hs : ∀ v w, w ∈ (g.topology.successors v).toList ↔ g.Leads v w := fun v w =>
    h.mem_successors
  have hn : ∀ v, ∀ w ∈ (g.topology.successors v).toList, w < g.topology.bound := by
    intro v w hw
    obtain ⟨s, sc, hsc, -, ht⟩ := (hs v w).1 hw
    exact ht ▸ h.target_lt hsc
  rw [Topology.descendants, IdSet.mem_ofList, mem_explore_nil hn]
  simp only [hs]

/-- The ancestors of an element are what reaches it along at least one scope. -/
theorem Agrees.mem_ancestors (h : g.Agrees) {a b : ElementId} :
    a ∈ g.topology.ancestors b ↔ TransGen g.Leads a b := by
  have hs : ∀ v w, w ∈ (g.topology.predecessors v).toList ↔ g.Leads w v := fun v w =>
    h.mem_predecessors
  have hn : ∀ v, ∀ w ∈ (g.topology.predecessors v).toList, w < g.topology.bound := by
    intro v w hw
    obtain ⟨s, sc, hsc, ho, -⟩ := (hs v w).1 hw
    exact ho ▸ h.origin_lt hsc
  rw [Topology.ancestors, IdSet.mem_ofList, mem_explore_nil hn]
  simp only [hs]
  exact transGen_swap

/-- Every inner element lies on a way from `head` to `tail`. -/
def OnPath (g : Graph) : Prop :=
  ∀ e, g.contains e = true → isExtent e = false →
    ReflTransGen g.Leads head e ∧ ReflTransGen g.Leads e tail

end Graph
end Dataflow
