import Mathlib
import Dataflow.Proofs.Topology.LeastOrder

/-!
# Paths, their number, and reachability

Where no chain of edges comes back to its start, a path from a vertex goes on along a path from
one of its successors, and the number of paths can be had without listing them: the counts are
passed down a topological order. What stays the same on the way is the number of paths that the
counts still stand for, `worth`: each count times the paths from there on.

Results:

* `mem_descendants`, `mem_ancestors`, `isReachable_iff`: what the walks find in a topology whose
  vertices are below its bound;
* `shortestPaths_isPrefix`, `mem_shortestPaths`: the paths of least length, in front of the others;
* `Acyclic.length_paths`: the paths from a vertex by those from its successors;
* `Acyclic.pathCount_eq`: counting gives the number of paths.
-/
namespace Dataflow

open Relation

/-! ## Tallies -/

namespace Tally

theorem get_add (c : Tally) (v n w : Nat) :
    (c.add v n).get w = c.get w + if w = v then n else 0 := by
  induction c with
  | nil => by_cases h : w = v <;> simp [add, get, h, List.lookup]
  | cons x rest ih =>
    obtain ⟨u, m⟩ := x
    simp only [get] at ih
    by_cases hw : w = u
    · subst hw
      by_cases huv : w = v <;> simp [add, get, huv]
    · have hbeq : (w == u) = false := beq_eq_false_iff_ne.2 hw
      by_cases huv : u = v
      · subst huv
        simp [add, get, List.lookup_cons, hw, hbeq]
      · simp [add, get, List.lookup_cons, huv, hbeq, ih]

theorem get_addAll (c : Tally) (vs : List Nat) (n w : Nat) :
    (c.addAll vs n).get w = c.get w + vs.count w * n := by
  unfold addAll
  induction vs generalizing c with
  | nil => simp
  | cons v rest ih =>
    rw [List.foldl_cons, ih, get_add, List.count_cons]
    by_cases h : w = v
    · subst h
      simp only [if_true, beq_self_eq_true, Nat.add_mul]
      omega
    · simp [h, Ne.symm h]

/-- Sums that fit their words are the sums. -/
theorem addAll?_eq_some {c c' : Tally} {vs : List Nat} {n : Nat} (h : c.addAll? vs n = some c') :
    c' = c.addAll vs n := by
  unfold addAll? addAll at *
  induction vs generalizing c with
  | nil => exact (Option.some.inj h).symm
  | cons v rest ih =>
    rw [List.foldlM_cons, add?] at h
    split at h
    · exact ih h
    · cases h

/-- Where they do not, one of the sums is past its word. -/
theorem addAll?_eq_none {c : Tally} {vs : List Nat} {n : Nat} (h : c.addAll? vs n = none) :
    ∃ v ∈ vs, UInt64.size ≤ (c.addAll vs n).get v := by
  unfold addAll? at h
  induction vs generalizing c with
  | nil => cases h
  | cons v rest ih =>
    have hcons : c.addAll (v :: rest) n = (c.add v n).addAll rest n := rfl
    rw [List.foldlM_cons, add?] at h
    split at h
    · obtain ⟨w, hw, hle⟩ := ih h
      exact ⟨w, List.mem_cons_of_mem v hw, hle⟩
    · next hlt =>
      refine ⟨v, List.mem_cons_self, ?_⟩
      rw [hcons, get_addAll, get_add, if_pos rfl]
      exact Nat.le_add_right_of_le (Nat.le_of_not_lt hlt)

end Tally

/-- Over a list that holds all of them, counting occurrences adds up to one term each. -/
theorem sum_map_count_mul {l vs : List Nat} (hl : l.Nodup) (hsub : ∀ v ∈ vs, v ∈ l)
    (f : Nat → Nat) : (l.map fun v => vs.count v * f v).sum = (vs.map f).sum := by
  rw [← List.sum_toFinset _ hl, Finset.sum_list_map_count]
  refine (Finset.sum_subset (fun v hv => ?_) fun v _ hv => ?_).symm
  · exact List.mem_toFinset.2 (hsub v (List.mem_toFinset.1 hv))
  · rw [List.count_eq_zero.2 fun h => hv (List.mem_toFinset.2 h), Nat.zero_mul]

namespace Topology

variable {t : Topology} {v w : ElementId}

/-! ## What is reached -/

theorem mem_descendants (ht : t.Sound) (hb : t.Bounded) :
    w ∈ t.descendants v ↔ TransGen t.Next v w := by
  rw [descendants, IdSet.mem_ofList, mem_explore_nil (ht.next_lt hb)]
  rfl

theorem mem_ancestors (ht : t.Sound) (hb : t.Bounded) :
    v ∈ t.ancestors w ↔ TransGen t.Next v w := by
  have hlt : ∀ w, ∀ v ∈ (t.predecessors w).toList, v < t.bound := fun w v h =>
    hb v (ht.ends v w ((ht.dual v w).1 h)).1
  have hswap : (fun b a => a ∈ (t.predecessors b).toList) = fun b a => t.Next a b := by
    funext b a
    exact propext (ht.dual a b)
  rw [ancestors, IdSet.mem_ofList, mem_explore_nil hlt, hswap]
  exact transGen_swap

theorem isReachable_iff (ht : t.Sound) (hb : t.Bounded) :
    t.isReachable v w = true ↔ ReflTransGen t.Next v w := by
  rw [isReachable, Bool.or_eq_true, beq_iff_eq, decide_eq_true_eq, mem_descendants ht hb,
    reflTransGen_iff_eq_or_transGen, eq_comm]

/-! ## The paths of least length -/

theorem filter_isPrefix {α : Type} {l : List α} {p : α → Bool}
    (h : l.Pairwise fun x y => p y = true → p x = true) : l.filter p <+: l := by
  induction l with
  | nil => exact List.prefix_rfl
  | cons x l ih =>
    obtain ⟨hx, hl⟩ := List.pairwise_cons.1 h
    rw [List.filter_cons]
    split
    · exact (List.prefix_cons_inj x).2 (ih hl)
    · next hpx =>
      rw [List.filter_eq_nil_iff.2 fun y hy hpy => hpx (hx y hy hpy)]
      exact List.nil_prefix

theorem Before.length_le {p q : List ElementId} (h : Before p q) : p.length ≤ q.length := by
  rcases h with h | h
  · exact Nat.le_of_lt h
  · exact Nat.le_of_eq h.1

theorem shortestPaths_eq {p : List ElementId} {rest : List (List ElementId)}
    (h : t.paths v w = p :: rest) :
    t.shortestPaths v w = (t.paths v w).filter fun q => q.length == p.length := by
  rw [shortestPaths, h, List.filter_cons, if_pos (beq_self_eq_true p.length)]

theorem shortestPaths_isPrefix (t : Topology) (v w : ElementId) :
    t.shortestPaths v w <+: t.paths v w := by
  cases hp : t.paths v w with
  | nil => simp [shortestPaths, hp]
  | cons p rest =>
    have hsorted := hp ▸ sorted_paths t v w
    have hleast : ∀ q ∈ p :: rest, p.length ≤ q.length := by
      intro q hq
      rcases List.mem_cons.1 hq with rfl | hq
      · exact Nat.le_refl _
      · exact ((List.pairwise_cons.1 hsorted).1 q hq).length_le
    rw [shortestPaths_eq hp, hp]
    refine filter_isPrefix (hsorted.imp_of_mem fun {q r} hq _ hqr hr => ?_)
    have hle := hqr.length_le
    have hge := hleast q hq
    simp only [beq_iff_eq] at hr ⊢
    omega

theorem mem_shortestPaths {l : List ElementId} : l ∈ t.shortestPaths v w ↔
    l ∈ t.paths v w ∧ ∀ q ∈ t.paths v w, l.length ≤ q.length := by
  cases hp : t.paths v w with
  | nil => simp [shortestPaths, hp]
  | cons p rest =>
    have hsorted := hp ▸ sorted_paths t v w
    rw [shortestPaths_eq hp, hp, List.mem_filter, beq_iff_eq]
    refine and_congr_right fun hl => ⟨fun heq q hq => ?_, fun hle => ?_⟩
    · rcases List.mem_cons.1 hq with rfl | hq
      · exact Nat.le_of_eq heq
      · exact heq ▸ ((List.pairwise_cons.1 hsorted).1 q hq).length_le
    · rcases List.mem_cons.1 hl with rfl | hl
      · rfl
      · exact Nat.le_antisymm (hle p List.mem_cons_self)
          ((List.pairwise_cons.1 hsorted).1 l hl).length_le

/-! ## One edge further on -/

theorem nodup_paths (t : Topology) (v w : ElementId) : (t.paths v w).Nodup := by
  unfold paths
  split
  · exact (List.mergeSort_perm _ _).nodup_iff.2 (nodup_pathsFrom _ _ _)
  · exact .nil

theorem paths_self (hv : v ∈ t.vertices) : t.paths v v = [[v]] := by
  rw [paths, if_pos ⟨hv, hv⟩, pathsFrom, if_pos rfl, List.mergeSort_singleton]

/-- Without cycles, a path to another vertex is an edge and a path from there on. -/
theorem Acyclic.isPath_iff (h : t.Acyclic) (hvw : v ≠ w) {l : List ElementId} :
    t.IsPath v w l ↔ ∃ u, t.Next v u ∧ ∃ rest, t.IsPath u w rest ∧ v :: rest = l := by
  constructor
  · intro hl
    obtain ⟨rest, rfl⟩ := List.head?_eq_some_iff.1 hl.head
    cases rest with
    | nil => exact absurd (Option.some.inj hl.last) hvw
    | cons u rest =>
      obtain ⟨hvu, hchain⟩ := List.isChain_cons_cons.1 hl.chain
      refine ⟨u, hvu, u :: rest, ⟨rfl, ?_, hchain, (List.nodup_cons.1 hl.nodup).2⟩, rfl⟩
      rw [← List.getLast?_cons_cons]
      exact hl.last
  · rintro ⟨u, hvu, rest, hrest, rfl⟩
    obtain ⟨tail, rfl⟩ := List.head?_eq_some_iff.1 hrest.head
    have hchain : (v :: u :: tail).IsChain t.Next := .cons_cons hvu hrest.chain
    refine ⟨rfl, ?_, hchain, h.nodup_of_isChain hchain⟩
    rw [List.getLast?_cons_cons]
    exact hrest.last

theorem Acyclic.length_paths (h : t.Acyclic) (ht : t.Sound) (hb : t.Bounded)
    (hv : v ∈ t.vertices) (hw : w ∈ t.vertices) (hvw : v ≠ w) :
    (t.paths v w).length = ((t.successors v).toList.map fun u => (t.paths u w).length).sum := by
  have hperm : (t.paths v w).Perm
      ((t.successors v).toList.flatMap fun u => (t.paths u w).map (v :: ·)) := by
    refine (List.perm_ext_iff_of_nodup (nodup_paths t v w) (List.nodup_flatMap.2 ⟨?_, ?_⟩)).2
      fun l => ?_
    · exact fun u _ => (nodup_paths t u w).map List.cons_injective
    · refine (IdSet.nodup_toList _).imp fun {u u'} hne l hl hl' => ?_
      obtain ⟨p, hp, rfl⟩ := List.mem_map.1 hl
      obtain ⟨p', hp', heq⟩ := List.mem_map.1 hl'
      cases heq
      have hu := ((mem_paths_iff (ht.next_lt hb)).1 hp).2.2.head
      have hu' := ((mem_paths_iff (ht.next_lt hb)).1 hp').2.2.head
      exact hne (Option.some.inj (hu.symm.trans hu'))
    · simp only [List.mem_flatMap, List.mem_map, mem_paths_iff (ht.next_lt hb)]
      rw [h.isPath_iff hvw]
      constructor
      · rintro ⟨-, -, u, hvu, rest, hrest, rfl⟩
        exact ⟨u, hvu, rest, ⟨(ht.ends v u hvu).2, hw, hrest⟩, rfl⟩
      · rintro ⟨u, hvu, rest, ⟨-, -, hrest⟩, rfl⟩
        exact ⟨hv, hw, u, hvu, rest, hrest, rfl⟩
  rw [hperm.length_eq, List.length_flatMap]
  simp only [List.length_map]

/-! ## Counting down an order -/

/-- The paths to `goal` that the counts stand for while `rest` is still to come: those that go on
from each vertex of `rest`, and what `goal` keeps once it is through. -/
def worth (t : Topology) (goal : ElementId) (counts : Tally) (rest : List ElementId) : Nat :=
  (rest.map fun v => counts.get v * (t.paths v goal).length).sum +
    if goal ∈ rest then 0 else counts.get goal

/-- What a listed vertex leads to stands behind it. -/
def Ahead (t : Topology) (l : List ElementId) : Prop :=
  ∀ before v after, l = before ++ v :: after → ∀ w, t.Next v w → w ∈ after

theorem Sorts.ahead (ht : t.Sound) {l : List ElementId} (h : t.Sorts l) : t.Ahead l := by
  rintro before v after rfl w hvw
  have hnew := h.not_mem_before
  have hlt := h.forward v w hvw
  have hmem : w ∈ before ++ v :: after := h.perm.mem_iff.2 (ht.ends v w hvw).2
  rw [List.idxOf_append, if_neg hnew, List.idxOf_cons_self] at hlt
  rcases List.mem_append.1 hmem with hw | hw
  · have hplace := List.idxOf_lt_length_of_mem hw
    rw [List.idxOf_append, if_pos hw] at hlt
    omega
  · rcases List.mem_cons.1 hw with rfl | hw
    · rw [List.idxOf_append, if_neg hnew, List.idxOf_cons_self] at hlt
      omega
    · exact hw

/-- What a vertex passes on is worth what it was. -/
theorem Acyclic.worth_addAll (h : t.Acyclic) (ht : t.Sound) (hb : t.Bounded)
    {goal : ElementId} (hgoal : goal ∈ t.vertices) (hv : v ∈ t.vertices) (hne : v ≠ goal)
    {rest : List ElementId} (hnodup : rest.Nodup) (hahead : ∀ w, t.Next v w → w ∈ rest)
    (counts : Tally) :
    t.worth goal (counts.addAll (t.successors v).toList (counts.get v)) rest =
      t.worth goal counts (v :: rest) := by
  have hsum := sum_map_count_mul hnodup hahead fun u => (t.paths u goal).length
  rw [← h.length_paths ht hb hv hgoal hne] at hsum
  have hrest : (rest.map fun u => (counts.addAll (t.successors v).toList (counts.get v)).get u *
      (t.paths u goal).length).sum = counts.get v * (t.paths v goal).length +
        (rest.map fun u => counts.get u * (t.paths u goal).length).sum := by
    rw [← hsum, ← List.sum_map_mul_left, ← List.sum_map_add]
    refine congrArg List.sum (List.map_congr_left fun u _ => ?_)
    rw [Tally.get_addAll]
    ring
  have hkept : goal ∉ rest →
      (counts.addAll (t.successors v).toList (counts.get v)).get goal = counts.get goal := by
    intro hout
    rw [Tally.get_addAll, List.count_eq_zero.2 fun hs => hout (hahead goal hs), Nat.zero_mul,
      Nat.add_zero]
  rw [worth, worth, hrest, List.map_cons, List.sum_cons]
  by_cases hin : goal ∈ rest
  · rw [if_pos hin, if_pos (List.mem_cons_of_mem v hin)]
  · have hout : goal ∉ v :: rest := fun hmem =>
      (List.mem_cons.1 hmem).elim (fun heq => hne heq.symm) hin
    rw [if_neg hin, if_neg hout, hkept hin]

/-- The goal is worth its count, before it is reached and after. -/
theorem worth_goal {goal : ElementId} (hgoal : goal ∈ t.vertices) {rest : List ElementId}
    (hnew : goal ∉ rest) (counts : Tally) :
    t.worth goal counts (goal :: rest) = t.worth goal counts rest := by
  rw [worth, worth, if_pos List.mem_cons_self, if_neg hnew, List.map_cons, List.sum_cons,
    paths_self hgoal, List.length_singleton]
  omega

theorem Acyclic.get_spread (h : t.Acyclic) (ht : t.Sound) (hb : t.Bounded) {goal : ElementId}
    (hgoal : goal ∈ t.vertices) {rest : List ElementId} (hvert : ∀ v ∈ rest, v ∈ t.vertices)
    (hnodup : rest.Nodup) (hahead : t.Ahead rest) (counts : Tally) :
    (t.spread goal counts rest).get goal = t.worth goal counts rest := by
  induction rest generalizing counts with
  | nil => simp [spread, worth]
  | cons v rest ih =>
    obtain ⟨hv, hnodup'⟩ := List.nodup_cons.1 hnodup
    have htail : t.Ahead rest := fun before u after heq =>
      hahead (v :: before) u after (congrArg (v :: ·) heq)
    have hih := ih (fun u hu => hvert u (List.mem_cons_of_mem v hu)) hnodup' htail
    rw [spread, List.foldl_cons, ← spread, hih]
    split
    · next heq =>
      subst heq
      rw [worth_goal hgoal hv]
    · next hne =>
      exact h.worth_addAll ht hb hgoal (hvert v List.mem_cons_self) hne hnodup'
        (hahead [] v rest rfl) counts

theorem Acyclic.pathCount_eq (h : t.Acyclic) (ht : t.Sound) (hb : t.Bounded)
    (hv : v ∈ t.vertices) (hw : w ∈ t.vertices) : t.pathCount v w = (t.paths v w).length := by
  obtain ⟨l, hl⟩ := (exists_order_iff ht).2 h
  have hsorts := order_sorts ht hl
  have hstart : ∀ u, Tally.get [(v, 1)] u = [v].count u := by
    intro u
    by_cases huv : u = v
    · simp [Tally.get, huv]
    · simp [Tally.get, List.lookup_cons, beq_eq_false_iff_ne.2 huv, Ne.symm huv]
  have hmem : ∀ u ∈ [v], u ∈ l := fun u hu => (mem_order hl).2 (List.mem_singleton.1 hu ▸ hv)
  have hsum := sum_map_count_mul (nodup_of_order hl) hmem fun u => (t.paths u w).length
  rw [pathCount, hl]
  show (t.spread w [(v, 1)] l).get w = _
  rw [h.get_spread ht hb hw (fun u => (mem_order hl).1) (nodup_of_order hl) (hsorts.ahead ht),
    worth, if_pos ((mem_order hl).2 hw)]
  simpa only [hstart, List.map_singleton, List.sum_singleton, Nat.add_zero] using hsum

/-! ## In one -/

/-- What is listed, counted and reached between two vertices fits together. -/
structure Charted (t : Topology) (v w : ElementId) : Prop where
  /-- The chains of distinct vertices from `v` to `w` are listed. -/
  listed : ∀ l, l ∈ t.paths v w ↔ t.IsPath v w l
  once : (t.paths v w).Nodup
  /-- The shorter ones come first, and those of one length by their ids. -/
  sorted : (t.paths v w).Pairwise Before
  reachable : t.paths v w ≠ [] ↔ t.isReachable v w = true
  /-- Whatever can be reached along an edge and further on is a descendant, and nothing else. -/
  descendants : ∀ u, u ∈ t.descendants v ↔ u ∈ t.vertices ∧ TransGen t.Next v u
  ancestors : w ∈ t.descendants v ↔ v ∈ t.ancestors w
  /-- The paths of least length are in front. -/
  shortest : t.shortestPaths v w <+: t.paths v w ∧ ∀ l, l ∈ t.shortestPaths v w ↔
    l ∈ t.paths v w ∧ ∀ q ∈ t.paths v w, l.length ≤ q.length
  counted : t.Acyclic → t.pathCount v w = (t.paths v w).length

theorem Sound.charted (ht : t.Sound) (hb : t.Bounded) (hv : v ∈ t.vertices)
    (hw : w ∈ t.vertices) : t.Charted v w where
  listed l := by
    rw [mem_paths_iff (ht.next_lt hb)]
    exact ⟨fun h => h.2.2, fun h => ⟨hv, hw, h⟩⟩
  once := nodup_paths t v w
  sorted := sorted_paths t v w
  reachable := by
    rw [Ne, paths_eq_nil_iff (ht.next_lt hb) hv hw, not_not, isReachable_iff ht hb]
  descendants u := by
    rw [mem_descendants ht hb]
    refine ⟨fun h => ⟨?_, h⟩, And.right⟩
    obtain ⟨x, -, hx⟩ := TransGen.tail'_iff.1 h
    exact (ht.ends x u hx).2
  ancestors := by rw [mem_descendants ht hb, mem_ancestors ht hb]
  shortest := ⟨shortestPaths_isPrefix t v w, fun _ => mem_shortestPaths⟩
  counted h := h.pathCount_eq ht hb hv hw

end Topology
end Dataflow
