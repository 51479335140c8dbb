import Mathlib.Algebra.Order.Group.Nat
import Mathlib.Data.List.Chain
import Mathlib.Data.List.Perm.Subperm
import Dataflow.Topology.Paths
import Dataflow.Proofs.Topology.Reach

/-!
# The listed paths

`pathsFrom` grows a path vertex by vertex and keeps off what it visited. It lists every
chain of distinct vertices that is short enough, and each chain once at most, so their
number is bounded by the choices at each vertex.

Results:

* `mem_roots`, `mem_leaves`: what no edge enters, or leaves;
* `mem_paths_of_chain`: a chain of distinct vertices is listed;
* `mem_of_mem_paths`: a listed path stays among the vertices it starts from and their
  successors;
* `length_paths_le`: the number of paths.
-/
namespace Dataflow
namespace Topology

variable {t : Topology} {goal : ElementId}

/-- One step along an edge. -/
def Next (t : Topology) (v w : ElementId) : Prop := w ∈ t.successors v

theorem mem_leaves {v : ElementId} :
    v ∈ t.leaves ↔ v ∈ t.vertices ∧ ∀ w, ¬ t.Next v w := by
  have hout : t.outDegree v == 0 ↔ ∀ w, ¬ t.Next v w := by
    simp only [Next, successors, outDegree, IdSet.mem_ofList, beq_iff_eq, List.length_eq_zero_iff]
    rw [← List.eq_nil_iff_forall_not_mem, List.map_eq_nil_iff]
  rw [leaves, IdSet.mem_filter, hout]

theorem mem_roots {v : ElementId} :
    v ∈ t.roots ↔ v ∈ t.vertices ∧ ∀ u, u ∉ t.predecessors v := by
  have hin : t.inDegree v == 0 ↔ ∀ u, u ∉ t.predecessors v := by
    simp only [predecessors, inDegree, IdSet.mem_ofList, beq_iff_eq, List.length_eq_zero_iff]
    rw [← List.eq_nil_iff_forall_not_mem, List.map_eq_nil_iff]
  rw [roots, IdSet.mem_filter, hin]

/-! ## Paths -/

theorem mem_pathsFrom_of_chain (n : Nat) {visited l : List ElementId} {v : ElementId}
    (hchain : (v :: l).IsChain t.Next) (hlast : (v :: l).getLast (List.cons_ne_nil v l) = goal)
    (hnodup : (v :: l).Nodup) (hoff : ∀ x ∈ l, x ∉ visited) (hlen : l.length < n) :
    v :: l ∈ t.pathsFrom goal n visited v := by
  induction n generalizing visited l v with
  | zero => exact absurd hlen (Nat.not_lt_zero _)
  | succ n ih =>
    unfold pathsFrom
    cases l with
    | nil =>
      have heq : v = goal := hlast
      rw [if_pos heq]
      exact List.mem_singleton.2 rfl
    | cons w rest =>
      obtain ⟨hv, hnodup'⟩ := List.nodup_cons.1 hnodup
      obtain ⟨hvw, hchain'⟩ := List.isChain_cons_cons.1 hchain
      rw [List.getLast_cons_cons] at hlast
      have hne : v ≠ goal := by
        rintro rfl
        exact hv (hlast ▸ List.getLast_mem (List.cons_ne_nil w rest))
      rw [if_neg hne]
      refine List.mem_flatMap.2 ⟨w, List.mem_filter.2 ⟨hvw, ?_⟩, List.mem_map.2 ⟨w :: rest, ?_, rfl⟩⟩
      · simpa using hoff w List.mem_cons_self
      · refine ih hchain' hlast hnodup' (fun x hx hmem => ?_) (Nat.lt_of_succ_lt_succ hlen)
        rcases List.mem_cons.1 hmem with rfl | hmem
        · exact (List.nodup_cons.1 hnodup').1 hx
        · exact hoff x (List.mem_cons_of_mem w hx) hmem

theorem mem_of_mem_pathsFrom {P : ElementId → Prop} (hP : ∀ v w, t.Next v w → P w) (n : Nat)
    {visited l : List ElementId} {v : ElementId} (hv : P v)
    (hl : l ∈ t.pathsFrom goal n visited v) : ∀ x ∈ l, P x := by
  induction n generalizing visited l v with
  | zero => cases hl
  | succ n ih =>
    unfold pathsFrom at hl
    split at hl
    · rw [List.mem_singleton.1 hl]
      simpa using hv
    · obtain ⟨w, hw, hl⟩ := List.mem_flatMap.1 hl
      obtain ⟨rest, hrest, rfl⟩ := List.mem_map.1 hl
      intro x hx
      rcases List.mem_cons.1 hx with rfl | hx
      · exact hv
      · exact ih (hP v w (List.mem_filter.1 hw).1) hrest x hx

/-- Where no edge leads on there is no path to anywhere else. -/
theorem pathsFrom_of_stuck {v : ElementId} (hstuck : ∀ w, ¬ t.Next v w) (hne : v ≠ goal) (n : Nat)
    (visited : List ElementId) : t.pathsFrom goal n visited v = [] := by
  cases n with
  | zero => rfl
  | succ n =>
    rw [pathsFrom, if_neg hne, List.flatMap_eq_nil_iff]
    intro w hw
    exact absurd (List.mem_filter.1 hw).1 (hstuck w)

theorem length_flatMap_le {α β : Type} {l : List α} {f : α → List β} {p : α → Bool} {k : Nat}
    (hf : ∀ x ∈ l, (f x).length ≤ k) (hp : ∀ x ∈ l, p x = false → f x = []) :
    (l.flatMap f).length ≤ (l.filter p).length * k := by
  induction l with
  | nil => simp
  | cons x l ih =>
    obtain ⟨hx, hl⟩ := List.forall_mem_cons.1 hf
    obtain ⟨hpx, hpl⟩ := List.forall_mem_cons.1 hp
    have hrest := ih hl hpl
    rw [List.flatMap_cons, List.length_append, List.filter_cons]
    split
    · rw [List.length_cons, Nat.succ_mul]
      omega
    · next hfalse => simpa [hpx (by simpa using hfalse)] using hrest

/-- A path has a choice among the vertices at each of its steps. -/
theorem length_pathsFrom_le (hstuck : ∀ v, v ∉ t.vertices → ∀ w, ¬ t.Next v w)
    (hgoal : goal ∈ t.vertices) (n : Nat) (visited : List ElementId) (v : ElementId) :
    (t.pathsFrom goal (n + 1) visited v).length ≤ t.vertices.size ^ n := by
  have hpos : 0 < t.vertices.size := List.length_pos_of_mem hgoal
  induction n generalizing visited v with
  | zero =>
    unfold pathsFrom
    split
    · exact Nat.le_refl _
    · simp [pathsFrom]
  | succ n ih =>
    rw [pathsFrom]
    split
    · exact Nat.one_le_pow _ _ hpos
    · have hdead : ∀ w, decide (w ∈ t.vertices) = false →
          (t.pathsFrom goal (n + 1) (w :: visited) w).map (v :: ·) = [] := by
        intro w hw
        have hout : w ∉ t.vertices := by simpa using hw
        have hne : w ≠ goal := fun heq => hout (heq ▸ hgoal)
        rw [pathsFrom_of_stuck (hstuck w hout) hne, List.map_nil]
      refine (length_flatMap_le (k := t.vertices.size ^ n) (fun w _ => ?_) fun w _ => hdead w).trans
        ?_
      · rw [List.length_map]
        exact ih (w :: visited) w
      · rw [Nat.pow_succ, Nat.mul_comm (t.vertices.size ^ n)]
        refine Nat.mul_le_mul_right _ (List.Subperm.length_le (List.subperm_of_subset ?_ ?_))
        · exact ((IdSet.nodup_toList _).filter _).filter _
        · intro w hw
          exact of_decide_eq_true (List.mem_filter.1 hw).2

/-- A chain of distinct vertices is among the paths between its ends. -/
theorem mem_paths_of_chain {l : List ElementId} {v w : ElementId} (hv : v ∈ t.vertices)
    (hw : w ∈ t.vertices) (hchain : (v :: l).IsChain t.Next)
    (hlast : (v :: l).getLast (List.cons_ne_nil v l) = w) (hnodup : (v :: l).Nodup)
    (hbound : ∀ x ∈ l, x < t.bound) : v :: l ∈ t.paths v w := by
  rw [paths, if_pos ⟨hv, hw⟩, List.mem_mergeSort]
  obtain ⟨hnew, hnodup'⟩ := List.nodup_cons.1 hnodup
  refine mem_pathsFrom_of_chain _ hchain hlast hnodup (fun x hx hmem => ?_) ?_
  · rw [List.mem_singleton.1 hmem] at hx
    exact hnew hx
  · exact Nat.lt_succ_of_le (length_le_of_nodup_of_lt hnodup' hbound)

theorem mem_of_mem_paths {P : ElementId → Prop} (hvert : ∀ v ∈ t.vertices, P v)
    (hP : ∀ v w, t.Next v w → P w) {l : List ElementId} {v w : ElementId}
    (hl : l ∈ t.paths v w) : ∀ x ∈ l, P x := by
  unfold paths at hl
  split at hl
  · next h =>
    rw [List.mem_mergeSort] at hl
    exact mem_of_mem_pathsFrom hP _ (hvert v h.1) hl
  · cases hl

theorem length_paths_le (hstuck : ∀ v, v ∉ t.vertices → ∀ w, ¬ t.Next v w)
    (hlt : ∀ v ∈ t.vertices, v < t.bound) (v w : ElementId) :
    (t.paths v w).length ≤ t.bound ^ t.bound := by
  unfold paths
  split
  · next hvw =>
    rw [List.length_mergeSort]
    refine (length_pathsFrom_le hstuck hvw.2 _ _ _).trans (Nat.pow_le_pow_left ?_ _)
    exact length_le_of_nodup_of_lt (IdSet.nodup_toList _) hlt
  · exact Nat.zero_le _

end Topology
end Dataflow
