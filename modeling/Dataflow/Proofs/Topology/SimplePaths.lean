import Dataflow.Proofs.Topology.Paths
import Mathlib.Data.List.Nodup

/-!
# The listed paths are the simple paths

A path that is listed is a chain of distinct vertices from one end to the other, and every
such chain is listed, once, the shorter ones first. Where no chain leads back to its start,
whatever lies between two vertices is on a path between them, so the paths from the roots to
the leaves cover all vertices and all edges.

Results:

* `mem_paths_iff`, `sorted_paths`: what `paths` lists, and in which order;
* `paths_eq_nil_iff`: when it lists nothing;
* `Acyclic.exists_root`, `Acyclic.exists_leaf`: every vertex lies below a root and above a leaf;
* `Acyclic.exists_path_through`, `Acyclic.exists_path_along`: paths through a vertex and along
  an edge.
-/
namespace Dataflow
namespace Topology

open Relation

variable {t : Topology} {goal : ElementId}

/-- A chain of distinct vertices from `v` to `w`. -/
structure IsPath (t : Topology) (v w : ElementId) (l : List ElementId) : Prop where
  head : l.head? = some v
  last : l.getLast? = some w
  chain : l.IsChain t.Next
  nodup : l.Nodup

/-- Shorter, or of the same length and smaller ids first. -/
def Before (p q : List ElementId) : Prop :=
  p.length < q.length ∨ (p.length = q.length ∧ List.Lex (· < ·) p q)

/-! ## What is listed -/

/-- A listed path is simple, and keeps off what was visited once it has left its start. -/
theorem isPath_of_mem_pathsFrom (n : Nat) {visited l : List ElementId} {v : ElementId}
    (hv : v ∈ visited) (hl : l ∈ t.pathsFrom goal n visited v) :
    t.IsPath v goal l ∧ ∀ x ∈ l.tail, x ∉ visited := by
  induction n generalizing visited l v with
  | zero => cases hl
  | succ n ih =>
    unfold pathsFrom at hl
    split at hl
    · next heq =>
      rw [List.mem_singleton.1 hl]
      exact ⟨⟨rfl, by simp [heq], .singleton v, List.nodup_singleton v⟩, by simp⟩
    · obtain ⟨w, hw, hl⟩ := List.mem_flatMap.1 hl
      obtain ⟨rest, hrest, rfl⟩ := List.mem_map.1 hl
      obtain ⟨hvw, hnew⟩ := List.mem_filter.1 hw
      have hwnew : w ∉ visited := by simpa using hnew
      obtain ⟨hpath, hoff⟩ := ih List.mem_cons_self hrest
      obtain ⟨tail, rfl⟩ := List.head?_eq_some_iff.1 hpath.head
      have hfresh : ∀ x ∈ w :: tail, x ∉ visited := by
        intro x hx
        rcases List.mem_cons.1 hx with rfl | hx
        · exact hwnew
        · exact fun hmem => hoff x hx (List.mem_cons_of_mem w hmem)
      refine ⟨⟨rfl, ?_, .cons_cons hvw hpath.chain, ?_⟩, hfresh⟩
      · rw [List.getLast?_cons_cons]
        exact hpath.last
      · exact List.nodup_cons.2 ⟨fun hmem => hfresh v hmem hv, hpath.nodup⟩

/-- The paths between two vertices are the simple ones. -/
theorem mem_paths_iff (hlt : ∀ v w, t.Next v w → w < t.bound) {v w : ElementId}
    {l : List ElementId} :
    l ∈ t.paths v w ↔ v ∈ t.vertices ∧ w ∈ t.vertices ∧ t.IsPath v w l := by
  constructor
  · intro hl
    unfold paths at hl
    split at hl
    · next hvw =>
      rw [List.mem_mergeSort] at hl
      exact ⟨hvw.1, hvw.2, (isPath_of_mem_pathsFrom _ (List.mem_singleton_self v) hl).1⟩
    · cases hl
  · intro h
    obtain ⟨hv, hw, hpath⟩ := h
    obtain ⟨rest, rfl⟩ := List.head?_eq_some_iff.1 hpath.head
    have hlast : (v :: rest).getLast (List.cons_ne_nil v rest) = w := by
      have h := hpath.last
      rw [List.getLast?_eq_some_getLast (List.cons_ne_nil v rest)] at h
      exact Option.some.inj h
    refine mem_paths_of_chain hv hw hpath.chain hlast hpath.nodup fun x hx => ?_
    obtain ⟨i, hi, rfl⟩ := List.getElem_of_mem hx
    exact hlt _ _ (List.isChain_iff_getElem.1 hpath.chain i (by simpa using hi))

theorem reaches_of_isPath {v w : ElementId} {l : List ElementId} (h : t.IsPath v w l) :
    ReflTransGen t.Next v w := by
  obtain ⟨rest, rfl⟩ := List.head?_eq_some_iff.1 h.head
  have hlast := h.last
  rw [List.getLast?_eq_some_getLast (List.cons_ne_nil v rest)] at hlast
  exact List.relationReflTransGen_of_exists_isChain_cons rest h.chain (Option.some.inj hlast)

/-- A chain that comes back to its start is cut short there. -/
theorem exists_isPath {v w : ElementId} (h : ReflTransGen t.Next v w) : ∃ l, t.IsPath v w l := by
  induction h using ReflTransGen.head_induction_on with
  | refl => exact ⟨[w], rfl, rfl, .singleton w, List.nodup_singleton w⟩
  | @head u v huv _ ih =>
    obtain ⟨l, hl⟩ := ih
    by_cases hu : u ∈ l
    · obtain ⟨before, after, rfl⟩ := List.append_of_mem hu
      refine ⟨u :: after, rfl, ?_, hl.chain.right_of_append, hl.nodup.of_append_right⟩
      have hlast := hl.last
      rwa [List.getLast?_append_of_ne_nil _ (List.cons_ne_nil u after)] at hlast
    · obtain ⟨rest, rfl⟩ := List.head?_eq_some_iff.1 hl.head
      refine ⟨u :: v :: rest, rfl, ?_, .cons_cons huv hl.chain, List.nodup_cons.2 ⟨hu, hl.nodup⟩⟩
      rw [List.getLast?_cons_cons]
      exact hl.last

/-- No path is listed exactly if the one vertex does not reach the other. -/
theorem paths_eq_nil_iff (hlt : ∀ v w, t.Next v w → w < t.bound) {v w : ElementId}
    (hv : v ∈ t.vertices) (hw : w ∈ t.vertices) :
    t.paths v w = [] ↔ ¬ ReflTransGen t.Next v w := by
  rw [List.eq_nil_iff_forall_not_mem]
  constructor
  · intro hnone hvw
    obtain ⟨l, hl⟩ := exists_isPath hvw
    exact hnone l ((mem_paths_iff hlt).2 ⟨hv, hw, hl⟩)
  · intro hvw l hl
    exact hvw (reaches_of_isPath ((mem_paths_iff hlt).1 hl).2.2)

/-! ## The order of the list -/

/-- A path is found along one choice of its second vertex, so it is listed once. -/
theorem nodup_pathsFrom (n : Nat) (visited : List ElementId) (v : ElementId) :
    (t.pathsFrom goal n visited v).Nodup := by
  induction n generalizing visited v with
  | zero => exact .nil
  | succ n ih =>
    rw [pathsFrom]
    split
    · exact List.nodup_singleton _
    · refine List.nodup_flatMap.2 ⟨fun w _ => (ih (w :: visited) w).map List.cons_injective, ?_⟩
      refine (((IdSet.nodup_toList _).filter _).imp fun {w w'} hne => ?_)
      intro l hl hl'
      obtain ⟨p, hp, rfl⟩ := List.mem_map.1 hl
      obtain ⟨p', hp', heq⟩ := List.mem_map.1 hl'
      cases heq
      have hw := (isPath_of_mem_pathsFrom n List.mem_cons_self hp).1.head
      have hw' := (isPath_of_mem_pathsFrom n List.mem_cons_self hp').1.head
      exact hne (Option.some.inj (hw.symm.trans hw'))

theorem pathLe_iff {p q : List ElementId} :
    pathLe p q = true ↔ p.length < q.length ∨ (p.length = q.length ∧ List.le p q) := by
  rw [pathLe, decide_eq_true_eq]

theorem pathLe_total (p q : List ElementId) : (pathLe p q || pathLe q p) = true := by
  have hle : List.le p q ∨ List.le q p := List.le_total p q
  rw [Bool.or_eq_true, pathLe_iff, pathLe_iff]
  rcases Nat.lt_trichotomy p.length q.length with h | h | h
  · exact .inl (.inl h)
  · exact hle.imp (fun hpq => .inr ⟨h, hpq⟩) fun hqp => .inr ⟨h.symm, hqp⟩
  · exact .inr (.inl h)

theorem pathLe_trans (p q r : List ElementId) (hpq : pathLe p q = true)
    (hqr : pathLe q r = true) : pathLe p r = true := by
  have htrans : List.le p q → List.le q r → List.le p r := List.le_trans
  rw [pathLe_iff] at hpq hqr ⊢
  rcases hpq with hpq | hpq <;> rcases hqr with hqr | hqr
  · exact .inl (Nat.lt_trans hpq hqr)
  · exact .inl (by omega)
  · exact .inl (by omega)
  · exact .inr ⟨hpq.1.trans hqr.1, htrans hpq.2 hqr.2⟩

theorem before_of_pathLe {p q : List ElementId} (h : pathLe p q = true) (hne : p ≠ q) :
    Before p q := by
  rcases pathLe_iff.1 h with h | h
  · exact .inl h
  · refine .inr ⟨h.1, ?_⟩
    by_contra hlt
    -- neither comes before the other
    have hqp : List.le q p := hlt
    exact hne (List.le_antisymm h.2 hqp)

/-- The shorter paths come first, and those of one length by their ids. -/
theorem sorted_paths (t : Topology) (v w : ElementId) : (t.paths v w).Pairwise Before := by
  unfold paths
  split
  · have hsorted := List.pairwise_mergeSort pathLe_trans pathLe_total
      (t.pathsFrom w (t.bound + 1) [v] v)
    have hnodup : ((t.pathsFrom w (t.bound + 1) [v] v).mergeSort pathLe).Nodup :=
      (List.mergeSort_perm _ _).nodup_iff.2 (nodup_pathsFrom _ _ _)
    exact hsorted.imp₂ (fun p q hle hne => before_of_pathLe hle hne) hnodup
  · exact .nil

/-! ## Topologies without cycles -/

/-- No chain of edges leads back to its start. -/
def Acyclic (t : Topology) : Prop := ∀ v, ¬ TransGen t.Next v v

/-- Every edge joins two vertices and shows at both of them. -/
structure Sound (t : Topology) : Prop where
  ends : ∀ v w, t.Next v w → v ∈ t.vertices ∧ w ∈ t.vertices
  dual : ∀ v w, v ∈ t.predecessors w ↔ t.Next v w

/-- The ids of vertices are below the bound. -/
def Bounded (t : Topology) : Prop := ∀ v ∈ t.vertices, v < t.bound

theorem Sound.next_lt (ht : t.Sound) (hb : t.Bounded) (v w : ElementId) (h : t.Next v w) :
    w < t.bound :=
  hb w (ht.ends v w h).2

theorem Acyclic.nodup_of_isChain (h : t.Acyclic) {l : List ElementId} (hl : l.IsChain t.Next) :
    l.Nodup := by
  have hchain : l.IsChain (TransGen t.Next) := hl.imp fun _ _ => .single
  refine (List.isChain_iff_pairwise.1 hchain).imp fun {v w} hvw heq => ?_
  rw [heq] at hvw
  exact h w hvw

open Classical in
/-- The vertices from which a chain of edges leads to `v`. -/
noncomputable def leadingTo (t : Topology) (v : ElementId) : IdSet :=
  t.vertices.filter fun u => decide (TransGen t.Next u v)

theorem mem_leadingTo {u v : ElementId} :
    u ∈ t.leadingTo v ↔ u ∈ t.vertices ∧ TransGen t.Next u v := by
  simp only [leadingTo, IdSet.mem_filter, decide_eq_true_eq]

/-- Their number goes up along every edge that no cycle runs through. -/
theorem Sound.size_leadingTo_lt (ht : t.Sound) {v w : ElementId} (hvw : t.Next v w)
    (hv : ¬ TransGen t.Next v v) : (t.leadingTo v).size < (t.leadingTo w).size := by
  refine IdSet.size_lt_size (y := v) (fun u hu => ?_) ?_ fun hmem => hv (mem_leadingTo.1 hmem).2
  · obtain ⟨hu, huv⟩ := mem_leadingTo.1 hu
    exact mem_leadingTo.2 ⟨hu, huv.tail hvw⟩
  · exact mem_leadingTo.2 ⟨(ht.ends v w hvw).1, .single hvw⟩

/-- The number of vertices that lead to a vertex goes up along every edge. -/
theorem Acyclic.exists_rank (h : t.Acyclic) (ht : t.Sound) : ∃ rank : ElementId → Nat,
    (∀ v w, t.Next v w → rank v < rank w) ∧ ∀ v, rank v ≤ t.vertices.size :=
  ⟨fun v => (t.leadingTo v).size, fun _ _ hvw => ht.size_leadingTo_lt hvw (h _),
    fun _ => List.length_filter_le _ _⟩

/-- Every vertex lies below a root. -/
theorem Acyclic.exists_root (h : t.Acyclic) (ht : t.Sound) {v : ElementId} (hv : v ∈ t.vertices) :
    ∃ r ∈ t.roots, ReflTransGen t.Next r v := by
  obtain ⟨rank, hrank, -⟩ := h.exists_rank ht
  induction hn : rank v using Nat.strongRecOn generalizing v with
  | ind n ih =>
    by_cases hroot : ∃ u, t.Next u v
    · obtain ⟨u, huv⟩ := hroot
      have hlt := hrank u v huv
      obtain ⟨r, hr, hru⟩ := ih (rank u) (by omega) (ht.ends u v huv).1 rfl
      exact ⟨r, hr, hru.tail huv⟩
    · refine ⟨v, mem_roots.2 ⟨hv, fun u hu => hroot ⟨u, (ht.dual u v).1 hu⟩⟩, .refl⟩

/-- Every vertex lies above a leaf. -/
theorem Acyclic.exists_leaf (h : t.Acyclic) (ht : t.Sound) {v : ElementId} (hv : v ∈ t.vertices) :
    ∃ l ∈ t.leaves, ReflTransGen t.Next v l := by
  obtain ⟨rank, hrank, hle⟩ := h.exists_rank ht
  induction hn : t.vertices.size - rank v using Nat.strongRecOn generalizing v with
  | ind n ih =>
    by_cases hleaf : ∃ w, t.Next v w
    · obtain ⟨w, hvw⟩ := hleaf
      have hlt := hrank v w hvw
      have hw := hle w
      obtain ⟨l, hl, hwl⟩ := ih (t.vertices.size - rank w) (by omega) (ht.ends v w hvw).2 rfl
      exact ⟨l, hl, hwl.head hvw⟩
    · exact ⟨v, mem_leaves.2 ⟨hv, fun w hvw => hleaf ⟨w, hvw⟩⟩, .refl⟩

/-! ## Paths through what lies between -/

theorem exists_chain_to {r v : ElementId} (h : ReflTransGen t.Next r v) :
    ∃ before : List ElementId, (before ++ [v]).IsChain t.Next ∧ (before ++ [v]).head? = some r := by
  induction h with
  | refl => exact ⟨[], .singleton r, rfl⟩
  | @tail u v _ huv ih =>
    obtain ⟨before, hchain, hhead⟩ := ih
    refine ⟨before ++ [u], ?_, by rw [List.head?_append, hhead]; rfl⟩
    rw [List.append_assoc]
    exact List.isChain_split.2 ⟨hchain, .cons_cons huv (.singleton v)⟩

theorem exists_chain_from {v l : ElementId} (h : ReflTransGen t.Next v l) :
    ∃ after : List ElementId, (v :: after).IsChain t.Next ∧ (v :: after).getLast? = some l := by
  induction h using ReflTransGen.head_induction_on with
  | refl => exact ⟨[], .singleton l, rfl⟩
  | head hvw _ ih =>
    obtain ⟨after, hchain, hlast⟩ := ih
    exact ⟨_ :: after, .cons_cons hvw hchain, by rw [List.getLast?_cons_cons, hlast]⟩

/-- A chain down to a vertex and one onwards from it make a path. -/
theorem Acyclic.isPath_append (h : t.Acyclic) {r l v : ElementId} {before after : List ElementId}
    (hbefore : (before ++ [v]).IsChain t.Next) (hhead : (before ++ [v]).head? = some r)
    (hafter : (v :: after).IsChain t.Next) (hlast : (v :: after).getLast? = some l) :
    t.IsPath r l (before ++ v :: after) := by
  have hchain : (before ++ v :: after).IsChain t.Next := List.isChain_split.2 ⟨hbefore, hafter⟩
  refine ⟨?_, ?_, hchain, h.nodup_of_isChain hchain⟩
  · rw [← hhead]
    cases before <;> rfl
  · rw [List.getLast?_append, hlast]
    rfl

theorem Acyclic.exists_path_through (h : t.Acyclic) {r l v : ElementId}
    (hr : ReflTransGen t.Next r v) (hl : ReflTransGen t.Next v l) :
    ∃ before after : List ElementId, t.IsPath r l (before ++ v :: after) := by
  obtain ⟨before, hbefore, hhead⟩ := exists_chain_to hr
  obtain ⟨after, hafter, hlast⟩ := exists_chain_from hl
  exact ⟨before, after, h.isPath_append hbefore hhead hafter hlast⟩

theorem Acyclic.exists_path_along (h : t.Acyclic) {r l v w : ElementId}
    (hr : ReflTransGen t.Next r v) (hvw : t.Next v w) (hl : ReflTransGen t.Next w l) :
    ∃ before after : List ElementId, t.IsPath r l (before ++ v :: w :: after) := by
  obtain ⟨before, hbefore, hhead⟩ := exists_chain_to hr
  obtain ⟨after, hafter, hlast⟩ := exists_chain_from hl
  refine ⟨before, after, h.isPath_append hbefore hhead (.cons_cons hvw hafter) ?_⟩
  rw [List.getLast?_cons_cons, hlast]

end Topology
end Dataflow
