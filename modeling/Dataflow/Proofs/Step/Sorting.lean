import Dataflow.Step.Order
import Dataflow.Proofs.Topology.LeastOrder

/-!
# Sorting drafts by counting

The drafts with their handovers as edges make a topology, in which two drafts may be joined by
several edges, one for each tap. What the counting loop keeps is `Counted`: what is pending for a
draft is the number of its handovers from drafts that are not placed, and ready are those of the
waiting drafts for which that is none. So the loop takes the draft that `Topology.place` takes.

Results:

* `matched_topology`: as many handovers leave a draft for another as enter that one from it;
* `getElem?_release`, `mem_release`: what placing a draft does to the counts and who gets ready;
* `Counted.min?_eq`, `Counted.release`: the draft that is taken, and what one round keeps;
* `order_eq`: the order that is found by counting is the topological one.
-/
namespace Dataflow
namespace Draft

/-- The drafts by their numbers, with the handovers as edges. -/
def topology (count : Nat) (hs : List Handover) : Topology where
  bound := count
  vertices := .below count fun _ => true
  edgesOut d := (hs.filter fun h => h.producer == d).map fun h => (h.tap, h.consumer)
  edgesIn d := (hs.filter fun h => h.consumer == d).map fun h => (h.tap, h.producer)

/-- The handovers from one draft to another, counted. -/
def owed (hs : List Handover) (v w : Nat) : Nat :=
  hs.countP fun h => h.producer == v && h.consumer == w

theorem count_edgesOut (count : Nat) (hs : List Handover) (v w : Nat) :
    (((topology count hs).edgesOut v).map Prod.snd).count w = owed hs v w := by
  show (((hs.filter fun h => h.producer == v).map fun h => (h.tap, h.consumer)).map Prod.snd).count
    w = _
  rw [List.map_map, List.count_eq_countP, List.countP_map, List.countP_filter]
  exact List.countP_congr fun h _ => by simp [and_comm]

theorem count_edgesIn (count : Nat) (hs : List Handover) (v w : Nat) :
    (((topology count hs).edgesIn w).map Prod.snd).count v = owed hs v w := by
  show (((hs.filter fun h => h.consumer == w).map fun h => (h.tap, h.producer)).map Prod.snd).count
    v = _
  rw [List.map_map, List.count_eq_countP, List.countP_map, List.countP_filter]
  exact List.countP_congr fun h _ => by simp

/-- As many handovers leave a draft for another as enter that one from it. -/
theorem matched_topology (count : Nat) (hs : List Handover) : (topology count hs).Matched :=
  fun v w => (count_edgesOut count hs v w).trans (count_edgesIn count hs v w).symm

theorem toList_vertices (count : Nat) (hs : List Handover) :
    (topology count hs).vertices.toList = List.range count :=
  List.filter_eq_self.2 fun _ _ => rfl

/-! ## The counts -/

variable {count : Nat} {hs : List Handover}

theorem getElem?_counts (w : Nat) : (counts count hs)[w]? =
    if w < count then some ((topology count hs).unmet [] w) else none := by
  have hfold : ∀ pending : List Nat,
      (hs.foldl (fun pending h => pending.modify h.consumer (· + 1)) pending)[w]? =
        pending[w]?.map (· + (hs.filter fun h => h.consumer == w).length) := by
    induction hs with
    | nil => intro pending; simp
    | cons h hs ih =>
      intro pending
      rw [List.foldl_cons, ih, List.getElem?_modify, List.filter_cons]
      by_cases hw : h.consumer = w
      · cases pending[w]? <;> simp [hw, Nat.add_assoc, Nat.add_comm 1]
      · simp [hw]
  have hunmet : (topology count hs).unmet [] w = (hs.filter fun h => h.consumer == w).length := by
    simp [Topology.unmet, topology]
  rw [counts, hfold, List.getElem?_replicate, hunmet]
  split <;> simp

theorem owed_cons_self {h : Handover} {next : Nat} (hp : h.producer = next) (w : Nat) :
    owed (h :: hs) next w = owed hs next w + if h.consumer = w then 1 else 0 := by
  simp [owed, List.countP_cons, hp]

theorem owed_cons_of_ne {h : Handover} {next : Nat} (hp : h.producer ≠ next) (w : Nat) :
    owed (h :: hs) next w = owed hs next w := by
  simp [owed, hp]

/-- One handover less is pending for the draft `i`. -/
theorem getElem?_modify_pred (pending : List Nat) (i w : Nat) : (pending.modify i (· - 1))[w]? =
    if i = w then pending[w]?.map (· - 1) else pending[w]? := by
  rw [List.getElem?_modify]
  split <;> simp

/-- Placing a draft takes off what it owes. -/
theorem getElem?_release (next : Nat) (hs : List Handover) (pending : List Nat) (ready : IdSet)
    (w : Nat) : (release next hs pending ready).1[w]? =
      pending[w]?.map (· - owed hs next w) := by
  induction hs generalizing pending ready with
  | nil => simp [release, owed]
  | cons h hs ih =>
    rw [release]
    split
    · next hp =>
      rw [ih, getElem?_modify_pred, owed_cons_self hp]
      split
      · cases pending[w]? <;> simp [Nat.sub_sub, Nat.add_comm]
      · simp
    · next hp => rw [ih, owed_cons_of_ne hp]

/-- The draft that one handover less is pending for gets ready if that was the last one. -/
theorem mem_ready_step (pending : List Nat) (ready : IdSet) (i w : Nat) :
    w ∈ (if (pending.modify i (· - 1))[i]? = some 0 then ready.insert i else ready) ↔
      w ∈ ready ∨ i = w ∧ pending[w]?.map (· - 1) = some 0 := by
  rw [getElem?_modify_pred, if_pos rfl]
  by_cases hw : i = w
  · subst hw
    split
    · next hlast => simp [hlast]
    · next hmore => simp [hmore]
  · split <;> simp [hw, Ne.symm hw]

/-- What is taken off in one step was counted, so the rest of it still is. -/
theorem le_modify_pred {pending : List Nat} {i : Nat} {rest : Nat → Nat}
    (hle : ∀ w k, pending[w]? = some k → (rest w + if i = w then 1 else 0) ≤ k) {w k : Nat}
    (hk : (pending.modify i (· - 1))[w]? = some k) : rest w ≤ k := by
  rw [getElem?_modify_pred] at hk
  split at hk
  · next hw =>
    obtain ⟨k', hk', rfl⟩ := Option.map_eq_some_iff.1 hk
    have hcounted := hle w k' hk'
    rw [if_pos hw] at hcounted
    exact Nat.le_sub_one_of_lt hcounted
  · exact Nat.le_trans (Nat.le_add_right _ _) (hle w k hk)

/-- Where nothing is taken off that was not counted, a draft gets ready exactly when the last of
its handovers is taken off. -/
theorem mem_release {next : Nat} {pending : List Nat} {ready : IdSet}
    (hle : ∀ w k, pending[w]? = some k → owed hs next w ≤ k) (w : Nat) :
    w ∈ (release next hs pending ready).2 ↔
      w ∈ ready ∨ (0 < owed hs next w ∧ pending[w]? = some (owed hs next w)) := by
  induction hs generalizing pending ready with
  | nil => simp [release, owed]
  | cons h hs ih =>
    rw [release]
    split
    · next hp =>
      simp only [owed_cons_self hp] at hle ⊢
      rw [ih fun w k => le_modify_pred hle, mem_ready_step, getElem?_modify_pred, or_assoc]
      refine or_congr_right ?_
      by_cases hw : h.consumer = w
      · cases hk : pending[w]? with
        | none => simp
        | some k =>
          have hcounted := hle w k hk
          rw [if_pos hw] at hcounted
          simp only [hw, if_true, Option.map_some, Option.some.injEq, true_and]
          omega
      · simp [hw]
    · next hp =>
      simp only [owed_cons_of_ne hp] at hle ⊢
      exact ih hle

/-! ## The loop -/

open Dataflow.Topology

/-- What a draft owes to another one is pending there until it is placed. -/
theorem owed_le_unmet (count : Nat) (hs : List Handover) {placed : List Nat} {v : Nat}
    (hv : v ∉ placed) (w : Nat) : owed hs v w ≤ (topology count hs).unmet placed w := by
  rw [← count_edgesIn count, unmet, List.count_eq_countP]
  refine List.countP_mono_left fun u _ hu => ?_
  rw [eq_of_beq hu]
  exact decide_eq_true hv

theorem unmet_concat {placed : List Nat} {v : Nat} (hv : v ∉ placed) (w : Nat) :
    (topology count hs).unmet (placed ++ [v]) w =
      (topology count hs).unmet placed w - owed hs v w := by
  rw [(matched_topology count hs).unmet_snoc hv, count_edgesOut]

/-- What is pending and ready once the drafts `placed` were placed, with `waiting` behind them. -/
structure Counted (count : Nat) (hs : List Handover) (placed waiting pending : List Nat)
    (ready : IdSet) : Prop where
  fed : (topology count hs).Fed placed
  perm : (placed ++ waiting).Perm (List.range count)
  ascending : waiting.Pairwise (· < ·)
  pending : ∀ w, pending[w]? =
    if w < count then some ((topology count hs).unmet placed w) else none
  ready : ∀ w, w ∈ ready ↔ w ∈ waiting ∧ (topology count hs).unmet placed w = 0

variable {placed waiting pending : List Nat} {ready : IdSet}

theorem counted_start (count : Nat) (hs : List Handover) :
    Counted count hs [] (List.range count) (counts count hs)
      (.below count fun d => (counts count hs)[d]? == some 0) where
  fed := fed_nil
  perm := .refl _
  ascending := List.pairwise_lt_range
  pending := getElem?_counts
  ready w := by
    rw [IdSet.mem_below, List.mem_range, beq_iff_eq, getElem?_counts]
    refine and_congr_right fun hw => ?_
    rw [if_pos hw, Option.some.injEq]

namespace Counted

theorem nodup (h : Counted count hs placed waiting pending ready) : (placed ++ waiting).Nodup :=
  h.perm.nodup_iff.2 List.nodup_range

/-- The earliest found draft that is ready. -/
theorem min?_eq (h : Counted count hs placed waiting pending ready) :
    ready.min? = waiting.find? ((topology count hs).ready placed) := by
  have hready : ∀ w, w ∈ ready ↔ w ∈ waiting ∧ (topology count hs).ready placed w = true :=
    fun w => (h.ready w).trans (and_congr_right fun _ => unmet_eq_zero_iff)
  cases hfind : waiting.find? ((topology count hs).ready placed) with
  | none =>
    cases hmin : ready.min? with
    | none => rfl
    | some r =>
      obtain ⟨hr, htrue⟩ := (hready r).1 (IdSet.mem_of_min? hmin)
      exact absurd htrue (List.find?_eq_none.1 hfind r hr)
  | some v =>
    have hv : v ∈ ready := (hready v).2 ⟨List.mem_of_find?_eq_some hfind, List.find?_some hfind⟩
    obtain ⟨r, hr⟩ := IdSet.exists_min? hv
    obtain ⟨hrw, hrt⟩ := (hready r).1 (IdSet.mem_of_min? hr)
    rw [hr, Nat.le_antisymm (IdSet.le_of_min? hr hv)
      (le_of_find?_eq_some h.ascending hfind hrw hrt)]

/-- A draft with handovers still pending is waiting, as what was placed has none. -/
theorem waits (h : Counted count hs placed waiting pending ready) {w : Nat} (hw : w < count)
    (hpos : 0 < (topology count hs).unmet placed w) : w ∈ waiting := by
  refine (List.mem_append.1 (h.perm.mem_iff.2 (List.mem_range.2 hw))).resolve_left fun hp => ?_
  exact Nat.ne_of_gt hpos (unmet_eq_zero_iff.2 (ready_iff.2 fun e he => h.fed.mem hp he))

/-- Placing a ready draft takes its handovers off the counts. -/
theorem release (h : Counted count hs placed waiting pending ready) {v : Nat} (hv : v ∈ ready) :
    Counted count hs (placed ++ [v]) (waiting.erase v)
      (Draft.release v hs pending (ready \ .singleton v)).1
      (Draft.release v hs pending (ready \ .singleton v)).2 := by
  obtain ⟨hwaits, hzero⟩ := (h.ready v).1 hv
  have hnew : v ∉ placed := fun hp => (List.nodup_append.1 h.nodup).2.2 v hp v hwaits rfl
  have hnodup : waiting.Nodup := (List.nodup_append.1 h.nodup).2.1
  have hle : ∀ w k, pending[w]? = some k → owed hs v w ≤ k := by
    intro w k hk
    rw [h.pending] at hk
    split at hk
    · cases hk
      exact owed_le_unmet count hs hnew w
    · cases hk
  constructor
  case fed => exact h.fed.snoc (ready_iff.1 (unmet_eq_zero_iff.1 hzero))
  case perm =>
    refine List.Perm.trans ?_ h.perm
    rw [List.append_assoc]
    exact (List.perm_cons_erase hwaits).symm.append_left placed
  case ascending => exact h.ascending.sublist List.erase_sublist
  case pending =>
    intro w
    rw [getElem?_release, h.pending, unmet_concat hnew]
    split <;> rfl
  case ready =>
    intro w
    rw [mem_release hle, IdSet.mem_sdiff, IdSet.mem_singleton, h.ready, hnodup.mem_erase_iff,
      unmet_concat hnew, h.pending]
    have howed := owed_le_unmet count hs hnew w
    constructor
    · rintro (⟨⟨hw, h0⟩, hne⟩ | ⟨hpos, heq⟩)
      · exact ⟨⟨hne, hw⟩, by omega⟩
      · split at heq
        · next hlt =>
          have hmet : (topology count hs).unmet placed w = owed hs v w := Option.some.inj heq
          refine ⟨⟨?_, h.waits hlt (by omega)⟩, by omega⟩
          -- `v` waits for nothing
          rintro rfl
          omega
        · cases heq
    · rintro ⟨⟨hne, hw⟩, hsub⟩
      rcases Nat.eq_zero_or_pos ((topology count hs).unmet placed w) with h0 | hpos
      · exact .inl ⟨⟨hw, h0⟩, hne⟩
      · have hlt := List.mem_range.1 (h.perm.mem_iff.1 (List.mem_append_right placed hw))
        refine .inr ⟨by omega, ?_⟩
        rw [if_pos hlt, Option.some.injEq]
        omega

end Counted

/-- The loop places what `Topology.place` does. -/
theorem sort_eq (h : Counted count hs placed waiting pending ready) (budget : Nat) :
    sort hs budget pending ready placed = ((topology count hs).place budget placed waiting).1 := by
  induction budget generalizing placed waiting pending ready with
  | zero => rfl
  | succ budget ih =>
    rw [sort, place, h.min?_eq]
    cases hfind : waiting.find? ((topology count hs).ready placed) with
    | none => rfl
    | some v =>
      have hv : v ∈ ready := (h.ready v).2
        ⟨List.mem_of_find?_eq_some hfind, unmet_eq_zero_iff.2 (List.find?_some hfind)⟩
      exact ih (h.release hv)

/-- **The order that is found by counting is the topological order** of the drafts along their
handovers; where it stalls, the elements of the drafts that are stuck are to blame. -/
theorem order_eq (ds : List Draft) (hs : List Handover) : order ds hs =
    match (topology ds.length hs).order with
    | .ok l => .ok l
    | .error e => .error ⟨elementsOf ds e.stuck⟩ := by
  have hvertices := toList_vertices ds.length hs
  have hsize : (topology ds.length hs).vertices.size = ds.length := by
    rw [IdSet.size, hvertices, List.length_range]
  have hsort := sort_eq (counted_start ds.length hs) ds.length
  obtain ⟨-, hperm⟩ := place_spec ds.length (List.range ds.length)
    (fed_nil (t := topology ds.length hs))
  rw [order, hsort, Topology.order, hsize, hvertices]
  generalize (topology ds.length hs).place ds.length [] (List.range ds.length) = found at hperm
  obtain ⟨placed, stuck⟩ := found
  have hlen : placed.length + stuck.length = ds.length := by
    rw [← List.length_append, hperm.length_eq]
    exact List.length_range
  have hnodup := hperm.nodup_iff.2 List.nodup_range
  have hmem : ∀ d, d < ds.length ↔ d ∈ placed ∨ d ∈ stuck := fun d => by
    rw [← List.mem_append, hperm.mem_iff]
    exact List.mem_range.symm
  have hstuck : IdSet.below ds.length (fun d => !placed.contains d) = .ofList stuck := by
    refine IdSet.ext_mem fun d => ?_
    rw [IdSet.mem_below, IdSet.mem_ofList, hmem, Bool.not_eq_true', ← Bool.not_eq_true,
      List.contains_iff_mem]
    constructor
    · exact fun hd => hd.1.resolve_left hd.2
    · exact fun hd => ⟨.inr hd, fun hp => (List.nodup_append.1 hnodup).2.2 d hp d hd rfl⟩
  simp only [hstuck]
  cases stuck with
  | nil =>
    have hall : ¬ placed.length < ds.length := by
      rw [List.length_nil] at hlen
      omega
    rw [if_neg hall]
  | cons v stuck =>
    have hfew : placed.length < ds.length := by
      rw [List.length_cons] at hlen
      omega
    rw [if_pos hfew]

end Draft
end Dataflow
