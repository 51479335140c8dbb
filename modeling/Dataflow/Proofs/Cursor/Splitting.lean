import Dataflow.Proofs.Cursor.Wrapping
import Dataflow.Proofs.Flow.Definition
import Dataflow.Proofs.Topology.SimplePaths
import Dataflow.Proofs.View
import Mathlib

/-!
# Splitting a selection into its paths

A selection with one root and one leaf is split into the paths between them. Each path takes
along the selected scopes between its consecutive elements, and no scope that is not selected.
Where the view of the selection has no cycle, the paths cover it: every vertex and every scope
that shows lies on one of them.

Results:

* `PathCursor.endsWithin`: how much a path cursor can still give, over any graph;
* `PathCursor.drain_once`: a cursor over one selection that splits;
* `PathCursor.drain_splits`: what draining it amounts to where there is no cycle.
-/
namespace Dataflow

open Dataflow.Graph Cursor Relation

/-! ## The topology of a view -/

namespace View

variable {v : View}

theorem next_iff {a b : ElementId} : v.topology.Next a b ↔ ∃ s, (s, b) ∈ v.edgesOut a := by
  show b ∈ v.topology.successors a ↔ _
  simp only [Topology.successors, IdSet.mem_ofList, List.mem_map, Prod.exists, exists_eq_right]
  rfl

theorem not_next_of_not_mem {a : ElementId} (h : a ∉ v.topology.vertices) (b : ElementId) :
    ¬ v.topology.Next a b := by
  intro hab
  obtain ⟨s, hs⟩ := next_iff.1 hab
  exact h (mem_vertices.2 (mem_edgesOut.1 hs).1)

theorem Sound.next_iff (h : v.Sound) {a b : ElementId} :
    v.topology.Next a b ↔ ∃ s, v.Joins s a b := by
  rw [View.next_iff]
  exact exists_congr fun s => h.mem_edgesOut

theorem Sound.topology (h : v.Sound) : v.topology.Sound where
  ends a b hab := by
    obtain ⟨s, -, ha, hb, -⟩ := h.next_iff.1 hab
    exact ⟨ha, hb⟩
  dual a b := by
    rw [h.next_iff]
    simp only [Topology.predecessors, IdSet.mem_ofList, List.mem_map, Prod.exists, exists_eq_right]
    exact exists_congr fun s => h.mem_edgesIn

/-- The views of a graph without cycles have none. -/
theorem acyclic_of_acyclic (hg : v.graph.Agrees) (h : v.graph.Acyclic) : v.topology.Acyclic := by
  obtain ⟨rank, hrank⟩ := h
  have hstep : ∀ a b, v.topology.Next a b → rank a < rank b := by
    intro a b hab
    obtain ⟨s, hs⟩ := next_iff.1 hab
    exact hrank a b ⟨s, hg.mem_edgesOut.1 (mem_edgesOut.1 hs).2.1⟩
  have hchain : ∀ a b, TransGen v.topology.Next a b → rank a < rank b := by
    intro a b hab
    induction hab with
    | single hab => exact hstep _ _ hab
    | tail _ hbc ih => exact Nat.lt_trans ih (hstep _ _ hbc)
  intro a ha
  exact Nat.lt_irrefl _ (hchain a a ha)

end View

/-- A set of one member. -/
theorem IdSet.eq_singleton_of_toList {s : IdSet} {x : Nat} (h : s.toList = [x]) :
    s = .singleton x := by
  apply IdSet.ext_mem
  intro y
  rw [IdSet.mem_def, h, IdSet.mem_singleton, List.mem_singleton]

theorem IdSet.exists_of_size_eq_one {s : IdSet} (h : s.size = 1) : ∃ x, s = .singleton x := by
  obtain ⟨x, hx⟩ := List.length_eq_one_iff.1 h
  exact ⟨x, eq_singleton_of_toList hx⟩

namespace PathCursor

variable {g : Graph} {s : Selection} {longest : Bool}

/-! ## One selection -/

/-- The paths between two elements of a selection, in the order asked for. -/
def listed (g : Graph) (longest : Bool) (s : Selection) (r l : ElementId) :
    List (List ElementId) :=
  if longest then ((s.view g).topology.paths r l).reverse else (s.view g).topology.paths r l

theorem decompose_of_singletons {r l : ElementId}
    (hr : (s.view g).topology.roots = .singleton r)
    (hl : (s.view g).topology.leaves = .singleton l) :
    decompose g longest s = .ok ((listed g longest s r l).map (along g s), (r, l)) := by
  simp only [decompose, hr, hl]
  rfl

/-- A selection splits if it has one root and one leaf. -/
theorem decompose_eq_ok {queue : List Selection} {pair : ElementId × ElementId}
    (h : decompose g longest s = .ok (queue, pair)) :
    (s.view g).topology.roots = .singleton pair.1 ∧
      (s.view g).topology.leaves = .singleton pair.2 ∧
        queue = (listed g longest s pair.1 pair.2).map (along g s) := by
  unfold decompose at h
  dsimp only at h
  split at h
  · next r l hr hl =>
    cases h
    exact ⟨IdSet.eq_singleton_of_toList hr, IdSet.eq_singleton_of_toList hl, rfl⟩
  · cases h

/-- Any other selection fails, with the numbers of its roots and leaves. -/
theorem decompose_of_not_single
    (h : ¬ ((s.view g).topology.roots.size = 1 ∧ (s.view g).topology.leaves.size = 1)) :
    decompose g longest s = .error (.notSingleSourceSink (s.view g).topology.roots.size
      (s.view g).topology.leaves.size) := by
  unfold decompose
  dsimp only
  split
  · next r l hr hl => exact absurd ⟨congrArg List.length hr, congrArg List.length hl⟩ h
  · rfl

theorem pow_self_le_pathBound (n : Nat) : n ^ n ≤ pathBound n := by
  rw [pathBound, Nat.one_shiftLeft, Nat.mul_comm, Nat.pow_mul]
  refine Nat.pow_le_pow_left (Nat.le_trans (Nat.le_of_lt n.lt_two_pow_self) ?_) n
  exact Nat.pow_le_pow_right (by decide) n.le_succ

theorem length_decompose_le {queue : List Selection} {pair : ElementId × ElementId}
    (h : decompose g longest s = .ok (queue, pair)) : queue.length ≤ pathBound g.size := by
  obtain ⟨-, -, rfl⟩ := decompose_eq_ok h
  have hlen := Topology.length_paths_le (t := (s.view g).topology)
    (fun _ => View.not_next_of_not_mem) (fun _ => View.lt_bound_of_mem) pair.1 pair.2
  have hlisted : (listed g longest s pair.1 pair.2).length =
      ((s.view g).topology.paths pair.1 pair.2).length := by
    unfold listed
    split
    · exact List.length_reverse
    · rfl
  rw [List.length_map, hlisted]
  exact hlen.trans (pow_self_le_pathBound g.size)

/-- A selection splits into no path at all if its one leaf is out of reach of its one root. -/
theorem decompose_eq_nil_iff (hg : g.Agrees) (hends : g.EndsLive) {pair : ElementId × ElementId} :
    decompose g longest s = .ok ([], pair) ↔
      (s.view g).topology.roots = .singleton pair.1 ∧
        (s.view g).topology.leaves = .singleton pair.2 ∧
          ¬ ReflTransGen (s.view g).topology.Next pair.1 pair.2 := by
  have hsound : (s.view g).Sound := View.sound_of_endsLive hg hends
  have hnone : (s.view g).topology.roots = .singleton pair.1 →
      (s.view g).topology.leaves = .singleton pair.2 →
        ((listed g longest s pair.1 pair.2).map (along g s) = [] ↔
          ¬ ReflTransGen (s.view g).topology.Next pair.1 pair.2) := by
    intro hr hl
    rw [← Topology.paths_eq_nil_iff (hsound.topology.next_lt fun _ => View.lt_bound_of_mem)
      (Topology.mem_roots.1 (hr ▸ IdSet.mem_singleton.2 rfl)).1
      (Topology.mem_leaves.1 (hl ▸ IdSet.mem_singleton.2 rfl)).1, List.map_eq_nil_iff]
    unfold listed
    split
    · exact List.reverse_eq_nil_iff
    · rfl
  constructor
  · intro h
    obtain ⟨hr, hl, hqueue⟩ := decompose_eq_ok h
    exact ⟨hr, hl, (hnone hr hl).1 hqueue.symm⟩
  · intro h
    obtain ⟨hr, hl, hunreached⟩ := h
    rw [decompose_of_singletons hr hl, (hnone hr hl).2 hunreached]

/-! ## How much is still to come -/

section Bound

variable {σ : Type} [Cursor σ] [Lawful σ]

/-- The queue, and for each selection of the wrapped cursor as many paths as there can be, are
no more than `n`. -/
def Bounded (g : Graph) (n : Nat) (c : PathCursor σ) : Prop :=
  Cursor.graph c.inner = g ∧
    ∃ k, EndsWithin k c.inner ∧ c.queue.length + k * pathBound g.size ≤ n

theorem bounded_of_refill {n : Nat} {c c' : PathCursor σ} (hstep : Refill c c')
    (h : Bounded g n c) : Bounded g n c' := by
  have hgraph := graph_refill hstep
  obtain ⟨hg, k, hk, hn⟩ := h
  refine ⟨hgraph.trans hg, ?_⟩
  cases hstep with
  | ask => exact ⟨k, hk.hasNext, hn⟩
  | drop => exact ⟨k, hk.next, hn⟩
  | @split _ _ _ queue _ _ hs hd =>
    obtain ⟨hpos, hrest⟩ := hk.next_ok hs
    rw [hg] at hd
    have hlen := length_decompose_le hd
    obtain ⟨k, rfl⟩ : ∃ j, k = j + 1 := ⟨k - 1, by omega⟩
    refine ⟨k, hrest, ?_⟩
    show queue.length + k * pathBound g.size ≤ n
    rw [Nat.succ_mul] at hn
    simp only [List.length_nil] at hn
    omega

theorem endsWithin {k : Nat} {c : PathCursor σ} (h : EndsWithin k c.inner) :
    EndsWithin (c.queue.length + k * pathBound (Cursor.graph c.inner).size) c := by
  have hfilled : ∀ n (c' : PathCursor σ), Bounded (Cursor.graph c.inner) n c' →
      Bounded (Cursor.graph c.inner) n c'.filled :=
    fun n c' hc' => fill_preserves (fun _ _ => bounded_of_refill) _ hc'
  refine endsWithin_of (P := Bounded (Cursor.graph c.inner)) (fun n c' hc' => ?_)
    (fun n c' e hc' _ => ?_) (fun n c' s hc' hs => ?_) ⟨rfl, k, h, Nat.le_refl _⟩
  · obtain ⟨inner, longest, queue, pairs⟩ := c'
    cases queue with
    | nil => exact bounded_of_refill (.ask inner longest pairs) hc'
    | cons s queue => exact hc'
  · obtain ⟨hg, j, hj, hn⟩ := hfilled n c' hc'
    show Bounded _ n (next c').2
    rw [next_snd]
    refine ⟨hg, j, hj, ?_⟩
    have htail : c'.filled.queue.tail.length ≤ c'.filled.queue.length := by simp
    show c'.filled.queue.tail.length + _ ≤ n
    omega
  · obtain ⟨hg, j, hj, hn⟩ := hfilled n c' hc'
    have hne : c'.filled.queue ≠ [] := by
      intro hnil
      have hfst : (next c').1 = .ok s := hs
      rw [next_fst, hnil] at hfst
      cases hres : (c'.fill (Cursor.capacity c'.inner + 1)).1 <;> rw [hres] at hfst <;> cases hfst
    have hlen := List.length_pos_iff.2 hne
    refine ⟨n - 1, by omega, ?_⟩
    show Bounded _ (n - 1) (next c').2
    rw [next_snd]
    refine ⟨hg, j, hj, ?_⟩
    show c'.filled.queue.tail.length + _ ≤ n - 1
    rw [List.length_tail]
    omega

theorem measured {c : PathCursor σ} (h : Measured c.inner) : Measured c :=
  fun c' hrun => endsWithin (h c'.inner (reaches_inner hrun))

end Bound

/-! ## A cursor over one selection -/

/-- Once the wrapped cursor is spent, the queue is all that comes. -/
theorem yields_queue {σ : Type} [Cursor σ] {inner : σ} (h : (Cursor.hasNext inner).1 = false)
    (longest : Bool) (queue : List Selection) (pairs : List (ElementId × ElementId)) :
    Yields (⟨inner, longest, queue, pairs⟩ : PathCursor σ) queue
      ⟨(Cursor.hasNext inner).2, longest, [], pairs⟩ := by
  induction queue with
  | nil => exact .spent (c := (⟨inner, longest, [], pairs⟩ : PathCursor σ)) h
  | cons s queue ih => exact .more rfl rfl ih

/-- The one selection is split when the first path is taken. -/
theorem yields_once {p : Selection} {rest : List Selection} {pair : ElementId × ElementId}
    (hdec : decompose g longest s = .ok (p :: rest, pair)) :
    Yields (new (OnceCursor.new g s) longest) (p :: rest) ⟨⟨g, s, true⟩, longest, [], [pair]⟩ := by
  have hfirst : Cursor.next (new (OnceCursor.new g s) longest) =
      (.ok p, (⟨⟨g, s, true⟩, longest, rest, [pair]⟩ : PathCursor OnceCursor)) := by
    have hmore : (Cursor.hasNext (OnceCursor.new g s)).1 = true := rfl
    have hs : (Cursor.next (OnceCursor.new g s)).1 = .ok s := rfl
    have hfill : fill 2 (new (OnceCursor.new g s) longest) =
        (.ok (), (⟨⟨g, s, true⟩, longest, p :: rest, [pair]⟩ : PathCursor OnceCursor)) := by
      show fill 2 ⟨OnceCursor.new g s, longest, [], []⟩ = _
      exact fill_of_split hmore hs hdec 1
    show next (new (OnceCursor.new g s) longest) = _
    unfold next
    rw [show Cursor.capacity (new (OnceCursor.new g s) longest).inner + 1 = 2 from rfl, hfill]
  have hspent : (Cursor.hasNext (⟨g, s, true⟩ : OnceCursor)).1 = false := rfl
  have hrest := yields_queue hspent longest rest [pair]
  have hasked : (Cursor.hasNext (new (OnceCursor.new g s) longest)).2 =
      new (OnceCursor.new g s) longest := rfl
  refine .more rfl (by rw [hasked, hfirst]) ?_
  rw [hasked, hfirst]
  exact hrest

/-- A cursor over the paths of one selection yields them all. -/
theorem drain_once {p : Selection} {rest : List Selection} {pair : ElementId × ElementId}
    (hdec : decompose g longest s = .ok (p :: rest, pair)) :
    drain (new (OnceCursor.new g s) longest) =
      (.ok (p :: rest), ⟨⟨g, s, true⟩, longest, [], [pair]⟩) :=
  (drain_eq_ok_iff (endsWithin (OnceCursor.endsWithin _))).2 (yields_once hdec)

/-- A selection that cannot be split fails the cursor. -/
theorem drain_once_of_error {e : CursorError} (hdec : decompose g longest s = .error e) :
    (drain (new (OnceCursor.new g s) longest)).1 = .error e := by
  have hmore : (Cursor.hasNext (OnceCursor.new g s)).1 = true := rfl
  have hs : (Cursor.next (OnceCursor.new g s)).1 = .ok s := rfl
  have hfirst : (Cursor.next (new (OnceCursor.new g s) longest)).1 = .error e := by
    have hfill : fill 2 (new (OnceCursor.new g s) longest) =
        (.error e, (⟨⟨g, s, true⟩, longest, [], []⟩ : PathCursor OnceCursor)) := by
      show fill 2 ⟨OnceCursor.new g s, longest, [], []⟩ = _
      exact fill_of_reject hmore hs hdec 1
    show (next (new (OnceCursor.new g s) longest)).1 = _
    unfold next
    rw [show Cursor.capacity (new (OnceCursor.new g s) longest).inner + 1 = 2 from rfl, hfill]
  have hasked : (Cursor.hasNext (new (OnceCursor.new g s) longest)).1 = true := rfl
  exact congrArg Prod.fst (take_of_error hasked hfirst _)

/-! ## What a path takes along -/

theorem mem_hops {path : List ElementId} {a b : ElementId} :
    (a, b) ∈ hops path ↔ ∃ k, path[k]? = some a ∧ path[k + 1]? = some b := by
  simp only [hops, List.mem_iff_getElem?, List.getElem?_zip_eq_some, List.getElem?_tail]

theorem rel_of_mem_hops {r : ElementId → ElementId → Prop} {path : List ElementId}
    (h : path.IsChain r) {a b : ElementId} (hhop : (a, b) ∈ hops path) : r a b := by
  obtain ⟨k, ha, hb⟩ := mem_hops.1 hhop
  obtain ⟨hk, rfl⟩ := List.getElem?_eq_some_iff.1 ha
  obtain ⟨hk', rfl⟩ := List.getElem?_eq_some_iff.1 hb
  exact List.isChain_iff_getElem.1 h k hk'

theorem mem_hops_append {before after : List ElementId} {a b : ElementId} :
    (a, b) ∈ hops (before ++ a :: b :: after) := by
  refine mem_hops.2 ⟨before.length, ?_, ?_⟩
  · simp
  · rw [List.getElem?_append_right (by omega)]
    simp

theorem mem_elements_along {path : List ElementId} {e : ElementId} :
    e ∈ (along g s path).elements ↔ e ∈ path :=
  IdSet.mem_ofList

/-- A path of the view takes along the scopes of the view between its consecutive elements. -/
theorem mem_scopes_along (h : (s.view g).Sound) {path : List ElementId}
    (hpath : path.IsChain (s.view g).topology.Next) {sc : ScopeId} :
    sc ∈ (along g s path).scopes ↔ ∃ a b, (a, b) ∈ hops path ∧ (s.view g).Joins sc a b := by
  simp only [along, IdSet.mem_ofList, List.mem_flatMap, List.mem_filter, decide_eq_true_eq,
    Prod.exists]
  refine exists_congr fun a => exists_congr fun b => and_congr_right fun hhop => ?_
  obtain ⟨ha, hb⟩ := h.topology.ends a b (rel_of_mem_hops hpath hhop)
  have hedge : sc ∈ g.scopesBetween a b ↔ (sc, b) ∈ g.edgesOut a := by
    simp only [scopesBetween, List.mem_filterMap]
    constructor
    · intro hsc
      obtain ⟨⟨sc', b'⟩, hmem, hsome⟩ := hsc
      split at hsome
      · next heq =>
        cases hsome
        exact heq ▸ hmem
      · cases hsome
    · intro hmem
      exact ⟨(sc, b), hmem, if_pos rfl⟩
  rw [hedge, ← h.mem_edgesOut, View.mem_edgesOut]
  constructor
  · intro hsc
    exact ⟨View.mem_vertices.1 ha, hsc.1, hsc.2, (View.mem_vertices_iff.1 hb).1⟩
  · intro hsc
    exact ⟨hsc.2.1, hsc.2.2.1⟩

/-! ## A view without cycles -/

/-- What it means that `parts` are the paths of the view of `s` from `r` to `l`. -/
structure Splits (g : Graph) (s : Selection) (longest : Bool) (r l : ElementId)
    (parts : List Selection) : Prop where
  root : (s.view g).topology.roots = .singleton r
  leaf : (s.view g).topology.leaves = .singleton l
  /-- There is one part for each simple path, in the order of the paths or the other way round. -/
  paths : ∃ paths : List (List ElementId), parts = paths.map (along g s) ∧
    (∀ p, p ∈ paths ↔ (s.view g).topology.IsPath r l p) ∧
      (if longest then paths.reverse else paths).Pairwise Topology.Before
  /-- It has the elements of the path and all scopes between consecutive ones. -/
  part : ∀ p, (s.view g).topology.IsPath r l p → (∀ e, e ∈ (along g s p).elements ↔ e ∈ p) ∧
    ∀ sc, sc ∈ (along g s p).scopes ↔ ∃ a b, (a, b) ∈ hops p ∧ (s.view g).Joins sc a b
  /-- Together the parts have every element and every scope that shows. -/
  elements : ∀ e, (∃ part ∈ parts, e ∈ part.elements) ↔ e ∈ (s.view g).topology.vertices
  scopes : ∀ sc, (∃ part ∈ parts, sc ∈ part.scopes) ↔ ∃ a b, (s.view g).Joins sc a b

section SingleEnds

variable {r l : ElementId} (h : (s.view g).Sound)
  (hr : (s.view g).topology.roots = .singleton r)
  (hl : (s.view g).topology.leaves = .singleton l)
include h hr hl

theorem mem_listed (longest : Bool) {p : List ElementId} :
    p ∈ listed g longest s r l ↔ (s.view g).topology.IsPath r l p := by
  have hrv : r ∈ (s.view g).topology.vertices :=
    (Topology.mem_roots.1 (hr ▸ IdSet.mem_singleton.2 rfl)).1
  have hlv : l ∈ (s.view g).topology.vertices :=
    (Topology.mem_leaves.1 (hl ▸ IdSet.mem_singleton.2 rfl)).1
  have hmem : p ∈ (s.view g).topology.paths r l ↔ (s.view g).topology.IsPath r l p := by
    rw [Topology.mem_paths_iff (h.topology.next_lt fun _ => View.lt_bound_of_mem)]
    simp [hrv, hlv]
  unfold listed
  split
  · rw [List.mem_reverse, hmem]
  · exact hmem

variable (hacyc : (s.view g).topology.Acyclic)
include hacyc

/-- Whatever lies in a view without cycles lies between its one root and its one leaf, -/
theorem reaches_of_singletons {v : ElementId} (hv : v ∈ (s.view g).topology.vertices) :
    ReflTransGen (s.view g).topology.Next r v ∧ ReflTransGen (s.view g).topology.Next v l := by
  obtain ⟨r', hr', hrv⟩ := hacyc.exists_root h.topology hv
  obtain ⟨l', hl', hvl⟩ := hacyc.exists_leaf h.topology hv
  rw [hr, IdSet.mem_singleton] at hr'
  rw [hl, IdSet.mem_singleton] at hl'
  exact ⟨hr' ▸ hrv, hl' ▸ hvl⟩

/-- so a path leads through it, -/
theorem exists_path_through_iff {e : ElementId} :
    (∃ p, (s.view g).topology.IsPath r l p ∧ e ∈ p) ↔ e ∈ (s.view g).topology.vertices := by
  constructor
  · intro he
    obtain ⟨p, hp, hep⟩ := he
    obtain ⟨rest, rfl⟩ := List.head?_eq_some_iff.1 hp.head
    rcases List.mem_cons.1 hep with rfl | hep
    · exact (Topology.mem_roots.1 (hr ▸ IdSet.mem_singleton.2 rfl)).1
    · -- whatever comes after the root is where an edge ends
      obtain ⟨i, hi, rfl⟩ := List.getElem_of_mem hep
      have hstep := List.isChain_iff_getElem.1 hp.chain i (by simpa using hi)
      exact (h.topology.ends _ _ hstep).2
  · intro he
    obtain ⟨hre, hel⟩ := reaches_of_singletons h hr hl hacyc he
    obtain ⟨before, after, hp⟩ := hacyc.exists_path_through hre hel
    exact ⟨_, hp, by simp⟩

/-- and a path leads along every scope that shows. -/
theorem exists_path_along_iff {sc : ScopeId} :
    (∃ p, (s.view g).topology.IsPath r l p ∧ ∃ a b, (a, b) ∈ hops p ∧ (s.view g).Joins sc a b) ↔
      ∃ a b, (s.view g).Joins sc a b := by
  constructor
  · intro hsc
    obtain ⟨p, -, a, b, -, hjoins⟩ := hsc
    exact ⟨a, b, hjoins⟩
  · intro hsc
    obtain ⟨a, b, hjoins⟩ := hsc
    have hab : (s.view g).topology.Next a b := h.next_iff.2 ⟨sc, hjoins⟩
    obtain ⟨ha, hb⟩ := h.topology.ends a b hab
    have hra := (reaches_of_singletons h hr hl hacyc ha).1
    have hbl := (reaches_of_singletons h hr hl hacyc hb).2
    obtain ⟨before, after, hp⟩ := hacyc.exists_path_along hra hab hbl
    exact ⟨_, hp, a, b, mem_hops_append, hjoins⟩

theorem splits_of_singletons (longest : Bool) :
    Splits g s longest r l ((listed g longest s r l).map (along g s)) := by
  have hlisted : ∀ p, p ∈ listed g longest s r l ↔ (s.view g).topology.IsPath r l p :=
    fun p => mem_listed h hr hl longest
  constructor
  case root => exact hr
  case leaf => exact hl
  case paths =>
    refine ⟨listed g longest s r l, rfl, hlisted, ?_⟩
    have hsorted := Topology.sorted_paths (s.view g).topology r l
    cases longest with
    | false => exact hsorted
    | true => simpa [listed] using hsorted
  case part =>
    exact fun p hp => ⟨fun e => mem_elements_along, fun sc => mem_scopes_along h hp.chain⟩
  case elements =>
    intro e
    simp only [List.mem_map, exists_exists_and_eq_and, hlisted, mem_elements_along]
    exact exists_path_through_iff h hr hl hacyc
  case scopes =>
    intro sc
    rw [← exists_path_along_iff h hr hl hacyc]
    simp only [List.mem_map, exists_exists_and_eq_and, hlisted]
    exact exists_congr fun p => and_congr_right fun hp => mem_scopes_along h hp.chain

end SingleEnds

/-- **A selection without cycles is split into all of its paths**, if it has one root and one
leaf; otherwise the cursor fails and says how many there are. -/
theorem drain_splits (hg : g.Agrees) (hends : g.EndsLive) (s : Selection)
    (hacyc : (s.view g).topology.Acyclic) (longest : Bool) :
    ((s.view g).topology.roots.size = 1 ∧ (s.view g).topology.leaves.size = 1 →
      ∃ r l parts c, drain (new (OnceCursor.new g s) longest) = (.ok parts, c) ∧
        (Cursor.hasNext c).1 = false ∧ Cursor.pairs c = [(r, l)] ∧
          Splits g s longest r l parts) ∧
    (¬ ((s.view g).topology.roots.size = 1 ∧ (s.view g).topology.leaves.size = 1) →
      (drain (new (OnceCursor.new g s) longest)).1 = .error
        (.notSingleSourceSink (s.view g).topology.roots.size
          (s.view g).topology.leaves.size)) := by
  have hsound : (s.view g).Sound := View.sound_of_endsLive hg hends
  constructor
  · intro h
    obtain ⟨r, hr⟩ := IdSet.exists_of_size_eq_one h.1
    obtain ⟨l, hl⟩ := IdSet.exists_of_size_eq_one h.2
    have hsplits := splits_of_singletons hsound hr hl hacyc longest
    have hdec : decompose g longest s = .ok (_, (r, l)) := decompose_of_singletons hr hl
    -- the root is an element of the view, so there is a path
    have hrv : r ∈ (s.view g).topology.vertices :=
      (Topology.mem_roots.1 (hr ▸ IdSet.mem_singleton.2 rfl)).1
    obtain ⟨part, hpart, -⟩ := (hsplits.elements r).2 hrv
    cases hparts : (listed g longest s r l).map (along g s) with
    | nil => rw [hparts] at hpart; cases hpart
    | cons p rest =>
      rw [hparts] at hdec hsplits
      exact ⟨r, l, p :: rest, _, drain_once hdec, rfl, rfl, hsplits⟩
  · intro h
    exact drain_once_of_error (decompose_of_not_single h)

end PathCursor

/-- A merge reads an operation twice, and once more through another one. -/
def rejoined : Definition where
  name := "rejoined"
  stages :=
    [⟨"in", [], .source ⟨"hdfs", "in", none, true⟩⟩,
      ⟨"parse", ["in"], .each ⟨"parse", none, none, ["key"], .results⟩⟩,
      ⟨"clean", ["parse"], .each ⟨"clean", none, none, ["key"], .results⟩⟩,
      ⟨"both", ["parse", "clean", "parse"], .merge⟩,
      ⟨"out", ["both"], .sink ⟨"hdfs", "out", none, true⟩⟩]

/-- The two paths of the whole graph, the longer one first: the other one takes both of the
parallel scopes along. -/
theorem splits_rejoined : ∃ g r l parts c, rejoined.toGraph = .ok g ∧ g.Agrees ∧ g.EndsLive ∧
    ((Selection.whole g).view g).topology.Acyclic ∧
      drain (PathCursor.new (OnceCursor.new g (.whole g)) true) = (.ok parts, c) ∧
        (Cursor.hasNext c).1 = false ∧ Cursor.pairs c = [(r, l)] ∧
          PathCursor.Splits g (.whole g) true r l parts ∧
            parts.map (fun part => (part.elements.toList, part.scopes.toList)) =
              [([0, 1, 2, 3, 4, 5, 6], [0, 1, 2, 4, 6, 7]),
                ([0, 1, 2, 3, 5, 6], [0, 1, 3, 5, 6, 7])] := by
  have hany : (rejoined.toGraph.toOption.any fun g => g.topology.order.toOption.any fun _ =>
      decide (((Selection.whole g).view g).topology.roots.size = 1 ∧
        ((Selection.whole g).view g).topology.leaves.size = 1 ∧
          (drain (PathCursor.new (OnceCursor.new g (.whole g)) true)).1.toOption.map
            (List.map fun part => (part.elements.toList, part.scopes.toList)) =
            some [([0, 1, 2, 3, 4, 5, 6], [0, 1, 2, 4, 6, 7]),
              ([0, 1, 2, 3, 5, 6], [0, 1, 3, 5, 6, 7])])) = true := by cbv
  obtain ⟨g, hd, hany⟩ := exists_ok_of_any hany
  obtain ⟨order, horder, hany⟩ := exists_ok_of_any hany
  obtain ⟨hroots, hleaves, hparts⟩ := of_decide_eq_true hany
  have hlayout := Definition.toGraph_layout hd
  have hacyc := View.acyclic_of_acyclic (v := (Selection.whole g).view g) hlayout.agrees
    (acyclic_of_order hlayout.agrees hlayout.ends horder)
  obtain ⟨hsplit, -⟩ := PathCursor.drain_splits hlayout.agrees hlayout.ends (.whole g) hacyc true
  obtain ⟨r, l, parts, c, hdrain, hspent, hpairs, hsplits⟩ := hsplit ⟨hroots, hleaves⟩
  rw [hdrain] at hparts
  exact ⟨g, r, l, parts, c, hd, hlayout.agrees, hlayout.ends, hacyc, hdrain, hspent, hpairs, hsplits,
    Option.some.inj hparts⟩

end Dataflow
