import Dataflow.Proofs.Topology.Order
import Dataflow.Proofs.Topology.SimplePaths

/-!
# The topological order is the least one

Whatever order the vertices can be put in, `place` never chooses a larger id than it: the
first vertex of the other order is ready too, and `place` takes the smallest that is. Where it
stalls, what is placed holds everything that leads to it, and so no cycle; and what waits is fed
by something that waits, so that going back from it ends on a cycle.

The same order is found by counting: every vertex waits for as many edges as enter it, and a
placed vertex discharges the edges that leave it. That takes edges that show alike at both of
their ends, parallel ones included, as in `Matched`.

Results:

* `order_sorts`, `order_least`: the order, if there is one, and no other comes before it;
* `mem_stuck_iff`: what is stuck is on a cycle or behind one;
* `exists_order_iff`: there is an order exactly where there is no cycle;
* `orderByCounting_eq`: counting finds the same.
-/
namespace Dataflow
namespace Topology

open Relation

variable {t : Topology}

/-- `l` lists the vertices, each once, and every edge leads forward in it. -/
structure Sorts (t : Topology) (l : List ElementId) : Prop where
  perm : l.Perm t.vertices.toList
  forward : ∀ v w, t.Next v w → l.idxOf v < l.idxOf w

theorem Sound.next_of_mem_edgesIn (ht : t.Sound) {v : ElementId} {e : ScopeId × ElementId}
    (he : e ∈ t.edgesIn v) : t.Next e.2 v :=
  (ht.dual e.2 v).1 (IdSet.mem_ofList.2 (List.mem_map_of_mem he))

theorem Sound.exists_mem_edgesIn (ht : t.Sound) {v w : ElementId} (h : t.Next v w) :
    ∃ e ∈ t.edgesIn w, e.2 = v :=
  List.mem_map.1 (IdSet.mem_ofList.1 ((ht.dual v w).2 h))

/-- What leads to a member of such a list stands in it, and further in front. -/
theorem Fed.of_next (ht : t.Sound) {l : List ElementId} (h : t.Fed l) {v w : ElementId}
    (hvw : t.Next v w) (hw : w ∈ l) : v ∈ l ∧ l.idxOf v < l.idxOf w := by
  obtain ⟨e, he, rfl⟩ := ht.exists_mem_edgesIn hvw
  exact ⟨h.mem hw he, h.idxOf_lt hw he⟩

/-- So it is along a chain of edges. -/
theorem Fed.of_transGen (ht : t.Sound) {l : List ElementId} (h : t.Fed l) {v w : ElementId}
    (hvw : TransGen t.Next v w) (hw : w ∈ l) : v ∈ l ∧ l.idxOf v < l.idxOf w := by
  induction hvw with
  | single hab => exact h.of_next ht hab hw
  | tail _ hbc ih =>
    obtain ⟨hb, hlt⟩ := h.of_next ht hbc hw
    obtain ⟨hv, hlt'⟩ := ih hb
    exact ⟨hv, hlt'.trans hlt⟩

theorem order_sorts (ht : t.Sound) {l : List ElementId} (h : t.order = .ok l) : t.Sorts l where
  perm := perm_of_order h
  forward v w hvw :=
    ((fed_of_order h).of_next ht hvw ((mem_order h).2 (ht.ends v w hvw).2)).2

theorem Sorts.not_mem_before {before after : List ElementId} {v : ElementId}
    (h : t.Sorts (before ++ v :: after)) : v ∉ before := by
  have hnodup := h.perm.nodup_iff.2 (IdSet.nodup_toList t.vertices)
  exact fun hv => (List.nodup_append.1 hnodup).2.2 v hv v List.mem_cons_self rfl

/-- In a list along which every edge leads forward, what feeds a vertex stands before it. -/
theorem Sorts.fed (ht : t.Sound) {l : List ElementId} (h : t.Sorts l) : t.Fed l := by
  rintro before v after rfl e he
  have hnext := ht.next_of_mem_edgesIn he
  by_contra hout
  have hlt := h.forward e.2 v hnext
  rw [List.idxOf_append, if_neg hout, List.idxOf_append, if_neg h.not_mem_before,
    List.idxOf_cons_self] at hlt
  omega

/-! ## No order comes before it -/

/-- In an ascending list the first member that passes a test is the smallest of those that do. -/
theorem le_of_find?_eq_some {l : List Nat} (hl : l.Pairwise (· < ·)) {p : Nat → Bool} {v w : Nat}
    (hv : l.find? p = some v) (hw : w ∈ l) (hp : p w = true) : v ≤ w := by
  obtain ⟨-, before, after, rfl, hbefore⟩ := List.find?_eq_some_iff_append.1 hv
  rcases List.mem_append.1 hw with hw | hw
  · have hnot := hbefore w hw
    rw [hp] at hnot
    cases hnot
  · rcases List.mem_cons.1 hw with rfl | hw
    · exact Nat.le_refl w
    · exact Nat.le_of_lt ((List.pairwise_cons.1 (List.pairwise_append.1 hl).2.1).1 w hw)

theorem exists_place_eq_append (n : Nat) (placed waiting : List ElementId) :
    ∃ next, (t.place n placed waiting).1 = placed ++ next := by
  induction n generalizing placed waiting with
  | zero => exact ⟨[], (List.append_nil placed).symm⟩
  | succ n ih =>
    unfold place
    split
    · exact ⟨[], (List.append_nil placed).symm⟩
    · next v hv =>
      obtain ⟨next, hnext⟩ := ih (placed ++ [v]) (waiting.erase v)
      exact ⟨v :: next, by rw [hnext, List.append_assoc]; rfl⟩

theorem nil_least (rest : List Nat) : [] = rest ∨ List.Lex (· < ·) [] rest := by
  cases rest with
  | nil => exact .inl rfl
  | cons v rest => exact .inr .nil

/-- However the waiting vertices can be placed, `place` does not come behind it. -/
theorem place_least (n : Nat) {placed waiting rest next : List ElementId}
    (hw : waiting.Pairwise (· < ·)) (hperm : rest.Perm waiting) (hfed : t.Fed (placed ++ rest))
    (hnext : (t.place n placed waiting).1 = placed ++ next) :
    next = rest ∨ List.Lex (· < ·) next rest := by
  induction n generalizing placed waiting rest next with
  | zero =>
    rw [List.self_eq_append_right.1 hnext]
    exact nil_least rest
  | succ n ih =>
    unfold place at hnext
    split at hnext
    · rw [List.self_eq_append_right.1 hnext]
      exact nil_least rest
    · next v hv =>
      obtain ⟨tail, htail⟩ := exists_place_eq_append (t := t) n (placed ++ [v]) (waiting.erase v)
      have hcons : next = v :: tail := by
        rw [htail, List.append_assoc] at hnext
        exact (List.append_cancel_left hnext).symm
      subst hcons
      cases rest with
      | nil => exact absurd (hperm.mem_iff.2 (List.mem_of_find?_eq_some hv)) List.not_mem_nil
      | cons w rest =>
        have hready : t.ready placed w = true :=
          ready_iff.2 fun e he => hfed placed w rest rfl e he
        have hle := le_of_find?_eq_some hw hv (hperm.mem_iff.1 List.mem_cons_self) hready
        rcases Nat.eq_or_lt_of_le hle with rfl | hlt
        · -- both place `v`, and the same vertices wait behind it
          have hrest : rest.Perm (waiting.erase v) := (List.cons_perm_iff_perm_erase.1 hperm).2
          rw [← List.singleton_append, ← List.append_assoc] at hfed
          rcases ih (hw.sublist List.erase_sublist) hrest hfed htail with rfl | hlex
          · exact .inl rfl
          · exact .inr (.cons hlex)
        · exact .inr (.rel hlt)

theorem order_least (ht : t.Sound) {l l' : List ElementId} (h : t.order = .ok l)
    (hl : t.Sorts l') : l = l' ∨ List.Lex (· < ·) l l' := by
  have hfed : t.Fed ([] ++ l') := hl.fed ht
  exact place_least t.vertices.size t.vertices.ascending hl.perm hfed (by rw [order_eq h]; rfl)

/-! ## What is stuck -/

/-- What is placed before the stall, with what is stuck behind it. -/
theorem exists_placed {e : CycleError} (h : t.order = .error e) :
    ∃ placed stuck, t.Fed placed ∧ (placed ++ stuck).Perm t.vertices.toList ∧
      ∀ v, v ∈ e.stuck ↔ v ∈ stuck := by
  obtain ⟨hfed, hperm⟩ := place_spec (t := t) t.vertices.size t.vertices.toList fed_nil
  obtain ⟨placed, stuck, hp, -, hstuck⟩ := order_eq_error h
  rw [hp] at hfed hperm
  refine ⟨placed, stuck, hfed, hperm, fun v => ?_⟩
  rw [hstuck]
  exact IdSet.mem_ofList

/-- The vertex lies on a cycle or behind one. -/
def BehindCycle (t : Topology) (v : ElementId) : Prop :=
  ∃ c, TransGen t.Next c c ∧ ReflTransGen t.Next c v

theorem Fed.not_behindCycle (ht : t.Sound) {l : List ElementId} (h : t.Fed l) {v : ElementId}
    (hv : v ∈ l) : ¬ t.BehindCycle v := by
  rintro ⟨c, hcc, hcv⟩
  have hc : c ∈ l := by
    rcases reflTransGen_iff_eq_or_transGen.1 hcv with rfl | hcv
    · exact hv
    · exact (h.of_transGen ht hcv hv).1
  exact Nat.lt_irrefl _ (h.of_transGen ht hcc hc).2

/-- Where everything in a set of vertices is fed from the set, going back ends on a cycle. -/
theorem Sound.behindCycle_of_fed (ht : t.Sound) {P : ElementId → Prop}
    (hP : ∀ v, P v → ∃ u, P u ∧ t.Next u v) {v : ElementId} (hv : P v) : t.BehindCycle v := by
  -- the vertices that lead to one that is on no cycle get fewer on the way back
  induction hn : (t.leadingTo v).size using Nat.strongRecOn generalizing v with
  | ind n ih =>
    obtain ⟨u, hu, huv⟩ := hP v hv
    by_cases hcycle : TransGen t.Next u u
    · exact ⟨u, hcycle, .single huv⟩
    · obtain ⟨c, hcc, hcu⟩ := ih _ (hn ▸ ht.size_leadingTo_lt huv hcycle) hu rfl
      exact ⟨c, hcc, hcu.tail huv⟩

theorem mem_stuck_iff (ht : t.Sound) {e : CycleError} (h : t.order = .error e) {v : ElementId} :
    v ∈ e.stuck ↔ v ∈ t.vertices ∧ t.BehindCycle v := by
  constructor
  · intro hv
    have hstuck := (stuck_spec h).2
    refine ⟨(hstuck v hv).1, ht.behindCycle_of_fed (P := (· ∈ e.stuck)) (fun w hw => ?_) hv⟩
    obtain ⟨x, hx, hor⟩ := (hstuck w hw).2
    have hnext := ht.next_of_mem_edgesIn hx
    exact ⟨x.2, hor.resolve_right fun hout => hout (ht.ends _ _ hnext).1, hnext⟩
  · rintro ⟨hv, hcycle⟩
    obtain ⟨placed, stuck, hfed, hperm, hiff⟩ := exists_placed h
    rcases List.mem_append.1 (hperm.mem_iff.2 hv) with hv | hv
    · exact absurd hcycle (hfed.not_behindCycle ht hv)
    · exact (hiff v).2 hv

theorem exists_order_iff (ht : t.Sound) : (∃ l, t.order = .ok l) ↔ t.Acyclic := by
  constructor
  · rintro ⟨l, h⟩ v hvv
    have hv : v ∈ l := by
      obtain ⟨w, -, hwv⟩ := TransGen.tail'_iff.1 hvv
      exact (mem_order h).2 (ht.ends w v hwv).2
    exact (fed_of_order h).not_behindCycle ht hv ⟨v, hvv, .refl⟩
  · intro hacyclic
    cases ho : t.order with
    | ok l => exact ⟨l, rfl⟩
    | error e =>
      obtain ⟨v, hv⟩ := (stuck_spec ho).1
      obtain ⟨-, c, hcc, -⟩ := (mem_stuck_iff ht ho).1 hv
      exact absurd hcc (hacyclic c)

/-! ## Counting -/

/-- The edges from one vertex to another stand at both of them, parallel ones included. -/
def Matched (t : Topology) : Prop :=
  ∀ v w, ((t.edgesOut v).map Prod.snd).count w = ((t.edgesIn w).map Prod.snd).count v

/-- It is enough that every edge stands at both of its ends, and once at each. -/
theorem matched_of_dual (hdual : ∀ s v w, (s, w) ∈ t.edgesOut v ↔ (s, v) ∈ t.edgesIn w)
    (hout : ∀ v, ((t.edgesOut v).map Prod.fst).Nodup)
    (hin : ∀ v, ((t.edgesIn v).map Prod.fst).Nodup) : t.Matched := by
  have hcount : ∀ (l : List (ScopeId × ElementId)) (e : ElementId), (l.map Prod.snd).count e =
      ((l.filter fun x => x.2 == e).map Prod.fst).length := by
    intro l e
    rw [List.count_eq_countP, List.countP_map, List.countP_eq_length_filter, List.length_map]
    rfl
  have hnodup : ∀ (l : List (ScopeId × ElementId)) (e : ElementId), (l.map Prod.fst).Nodup →
      ((l.filter fun x => x.2 == e).map Prod.fst).Nodup :=
    fun l e hl => hl.sublist (List.filter_sublist.map _)
  intro v w
  rw [hcount, hcount]
  refine List.Perm.length_eq ((List.perm_ext_iff_of_nodup (hnodup _ _ (hout v))
    (hnodup _ _ (hin w))).2 fun s => ?_)
  simp only [List.mem_map, List.mem_filter, beq_iff_eq, Prod.exists, exists_and_right,
    exists_eq_right, hdual]

/-- Places waiting vertices, the smallest first of those for which no edge is `pending`. A placed
vertex takes the edges that leave it off what is pending. -/
def placeByCounting (t : Topology) : (n : Nat) → (pending : ElementId → Nat) →
    (placed waiting : List ElementId) → List ElementId × List ElementId
  | 0, _, placed, waiting => (placed, waiting)
  | n + 1, pending, placed, waiting =>
    match waiting.find? fun v => pending v == 0 with
    | none => (placed, waiting)
    | some v =>
      t.placeByCounting n (fun w => pending w - ((t.edgesOut v).map Prod.snd).count w)
        (placed ++ [v]) (waiting.erase v)

/-- The vertices in topological order, found by counting the edges that enter each. -/
def orderByCounting (t : Topology) : Except CycleError (List ElementId) :=
  match t.placeByCounting t.vertices.size t.inDegree [] t.vertices.toList with
  | (placed, []) => .ok placed
  | (_, stuck) => .error ⟨.ofList stuck⟩

/-- The edges that enter a vertex from vertices not placed yet. -/
def unmet (t : Topology) (placed : List ElementId) (w : ElementId) : Nat :=
  ((t.edgesIn w).map Prod.snd).countP fun v => decide (v ∉ placed)

theorem unmet_eq_zero_iff {placed : List ElementId} {w : ElementId} :
    t.unmet placed w = 0 ↔ t.ready placed w = true := by
  rw [unmet, List.countP_eq_zero, ready_iff, List.forall_mem_map]
  simp only [decide_eq_true_eq, not_not]

/-- Placing `v` discharges the edges that leave it. -/
theorem Matched.unmet_snoc (hm : t.Matched) {placed : List ElementId} {v : ElementId}
    (hv : v ∉ placed) (w : ElementId) :
    t.unmet (placed ++ [v]) w = t.unmet placed w - ((t.edgesOut v).map Prod.snd).count w := by
  rw [hm v w, unmet, unmet]
  induction (t.edgesIn w).map Prod.snd with
  | nil => rfl
  | cons u us ih =>
    have hle : us.count v ≤ us.countP fun u => decide (u ∉ placed) := by
      refine List.countP_mono_left fun u _ hu => ?_
      rw [eq_of_beq hu]
      exact decide_eq_true hv
    rw [List.countP_cons, List.countP_cons, List.count_cons, ih]
    by_cases huv : u = v
    · simp [huv, hv]
    · simp only [List.mem_append, List.mem_singleton, huv, or_false, beq_iff_eq, if_false]
      omega

theorem placeByCounting_eq (hm : t.Matched) (n : Nat) {pending : ElementId → Nat}
    {placed waiting : List ElementId} (hnodup : (placed ++ waiting).Nodup)
    (hp : ∀ w, pending w = t.unmet placed w) :
    t.placeByCounting n pending placed waiting = t.place n placed waiting := by
  induction n generalizing pending placed waiting with
  | zero => rfl
  | succ n ih =>
    have hready : (fun v => pending v == 0) = t.ready placed := by
      funext v
      rw [Bool.eq_iff_iff, beq_iff_eq, hp, unmet_eq_zero_iff]
    rw [placeByCounting, place, hready]
    cases hv : waiting.find? (t.ready placed) with
    | none => rfl
    | some v =>
      have hmem := List.mem_of_find?_eq_some hv
      have hnew : v ∉ placed := fun h => (List.nodup_append.1 hnodup).2.2 v h v hmem rfl
      refine ih ?_ fun w => ?_
      · rw [List.append_assoc]
        exact ((List.perm_cons_erase hmem).append_left placed).nodup_iff.1 hnodup
      · rw [hm.unmet_snoc hnew, hp]

theorem orderByCounting_eq (hm : t.Matched) : t.orderByCounting = t.order := by
  have hp : ∀ w, t.inDegree w = t.unmet [] w := by simp [inDegree, unmet]
  have heq : t.placeByCounting t.vertices.size t.inDegree [] t.vertices.toList =
      t.place t.vertices.size [] t.vertices.toList :=
    placeByCounting_eq hm _ (IdSet.nodup_toList t.vertices) hp
  rw [orderByCounting, heq]
  rfl

/-! ## In one -/

/-- What the topological order of a topology has to be. -/
structure Orderly (t : Topology) : Prop where
  /-- There is an order exactly if there is no cycle. -/
  found : (∃ l, t.order = .ok l) ↔ t.Acyclic
  /-- It lists the vertices, each once, and every edge leads forward in it. -/
  sorts : ∀ l, t.order = .ok l → t.Sorts l
  /-- No other such list comes before it by ids. -/
  least : ∀ l, t.order = .ok l → ∀ l', t.Sorts l' → l = l' ∨ List.Lex (· < ·) l l'
  /-- Otherwise the vertices on a cycle and behind one are reported. -/
  stuck : ∀ e, t.order = .error e → ∀ v, v ∈ e.stuck ↔ v ∈ t.vertices ∧ t.BehindCycle v
  /-- All of this holds of the order that is found by counting edges. -/
  counted : t.orderByCounting = t.order

theorem Sound.orderly (ht : t.Sound) (hm : t.Matched) : t.Orderly where
  found := exists_order_iff ht
  sorts _ := order_sorts ht
  least _ h _ := order_least ht h
  stuck _ h _ := mem_stuck_iff ht h
  counted := orderByCounting_eq hm

end Topology
end Dataflow
