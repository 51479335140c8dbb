import Mathlib
import Dataflow.Proofs.Flow.Insertion
import Dataflow.Proofs.Flow.Merging
import Dataflow.Proofs.Topology.PathCounts
import Dataflow.Proofs.View
import Dataflow.Proofs.Rule.Application

/-!
# Where the branches of a split meet

A split gets a boundary if some grouping is reached from it along several routes. The
search passes a tally down a topological order, and leaves out what stands before the
split. `routes` says what it counts, element by element and without an order: so counts
of two graphs can be compared, as a boundary behind another split only ends routes.

Results:

* `Agrees.count_inputs`: a scope counts alike at both of its ends;
* `Tallied.next`: what one step of the search keeps of its tally;
* `reconverges_spec`: the search finds a grouping with several routes, if there is one, and
  fails only on more routes than a word can count;
* `routes_boundaryAfter_le`, `routes_boundaryAfter_eq`: routes past another boundary;
* `mem_splitPoints`, `splitPoints_eq_error`: the splits that get a boundary, and how the search
  for them fails.
-/
namespace Dataflow

open Dataflow.Graph

namespace Graph

variable {g : Graph}

/-- The scopes from `v` to `w` are as many among what leaves `v` as among what enters `w`. -/
theorem Agrees.count_inputs (h : g.Agrees) (v w : ElementId) :
    ((g.edgesOut v).map Prod.snd).count w = (g.inputs w).count v :=
  Topology.matched_of_dual (t := g.topology)
    (fun _ _ _ => h.mem_edgesOut.trans h.mem_edgesIn.symm) h.edgesOut_nodup h.edgesIn_nodup v w

end Graph

namespace SplitInsertion

variable {g : Graph} {id : ElementId} {l : List ElementId}

/-! ## Counting routes -/

/-- What `u` passes on of the routes counted to it. Routes start at `id` and end at taps. -/
def passed (g : Graph) (id : ElementId) (count : ElementId → Nat) (u : ElementId) : Nat :=
  if u ≠ id ∧ g.hasKind Kind.isTap u = true then 0 else count u

/-- The number of routes from `id` to `v` with less than `n` scopes. -/
def routes (g : Graph) (id : ElementId) : Nat → ElementId → Nat
  | 0, _ => 0
  | n + 1, v => if v = id then 1 else ((g.inputs v).map (passed g id (routes g id n))).sum

/-- `count` counts all routes from `id`. -/
structure Counts (g : Graph) (id : ElementId) (count : ElementId → Nat) : Prop where
  start : count id = 1
  later : ∀ v, v ≠ id → count v = ((g.inputs v).map (passed g id count)).sum

theorem passed_le {count count' : ElementId → Nat} {u : ElementId} (h : count u ≤ count' u) :
    passed g id count u ≤ passed g id count' u := by
  unfold passed
  split
  · exact Nat.le_refl 0
  · exact h

theorem passed_eq_zero {count : ElementId → Nat} {u : ElementId} (h : count u = 0) :
    passed g id count u = 0 := by
  unfold passed
  split
  · rfl
  · exact h

theorem routes_mono {n m : Nat} (h : n ≤ m) (v : ElementId) : routes g id n v ≤ routes g id m v := by
  induction n generalizing m v with
  | zero => exact Nat.zero_le _
  | succ n ih =>
    obtain ⟨m, rfl⟩ : ∃ k, m = k + 1 := ⟨m - 1, by omega⟩
    simp only [routes]
    split
    · exact Nat.le_refl 1
    · exact List.sum_le_sum fun u _ => passed_le (ih (Nat.le_of_succ_le_succ h) u)

/-- Routes lead down the order. -/
theorem lt_of_routes (h : g.Agrees) (hends : g.EndsLive) (hl : g.topology.order = .ok l) {n : Nat}
    {v : ElementId} (hv : routes g id n v ≠ 0) :
    v = id ∨ (v ∈ l ∧ l.idxOf id < l.idxOf v) := by
  induction n generalizing v with
  | zero => exact absurd rfl hv
  | succ n ih =>
    by_cases heq : v = id
    · exact .inl heq
    simp only [routes, if_neg heq] at hv
    obtain ⟨x, hx, hne⟩ : ∃ x ∈ (g.inputs v).map (passed g id (routes g id n)), x ≠ 0 := by
      by_contra hnone
      push Not at hnone
      exact hv (List.sum_eq_zero hnone)
    obtain ⟨u, hu, rfl⟩ := List.mem_map.1 hx
    have hlead := h.mem_inputs.1 hu
    have hlive := (hends u v hlead).2
    have hlt := h.idxOf_lt_of_leads hl hlead hlive
    refine .inr ⟨(mem_order_iff hl).2 hlive, ?_⟩
    rcases ih fun hzero => hne (passed_eq_zero hzero) with rfl | ⟨-, hlt'⟩
    · exact hlt
    · exact Nat.lt_trans hlt' hlt

/-- No route is longer than the order. -/
theorem routes_stable (h : g.Agrees) (hends : g.EndsLive) (hl : g.topology.order = .ok l)
    {n m : Nat} {v : ElementId} (hn : l.idxOf v < n) (hm : l.idxOf v < m) :
    routes g id n v = routes g id m v := by
  induction n generalizing m v with
  | zero => omega
  | succ n ih =>
    obtain ⟨m, rfl⟩ : ∃ k, m = k + 1 := ⟨m - 1, by omega⟩
    simp only [routes]
    split
    · rfl
    · refine congrArg List.sum (List.map_congr_left fun u hu => ?_)
      have hlead := h.mem_inputs.1 hu
      have hlt := h.idxOf_lt_of_leads hl hlead (hends u v hlead).2
      unfold passed
      rw [ih (m := m) (by omega) (by omega)]

theorem exists_counts (h : g.Agrees) (hends : g.EndsLive) (hl : g.topology.order = .ok l)
    (id : ElementId) :
    ∃ m, Counts g id (routes g id m) ∧ ∀ n v, routes g id n v ≤ routes g id m v := by
  have hidx : ∀ v, l.idxOf v < l.length + 1 := fun v => Nat.lt_succ_of_le List.idxOf_le_length
  refine ⟨l.length + 2, ⟨if_pos rfl, fun v hv => ?_⟩, fun n v => ?_⟩
  · rw [routes, if_neg hv]
    refine congrArg List.sum (List.map_congr_left fun u _ => ?_)
    unfold passed
    rw [routes_stable h hends hl (hidx u) (Nat.lt_succ_of_lt (hidx u))]
  · have hn := hidx v
    rw [routes_stable h hends hl (Nat.lt_succ_of_lt hn) (m := n + (l.length + 1)) (by omega)]
    exact routes_mono (Nat.le_add_right n _) v

/-! ## The search -/

theorem sum_map_insert (f : ElementId → Nat) {done : List ElementId} {v : ElementId} (hv : v ∉ done)
    (l : List ElementId) : (l.map fun u => if u ∈ v :: done then f u else 0).sum =
      (l.map fun u => if u ∈ done then f u else 0).sum + l.count v * f v := by
  induction l with
  | nil => simp
  | cons u rest ih =>
    rw [List.map_cons, List.sum_cons, List.map_cons, List.sum_cons, ih, List.count_cons]
    by_cases hu : u = v
    · subst hu
      simp only [List.mem_cons_self, if_true, if_neg hv, beq_self_eq_true, Nat.add_mul]
      omega
    · simp only [List.mem_cons, hu, false_or, beq_eq_false_iff_ne.2 hu, Bool.false_eq_true,
        if_false, Nat.add_zero]
      omega

/-- Where the search stands: the elements of `done` have passed on what was counted to them, those
of `rest` are to come, and the tally holds what each element has been given so far. -/
structure Tallied (g : Graph) (id : ElementId) (count : ElementId → Nat)
    (done rest : List ElementId) (tally : Tally) : Prop where
  nodup : rest.Nodup
  new : ∀ v ∈ rest, v ∉ done
  start : id ∉ rest
  /-- No element to come leads back to the start. -/
  onward : ∀ v ∈ rest, ¬ g.Leads v id
  /-- What an element is still to be given comes from elements before it. -/
  fed : ∀ before v after, rest = before ++ v :: after → ∀ a, g.Leads a v →
    count a = 0 ∨ a ∈ done ∨ a ∈ before
  get : ∀ v, v ≠ id → tally.get v =
    ((g.inputs v).map fun u => if u ∈ done then passed g id count u else 0).sum

section Search

variable {count : ElementId → Nat} {done rest : List ElementId} {tally : Tally} {v : ElementId}

/-- The tally of an element is complete when its turn comes. -/
theorem Tallied.get_head (ht : Tallied g id count done (v :: rest) tally) (h : g.Agrees)
    (hc : Counts g id count) : tally.get v = count v := by
  have hvid : v ≠ id := fun heq => ht.start (heq ▸ List.mem_cons_self)
  rw [ht.get v hvid, hc.later v hvid]
  refine congrArg List.sum (List.map_congr_left fun u hu => ?_)
  split
  · rfl
  · next hu' =>
    rcases ht.fed [] v rest rfl u (h.mem_inputs.1 hu) with hzero | hdone | hbefore
    · exact (passed_eq_zero hzero).symm
    · exact absurd hdone hu'
    · cases hbefore

/-- No tally is ever past the count. -/
theorem Tallied.get_le (ht : Tallied g id count done rest tally) (hc : Counts g id count)
    (hv : v ≠ id) : tally.get v ≤ count v := by
  rw [ht.get v hv, hc.later v hv]
  refine List.sum_le_sum fun u _ => ?_
  split
  · exact Nat.le_refl _
  · exact Nat.zero_le _

/-- The turn of an element is over once the tally has gained what the element passes on. -/
theorem Tallied.next (ht : Tallied g id count done (v :: rest) tally) {tally' : Tally}
    (htally : ∀ w, tally'.get w = tally.get w + (g.inputs w).count v * passed g id count v) :
    Tallied g id count (v :: done) rest tally' := by
  obtain ⟨hv, hnodup⟩ := List.nodup_cons.1 ht.nodup
  refine ⟨hnodup, fun w hw hmem => ?_, fun hmem => ht.start (List.mem_cons_of_mem v hmem),
    fun w hw => ht.onward w (List.mem_cons_of_mem v hw), fun before w after heq a ha => ?_,
    fun w hw => ?_⟩
  · rcases List.mem_cons.1 hmem with rfl | hmem
    · exact hv hw
    · exact ht.new w (List.mem_cons_of_mem v hw) hmem
  · rcases ht.fed (v :: before) w after (by rw [heq]; rfl) a ha with hzero | hdone | hbefore
    · exact .inl hzero
    · exact .inr (.inl (List.mem_cons_of_mem v hdone))
    · rcases List.mem_cons.1 hbefore with rfl | hbefore
      · exact .inr (.inl List.mem_cons_self)
      · exact .inr (.inr hbefore)
  · rw [htally w, ht.get w hw, sum_map_insert _ (ht.new v List.mem_cons_self)]

/-- An element that is no tap passes on its count to what it leads to. -/
theorem Tallied.pass (ht : Tallied g id count done (v :: rest) tally) (h : g.Agrees)
    (htap : ¬ (v ≠ id ∧ g.hasKind Kind.isTap v = true)) :
    Tallied g id count (v :: done) rest
      (tally.addAll ((g.edgesOut v).map Prod.snd) (count v)) :=
  ht.next fun w => by rw [Tally.get_addAll, h.count_inputs, passed, if_neg htap]

/-- Where a sum outgrows its word, so does a count. -/
theorem Tallied.exists_overflow (ht : Tallied g id count done (v :: rest) tally) (h : g.Agrees)
    (hc : Counts g id count) (htap : ¬ (v ≠ id ∧ g.hasKind Kind.isTap v = true))
    (hnone : tally.addAll? ((g.edgesOut v).map Prod.snd) (count v) = none) :
    ∃ w, UInt64.size ≤ count w := by
  obtain ⟨w, hw, hle⟩ := Tally.addAll?_eq_none hnone
  obtain ⟨⟨s, w⟩, hedge, rfl⟩ := List.mem_map.1 hw
  have hwid : w ≠ id := by
    rintro rfl
    exact ht.onward v List.mem_cons_self ⟨s, h.mem_edgesOut.1 hedge⟩
  exact ⟨w, hle.trans ((ht.pass h htap).get_le hc hwid)⟩

/-- The search answers whether several routes lead to a grouping that is to come, unless some
count outgrows its word. -/
theorem meets_spec (h : g.Agrees) (hc : Counts g id count)
    (ht : Tallied g id count done rest tally) :
    (∀ b, meets g id tally rest = .ok b →
      (b = true ↔ ∃ v ∈ rest, g.hasKind Kind.isGrouping v = true ∧ 1 < count v)) ∧
    ∀ e, meets g id tally rest = .error e → e = .dead .overflow ∧ ∃ v, UInt64.size ≤ count v := by
  induction rest generalizing done tally with
  | nil =>
    refine ⟨fun b hb => ?_, fun e he => ?_⟩
    · cases hb; simp
    · cases he
  | cons v rest ih =>
    have hvid : v ≠ id := fun heq => ht.start (heq ▸ List.mem_cons_self)
    have hcons : (∃ w ∈ v :: rest, g.hasKind Kind.isGrouping w = true ∧ 1 < count w) ↔
        (g.hasKind Kind.isGrouping v = true ∧ 1 < count v) ∨
          ∃ w ∈ rest, g.hasKind Kind.isGrouping w = true ∧ 1 < count w := by simp
    rw [hcons]
    simp only [meets, ht.get_head h hc]
    split
    · next hzero =>
      rw [or_iff_right fun hgr => by omega]
      exact ih (ht.next fun w => by rw [passed_eq_zero hzero]; simp)
    · split
      · next hgr =>
        refine ⟨fun b hb => ?_, fun e he => ?_⟩
        · cases hb; exact iff_of_true rfl (.inl hgr.2)
        · cases he
      · next hgr =>
        rw [or_iff_right fun hgr' => hgr ⟨hvid, hgr'⟩]
        split
        · next htap => exact ih (ht.next fun w => by simp [passed, htap])
        · next htap =>
          split
          · next hnone =>
            refine ⟨fun b hb => ?_, fun e he => ?_⟩
            · cases hb
            · cases he; exact ⟨rfl, ht.exists_overflow h hc htap hnone⟩
          · next tally' hsome =>
            rw [Tally.addAll?_eq_some hsome]
            exact ih (ht.pass h htap)

end Search

/-- The search starts behind the element, with what the element passes on. What stands before it in
the order is on no route. -/
theorem exists_tallied (h : g.Agrees) (hends : g.EndsLive) (hl : g.topology.order = .ok l)
    (hid : id ∈ l) {m : Nat} (hc : Counts g id (routes g id m)) :
    ∃ after, l.dropWhile (· != id) = id :: after ∧
      (∀ n v, v ≠ id → routes g id n v ≠ 0 → v ∈ after) ∧
      Tallied g id (routes g id m) [id] after
        (Tally.addAll [(id, 1)] ((g.edgesOut id).map Prod.snd) 1) := by
  obtain ⟨before, after, rfl, hnew⟩ := List.eq_append_cons_of_mem hid
  obtain ⟨-, hnodup, hdisj⟩ := List.nodup_append.1 (Topology.nodup_of_order hl)
  obtain ⟨hstart, hnodup⟩ := List.nodup_cons.1 hnodup
  have hafter : ∀ n v, v ≠ id → routes g id n v ≠ 0 → v ∈ after := by
    intro n v hne hv
    obtain ⟨hmem, hlt⟩ := (lt_of_routes h hends hl hv).resolve_left hne
    rcases List.mem_append.1 hmem with hb | ha
    · rw [List.idxOf_append, if_neg hnew, List.idxOf_append, if_pos hb,
        List.idxOf_cons_self] at hlt
      have := List.idxOf_lt_length_of_mem hb
      omega
    · exact (List.mem_cons.1 ha).resolve_left hne
  have hbefore : ∀ v ∈ before, routes g id m v = 0 := by
    intro v hv
    by_contra hne
    have hvid : v ≠ id := by rintro rfl; exact hnew hv
    exact hdisj v hv v (List.mem_cons_of_mem id (hafter m v hvid hne)) rfl
  refine ⟨after, ?_, hafter, hnodup, fun v hv hmem => ?_, hstart, fun v hv hback => ?_,
    fun mid v rest heq a ha => ?_, fun v hvid => ?_⟩
  · rw [List.dropWhile_append_of_pos fun v hv => by
      rw [bne_iff_ne]; rintro rfl; exact hnew hv]
    simp
  · rw [List.mem_singleton.1 hmem] at hv
    exact hstart hv
  · obtain ⟨s, hjoin⟩ := hback
    have hmem := Topology.fed_of_order hl before id after rfl (s, v) (h.mem_edgesIn.2 hjoin)
    exact hdisj v hmem v (List.mem_cons_of_mem id hv) rfl
  · obtain ⟨s, sc, hsc, ho, ht⟩ := ha
    have hmem := Topology.fed_of_order hl (before ++ id :: mid) v rest (by rw [heq]; simp) (s, a)
      (h.mem_edgesIn.2 ⟨sc, hsc, ho, ht⟩)
    rcases List.mem_append.1 hmem with hb | hmem
    · exact .inl (hbefore a hb)
    · rcases List.mem_cons.1 hmem with rfl | hmem
      · exact .inr (.inl List.mem_cons_self)
      · exact .inr (.inr hmem)
  · have hpass : passed g id (routes g id m) id = 1 := by simp [passed, hc.start]
    have hsum := sum_map_insert (passed g id (routes g id m)) (List.not_mem_nil (a := id))
      (g.inputs v)
    rw [hsum, Tally.get_addAll, h.count_inputs, hpass]
    simp [Tally.get, List.lookup_cons, beq_eq_false_iff_ne.2 hvid]

/-- The search finds a grouping that several routes reach, if there is one. It fails only where
some element is reached along more routes than a word can count. -/
theorem reconverges_spec (h : g.Agrees) (hends : g.EndsLive) (hl : g.topology.order = .ok l)
    (hid : id ∈ l) :
    (∀ b, reconverges g l id = .ok b → (b = true ↔
      ∃ n v, v ≠ id ∧ g.hasKind Kind.isGrouping v = true ∧ 1 < routes g id n v)) ∧
    ∀ e, reconverges g l id = .error e →
      e = .dead .overflow ∧ ∃ n v, UInt64.size ≤ routes g id n v := by
  obtain ⟨m, hc, hmax⟩ := exists_counts h hends hl id
  obtain ⟨after, hdrop, hafter, ht⟩ := exists_tallied h hends hl hid hc
  have hfirst : reconverges g l id = meets g id [(id, 1)] (id :: after) := by
    rw [reconverges, hdrop]
  have hmeet : (∃ v ∈ after, g.hasKind Kind.isGrouping v = true ∧ 1 < routes g id m v) ↔
      ∃ n v, v ≠ id ∧ g.hasKind Kind.isGrouping v = true ∧ 1 < routes g id n v := by
    constructor
    · rintro ⟨v, hv, hgr, hlt⟩
      exact ⟨m, v, fun heq => ht.start (heq ▸ hv), hgr, hlt⟩
    · rintro ⟨n, v, hne, hgr, hlt⟩
      exact ⟨v, hafter n v hne (by omega), hgr, Nat.lt_of_lt_of_le hlt (hmax n v)⟩
  cases hadd : Tally.addAll? [(id, 1)] ((g.edgesOut id).map Prod.snd) 1 with
  | none =>
    have hrun : reconverges g l id = .error (.dead .overflow) := by
      simp [hfirst, meets, Tally.get, hadd]
    rw [hrun]
    refine ⟨fun b hb => ?_, fun e he => ?_⟩
    · cases hb
    · cases he
      obtain ⟨w, hw, hle⟩ := Tally.addAll?_eq_none hadd
      obtain ⟨⟨s, w⟩, hedge, rfl⟩ := List.mem_map.1 hw
      have hlead : g.Leads id w := ⟨s, h.mem_edgesOut.1 hedge⟩
      have hwid : w ≠ id := by
        rintro rfl
        exact Nat.lt_irrefl _ (h.idxOf_lt_of_leads hl hlead (hends w w hlead).2)
      exact ⟨rfl, m, w, hle.trans (ht.get_le hc hwid)⟩
  | some tally =>
    have hrun : reconverges g l id = meets g id tally after := by
      simp [hfirst, meets, Tally.get, hadd]
    rw [hrun, Tally.addAll?_eq_some hadd, ← hmeet]
    obtain ⟨hok, herror⟩ := meets_spec h hc ht
    refine ⟨hok, fun e he => ?_⟩
    obtain ⟨rfl, v, hv⟩ := herror e he
    exact ⟨rfl, m, v, hv⟩

/-! ## The splits that get a boundary -/

/-- The branches of `e` meet at a grouping, and no boundary or grouping before it keeps it
from being cut. -/
structure Point (g : Graph) (e : ElementId) : Prop where
  split : isSplit g e = true
  exposed : followsBoundary g e = false
  meet : ∃ n v, v ≠ e ∧ g.hasKind Kind.isGrouping v = true ∧ 1 < routes g e n v

theorem Point.isProcessing {e : ElementId} (h : Point g e) :
    g.hasKind Kind.isProcessing e = true := by
  have hs := h.split
  simp only [isSplit, Bool.and_eq_true] at hs
  exact hs.1

theorem mem_splitPoints (h : g.Agrees) (hends : g.EndsLive) {ids : List ElementId}
    (hids : splitPoints g = .ok ids) {e : ElementId} : e ∈ ids ↔ Point g e := by
  obtain ⟨l, hl, hall, -, hmem⟩ := splitPoints_eq_ok hids
  rw [hmem]
  constructor
  · rintro ⟨he, hpoint⟩
    obtain ⟨hsplit, hexposed, hmeet⟩ := isPoint_eq_true.1 hpoint
    exact ⟨hsplit, hexposed, ((reconverges_spec h hends hl he).1 _ hmeet).1 rfl⟩
  · intro hp
    have he : e ∈ l := (mem_order_iff hl).2 (contains_of_hasKind hp.isProcessing)
    obtain ⟨b, hb⟩ := hall e he
    have hmeet : reconverges g l e = .ok b := by
      simpa [isPoint, hp.split, hp.exposed] using hb
    exact ⟨he, hb.trans (congrArg _ (((reconverges_spec h hends hl he).1 b hmeet).2 hp.meet))⟩

/-- The search fails only where an exposed split has more routes to some element than a word
can count. -/
theorem splitPoints_eq_error (h : g.Agrees) (hends : g.EndsLive) (hl : g.topology.order = .ok l)
    {e : PlanError} (he : splitPoints g = .error e) : e = .dead .overflow ∧
      ∃ x, isSplit g x = true ∧ followsBoundary g x = false ∧ ∃ n v, UInt64.size ≤ routes g x n v := by
  simp only [splitPoints, hl] at he
  obtain ⟨x, hx, hpoint⟩ := pointsAmong_eq_error he
  obtain ⟨hsplit, hexposed, hmeet⟩ := isPoint_eq_error hpoint
  obtain ⟨rfl, hlarge⟩ := (reconverges_spec h hends hl hx).2 e hmeet
  exact ⟨rfl, x, hsplit, hexposed, hlarge⟩

/-- The first split in the list is not reached from the others. -/
theorem routes_eq_zero (h : g.Agrees) (hends : g.EndsLive) {o : ElementId} {rest : List ElementId}
    (hids : splitPoints g = .ok (o :: rest)) {e : ElementId} (he : e ∈ rest) (n : Nat) :
    routes g e n o = 0 := by
  obtain ⟨l, hl, -, hsub, -⟩ := splitPoints_eq_ok hids
  have hsub := (Topology.pairwise_idxOf hl).sublist hsub
  have hfirst : l.idxOf o < l.idxOf e := (List.pairwise_cons.1 hsub).1 e he
  by_contra hne
  rcases lt_of_routes h hends hl hne with rfl | ⟨-, hlt⟩
  · exact Nat.lt_irrefl _ hfirst
  · exact Nat.lt_asymm hlt hfirst

theorem followsBoundary_iff (h : g.Agrees) {e : ElementId} : followsBoundary g e = true ↔
    (∃ a, g.Leads a e) ∧ ∀ a, g.Leads a e → g.hasKind Kind.isBoundary a = true ∨
      g.hasKind Kind.isGrouping a = true := by
  have hor : ∀ a, g.hasKind (fun k => k.isBoundary || k.isGrouping) a = true ↔
      g.hasKind Kind.isBoundary a = true ∨ g.hasKind Kind.isGrouping a = true := by
    intro a
    unfold hasKind
    cases g.kind? a <;> simp
  simp only [followsBoundary, Bool.and_eq_true, Bool.not_eq_true', List.isEmpty_eq_false_iff,
    List.all_eq_true, hor]
  refine and_congr ?_ (forall_congr' fun a => ?_)
  · rw [Ne, List.eq_nil_iff_forall_not_mem]
    push Not
    exact exists_congr fun a => h.mem_predecessors
  · rw [← h.mem_predecessors]
    rfl

end SplitInsertion

/-! ## Past another boundary -/

section BoundaryAfter

variable {g : Graph} (h : g.Agrees) (scheme : String) {o : ElementId} (ho : o < g.size)

include h ho

namespace SplitInsertion

/-- A boundary behind another element ends routes and adds none. -/
theorem routes_boundaryAfter_le {e : ElementId} (he : e ≠ g.size) (n : Nat) {v : ElementId}
    (hv : v ≠ g.size) : routes (g.boundaryAfter scheme o) e n v ≤ routes g e n v := by
  have hg := grows_boundaryAfter g scheme o
  induction n generalizing v with
  | zero => exact Nat.le_refl 0
  | succ n ih =>
    simp only [routes]
    split
    · exact Nat.le_refl 1
    · rw [h.inputs_boundaryAfter scheme ho hv, List.map_map]
      refine List.sum_le_sum fun a ha => ?_
      have halt := (h.lt_size_of_leads (h.mem_inputs.1 ha)).1
      by_cases hao : a = o
      · have htap : (g.boundaryAfter scheme o).hasKind Kind.isTap g.size = true :=
          hg.hasKind_new fun _ => rfl
        simp [hao, passed, he.symm, htap]
      · have hle := ih (Nat.ne_of_lt halt)
        simp only [Function.comp_apply, if_neg hao, passed, hg.hasKind_old halt]
        split
        · exact Nat.le_refl 0
        · exact hle

/-- To the new boundary itself lead the routes to the element before it. -/
theorem routes_boundaryAfter_new_le {e : ElementId} (he : e ≠ g.size) (n : Nat) :
    routes (g.boundaryAfter scheme o) e n g.size ≤ routes g e n o := by
  cases n with
  | zero => exact Nat.le_refl 0
  | succ n =>
    have hle := routes_boundaryAfter_le h scheme ho he n (Nat.ne_of_lt ho)
    rw [routes, if_neg he.symm, (h.bypasses_boundaryAfter scheme ho).inputs, List.map_singleton,
      List.sum_singleton]
    refine Nat.le_trans ?_ (hle.trans (routes_mono (Nat.le_succ n) o))
    unfold passed
    split
    · exact Nat.zero_le _
    · exact Nat.le_refl _

/-- It ends no route that does not come to the element. -/
theorem routes_boundaryAfter_eq {e : ElementId} (he : e ≠ g.size)
    (hzero : ∀ n, routes g e n o = 0) (n : Nat) {v : ElementId} (hv : v ≠ g.size) :
    routes (g.boundaryAfter scheme o) e n v = routes g e n v := by
  have hg := grows_boundaryAfter g scheme o
  induction n generalizing v with
  | zero => rfl
  | succ n ih =>
    simp only [routes]
    split
    · rfl
    · rw [h.inputs_boundaryAfter scheme ho hv, List.map_map]
      refine congrArg List.sum (List.map_congr_left fun a ha => ?_)
      have halt := (h.lt_size_of_leads (h.mem_inputs.1 ha)).1
      by_cases hao : a = o
      · have htap : (g.boundaryAfter scheme o).hasKind Kind.isTap g.size = true :=
          hg.hasKind_new fun _ => rfl
        simp [hao, passed, he.symm, htap, hzero n]
      · simp only [Function.comp_apply, if_neg hao, passed, hg.hasKind_old halt,
          ih (Nat.ne_of_lt halt)]

theorem isSplit_boundaryAfter {e : ElementId} (heo : e ≠ o) (he : e < g.size) :
    isSplit (g.boundaryAfter scheme o) e = isSplit g e := by
  have ha := agrees_recount h g.nextBoundaryNumber
  have ha' := h.agrees_boundaryAfter scheme ho
  have hperm : ((g.boundaryAfter scheme o).outgoing e).Perm (g.outgoing e) := by
    refine (List.perm_ext_iff_of_nodup (ha'.outgoing_nodup e)
      (h.outgoing_nodup e)).2 fun s => ?_
    rw [ha'.outgoing_iff, h.outgoing_iff]
    constructor
    · intro ⟨sc', hsc', hto⟩
      rcases ha.insertAfter_cases hsc' with ⟨-, rfl⟩ | ⟨sc, hsc, rfl⟩
      · exact absurd hto.symm heo
      · rw [Scope.origin_rerouted] at hto
        split at hto
        · exact absurd hto.symm (Nat.ne_of_lt he)
        · exact ⟨sc, hsc, hto⟩
    · intro ⟨sc, hsc, hto⟩
      refine ⟨_, ha.scope?_insertAfter_old hsc, ?_⟩
      rw [Scope.origin_rerouted, hto, if_neg heo]
  unfold isSplit
  rw [(grows_boundaryAfter g scheme o).hasKind_old he, hperm.length_eq]

/-- The new boundary is no reason to cut what followed boundaries alone. -/
theorem followsBoundary_boundaryAfter {e : ElementId} (he : e < g.size)
    (hf : followsBoundary g e = true) : followsBoundary (g.boundaryAfter scheme o) e = true := by
  have hg := grows_boundaryAfter g scheme o
  obtain ⟨⟨a, hae⟩, hall⟩ := (followsBoundary_iff h).1 hf
  refine (followsBoundary_iff (h.agrees_boundaryAfter scheme ho)).2 ⟨?_, fun a hae => ?_⟩
  · by_cases hao : a = o
    · exact ⟨g.size, (h.leads_boundaryAfter scheme).2 (.inr (.inl ⟨rfl, hao ▸ hae⟩))⟩
    · exact ⟨a, (h.leads_boundaryAfter scheme).2 (.inr (.inr ⟨hao, hae⟩))⟩
  · rcases (h.leads_boundaryAfter scheme).1 hae with ⟨-, rfl⟩ | ⟨rfl, -⟩ | ⟨-, hl⟩
    · exact absurd he (Nat.lt_irrefl _)
    · exact .inl (hg.hasKind_new fun _ => rfl)
    · have halt := (h.lt_size_of_leads hl).1
      rw [hg.hasKind_old halt, hg.hasKind_old halt]
      exact hall a hl

/-- Nor does it spare what the element behind it does not feed. -/
theorem followsBoundary_of_boundaryAfter {e : ElementId} (he : e < g.size) (hnot : ¬ g.Leads o e)
    (hf : followsBoundary (g.boundaryAfter scheme o) e = true) : followsBoundary g e = true := by
  have hg := grows_boundaryAfter g scheme o
  obtain ⟨⟨b, hbe⟩, hall⟩ := (followsBoundary_iff (h.agrees_boundaryAfter scheme ho)).1 hf
  refine (followsBoundary_iff h).2 ⟨?_, fun a hae => ?_⟩
  · rcases (h.leads_boundaryAfter scheme).1 hbe with ⟨-, rfl⟩ | ⟨-, hl⟩ | ⟨-, hl⟩
    · exact absurd he (Nat.lt_irrefl _)
    · exact absurd hl hnot
    · exact ⟨b, hl⟩
  · have hao : a ≠ o := by rintro rfl; exact hnot hae
    have hkind := hall a ((h.leads_boundaryAfter scheme).2 (.inr (.inr ⟨hao, hae⟩)))
    have halt := (h.lt_size_of_leads hae).1
    rw [hg.hasKind_old halt, hg.hasKind_old halt] at hkind
    exact hkind

/-- A split that is to be cut with the new boundary in place was to be cut before. -/
theorem Point.of_boundaryAfter {e : ElementId} (heo : e ≠ o)
    (hp : Point (g.boundaryAfter scheme o) e) : Point g e := by
  have hg := grows_boundaryAfter g scheme o
  obtain ⟨he, -⟩ := hg.of_hasKind hp.isProcessing fun _ => rfl
  obtain ⟨n, v, hve, hgr, hlt⟩ := hp.meet
  obtain ⟨hv, hgr⟩ := hg.of_hasKind hgr fun _ => rfl
  refine ⟨isSplit_boundaryAfter h scheme ho heo he ▸ hp.split, ?_, n, v, hve, hgr, ?_⟩
  · rw [← Bool.not_eq_true]
    intro hf
    have hf' := followsBoundary_boundaryAfter h scheme ho he hf
    rw [hp.exposed] at hf'
    cases hf'
  · exact Nat.lt_of_lt_of_le hlt
      (routes_boundaryAfter_le h scheme ho (Nat.ne_of_lt he) n (Nat.ne_of_lt hv))

/-- A split is still to be cut if it neither follows the new boundary nor leads there. -/
theorem Point.boundaryAfter {e : ElementId} (heo : e ≠ o) (hnot : ¬ g.Leads o e)
    (hzero : ∀ n, routes g e n o = 0) (hp : Point g e) : Point (g.boundaryAfter scheme o) e := by
  have hg := grows_boundaryAfter g scheme o
  have he := lt_size_of_contains (contains_of_hasKind hp.isProcessing)
  obtain ⟨n, v, hve, hgr, hlt⟩ := hp.meet
  have hv := lt_size_of_contains (contains_of_hasKind hgr)
  refine ⟨(isSplit_boundaryAfter h scheme ho heo he).trans hp.split, ?_, n, v, hve,
    (hg.hasKind_old hv).trans hgr, ?_⟩
  · rw [← Bool.not_eq_true]
    intro hf
    have hf' := followsBoundary_of_boundaryAfter h scheme ho he hnot hf
    rw [hp.exposed] at hf'
    cases hf'
  · rw [routes_boundaryAfter_eq h scheme ho (Nat.ne_of_lt he) hzero n (Nat.ne_of_lt hv)]
    exact hlt

end SplitInsertion
end BoundaryAfter
end Dataflow
