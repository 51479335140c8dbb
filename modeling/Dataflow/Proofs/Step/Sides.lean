import Dataflow.Proofs.Step.Numbering

/-!
# What a step shows of its draft

Finishing a draft keeps its elements and its taps, and splits the region at the
grouping. Nothing on the late side leads back to the early side, since the late side
takes all that the grouping reaches.

Results:

* `finish_eq_ok`: the fields of a finished step;
* `pairwise_order`: along a topological order nothing reaches back;
* `sides_spec`: the two sides list the region once, each in topological order.
-/
namespace Dataflow

open Dataflow.Graph Relation

variable {g : Graph}

namespace Step

/-- The taps that the step reads. -/
def reads (s : Step) : List ElementId := s.sources.map TapRef.element

/-- The taps that the step writes. -/
def writes (s : Step) : List ElementId := s.sinks.map TapRef.element

end Step

namespace Graph

/-- Whatever reaches a live element is live and stands before it in the order. -/
theorem Agrees.idxOf_lt_of_transGen (h : g.Agrees) {order : List ElementId}
    (ho : g.topology.order = .ok order) {a b : ElementId} (hab : TransGen g.Leads a b)
    (hb : g.contains b = true) : g.contains a = true ∧ order.idxOf a < order.idxOf b := by
  induction hab using TransGen.head_induction_on with
  | single hab => exact ⟨h.contains_of_leads ho hab hb, h.idxOf_lt_of_leads ho hab hb⟩
  | head hac _ ih =>
    obtain ⟨hc, hlt⟩ := ih
    exact ⟨h.contains_of_leads ho hac hc, Nat.lt_trans (h.idxOf_lt_of_leads ho hac hc) hlt⟩

/-- Along a topological order nothing reaches back. -/
theorem Agrees.pairwise_order (h : g.Agrees) {order : List ElementId}
    (ho : g.topology.order = .ok order) :
    order.Pairwise fun a b => ¬ TransGen g.Leads b a := by
  refine (Topology.pairwise_idxOf ho).imp_of_mem fun ha _ hab hba => ?_
  exact Nat.lt_asymm hab (h.idxOf_lt_of_transGen ho hba ((mem_order_iff ho).1 ha)).2

end Graph

namespace Draft

/-! ## The fields of a step -/

theorem finish_eq_ok {d : Draft} {order : List ElementId} {k total : Nat} {s : Step}
    (h : d.finish g order k total = .ok s) :
    s.id = k ∧ s.elements = d.elements ∧ s.sources = d.sources.filterMap (tapRef? g) ∧
      s.sinks = d.sinks.filterMap (tapRef? g) ∧ ∃ grouping, s.nodes = d.sides g order grouping := by
  unfold finish at h
  simp only at h
  split at h
  · cases h
  · cases h
    exact ⟨rfl, rfl, rfl, rfl, _, rfl⟩

theorem element_of_tapRef? {e : ElementId} {r : TapRef} (h : tapRef? g e = some r) :
    r.element = e := by
  unfold tapRef? at h
  obtain ⟨tap, -, rfl⟩ := Option.map_eq_some_iff.1 h
  rfl

theorem exists_tapRef? {e : ElementId} (h : g.hasKind Kind.isTap e = true) :
    ∃ r, tapRef? g e = some r := by
  obtain ⟨x, hx, hk⟩ := hasKind_iff.1 h
  obtain ⟨tap, htap⟩ := Option.isSome_iff_exists.1 hk
  refine ⟨⟨e, g.nameOf e, tap.scheme, tap.identifier⟩, ?_⟩
  unfold tapRef? kind?
  rw [hx, Option.map_some, Option.bind_some, htap]
  rfl

/-- Describing taps keeps each of them at its place. -/
theorem map_tapRef? {l : List ElementId} (h : ∀ e ∈ l, g.hasKind Kind.isTap e = true) :
    (l.filterMap (tapRef? g)).map TapRef.element = l := by
  induction l with
  | nil => rfl
  | cons e rest ih =>
    obtain ⟨r, hr⟩ := exists_tapRef? (h e List.mem_cons_self)
    rw [List.filterMap_cons, hr, List.map_cons, element_of_tapRef? hr,
      ih fun e' he' => h e' (List.mem_cons_of_mem e he')]

theorem tapRef?_of_mem {l : List ElementId} {r : TapRef} (h : r ∈ l.filterMap (tapRef? g)) :
    tapRef? g r.element = some r := by
  obtain ⟨e, -, he⟩ := List.mem_filterMap.1 h
  rw [element_of_tapRef? he]
  exact he

/-! ## The two sides -/

/-- What the late side leads to is on the late side. -/
theorem mem_reduced_of_leads (h : g.Agrees) {grouping : Option ElementId} {a b : ElementId}
    (ha : a ∈ reduced g grouping) (hab : g.Leads a b) : b ∈ reduced g grouping := by
  cases grouping with
  | none => exact absurd ha IdSet.not_mem_empty
  | some e =>
    simp only [reduced, Option.elim_some, IdSet.mem_insert, h.mem_descendants] at ha ⊢
    rcases ha with rfl | ha
    · exact .inr (.single hab)
    · exact .inr (ha.tail hab)

/-- The two sides list what satisfies `P`, each in topological order, and no scope
leads back. -/
structure Splits (g : Graph) (P : ElementId → Prop) (early late : List ElementId) : Prop where
  nodup : (early ++ late).Nodup
  mem_iff : ∀ e, e ∈ early ++ late ↔ P e
  early_sorted : early.Pairwise fun a b => ¬ TransGen g.Leads b a
  late_sorted : late.Pairwise fun a b => ¬ TransGen g.Leads b a
  not_back : ∀ a ∈ late, ∀ b ∈ early, ¬ g.Leads a b

/-- The nodes of a step with the given sides, empty ones left out. -/
def nodesOf (g : Graph) (early late : List ElementId) : List StepNode :=
  ([⟨.map, early.map g.nameOf⟩, ⟨.reduce, late.map g.nameOf⟩] : List StepNode).filter fun n =>
    !n.elements.isEmpty

theorem Splits.congr {P Q : ElementId → Prop} {early late : List ElementId}
    (h : Splits g P early late) (hpq : ∀ e, P e ↔ Q e) : Splits g Q early late :=
  { h with mem_iff := fun e => (h.mem_iff e).trans (hpq e) }

theorem sides_spec (h : g.Agrees) {order : List ElementId} (ho : g.topology.order = .ok order)
    {d : Draft} (hd : ∀ e ∈ d.region, g.contains e = true) (grouping : Option ElementId) :
    ∃ early late, d.sides g order grouping = nodesOf g early late ∧
      Splits g (· ∈ d.region) early late := by
  have hn := Topology.nodup_of_order ho
  have hall : ∀ e, e ∈ order.filter (· ∈ d.region) ↔ e ∈ d.region := by
    intro e
    rw [List.mem_filter, decide_eq_true_eq, mem_order_iff ho]
    exact ⟨And.right, fun he => ⟨hd e he, he⟩⟩
  have hperm := List.perm_append_comm.trans
    (List.filter_append_perm (fun e => decide (e ∈ reduced g grouping))
      (order.filter (· ∈ d.region)))
  refine ⟨(order.filter (· ∈ d.region)).filter fun e => !decide (e ∈ reduced g grouping),
    (order.filter (· ∈ d.region)).filter fun e => decide (e ∈ reduced g grouping), ?_, ?_⟩
  · unfold sides nodesOf
    simp only [List.partition_eq_filter_filter]
    rfl
  · refine ⟨?_, fun e => ?_, ?_, ?_, fun a ha b hb hab => ?_⟩
    · exact hperm.nodup_iff.2 (hn.filter _)
    · rw [← hall e]
      exact hperm.mem_iff
    · exact ((h.pairwise_order ho).filter _).filter _
    · exact ((h.pairwise_order ho).filter _).filter _
    · have hla := (List.mem_filter.1 ha).2
      have hlb := (List.mem_filter.1 hb).2
      simp only [decide_eq_true_eq, Bool.not_eq_true', decide_eq_false_iff_not] at hla hlb
      exact hlb (mem_reduced_of_leads h hla hab)

end Draft
end Dataflow
