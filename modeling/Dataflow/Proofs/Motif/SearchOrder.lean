import Mathlib.Data.List.Nodup
import Dataflow.Proofs.Motif.Matcher
import Dataflow.Proofs.Success
import Dataflow.Proofs.Topology.Reach

/-!
# The search order of a usable motif

A motif is usable if every edge has both ends, one vertex is the anchor and everything
hangs together with it. The breadth-first walk from the anchor then lists every vertex
once, and each but the anchor has a neighbour before it, so the search always has a place
to draw candidates from.

Results:

* `Motif.chained_explore`: what a walk adds is next to what was found before;
* `Matcher.ready_of_ofMotif`: what the matcher of a usable motif can rely on.
-/
namespace Dataflow

open Matcher (chained)

namespace Motif

variable {m : Motif}

theorem mem_neighbours {p q : Nat} : q ∈ m.neighbours p ↔
    ∃ e ∈ m.edges, (e.origin = p ∧ e.target = q) ∨ (e.origin = q ∧ e.target = p) := by
  simp only [neighbours, incident, List.mem_map, List.mem_filter, Bool.or_eq_true, beq_iff_eq,
    otherEnd]
  constructor
  · rintro ⟨e, ⟨he, hp⟩, rfl⟩
    refine ⟨e, he, ?_⟩
    by_cases ho : e.origin = p
    · exact .inl ⟨ho, by rw [if_pos ho]⟩
    · exact .inr ⟨by rw [if_neg ho], hp.resolve_left ho⟩
  · rintro ⟨e, he, ⟨ho, ht⟩ | ⟨ho, ht⟩⟩
    · exact ⟨e, ⟨he, .inl ho⟩, by rw [if_pos ho, ht]⟩
    · refine ⟨e, ⟨he, .inr ht⟩, ?_⟩
      by_cases hp : e.origin = p
      · rw [if_pos hp, ht, ← hp, ho]
      · rw [if_neg hp, ho]

theorem lt_size_of_mem_neighbours (hends : ∀ e ∈ m.edges, e.origin < m.size ∧ e.target < m.size) :
    ∀ p, ∀ q ∈ m.neighbours p, q < m.size := by
  intro p q hq
  obtain ⟨e, he, ⟨-, rfl⟩ | ⟨rfl, -⟩⟩ := mem_neighbours.1 hq
  · exact (hends e he).2
  · exact (hends e he).1

theorem neighbours_symm {p q : Nat} (h : q ∈ m.neighbours p) : p ∈ m.neighbours q := by
  obtain ⟨e, he, hends⟩ := mem_neighbours.1 h
  exact mem_neighbours.2 ⟨e, he, hends.symm⟩

/-! ## Listing each vertex next to one before it -/

theorem chained_cons_iff {a rest : List Nat} {p : Nat} : chained m a (p :: rest) = true ↔
    p < m.size ∧ p ∉ a ∧ (∃ q ∈ m.neighbours p, q ∈ a) ∧ chained m (p :: a) rest = true := by
  simp [chained, and_assoc]

theorem chained_append {a l l' : List Nat} : chained m a (l ++ l') = true ↔
    chained m a l = true ∧ chained m (l.reverse ++ a) l' = true := by
  induction l generalizing a with
  | nil => simp [chained]
  | cons p rest ih =>
    rw [List.cons_append, chained_cons_iff, chained_cons_iff, ih]
    simp [and_assoc]

theorem lt_size_of_chained {a l : List Nat} (h : chained m a l = true) : ∀ p ∈ l, p < m.size := by
  induction l generalizing a with
  | nil => exact fun _ hp => absurd hp List.not_mem_nil
  | cons p rest ih =>
    obtain ⟨hp, -, -, hrest⟩ := chained_cons_iff.1 h
    exact List.forall_mem_cons.2 ⟨hp, ih hrest⟩

theorem nodup_of_chained {a l : List Nat} (ha : a.Nodup) (h : chained m a l = true) :
    (l.reverse ++ a).Nodup := by
  induction l generalizing a with
  | nil => exact ha
  | cons p rest ih =>
    obtain ⟨-, hnew, -, hrest⟩ := chained_cons_iff.1 h
    simpa using ih (List.nodup_cons.2 ⟨hnew, ha⟩) hrest

/-- A vertex that comes later has a neighbour before it. -/
theorem exists_neighbour_of_chained {a l : List Nat} (h : chained m a l = true) {p : Nat}
    (hp : p ∈ l) : ∃ q, q ∈ m.neighbours p := by
  induction l generalizing a with
  | nil => cases hp
  | cons p' rest ih =>
    obtain ⟨-, -, ⟨q, hq, -⟩, hrest⟩ := chained_cons_iff.1 h
    rcases List.mem_cons.1 hp with rfl | hp
    · exact ⟨q, hq⟩
    · exact ih hrest hp

theorem chained_newcomers (hlt : ∀ p, ∀ q ∈ m.neighbours p, q < m.size) {v : Nat}
    {found next a : List Nat} (hnext : ∀ q ∈ next, q ∈ m.neighbours v) (hv : v ∈ a)
    (ha : ∀ p, p ∈ a ↔ p ∈ found) : chained m a (newcomers found next) = true := by
  induction next generalizing found a with
  | nil => rfl
  | cons q rest ih =>
    obtain ⟨hq, hrest⟩ := List.forall_mem_cons.1 hnext
    unfold newcomers
    split
    · exact ih hrest hv ha
    · next hnew =>
      refine chained_cons_iff.2 ⟨hlt v q hq, fun h => hnew ((ha q).1 h),
        ⟨v, neighbours_symm hq, hv⟩, ih hrest (List.mem_cons_of_mem q hv) fun p => ?_⟩
      rw [List.mem_cons, List.mem_cons, ha]

/-- What a walk adds is next to what was found before. -/
theorem chained_explore (hlt : ∀ p, ∀ q ∈ m.neighbours p, q < m.size) (budget : Nat)
    {found queue a : List Nat} (hqueue : ∀ v ∈ queue, v ∈ found) (ha : ∀ p, p ∈ a ↔ p ∈ found) :
    ∃ l, explore m.neighbours budget found queue = found ++ l ∧ chained m a l = true := by
  induction budget generalizing found queue a with
  | zero => exact ⟨[], by simp [explore], rfl⟩
  | succ budget ih =>
    cases queue with
    | nil => exact ⟨[], by simp [explore], rfl⟩
    | cons v queue =>
      obtain ⟨hv, hqueue⟩ := List.forall_mem_cons.1 hqueue
      let fresh := newcomers found (m.neighbours v)
      have hfresh : chained m a fresh = true :=
        chained_newcomers hlt (fun _ => id) ((ha v).2 hv) ha
      have hqueue' : ∀ w ∈ queue ++ fresh, w ∈ found ++ fresh := fun w hw => by
        rcases List.mem_append.1 hw with hw | hw
        · exact List.mem_append_left _ (hqueue w hw)
        · exact List.mem_append_right _ hw
      have ha' : ∀ p, p ∈ fresh.reverse ++ a ↔ p ∈ found ++ fresh := fun p => by
        simp [ha, or_comm]
      obtain ⟨l, hl, hchain⟩ := ih hqueue' ha'
      refine ⟨fresh ++ l, ?_, chained_append.2 ⟨hfresh, hchain⟩⟩
      rw [← List.append_assoc, ← hl]
      rfl

/-! ## Usable motifs -/

/-- What it takes to be usable. -/
theorem validate_eq_ok {p : Nat} (h : m.validate = .ok p) :
    (∀ e ∈ m.edges, e.origin < m.size ∧ e.target < m.size) ∧ m.primaries = [p] ∧
      ∀ v < m.size, v ∈ m.searchOrder p := by
  unfold validate at h
  split at h
  · cases h
  · split at h
    · cases h
    · next hends =>
      split at h
      · cases h
      · next p' hp =>
        split at h
        · cases h
        · next hall =>
          cases h
          refine ⟨fun e he => ?_, hp, fun v hv => ?_⟩
          · simpa [dangling] using List.find?_eq_none.1 hends e he
          · simpa using List.find?_eq_none.1 hall v (List.mem_range.2 hv)
      · cases h

end Motif

namespace Matcher

/-- The search starts at the anchor and reaches every motif vertex next to an earlier one. -/
structure Ready (m : Matcher) : Prop where
  primary_lt : m.primary < m.motif.size
  order : ∃ rest, m.order = m.primary :: rest ∧ chained m.motif [m.primary] rest = true
  covers : ∀ p < m.motif.size, p ∈ m.order
  ends : ∀ e ∈ m.motif.edges, e.origin < m.motif.size ∧ e.target < m.motif.size

theorem ready_of_ofMotif {motif : Motif} {m : Matcher} (h : Matcher.ofMotif motif = .ok m) :
    m.motif = motif ∧ m.Ready := by
  obtain ⟨p, hp, rfl⟩ := map_eq_ok.1 h
  obtain ⟨hends, hprimary, hcovers⟩ := Motif.validate_eq_ok hp
  have hqueue : ∀ v ∈ [p], v ∈ [p] := fun _ => id
  obtain ⟨l, hl, hchain⟩ := Motif.chained_explore (Motif.lt_size_of_mem_neighbours hends)
    (motif.size + 1) hqueue fun _ => Iff.rfl
  have hpm : p ∈ motif.primaries := hprimary ▸ List.mem_singleton_self p
  refine ⟨rfl, List.mem_range.1 (List.mem_filter.1 hpm).1, ⟨l, hl, hchain⟩, hcovers, hends⟩

variable {m : Matcher}

theorem Ready.mem_order (h : m.Ready) {p : Nat} : p ∈ m.order ↔ p < m.motif.size := by
  refine ⟨fun hp => ?_, h.covers p⟩
  obtain ⟨rest, horder, hchain⟩ := h.order
  rw [horder] at hp
  rcases List.mem_cons.1 hp with rfl | hp
  · exact h.primary_lt
  · exact Motif.lt_size_of_chained hchain p hp

theorem Ready.order_nodup (h : m.Ready) : m.order.Nodup := by
  obtain ⟨rest, horder, hchain⟩ := h.order
  have hnodup := Motif.nodup_of_chained (List.nodup_singleton m.primary) hchain
  rw [horder, ← List.nodup_reverse, List.reverse_cons]
  exact hnodup

/-- A motif vertex other than the anchor is at the end of an edge. -/
theorem Ready.exists_edge (h : m.Ready) {p : Nat} (hp : p < m.motif.size) (hne : p ≠ m.primary) :
    ∃ e ∈ m.motif.edges, e.origin = p ∨ e.target = p := by
  obtain ⟨rest, horder, hchain⟩ := h.order
  have hmem := h.covers p hp
  rw [horder] at hmem
  obtain ⟨q, hq⟩ := Motif.exists_neighbour_of_chained hchain
    ((List.mem_cons.1 hmem).resolve_left hne)
  obtain ⟨e, he, hends⟩ := Motif.mem_neighbours.1 hq
  exact ⟨e, he, hends.imp And.left And.right⟩

end Matcher
end Dataflow
