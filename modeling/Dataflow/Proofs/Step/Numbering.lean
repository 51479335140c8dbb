import Dataflow.Step.Build
import Dataflow.Proofs.Step.Drafts
import Dataflow.Proofs.Step.Sorting
import Dataflow.Proofs.Success

/-!
# From drafts to steps

The order of the drafts is a permutation of their numbers, so the drafts in that
order are as good a list of drafts as the one they were found in. `Lists` reads a
step graph off such a list: step `k` finishes draft `k`, and the edges are the
handovers between different places, all of them forwards.

Results:

* `Drafted.perm`: what holds of the drafts holds of them in every order;
* `mem_handovers`: a handover is a tap that one draft writes and another one reads;
* `lists_of_build`: a step graph that is built lists the drafts of its graph.
-/
namespace Dataflow

open Dataflow.Graph

variable {g : Graph}

namespace Draft

theorem Drafted.perm {ds l : List Draft} (h : Drafted g ds) (hp : l.Perm ds) : Drafted g l where
  each d hd := h.each d (hp.mem_iff.1 hd)
  apart := by
    refine (hp.pairwise_iff fun {d d'} hdd' => ⟨hdd'.1.symm, fun e he he' => ?_⟩).2 h.apart
    exact hdd'.2 e he' he
  copied a b ha hb hab := hp.mem_iff.2 (h.copied a b ha hb hab)
  placed e he hx := by
    obtain ⟨d, hd, hed⟩ := h.placed e he hx
    exact ⟨d, hp.mem_iff.2 hd, hed⟩

/-! ## Drafts in order -/

/-- The drafts with the given numbers. -/
def numbered (ds : List Draft) (l : List Nat) : List Draft := l.filterMap (ds[·]?)

theorem getElem?_numbered {ds : List Draft} {l : List Nat} (hl : ∀ i ∈ l, i < ds.length) (k : Nat) :
    (numbered ds l)[k]? = l[k]?.bind (ds[·]?) := by
  unfold numbered
  induction l generalizing k with
  | nil => rfl
  | cons i rest ih =>
    have hi := List.getElem?_eq_getElem (hl i List.mem_cons_self)
    rw [List.filterMap_cons, hi]
    cases k with
    | zero => exact hi.symm
    | succ k => exact ih (fun j hj => hl j (List.mem_cons_of_mem i hj)) k

theorem numbered_range (ds : List Draft) : numbered ds (List.range ds.length) = ds := by
  refine List.ext_getElem? fun k => ?_
  rw [getElem?_numbered fun i hi => List.mem_range.1 hi]
  by_cases hk : k < ds.length
  · rw [List.getElem?_range hk]
    rfl
  · rw [List.getElem?_eq_none (by simpa using hk), List.getElem?_eq_none (Nat.le_of_not_lt hk)]
    rfl

theorem perm_numbered {ds : List Draft} {l : List Nat} (hl : l.Perm (List.range ds.length)) :
    (numbered ds l).Perm ds := by
  have hp : (numbered ds l).Perm (numbered ds (List.range ds.length)) := hl.filterMap (ds[·]?)
  rw [numbered_range] at hp
  exact hp

theorem mem_handovers {ds : List Draft} {h : Handover} : h ∈ handovers ds ↔
    h.producer ≠ h.consumer ∧ ∃ d d', ds[h.producer]? = some d ∧ ds[h.consumer]? = some d' ∧
      h.tap ∈ d.sinks ∧ h.tap ∈ d'.sources := by
  simp only [handovers, List.mem_flatMap]
  constructor
  · rintro ⟨⟨d, i⟩, hd, ⟨d', j⟩, hd', hh⟩
    split at hh
    · cases hh
    · next hij =>
      obtain ⟨t, ht, rfl⟩ := List.mem_map.1 hh
      obtain ⟨hs, hr⟩ := List.mem_filter.1 ht
      exact ⟨hij, d, d', List.mem_zipIdx_iff_getElem?.1 hd, List.mem_zipIdx_iff_getElem?.1 hd', hs,
        by simpa using hr⟩
  · rintro ⟨hij, d, d', hd, hd', hs, hr⟩
    refine ⟨(d, h.producer), List.mem_zipIdx_iff_getElem?.2 hd, (d', h.consumer),
      List.mem_zipIdx_iff_getElem?.2 hd', ?_⟩
    rw [if_neg hij]
    exact List.mem_map.2 ⟨h.tap, List.mem_filter.2 ⟨hs, by simpa using hr⟩, rfl⟩

/-- The order lists every number once, and each producer before its consumers. -/
theorem order_spec {ds : List Draft} {hs : List Handover} {l : List Nat}
    (h : order ds hs = .ok l) : l.Perm (List.range ds.length) ∧
      ∀ x ∈ hs, x.consumer < ds.length → l.idxOf x.producer < l.idxOf x.consumer := by
  rw [order_eq] at h
  split at h
  · next numbers ho =>
    cases h
    have hperm := Topology.perm_of_order ho
    rw [toList_vertices] at hperm
    refine ⟨hperm, fun x hx hlt => ?_⟩
    have hin : (x.tap, x.producer) ∈ (topology ds.length hs).edgesIn x.consumer :=
      List.mem_map.2 ⟨x, List.mem_filter.2 ⟨hx, by simp⟩, rfl⟩
    exact (Topology.fed_of_order ho).idxOf_lt (hperm.mem_iff.2 (List.mem_range.2 hlt)) hin
  · cases h

end Draft

namespace StepGraph

open Draft

/-- The steps of `p` are those of the drafts in `l`, place by place. -/
structure Lists (g : Graph) (order : List ElementId) (l : List Draft) (p : StepGraph) : Prop where
  agrees : g.Agrees
  ordered : g.topology.order = .ok order
  drafted : Drafted g l
  finished : ∀ k d, l[k]? = some d → ∃ s, p.step? k = some s ∧ d.finish g order k l.length = .ok s
  found : ∀ k s, p.step? k = some s → ∃ d, l[k]? = some d ∧ d.finish g order k l.length = .ok s
  edges : ∀ e, e ∈ p.edges ↔ ∃ a b d d' t, a ≠ b ∧ l[a]? = some d ∧ l[b]? = some d' ∧
    t ∈ d.sinks ∧ t ∈ d'.sources ∧ e = ⟨a, b, g.nameOf t⟩
  forward : ∀ e ∈ p.edges, e.origin < e.target

theorem stepsOf_spec {order : List ElementId} {ds : List Draft} {sorted : List Nat}
    {steps : List Step} (h : stepsOf g order ds sorted = .ok steps)
    (hp : sorted.Perm (List.range ds.length)) :
    (∀ (k : Nat) (d : Draft), (numbered ds sorted)[k]? = some d →
      ∃ s, steps[k]? = some s ∧ d.finish g order k (numbered ds sorted).length = .ok s) ∧
    ∀ (k : Nat) (s : Step), steps[k]? = some s → ∃ d, (numbered ds sorted)[k]? = some d ∧
      d.finish g order k (numbered ds sorted).length = .ok s := by
  have hlen : (numbered ds sorted).length = sorted.length := by
    rw [(perm_numbered hp).length_eq, hp.length_eq, List.length_range]
  change (numbered ds sorted).zipIdx.mapM (fun x => x.1.finish g order x.2 sorted.length) =
    .ok steps at h
  rw [hlen]
  constructor
  · intro k d hd
    have hz : (numbered ds sorted).zipIdx[k]? = some (d, k) := by
      rw [List.getElem?_zipIdx, hd]
      simp
    exact getElem?_of_mapM h hz
  · intro k s hs
    obtain ⟨⟨d, i⟩, hz, hf⟩ := getElem?_of_mapM_result h hs
    rw [List.getElem?_zipIdx, Option.map_eq_some_iff] at hz
    obtain ⟨d', hd', heq⟩ := hz
    simp only [Nat.zero_add, Prod.mk.injEq] at heq
    obtain ⟨rfl, rfl⟩ := heq
    exact ⟨d', hd', hf⟩

/-- In a list without repetitions, the place of a member is where it stands. -/
theorem idxOf_eq_iff {l : List Nat} (hn : l.Nodup) {i k : Nat} (hi : i ∈ l) :
    l.idxOf i = k ↔ l[k]? = some i := by
  constructor
  · rintro rfl
    have hlt := List.idxOf_lt_length_of_mem hi
    rw [List.getElem?_eq_getElem hlt, List.getElem_idxOf]
  · intro hk
    obtain ⟨hlt, rfl⟩ := List.getElem?_eq_some_iff.1 hk
    exact hn.idxOf_getElem k hlt

theorem mem_edgesOf {ds : List Draft} {sorted : List Nat}
    (hp : sorted.Perm (List.range ds.length)) {e : StepEdge} :
    e ∈ edgesOf g sorted (handovers ds) ↔ ∃ a b d d' t, a ≠ b ∧
      (numbered ds sorted)[a]? = some d ∧ (numbered ds sorted)[b]? = some d' ∧
      t ∈ d.sinks ∧ t ∈ d'.sources ∧ e = ⟨a, b, g.nameOf t⟩ := by
  have hn : sorted.Nodup := hp.nodup_iff.2 List.nodup_range
  have hlt : ∀ i ∈ sorted, i < ds.length := fun i hi => List.mem_range.1 (hp.mem_iff.1 hi)
  have hmem : ∀ {i d}, ds[i]? = some d → i ∈ sorted := fun hd =>
    hp.mem_iff.2 (List.mem_range.2 (List.getElem?_eq_some_iff.1 hd).1)
  -- a draft stands where its number stands
  have hat : ∀ k d, (numbered ds sorted)[k]? = some d ↔
      ∃ i, sorted.idxOf i = k ∧ ds[i]? = some d := by
    intro k d
    rw [getElem?_numbered hlt, Option.bind_eq_some_iff]
    constructor
    · rintro ⟨i, hi, hd⟩
      exact ⟨i, (idxOf_eq_iff hn (hmem hd)).2 hi, hd⟩
    · rintro ⟨i, hi, hd⟩
      exact ⟨i, (idxOf_eq_iff hn (hmem hd)).1 hi, hd⟩
  rw [edgesOf, List.mem_mergeSort, List.mem_map]
  constructor
  · rintro ⟨h, hh, rfl⟩
    obtain ⟨hne, d, d', hd, hd', hs, hr⟩ := mem_handovers.1 hh
    refine ⟨_, _, d, d', h.tap, fun heq => hne ?_, (hat _ _).2 ⟨_, rfl, hd⟩,
      (hat _ _).2 ⟨_, rfl, hd'⟩, hs, hr, rfl⟩
    have hp := (idxOf_eq_iff hn (hmem hd)).1 heq
    rw [(idxOf_eq_iff hn (hmem hd')).1 rfl] at hp
    exact (Option.some.inj hp).symm
  · rintro ⟨a, b, d, d', t, hne, ha, hb, hs, hr, rfl⟩
    obtain ⟨i, rfl, hd⟩ := (hat a d).1 ha
    obtain ⟨j, rfl, hd'⟩ := (hat b d').1 hb
    refine ⟨⟨i, j, t⟩, mem_handovers.2 ⟨?_, d, d', hd, hd', hs, hr⟩, rfl⟩
    exact fun hij => hne (congrArg sorted.idxOf hij)

theorem build_eq_ok {multiEdge : Bool} {p : StepGraph} (h : build g multiEdge = .ok p) :
    ∃ order ds sorted, g.topology.order = .ok order ∧ Draft.list g multiEdge = .ok ds ∧
      Draft.order ds (handovers ds) = .ok sorted ∧ stepsOf g order ds sorted = .ok p.steps ∧
      p.edges = edgesOf g sorted (handovers ds) := by
  unfold build at h
  obtain ⟨order, horder, h⟩ := bind_eq_ok.1 h
  obtain ⟨ds, hds, h⟩ := bind_eq_ok.1 h
  obtain ⟨sorted, hsorted, h⟩ := bind_eq_ok.1 h
  obtain ⟨steps, hsteps, h⟩ := bind_eq_ok.1 h
  cases h
  exact ⟨order, ds, sorted, mapError_eq_ok.1 horder, hds, mapError_eq_ok.1 hsorted, hsteps, rfl⟩

/-- A step graph that is built lists the drafts of its graph. -/
theorem lists_of_build (h : g.Agrees) {multiEdge : Bool} {p : StepGraph}
    (hb : build g multiEdge = .ok p) :
    ∃ order l, p.Lists g order l := by
  obtain ⟨order, ds, sorted, horder, hds, hsorted, hsteps, hedges⟩ := build_eq_ok hb
  obtain ⟨hp, hforward⟩ := order_spec hsorted
  obtain ⟨hfinished, hfound⟩ := stepsOf_spec hsteps hp
  refine ⟨order, numbered ds sorted, h, horder, (drafted_of_list h hds).perm (perm_numbered hp),
    hfinished, hfound, fun e => ?_, fun e he => ?_⟩
  · rw [hedges]
    exact mem_edgesOf hp
  · rw [hedges, edgesOf, List.mem_mergeSort, List.mem_map] at he
    obtain ⟨x, hx, rfl⟩ := he
    obtain ⟨-, -, d', -, hd', -⟩ := mem_handovers.1 hx
    exact hforward x hx (List.getElem?_eq_some_iff.1 hd').1

end StepGraph
end Dataflow
