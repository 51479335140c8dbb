import Dataflow.Proofs.Cursor.Paths
import Dataflow.Proofs.Flow.Partitioning
import Dataflow.Proofs.Step.Cover

/-!
# Every element finds its step

Where the inner elements lie on ways, a region has a tap above it and another one below
it, so the step motif matches around it; and a tap is next to a region or to another
tap. So nothing is left without a draft. Where no region holds two groupings, each draft
can be finished. All that can go wrong is a cycle among the drafts.

Results:

* `Draft.exists_list`: the drafts are found;
* `Draft.exists_finish`: a draft is finished;
* `StepGraph.build_error`: how cutting a graph into steps can fail.
-/
namespace Dataflow

open Dataflow.Graph Relation

variable {g : Graph}

/-! ## The remainder stays in its domain -/

namespace Remainder

/-- The remainder of the whole graph holds inner elements alone. -/
theorem inner_of_compute (hends : g.EndsLive) {mask s : Selection}
    {pairs : List (ElementId × ElementId)} {multiEdge : Bool}
    (h : compute g (.whole g) mask pairs multiEdge = some s) {e : ElementId}
    (he : e ∈ s.elements) : g.contains e = true ∧ isExtent e = false := by
  refine ⟨?_, isExtent_of_compute h he⟩
  by_cases hdomain : e ∈ (Selection.whole g).elements
  · exact mem_elements.1 hdomain
  · -- it is an end of a scope
    obtain ⟨-, -, -, x, -, -, -, s, -, -, -, -, -, -, hconn, -⟩ :=
      (outside_iff_of_compute h).1 ⟨he, hdomain⟩
    obtain ⟨sc, hsc, ⟨rfl, rfl⟩ | ⟨rfl, rfl⟩⟩ := hconn
    · exact (hends _ _ ⟨s, sc, hsc, rfl, rfl⟩).1
    · exact (hends _ _ ⟨s, sc, hsc, rfl, rfl⟩).2

end Remainder

namespace Draft

/-! ## Everything is placed -/

/-- Around every region the step motif has a match. -/
theorem exists_match (hs : g.Shaped) (h : g.OnPath) {x r : ElementId} (hx : g.Works x)
    (hxr : (contraction g).representative? x = some r) :
    ∃ m ∈ regionMatches g, (ofMatch g m).IsRegion g r := by
  obtain ⟨rank, hrank⟩ := hs.acyclic
  have hrr := (Contraction.representative?_eq_iff hs.agrees hxr).2
    (Contraction.representative?_spec hs.agrees hxr).2
  have hxlink := (representative?_iff hs.agrees hrr).1 hxr
  have hr : g.Works r := of_reflTransGen_linked hx (reflTransGen_linked_symm hxlink)
  have hxext := hs.isExtent_eq_false (fun _ => rfl) hx
  have hname : ∀ {y}, ReflTransGen (g.Linked g.Works) x y →
      (contraction g).representative? y = some r := fun hy =>
    (representative?_iff hs.agrees hrr).2 (hxlink.trans hy)
  -- the tap below is chosen first, the one above then stands above that place
  obtain ⟨y, w, hy, hw, hyw, hxy⟩ := exists_tap_below hs h hx (h x hx.contains hxext).2
  have hyext := hs.isExtent_eq_false (fun _ => rfl) hy
  obtain ⟨u, z, hu, huz, hz, hzy, hlt⟩ := exists_tap_above hs hrank hy (h y hy.contains hyext).1
  have hne : u ≠ w := by
    rintro rfl
    exact Nat.lt_asymm hlt (hrank y u hyw)
  have hassign := (mem_assignments hs.agrees hr).2 ⟨u, w,
    ⟨hu, z, hname (hxy.trans (reflTransGen_linked_symm hzy)), huz⟩, ⟨hw, y, hname hxy, hyw⟩, hne,
    rfl⟩
  obtain ⟨m, hm⟩ := Matcher.exists_matchAt? hassign false
  exact ⟨m, List.mem_filterMap.2 ⟨r, (mem_anchors hs.agrees).2 ⟨hrr, hr⟩, hm⟩,
    isRegion_of_matchAt? hs.agrees hr hrr hm⟩

/-- What works is in the draft of its region, with the taps next to it. -/
theorem exists_match_beside (hs : g.Shaped) (h : g.OnPath) {x e : ElementId} (hx : g.Works x)
    (he : e = x ∨ (g.hasKind Kind.isTap e = true ∧ (g.Leads e x ∨ g.Leads x e))) :
    ∃ m ∈ regionMatches g, e ∈ (ofMatch g m).elements := by
  obtain ⟨r, hr⟩ := Contraction.exists_representative regionTest hx.contains
  obtain ⟨m, hm, hd⟩ := exists_match hs h hx hr
  have hxm : x ∈ (ofMatch g m).region := by
    have hlink := (Contraction.representative?_spec hs.agrees hr).2
    rw [candidate_eq] at hlink
    exact (hd.region x).2 (reflTransGen_linked_symm hlink)
  refine ⟨m, hm, (hd.elements e).2 ?_⟩
  rcases he with rfl | ⟨htap, hl | hl⟩
  · exact .inl hxm
  · exact .inr ⟨htap, .inl ⟨x, hxm, hl⟩⟩
  · exact .inr ⟨htap, .inr ⟨x, hxm, hl⟩⟩

/-- A tap stands next to something that works, or to another tap. -/
theorem exists_neighbour (hs : g.Shaped) (h : g.OnPath) {t : ElementId}
    (ht : g.hasKind Kind.isTap t = true) : ∃ x, (g.Leads t x ∨ g.Leads x t) ∧
      (g.Works x ∨ g.hasKind Kind.isTap x = true) := by
  have hext := hs.isExtent_eq_false (fun _ => rfl) ht
  obtain ⟨hhead, htail⟩ := h t (contains_of_hasKind ht) hext
  have hor : ∀ {x}, g.contains x = true → isExtent x = false →
      g.Works x ∨ g.hasKind Kind.isTap x = true := by
    intro x hx hxext
    by_cases hw : g.Works x
    · exact .inl hw
    · exact .inr ((hs.isTap_or_isExtent hx hw).resolve_right (by simp [hxext]))
  by_cases hsrc : g.hasKind Kind.isSource t = true
  · -- a source leads on, and not to `tail`
    rcases htail.cases_head with rfl | ⟨c, hc, -⟩
    · cases hext
    refine ⟨c, .inl hc, hor (hs.ends _ _ hc).2 ?_⟩
    rw [← Bool.not_eq_true, isExtent_iff]
    rintro (rfl | rfl)
    · exact h.not_leads_head hs t hc
    · rw [hasKind_eq_false (q := Kind.isSource) (fun k hk => by
        cases k <;> first | rfl | exact absurd hk Bool.false_ne_true) (hs.tail_fed t hc)] at hsrc
      cases hsrc
  · -- any other tap is fed, and not by `head`
    rcases hhead.cases_tail with rfl | ⟨a, -, ha⟩
    · cases hext
    refine ⟨a, .inr ha, hor (hs.ends _ _ ha).1 ?_⟩
    rw [← Bool.not_eq_true, isExtent_iff]
    rintro (rfl | rfl)
    · exact hsrc (hs.head_first t ha)
    · exact hs.tail_last t ha

/-- No scope has an end that was removed. -/
theorem exists_copies (hends : g.EndsLive) : ∃ copied, copies g = .ok copied := by
  have hnone : g.scopeList.findSome? (fun x => removedEnd? g x.2) = none := by
    refine List.findSome?_eq_none_iff.2 fun ⟨s, sc⟩ hmem => ?_
    obtain ⟨s', -, hsome⟩ := List.mem_filterMap.1 hmem
    obtain ⟨sc', hsc, heq⟩ := Option.map_eq_some_iff.1 hsome
    cases heq
    obtain ⟨ho, ht⟩ := hends _ _ ⟨s, sc, hsc, rfl, rfl⟩
    simp [removedEnd?, ho, ht]
  unfold copies
  rw [hnone]
  exact ⟨_, rfl⟩

theorem inner_of_mem_unclaimed (hends : g.EndsLive) {parts : List Selection} {multiEdge : Bool}
    {e : ElementId} (he : e ∈ unclaimed g parts multiEdge) :
    g.contains e = true ∧ isExtent e = false := by
  simp only [unclaimed] at he
  generalize hc : Remainder.compute g _ _ _ _ = found at he
  cases found with
  | none => exact absurd he IdSet.not_mem_empty
  | some s => exact Remainder.inner_of_compute hends hc he

/-- Every inner element finds a draft. -/
theorem exists_list (hs : g.Shaped) (h : g.OnPath) (multiEdge : Bool) :
    ∃ ds, list g multiEdge = .ok ds := by
  obtain ⟨copied, hcopied⟩ := exists_copies hs.ends
  have hplaced : ∀ e, g.contains e = true → isExtent e = false →
      (∃ m ∈ regionMatches g, e ∈ (ofMatch g m).elements) ∨ ∃ d ∈ copied, e ∈ d.elements := by
    intro e he hext
    by_cases hw : g.Works e
    · exact .inl (exists_match_beside hs h hw (.inl rfl))
    · have htap := (hs.isTap_or_isExtent he hw).resolve_right (by simp [hext])
      obtain ⟨x, hx, hxw | hxt⟩ := exists_neighbour hs h htap
      · exact .inl (exists_match_beside hs h hxw (.inr ⟨htap, hx⟩))
      · rcases hx with hx | hx
        · exact .inr ⟨_, mem_copies hs.agrees hcopied htap hxt hx, by simp [ofLink]⟩
        · exact .inr ⟨_, mem_copies hs.agrees hcopied hxt htap hx, by simp [ofLink]⟩
  rw [list_eq, hcopied]
  dsimp only
  split
  · next e hfound =>
    have hbad := List.find?_some hfound
    have hmem := List.mem_of_find?_eq_some hfound
    obtain ⟨hlive, hext⟩ := inner_of_mem_unclaimed hs.ends hmem
    rw [Bool.not_eq_true', ← Bool.not_eq_true, List.any_eq_true] at hbad
    refine absurd ?_ hbad
    rcases hplaced e hlive hext with ⟨m, hm, hem⟩ | ⟨d, hd, hed⟩
    · exact ⟨ofMatch g m, List.mem_append_left _ (List.mem_map_of_mem hm), decide_eq_true hem⟩
    · exact ⟨d, List.mem_append_right _ hd, decide_eq_true hed⟩
  · exact ⟨_, rfl⟩

/-! ## Every draft is finished -/

theorem mem_groupings {d : Draft} {x : ElementId × GroupKind × Join} (h : x ∈ d.groupings g) :
    x.1 ∈ d.region ∧ g.kind? x.1 = some (.group x.2.1 x.2.2) := by
  obtain ⟨e, he, hx⟩ := List.mem_filterMap.1 h
  split at hx
  · next hk => cases hx; exact ⟨he, hk⟩
  · cases hx

/-- Where no region holds two groupings, a draft holds one at most. -/
theorem length_groupings_le (hp : g.Partitioned) {d : Draft} (hd : d.IsDraft g) :
    (d.groupings g).length ≤ 1 := by
  have hsame : ∀ x ∈ d.groupings g, ∀ y ∈ d.groupings g, x = y := by
    intro x hx y hy
    obtain ⟨hxr, hxk⟩ := mem_groupings hx
    obtain ⟨hyr, hyk⟩ := mem_groupings hy
    have hgroup : ∀ {e kind join}, g.kind? e = some (.group kind join) →
        g.hasKind Kind.isGrouping e = true := fun hk => by rw [hasKind, hk]; rfl
    rcases hd with ⟨r, hd⟩ | hd
    · have hlink := (reflTransGen_linked_symm ((hd.region x.1).1 hxr)).trans
        ((hd.region y.1).1 hyr)
      have heq := hp x.1 y.1 (hgroup hxk) (hgroup hyk) hlink
      obtain ⟨e, kind, join⟩ := x
      obtain ⟨e', kind', join'⟩ := y
      obtain rfl : e = e' := heq
      rw [hxk] at hyk
      cases hyk
      rfl
    · rw [hd.region_eq] at hxr
      exact absurd hxr IdSet.not_mem_empty
  have hnodup : (d.groupings g).Nodup := by
    refine (IdSet.nodup_toList d.region).filterMap fun a a' b hb hb' => ?_
    rw [Option.mem_def] at hb hb'
    split at hb
    · split at hb'
      · cases hb; cases hb'; rfl
      · cases hb'
    · cases hb
  by_contra hlt
  have h1 : 1 < (d.groupings g).length := Nat.lt_of_not_le hlt
  have h0 : 0 < (d.groupings g).length := Nat.lt_of_succ_lt h1
  have heq := hsame _ (List.getElem_mem h0) _ (List.getElem_mem h1)
  exact absurd ((hnodup.getElem_inj_iff).1 heq) Nat.zero_ne_one

theorem exists_finish (hp : g.Partitioned) {d : Draft} (hd : d.IsDraft g)
    (order : List ElementId) (id total : Nat) : ∃ s, d.finish g order id total = .ok s := by
  have hlen := length_groupings_le hp hd
  unfold finish
  dsimp only
  rw [if_neg (Nat.not_lt_of_le hlen)]
  exact ⟨_, rfl⟩

end Draft

namespace StepGraph

theorem exists_steps (hp : g.Partitioned) (order : List ElementId) {ds : List Draft}
    (hds : ∀ d ∈ ds, d.IsDraft g) (sorted : List Nat) :
    ∃ steps, stepsOf g order ds sorted = .ok steps := by
  refine exists_ok_of_mapM fun x hx => ?_
  obtain ⟨i, -, hd⟩ := List.mem_filterMap.1 (List.fst_mem_of_mem_zipIdx hx)
  exact Draft.exists_finish hp (hds x.1 (List.mem_of_getElem? hd)) order x.2 sorted.length

/-- A graph fails to be cut into steps only where its drafts find no order. -/
theorem build_error (hs : g.Shaped) (h : g.OnPath) (hp : g.Partitioned) {multiEdge : Bool}
    {e : PlanError} (he : build g multiEdge = .error e) : ∃ ds c, Draft.list g multiEdge = .ok ds ∧
      Draft.order ds (Draft.handovers ds) = .error c ∧ e = .cycle c := by
  obtain ⟨order, horder⟩ := order_of_acyclic hs.agrees hs.ends hs.acyclic
  obtain ⟨ds, hds⟩ := Draft.exists_list hs h multiEdge
  unfold build at he
  rw [horder, hds] at he
  rcases bind_eq_error.1 he with he | ⟨order', -, he⟩
  · cases he
  rcases bind_eq_error.1 he with he | ⟨ds', hds', he⟩
  · cases he
  cases hds'
  rcases bind_eq_error.1 he with he | ⟨sorted, -, he⟩
  · obtain ⟨c, hc, rfl⟩ := mapError_eq_error.1 he
    exact ⟨ds, c, hds, hc, rfl⟩
  obtain ⟨steps, hsteps⟩ := exists_steps hp order'
    (fun d hd => (Draft.drafted_of_list hs.agrees hds).each d hd) sorted
  rw [hsteps] at he
  cases he

end StepGraph
end Dataflow
