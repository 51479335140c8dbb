import Mathlib.Data.List.GetD
import Mathlib.Data.List.Nodup
import Dataflow.Proofs.Flow.Cuts
import Dataflow.Proofs.Flow.Edits

/-!
# No region holds two groupings

A region is what hangs together through elements that work. Where job partitioning
finds nothing to cut, each region holds one grouping at most: the elements between two
groupings would show one of the four shapes. No edit joins two regions, so the later
rules keep it that way.

Results:

* `JobPartitioning.not_places`: a shape that is not found does not occur;
* `JobPartitioning.partitioned_of_findCut`: the fixed point of job partitioning;
* `Edits.partitioned`: what the other rules keep of it.
-/
namespace Dataflow

open Dataflow.Graph Relation

variable {g g' : Graph}

/-- Groupings that hang together through elements that work are one. -/
def Graph.Partitioned (g : Graph) : Prop :=
  ∀ u v, g.hasKind Kind.isGrouping u = true → g.hasKind Kind.isGrouping v = true →
    ReflTransGen (g.Linked g.Works) u v → u = v

namespace Graph

variable {scheme : String} {rules : TapRules}

/-- What hangs together after an edit did so before. -/
theorem Edit.linked (he : Edit scheme rules g g') (hs : g.Shaped) {a b : ElementId}
    (h : g'.Linked g'.Works a b) : ReflTransGen (g.Linked g.Works) a b := by
  have hrw := (Edit.keeps.{0} hs he).2
  have hworks : ∀ e, g'.Works e → g.Works e := fun e => hrw.hasKind_of (fun _ => rfl)
  have hnot : ∀ e, g'.Works e → g'.hasKind Kind.passesOn e = false := fun e hw => by
    rw [← Bool.not_eq_true]
    exact fun hp => not_works_of_isTap (hasKind_imp (fun _ => Kind.isTap_of_passesOn) hp) hw
  have hone : ∀ a b, g'.Works a → g'.Works b → g'.Leads a b →
      ReflTransGen (g.Linked g.Works) a b := by
    intro a b ha hb hl
    rcases he.leads hs hl with hl' | ⟨p, hp, hap, hpb⟩ | ⟨hpass, -⟩ | ⟨hpass, -⟩
    · exact .single ⟨hworks a ha, hworks b hb, .inl hl'⟩
    · have hpw : g.Works p := hasKind_imp (fun k hk => by rw [Kind.eq_pipe_of_isPipe hk]; rfl) hp
      exact (ReflTransGen.single ⟨hworks a ha, hpw, .inl hap⟩).tail ⟨hpw, hworks b hb, .inl hpb⟩
    · rw [hnot b hb] at hpass
      cases hpass
    · rw [hnot a ha] at hpass
      cases hpass
  obtain ⟨ha, hb, hl | hl⟩ := h
  · exact hone a b ha hb hl
  · exact reflTransGen_linked_symm (hone b a hb ha hl)

theorem Edit.partitioned (he : Edit scheme rules g g') (hs : g.Shaped) (h : g.Partitioned) :
    g'.Partitioned := by
  intro u v hu hv huv
  have hrw := (Edit.keeps.{0} hs he).2
  exact h u v (hrw.hasKind_of (fun _ => rfl) hu) (hrw.hasKind_of (fun _ => rfl) hv)
    (reflTransGen_closed (fun _ _ => he.linked hs) _ _ huv)

theorem Edits.partitioned (he : Edits scheme rules g g') (hs : g.Shaped) (h : g.Partitioned) :
    g'.Partitioned :=
  (he.induction hs h fun _ _ ha hp hab => hab.partitioned ha hp).2

end Graph

namespace JobPartitioning

/-- A shape that is not found does not occur. -/
theorem not_places (h : g.Agrees) (hcut : ∀ motif ∈ motifs, matchOf g motif = none) (motif : Motif)
    (hm : motif ∈ motifs) {f : Nat → ElementId} (hf : f 0 ∈ (contraction g).target.vertices) :
    ¬ (matcherOf motif).Places (contraction g).target f := by
  intro hplaces
  obtain ⟨rest, hsize, horder, hrest⟩ : ∃ rest, 0 < motif.size ∧
      List.range motif.size = 0 :: rest ∧ Matcher.chained motif [0] rest = true := by
    simp only [motifs, List.mem_cons, List.not_mem_nil, or_false] at hm
    rcases hm with rfl | rfl | rfl | rfl <;> exact ⟨_, by decide, rfl, rfl⟩
  obtain ⟨mt, hmt⟩ := hplaces.exists_firstMatch? (Contraction.dual h) hsize horder hrest hf true
  have hnone := hcut motif hm
  rw [matchOf, hmt] at hnone
  cases hnone

/-! ## Groupings and the regions between them -/

/-- An element that is per-tuple work. -/
def Processes (g : Graph) (e : ElementId) : Prop := g.hasKind Kind.isProcessing e = true

theorem candidate_eq : Contraction.Candidate g (.kind .processing) = Processes g := by
  funext e
  refine propext ⟨fun ⟨he, h⟩ => ?_, fun h => ?_⟩
  · rw [View.holds_kind_whole he] at h
    exact h
  · have he := contains_of_hasKind h
    exact ⟨he, (View.holds_kind_whole he).trans h⟩

theorem not_processes {e : ElementId} (h : g.hasKind Kind.isGrouping e = true) :
    ¬ Processes g e := by
  intro hp
  rw [Processes, hasKind_eq_false (fun _ => Kind.isProcessing_of_isGrouping) h] at hp
  cases hp

/-- What works is a grouping or is per-tuple work. -/
theorem isGrouping_or_processes {e : ElementId} (h : g.Works e) :
    g.hasKind Kind.isGrouping e = true ∨ Processes g e := by
  obtain ⟨x, hx, hk⟩ := hasKind_iff.1 h
  exact (Kind.isGrouping_or_isProcessing hk).imp (fun hk => hasKind_iff.2 ⟨x, hx, hk⟩)
    fun hk => hasKind_iff.2 ⟨x, hx, hk⟩

/-- A grouping stands for itself. -/
theorem representative?_grouping (h : g.Agrees) {u : ElementId}
    (hu : g.hasKind Kind.isGrouping u = true) {e : ElementId} :
    (contraction g).representative? e = some u ↔ e = u := by
  have hnot := not_processes hu
  obtain ⟨r, hr⟩ := Contraction.exists_representative (.kind .processing)
    (contains_of_hasKind hu)
  have hlink := (Contraction.representative?_spec h hr).2
  rw [candidate_eq] at hlink
  obtain rfl := eq_of_reflTransGen_linked hnot hlink
  rw [contraction, Contraction.representative?_eq_iff h hr, candidate_eq]
  constructor
  · exact fun he => eq_of_reflTransGen_linked hnot he
  · rintro rfl
    exact .refl

theorem representative?_self (h : g.Agrees) {u : ElementId}
    (hu : g.hasKind Kind.isGrouping u = true) : (contraction g).representative? u = some u :=
  (representative?_grouping h hu).2 rfl

theorem holds_grouping (h : g.Agrees) {u : ElementId} (hu : g.hasKind Kind.isGrouping u = true) :
    (VertexTest.kind .grouping).holds (contraction g).target u = true := by
  refine Contraction.holds_kind_whole.2 ⟨⟨u, representative?_self h hu⟩, fun e he => ?_⟩
  rw [(representative?_grouping h hu).1 he]
  exact hu

theorem holds_processing (h : g.Agrees) {e r : ElementId} (he : Processes g e)
    (hr : (contraction g).representative? e = some r) :
    (VertexTest.kind .processing).holds (contraction g).target r = true := by
  refine Contraction.holds_kind_whole.2 ⟨⟨e, hr⟩, fun e' he' => ?_⟩
  have hlink := (Contraction.representative?_eq_iff h hr).1 he'
  rw [candidate_eq] at hlink
  exact of_reflTransGen_linked he hlink

/-- The name of a region is no grouping. -/
theorem representative_ne (h : g.Agrees) {e r u : ElementId} (he : Processes g e)
    (hr : (contraction g).representative? e = some r) (hu : g.hasKind Kind.isGrouping u = true) :
    u ≠ r := by
  rintro rfl
  rw [(representative?_grouping h hu).1 hr] at he
  exact not_processes hu he

theorem mem_vertices (h : g.Agrees) {e r : ElementId}
    (hr : (contraction g).representative? e = some r) : r ∈ (contraction g).target.vertices := by
  refine Contraction.mem_vertices.2 ((Contraction.representative?_eq_iff h hr).2 ?_)
  exact (Contraction.representative?_spec h hr).2

/-- Distinct vertices that pass the tests of a shape, with an edge wherever it has an arc,
are an occurrence of it. -/
theorem places_of {motif : Motif} {t : Target} {l : List ElementId} (hlen : l.length = motif.size)
    (hnodup : l.Nodup)
    (htests : ∀ p < motif.size, (matcherOf motif).admits t p (l.getD p 0) = true)
    (harcs : ∀ e ∈ motif.edges, t.scopesBetween (l.getD e.origin 0) (l.getD e.target 0) e.test ≠ []) :
    (matcherOf motif).Places t fun p => l.getD p 0 where
  injective p hp q hq heq := by
    replace hp : p < l.length := hlen ▸ hp
    replace hq : q < l.length := hlen ▸ hq
    simp only [List.getD_eq_getElem _ _ hp, List.getD_eq_getElem _ _ hq] at heq
    exact (List.Nodup.getElem_inj_iff hnodup).1 heq
  admits := htests
  edges := harcs

section Shapes

variable {u v x y r : ElementId} (h : g.Agrees) (hcut : ∀ motif ∈ motifs, matchOf g motif = none)
  (hu : g.hasKind Kind.isGrouping u = true) (hv : g.hasKind Kind.isGrouping v = true)
include h hcut hu hv

/-- No grouping feeds another one. -/
theorem eq_of_leads (huv : g.Leads u v) : u = v := by
  by_contra hne
  refine not_places h hcut ⟨[grouping .primary, grouping .secondary], [arc 0 1]⟩
    (by simp [motifs]) (mem_vertices h (representative?_self h hu))
    (places_of (l := [u, v]) rfl (by simp [hne]) (fun p hp => ?_) (fun e he => ?_))
  · rcases p with _ | _ | p
    · exact holds_grouping h hu
    · exact holds_grouping h hv
    · exact absurd hp (Nat.not_lt_of_le (Nat.le_add_left 2 p))
  · rw [List.mem_singleton.1 he]
    exact Contraction.scopesBetween_ne_nil h hne (representative?_self h hu)
      (representative?_self h hv) huv

variable (hx : Processes g x) (hxr : (contraction g).representative? x = some r)
include hx hxr

/-- Two groupings are one if they stand at a region in one of the two ways that a shape
anchored there has. -/
theorem eq_of_anchored (arcs : List MotifEdge)
    (hm : ⟨[processing (some .primary), grouping .included, grouping .secondary], arcs⟩ ∈ motifs)
    (harcs : r ≠ u → r ≠ v → ∀ e ∈ arcs, (contraction g).target.scopesBetween
      ([r, u, v].getD e.origin 0) ([r, u, v].getD e.target 0) e.test ≠ []) : u = v := by
  by_contra hne
  have hru := (representative_ne h hx hxr hu).symm
  have hrv := (representative_ne h hx hxr hv).symm
  refine not_places h hcut _ hm (mem_vertices h hxr)
    (places_of (l := [r, u, v]) rfl (by simp [hne, hru, hrv]) (fun p hp => ?_) (harcs hru hrv))
  rcases p with _ | _ | _ | p
  · exact holds_processing h hx hxr
  · exact holds_grouping h hu
  · exact holds_grouping h hv
  · exact absurd hp (Nat.not_lt_of_le (Nat.le_add_left 3 p))

variable (hyr : (contraction g).representative? y = some r)
include hyr

/-- No region feeds two groupings. -/
theorem eq_of_forked (hxu : g.Leads x u) (hyv : g.Leads y v) : u = v := by
  refine eq_of_anchored h hcut hu hv hx hxr [arc 0 1, arc 0 2] (by simp [motifs])
    fun hru hrv e he => ?_
  simp only [List.mem_cons, List.not_mem_nil, or_false] at he
  rcases he with rfl | rfl
  · exact Contraction.scopesBetween_ne_nil h hru hxr (representative?_self h hu) hxu
  · exact Contraction.scopesBetween_ne_nil h hrv hyr (representative?_self h hv) hyv

/-- No two groupings feed one region. -/
theorem eq_of_merged (hux : g.Leads u x) (hvy : g.Leads v y) : u = v := by
  refine eq_of_anchored h hcut hu hv hx hxr [arc 1 0, arc 2 0] (by simp [motifs])
    fun hru hrv e he => ?_
  simp only [List.mem_cons, List.not_mem_nil, or_false] at he
  rcases he with rfl | rfl
  · exact Contraction.scopesBetween_ne_nil h hru.symm (representative?_self h hu) hxr hux
  · exact Contraction.scopesBetween_ne_nil h hrv.symm (representative?_self h hv) hyr hvy

/-- No grouping feeds a region that feeds another one. -/
theorem eq_of_relayed (hux : g.Leads u x) (hyv : g.Leads y v) : u = v := by
  by_contra hne
  have hur := representative_ne h hx hxr hu
  have hvr := representative_ne h hx hxr hv
  refine not_places h hcut
    ⟨[grouping .primary, processing none, grouping .secondary], [arc 0 1, arc 1 2]⟩
    (by simp [motifs]) (mem_vertices h (representative?_self h hu))
    (places_of (l := [u, r, v]) rfl (by simp [hne, hur, hvr.symm]) (fun p hp => ?_)
      (fun e he => ?_))
  · rcases p with _ | _ | _ | p
    · exact holds_grouping h hu
    · exact holds_processing h hx hxr
    · exact holds_grouping h hv
    · exact absurd hp (Nat.not_lt_of_le (Nat.le_add_left 3 p))
  · simp only [List.mem_cons, List.not_mem_nil, or_false] at he
    rcases he with rfl | rfl
    · exact Contraction.scopesBetween_ne_nil h hur (representative?_self h hu) hxr hux
    · exact Contraction.scopesBetween_ne_nil h hvr.symm hyr (representative?_self h hv) hyv

end Shapes

/-- Where nothing is cut, the region of a grouping holds no other one. Along a chain of
links from a grouping every element that processes is in a region next to it. -/
theorem partitioned_of_findCut (h : g.Agrees) (hends : g.EndsLive)
    (hnone : findCut g = .ok none) : g.Partitioned := by
  have hcut := (findCut_eq_none_iff h hends).1 hnone
  intro u v hu hv huv
  have hwalk : ∀ z, ReflTransGen (g.Linked g.Works) u z → z = u ∨ (Processes g z ∧
      ∃ x r, Processes g x ∧ (contraction g).representative? x = some r ∧
        (contraction g).representative? z = some r ∧ (g.Leads u x ∨ g.Leads x u)) := by
    intro z hz
    induction hz with
    | refl => exact .inl rfl
    | @tail y z _ hyz ih =>
      obtain ⟨-, hz, hl⟩ := hyz
      rcases isGrouping_or_processes hz with hzg | hzp
      · left
        rcases ih with rfl | ⟨hyp, x, r, hx, hxr, hyr, hxu⟩
        · exact hl.elim (fun hl => (eq_of_leads h hcut hu hzg hl).symm)
            fun hl => eq_of_leads h hcut hzg hu hl
        · rcases hxu with hxu | hxu <;> rcases hl with hl | hl
          · exact (eq_of_relayed h hcut hu hzg hx hxr hyr hxu hl).symm
          · exact (eq_of_merged h hcut hu hzg hx hxr hyr hxu hl).symm
          · exact (eq_of_forked h hcut hu hzg hx hxr hyr hxu hl).symm
          · exact eq_of_relayed h hcut hzg hu hyp hyr hxr hl hxu
      · refine .inr ⟨hzp, ?_⟩
        rcases ih with rfl | ⟨hyp, x, r, hx, hxr, hyr, hxu⟩
        · obtain ⟨r, hr⟩ := Contraction.exists_representative (.kind .processing)
            (contains_of_hasKind hzp)
          exact ⟨z, r, hzp, hr, hr, hl⟩
        · refine ⟨x, r, hx, hxr, (Contraction.representative?_eq_iff h hyr).2 ?_, hxu⟩
          rw [candidate_eq]
          exact .single ⟨hyp, hzp, hl⟩
  rcases hwalk v huv with rfl | ⟨hvp, -⟩
  · rfl
  · exact absurd hvp (not_processes hv)

end JobPartitioning
end Dataflow
