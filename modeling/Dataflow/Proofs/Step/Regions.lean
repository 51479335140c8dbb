import Dataflow.Step.Draft
import Dataflow.Proofs.Contraction
import Dataflow.Proofs.Kinds
import Dataflow.Proofs.Motif.Matcher

/-!
# What a region draft holds

An element works if it is neither a tap nor an extent. Contracting by `regionTest`
merges the working elements that hang together, and leaves taps and extents alone.
The step motif wants a tap on either side of such a region, and the two must differ;
once there is one such pair, the match holds every tap next to the region.

Results:

* `candidate_regionTest`: the test accepts what works;
* `mem_assignments`: the assignments of the step motif around a region;
* `isRegion_of_matchAt?`: what the draft of a match holds.
-/
namespace Dataflow

open Dataflow.Graph Relation

variable {g : Graph}

namespace Draft

/-- The graph with its regions contracted. -/
def contraction (g : Graph) : Contraction := (View.whole g).contract regionTest

theorem holds_regionTest {t : Target} {v : ElementId} : regionTest.holds t v = true ↔
    (VertexTest.kind .tap).holds t v = false ∧ (VertexTest.kind .extent).holds t v = false := by
  show (!(VertexTest.kind .tap).holds t v &&
    (!(VertexTest.kind .extent).holds t v && true)) = true ↔ _
  simp

/-- The regions are made of what works. -/
theorem candidate_regionTest {e : ElementId} :
    Contraction.Candidate g regionTest e ↔ g.Works e := by
  rw [works_iff, Contraction.Candidate, holds_regionTest]
  refine and_congr_right fun he => ?_
  rw [View.holds_kind_whole he, View.holds_kind_whole he]
  rfl

theorem candidate_eq : Contraction.Candidate g regionTest = g.Works :=
  funext fun _ => propext candidate_regionTest

/-! ## The vertices of the contraction -/

/-- The name of the region of an element, or the element itself. -/
theorem representative?_iff (h : g.Agrees) {e r : ElementId}
    (hr : (contraction g).representative? r = some r) :
    (contraction g).representative? e = some r ↔ ReflTransGen (g.Linked g.Works) r e := by
  have hiff := Contraction.representative?_eq_iff (b := e) h hr
  rw [candidate_eq] at hiff
  exact hiff

/-- What does not work is a vertex of its own. -/
theorem representative?_of_not_works (h : g.Agrees) {e : ElementId} (he : g.contains e = true)
    (hw : ¬ g.Works e) : (contraction g).representative? e = some e := by
  obtain ⟨r, hr⟩ := Contraction.exists_representative regionTest he
  have hlink := (Contraction.representative?_spec h hr).2
  rw [candidate_eq] at hlink
  have hre : r = e := eq_of_reflTransGen_linked hw hlink
  rw [hre] at hr
  exact hr

theorem eq_of_representative? (h : g.Agrees) {e r : ElementId} (hw : ¬ g.Works r)
    (hr : (contraction g).representative? e = some r) : e = r := by
  have hlink := (Contraction.representative?_spec h hr).2
  rw [candidate_eq] at hlink
  exact eq_of_reflTransGen_linked hw (reflTransGen_linked_symm hlink)

/-- A tap stands for itself alone. -/
theorem representative?_tap_iff (h : g.Agrees) {e t : ElementId}
    (ht : g.hasKind Kind.isTap t = true) :
    (contraction g).representative? e = some t ↔ t = e := by
  have hnw := not_works_of_isTap ht
  constructor
  · intro he
    exact (eq_of_representative? h hnw he).symm
  · rintro rfl
    exact representative?_of_not_works h (contains_of_hasKind ht) hnw

/-- Asked of a vertex, a kind test looks at the kinds of everything behind it. -/
theorem holds_kind_contraction {c : KindClass} {v : ElementId} :
    (VertexTest.kind c).holds (contraction g).target v = true ↔
      (∃ e, (contraction g).representative? e = some v) ∧
        ∀ e, (contraction g).representative? e = some v → g.hasKind c.admits e = true :=
  Contraction.holds_kind_whole

theorem holds_tap_contraction (h : g.Agrees) {v : ElementId} :
    (VertexTest.kind .tap).holds (contraction g).target v = true ↔
      g.hasKind Kind.isTap v = true := by
  rw [holds_kind_contraction]
  constructor
  · rintro ⟨⟨e, he⟩, hall⟩
    have htap := hall e he
    have hlink := (Contraction.representative?_spec h he).2
    rw [candidate_eq] at hlink
    rw [eq_of_reflTransGen_linked (not_works_of_isTap htap) hlink]
    exact htap
  · intro htap
    refine ⟨⟨v, (representative?_tap_iff h htap).2 rfl⟩, fun e he => ?_⟩
    rw [← (representative?_tap_iff h htap).1 he]
    exact htap

/-- The regions are the vertices that pass the test of the step motif. -/
theorem holds_regionTest_contraction (h : g.Agrees) {v : ElementId}
    (hv : (contraction g).representative? v = some v) :
    regionTest.holds (contraction g).target v = true ↔ g.Works v := by
  have hlive := (Contraction.representative?_spec h hv).1
  rw [holds_regionTest, works_iff]
  constructor
  · rintro ⟨htap, hext⟩
    have hnt : g.hasKind Kind.isTap v = false := by
      rw [← Bool.not_eq_true, ← holds_tap_contraction h, htap]
      exact Bool.false_ne_true
    refine ⟨hlive, hnt, ?_⟩
    by_cases hx : g.hasKind Kind.isExtent v = true
    · have hnw : ¬ g.Works v := fun hw => by
        rw [(works_iff.1 hw).2.2] at hx
        cases hx
      have hhold : (VertexTest.kind .extent).holds (contraction g).target v = true := by
        refine holds_kind_contraction.2 ⟨⟨v, hv⟩, fun e he => ?_⟩
        rw [eq_of_representative? h hnw he]
        exact hx
      rw [hext] at hhold
      cases hhold
    · exact Bool.not_eq_true _ ▸ hx
  · rintro ⟨-, hnt, hnx⟩
    constructor <;> rw [← Bool.not_eq_true, holds_kind_contraction] <;> rintro ⟨-, hall⟩
    · have := hall v hv
      rw [show g.hasKind KindClass.tap.admits v = false from hnt] at this
      cases this
    · have := hall v hv
      rw [show g.hasKind KindClass.extent.admits v = false from hnx] at this
      cases this

/-! ## The edges of the contraction -/

theorem mem_predecessors_contraction (h : g.Agrees) {u r : ElementId} :
    u ∈ (contraction g).target.predecessors r ↔ u ≠ r ∧
      ∃ a b, (contraction g).representative? a = some u ∧
        (contraction g).representative? b = some r ∧ g.Leads a b := by
  simp only [Topology.predecessors, IdSet.mem_ofList, List.mem_map]
  constructor
  · rintro ⟨⟨s, u'⟩, he, rfl⟩
    obtain ⟨hne, b, a, hb, ha, hsc⟩ := (Contraction.mem_edgesIn_whole h).1 he
    exact ⟨hne, a, b, ha, hb, s, hsc⟩
  · rintro ⟨hne, a, b, ha, hb, s, hsc⟩
    exact ⟨(s, u), (Contraction.mem_edgesIn_whole h).2 ⟨hne, b, a, hb, ha, hsc⟩, rfl⟩

theorem mem_successors_contraction (h : g.Agrees) {r w : ElementId} :
    w ∈ (contraction g).target.successors r ↔ w ≠ r ∧
      ∃ a b, (contraction g).representative? a = some r ∧
        (contraction g).representative? b = some w ∧ g.Leads a b := by
  simp only [Topology.successors, IdSet.mem_ofList, List.mem_map]
  constructor
  · rintro ⟨⟨s, w'⟩, he, rfl⟩
    obtain ⟨hne, a, b, ha, hb, hsc⟩ := (Contraction.mem_edgesOut_whole h).1 he
    exact ⟨hne, a, b, ha, hb, s, hsc⟩
  · rintro ⟨hne, a, b, ha, hb, s, hsc⟩
    exact ⟨(s, w), (Contraction.mem_edgesOut_whole h).2 ⟨hne, a, b, ha, hb, hsc⟩, rfl⟩

/-- Next to each other, as successor or as predecessor, means joined by a scope. -/
theorem scopesBetween_contraction (h : g.Agrees) {a b u w : ElementId} (hne : u ≠ w)
    (ha : (contraction g).representative? a = some u)
    (hb : (contraction g).representative? b = some w) (hab : g.Leads a b) :
    ((contraction g).target.scopesBetween u w .any).isEmpty = false :=
  List.isEmpty_eq_false_iff.2 (Contraction.scopesBetween_ne_nil h hne ha hb hab)

/-- The tap feeds the region. -/
def Feeds (g : Graph) (u r : ElementId) : Prop :=
  g.hasKind Kind.isTap u = true ∧ ∃ x, (contraction g).representative? x = some r ∧ g.Leads u x

/-- The region feeds the tap. -/
def FedBy (g : Graph) (w r : ElementId) : Prop :=
  g.hasKind Kind.isTap w = true ∧ ∃ x, (contraction g).representative? x = some r ∧ g.Leads x w

/-- The taps that feed a region are its predecessors. -/
theorem feeds_iff (h : g.Agrees) {u r : ElementId} (hr : g.Works r) : Feeds g u r ↔
    g.hasKind Kind.isTap u = true ∧ u ∈ (contraction g).target.predecessors r := by
  refine and_congr_right fun htap => ?_
  have hnw := not_works_of_isTap htap
  rw [mem_predecessors_contraction h]
  constructor
  · rintro ⟨x, hx, hux⟩
    refine ⟨?_, u, x, (representative?_tap_iff h htap).2 rfl, hx, hux⟩
    rintro rfl
    exact hnw hr
  · rintro ⟨-, a, x, ha, hx, hax⟩
    rw [← (representative?_tap_iff h htap).1 ha] at hax
    exact ⟨x, hx, hax⟩

theorem fedBy_iff (h : g.Agrees) {w r : ElementId} (hr : g.Works r) : FedBy g w r ↔
    g.hasKind Kind.isTap w = true ∧ w ∈ (contraction g).target.successors r := by
  refine and_congr_right fun htap => ?_
  have hnw := not_works_of_isTap htap
  rw [mem_successors_contraction h]
  constructor
  · rintro ⟨x, hx, hxw⟩
    refine ⟨?_, x, w, hx, (representative?_tap_iff h htap).2 rfl, hxw⟩
    rintro rfl
    exact hnw hr
  · rintro ⟨-, x, b, hx, hb, hxb⟩
    rw [← (representative?_tap_iff h htap).1 hb] at hxb
    exact ⟨x, hx, hxb⟩

/-! ## The matches of the step motif -/

/-- The step motif, searched from its region outwards. -/
def regionMatcher : Matcher := ⟨motif, 1, [1, 0, 2]⟩

theorem fits_input (h : g.Agrees) {u r : ElementId} (hr : g.Works r) (hu : Feeds g u r) :
    regionMatcher.fits (contraction g).target [(1, r)] 0 u = true := by
  obtain ⟨htap, x, hx, hux⟩ := hu
  have hnw := not_works_of_isTap htap
  have hne : u ≠ r := by rintro rfl; exact hnw hr
  have hrep := (representative?_tap_iff h htap).2 rfl
  have hadm : regionMatcher.admits (contraction g).target 0 u = true :=
    (holds_tap_contraction h).2 htap
  have hedge : regionMatcher.edgesHold (contraction g).target [(1, r)] 0 u = true := by
    show (!((contraction g).target.scopesBetween u r .any).isEmpty && true) = true
    rw [scopesBetween_contraction h hne hrep hx hux]
    rfl
  unfold Matcher.fits
  rw [hadm, hedge]
  simp [Ne.symm hne]

theorem fits_output (h : g.Agrees) {u w r : ElementId} (hr : g.Works r) (huw : u ≠ w)
    (hw : FedBy g w r) :
    regionMatcher.fits (contraction g).target [(0, u), (1, r)] 2 w = true := by
  obtain ⟨htap, x, hx, hxw⟩ := hw
  have hnw := not_works_of_isTap htap
  have hne : w ≠ r := by rintro rfl; exact hnw hr
  have hrep := (representative?_tap_iff h htap).2 rfl
  have hadm : regionMatcher.admits (contraction g).target 2 w = true :=
    (holds_tap_contraction h).2 htap
  have hedge : regionMatcher.edgesHold (contraction g).target [(0, u), (1, r)] 2 w = true := by
    show (!((contraction g).target.scopesBetween r w .any).isEmpty && true) = true
    rw [scopesBetween_contraction h hne.symm hx hrep hxw]
    rfl
  unfold Matcher.fits
  rw [hadm, hedge]
  simp [huw, Ne.symm hne]

/-- An assignment around a region is a tap that feeds it with another one that it
feeds. -/
theorem mem_assignments (h : g.Agrees) {r : ElementId} (hr : g.Works r) {a : Assignment} :
    a ∈ regionMatcher.assignments (contraction g).target r ↔
      ∃ u w, Feeds g u r ∧ FedBy g w r ∧ u ≠ w ∧ a = [(2, w), (0, u), (1, r)] := by
  have hassign : regionMatcher.assignments (contraction g).target r =
      regionMatcher.extensions (contraction g).target [0, 2] [(1, r)] := rfl
  have hin : regionMatcher.candidates (contraction g).target [(1, r)] 0 =
      ((contraction g).target.predecessors r).toList := rfl
  have hout : ∀ u, regionMatcher.candidates (contraction g).target [(0, u), (1, r)] 2 =
      ((contraction g).target.successors r).toList := fun _ => rfl
  simp only [hassign, Matcher.mem_extensions_cons, Matcher.extensions_nil, List.mem_singleton,
    hin, hout, ← IdSet.mem_def]
  constructor
  · rintro ⟨u, hu, hfu, w, hw, hfw, rfl⟩
    have htu := (holds_tap_contraction h).1 (Matcher.admits_of_fits hfu)
    have htw := (holds_tap_contraction h).1 (Matcher.admits_of_fits hfw)
    refine ⟨u, w, (feeds_iff h hr).2 ⟨htu, hu⟩, (fedBy_iff h hr).2 ⟨htw, hw⟩, ?_, rfl⟩
    rintro rfl
    simp [Matcher.fits] at hfw
  · rintro ⟨u, w, hu, hw, huw, rfl⟩
    exact ⟨u, ((feeds_iff h hr).1 hu).2, fits_input h hr hu, w, ((fedBy_iff h hr).1 hw).2,
      fits_output h hr huw hw, rfl⟩

/-- A match around a region holds the region and every tap next to it. -/
theorem mem_vertices_of_matchAt? (h : g.Agrees) {r : ElementId} (hr : g.Works r) {mt : Match}
    (hmt : regionMatcher.matchAt? (contraction g).target false r = some mt) {v : ElementId} :
    v ∈ mt.vertices ↔ v = r ∨ Feeds g v r ∨ FedBy g v r := by
  obtain ⟨⟨a, ha⟩, rfl⟩ := Matcher.matchAt?_eq_some hmt
  obtain ⟨u₀, w₀, hu₀, hw₀, hne₀, -⟩ := (mem_assignments h hr).1 ha
  have hv : v ∈ (regionMatcher.merge (contraction g).target r
      (regionMatcher.assignments (contraction g).target r)).vertices ↔
      ∃ u w, Feeds g u r ∧ FedBy g w r ∧ u ≠ w ∧ (v = w ∨ v = u ∨ v = r) := by
    unfold Matcher.merge
    simp only [IdSet.mem_unionOf, mem_assignments h hr, IdSet.mem_ofList]
    constructor
    · rintro ⟨_, ⟨u, w, hu, hw, huw, rfl⟩, hv⟩
      exact ⟨u, w, hu, hw, huw, by simpa using hv⟩
    · rintro ⟨u, w, hu, hw, huw, hv⟩
      exact ⟨_, ⟨u, w, hu, hw, huw, rfl⟩, by simpa using hv⟩
  rw [hv]
  constructor
  · rintro ⟨u, w, hu, hw, -, rfl | rfl | rfl⟩
    · exact .inr (.inr hw)
    · exact .inr (.inl hu)
    · exact .inl rfl
  · -- a tap is paired with whichever of `u₀` and `w₀` it differs from
    rintro (rfl | hu | hw)
    · exact ⟨u₀, w₀, hu₀, hw₀, hne₀, .inr (.inr rfl)⟩
    · by_cases heq : v = w₀
      · exact ⟨u₀, w₀, hu₀, hw₀, hne₀, .inl heq⟩
      · exact ⟨v, w₀, hu, hw₀, heq, .inr (.inl rfl)⟩
    · by_cases heq : u₀ = v
      · exact ⟨u₀, w₀, hu₀, hw₀, hne₀, .inr (.inl heq.symm)⟩
      · exact ⟨u₀, v, hu₀, hw, heq, .inl rfl⟩

/-- The primary of a match is its region. -/
theorem mem_primary_of_matchAt? (h : g.Agrees) {r : ElementId} (hr : g.Works r) {mt : Match}
    (hmt : regionMatcher.matchAt? (contraction g).target false r = some mt) {v : ElementId} :
    v ∈ mt.primary ↔ v = r := by
  obtain ⟨⟨a, ha⟩, rfl⟩ := Matcher.matchAt?_eq_some hmt
  have hcap : ∀ u w, regionMatcher.capturedBy .primary [(2, w), (0, u), (1, r)] = .ofList [r] :=
    fun _ _ => rfl
  unfold Matcher.merge
  simp only [IdSet.mem_unionOf, mem_assignments h hr]
  constructor
  · rintro ⟨_, ⟨u, w, -, -, -, rfl⟩, hv⟩
    rw [hcap] at hv
    simpa using hv
  · rintro rfl
    obtain ⟨u, w, hu, hw, huw, -⟩ := (mem_assignments h hr).1 ha
    exact ⟨_, ⟨u, w, hu, hw, huw, rfl⟩, by rw [hcap]; simp⟩

/-! ## The draft of a match -/

/-- `d` is the draft of the region that `r` belongs to. -/
structure IsRegion (g : Graph) (r : ElementId) (d : Draft) : Prop where
  works : g.Works r
  region : ∀ e, e ∈ d.region ↔ ReflTransGen (g.Linked g.Works) r e
  elements : ∀ e, e ∈ d.elements ↔ e ∈ d.region ∨ (g.hasKind Kind.isTap e = true ∧
    ((∃ x ∈ d.region, g.Leads e x) ∨ ∃ x ∈ d.region, g.Leads x e))
  sources : ∀ t, t ∈ d.sources ↔ g.hasKind Kind.isTap t = true ∧ ∃ x ∈ d.region, g.Leads t x
  sinks : ∀ t, t ∈ d.sinks ↔ g.hasKind Kind.isTap t = true ∧ ∃ x ∈ d.region, g.Leads x t
  sources_nodup : d.sources.Nodup
  sinks_nodup : d.sinks.Nodup

theorem IsRegion.works_of_mem {r e : ElementId} {d : Draft} (hd : d.IsRegion g r)
    (he : e ∈ d.region) : g.Works e :=
  of_reflTransGen_linked hd.works ((hd.region e).1 he)

theorem IsRegion.self_mem {r : ElementId} {d : Draft} (hd : d.IsRegion g r) : r ∈ d.region :=
  (hd.region r).2 .refl

/-- What works and lies in the step lies in its region. -/
theorem IsRegion.mem_region_of_works {r e : ElementId} {d : Draft} (hd : d.IsRegion g r)
    (hw : g.Works e) (he : e ∈ d.elements) : e ∈ d.region := by
  rcases (hd.elements e).1 he with he | ⟨htap, -⟩
  · exact he
  · exact absurd hw (not_works_of_isTap htap)

theorem mem_expand {vertices : IdSet} {e : ElementId} :
    e ∈ (contraction g).expand vertices ↔
      ∃ v ∈ vertices, (contraction g).representative? e = some v :=
  Contraction.mem_expand

theorem mem_sources_ofRegion (h : g.Agrees) {elements region : IdSet} {t : ElementId} :
    t ∈ (ofRegion g elements region).sources ↔
      t ∈ elements ∧ g.hasKind Kind.isTap t = true ∧ ∃ x ∈ region, g.Leads t x := by
  simp only [ofRegion, List.mem_filter, Bool.and_eq_true, List.any_eq_true, decide_eq_true_eq]
  refine and_congr_right fun _ => and_congr_right fun _ => ?_
  constructor
  · rintro ⟨⟨s, x⟩, he, hx⟩
    exact ⟨x, hx, s, h.mem_edgesOut.1 he⟩
  · rintro ⟨x, hx, s, hs⟩
    exact ⟨(s, x), h.mem_edgesOut.2 hs, hx⟩

theorem mem_sinks_ofRegion (h : g.Agrees) {elements region : IdSet} {t : ElementId} :
    t ∈ (ofRegion g elements region).sinks ↔
      t ∈ elements ∧ g.hasKind Kind.isTap t = true ∧ ∃ x ∈ region, g.Leads x t := by
  simp only [ofRegion, List.mem_filter, Bool.and_eq_true, List.any_eq_true, decide_eq_true_eq]
  refine and_congr_right fun _ => and_congr_right fun _ => ?_
  constructor
  · rintro ⟨⟨s, x⟩, he, hx⟩
    exact ⟨x, hx, s, h.mem_edgesIn.1 he⟩
  · rintro ⟨x, hx, s, hs⟩
    exact ⟨(s, x), h.mem_edgesIn.2 hs, hx⟩

/-- What a match holds is its region and the taps next to it. -/
theorem mem_expand_vertices (h : g.Agrees) {r : ElementId} (hw : g.Works r) {mt : Match}
    (hmt : regionMatcher.matchAt? (contraction g).target false r = some mt) {e : ElementId} :
    e ∈ (contraction g).expand mt.vertices ↔
      e ∈ (contraction g).expand mt.primary ∨ Feeds g e r ∨ FedBy g e r := by
  simp only [mem_expand, mem_vertices_of_matchAt? h hw hmt, mem_primary_of_matchAt? h hw hmt,
    exists_eq_left]
  constructor
  · rintro ⟨v, rfl | hv | hv, he⟩
    · exact .inl he
    · rw [(representative?_tap_iff h hv.1).1 he] at hv
      exact .inr (.inl hv)
    · rw [(representative?_tap_iff h hv.1).1 he] at hv
      exact .inr (.inr hv)
  · rintro (he | he | he)
    · exact ⟨r, .inl rfl, he⟩
    · exact ⟨e, .inr (.inl he), (representative?_tap_iff h he.1).2 rfl⟩
    · exact ⟨e, .inr (.inr he), (representative?_tap_iff h he.1).2 rfl⟩

theorem isRegion_of_matchAt? (h : g.Agrees) {r : ElementId} (hw : g.Works r)
    (hr : (contraction g).representative? r = some r) {mt : Match}
    (hmt : regionMatcher.matchAt? (contraction g).target false r = some mt) :
    IsRegion g r (ofRegion g ((contraction g).selection mt.vertices).elements
      ((contraction g).expand mt.primary)) := by
  have hregion : ∀ e, e ∈ (contraction g).expand mt.primary ↔
      ReflTransGen (g.Linked g.Works) r e := by
    intro e
    simp only [mem_expand, mem_primary_of_matchAt? h hw hmt]
    rw [exists_eq_left, representative?_iff h hr]
  have hfeeds : ∀ u, Feeds g u r ↔ g.hasKind Kind.isTap u = true ∧
      ∃ x ∈ (contraction g).expand mt.primary, g.Leads u x := by
    intro u
    simp only [Feeds, hregion, representative?_iff h hr]
  have hfed : ∀ u, FedBy g u r ↔ g.hasKind Kind.isTap u = true ∧
      ∃ x ∈ (contraction g).expand mt.primary, g.Leads x u := by
    intro u
    simp only [FedBy, hregion, representative?_iff h hr]
  have helements : ∀ e, e ∈ (contraction g).expand mt.vertices ↔
      e ∈ (contraction g).expand mt.primary ∨ Feeds g e r ∨ FedBy g e r :=
    fun e => mem_expand_vertices h hw hmt
  refine ⟨hw, hregion, fun e => ?_, fun t => ?_, fun t => ?_, ?_, ?_⟩
  · show e ∈ (contraction g).expand mt.vertices ↔ _
    rw [helements, hfeeds, hfed, ← and_or_left]
    rfl
  · rw [mem_sources_ofRegion h]
    refine ⟨And.right, fun ht => ⟨(helements t).2 (.inr (.inl ((hfeeds t).2 ht))), ht⟩⟩
  · rw [mem_sinks_ofRegion h]
    refine ⟨And.right, fun ht => ⟨(helements t).2 (.inr (.inr ((hfed t).2 ht))), ht⟩⟩
  · exact (IdSet.nodup_toList _).filter _
  · exact (IdSet.nodup_toList _).filter _

end Draft
end Dataflow
