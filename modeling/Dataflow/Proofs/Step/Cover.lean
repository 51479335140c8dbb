import Mathlib
import Dataflow.Proofs.Flow.Definition
import Dataflow.Proofs.Step.Sides

/-!
# A step graph covers its graph

Nothing is lost on the way from a graph to its steps, and nothing is done twice. What
works is in one step, together with all that it hangs together with; a step reads and
writes the taps next to its region and no others; a scope between two taps has its
copy.

Results:

* `shows_of_finish`: a finished step shows its draft;
* `Drafted.eq_of_shared`: two places of a list of drafts share no work;
* `covers_of_build`: the step graph of a graph covers it.
-/
namespace Dataflow

open Dataflow.Graph Relation

variable {g : Graph}

namespace Draft

/-! ## Drafts -/

/-- A region or a copy. -/
def IsDraft (g : Graph) (d : Draft) : Prop := (∃ r, d.IsRegion g r) ∨ d.IsCopy g

theorem IsDraft.isTap_of_mem_sources {d : Draft} (hd : d.IsDraft g) {t : ElementId}
    (ht : t ∈ d.sources) : g.hasKind Kind.isTap t = true := by
  rcases hd with ⟨r, hr⟩ | ⟨a, b, ha, -, -, rfl⟩
  · exact ((hr.sources t).1 ht).1
  · rw [List.mem_singleton.1 ht]
    exact ha

theorem IsDraft.isTap_of_mem_sinks {d : Draft} (hd : d.IsDraft g) {t : ElementId}
    (ht : t ∈ d.sinks) : g.hasKind Kind.isTap t = true := by
  rcases hd with ⟨r, hr⟩ | ⟨a, b, -, hb, -, rfl⟩
  · exact ((hr.sinks t).1 ht).1
  · rw [List.mem_singleton.1 ht]
    exact hb

theorem IsDraft.nodup_sources {d : Draft} (hd : d.IsDraft g) : d.sources.Nodup := by
  rcases hd with ⟨r, hr⟩ | ⟨a, b, -, -, -, rfl⟩
  · exact hr.sources_nodup
  · exact List.nodup_singleton a

theorem IsDraft.nodup_sinks {d : Draft} (hd : d.IsDraft g) : d.sinks.Nodup := by
  rcases hd with ⟨r, hr⟩ | ⟨a, b, -, -, -, rfl⟩
  · exact hr.sinks_nodup
  · exact List.nodup_singleton b

theorem IsDraft.works_of_mem_region {d : Draft} (hd : d.IsDraft g) {e : ElementId}
    (he : e ∈ d.region) : g.Works e := by
  rcases hd with ⟨r, hr⟩ | hc
  · exact hr.works_of_mem he
  · rw [hc.region_eq] at he
    exact absurd he IdSet.not_mem_empty

/-- The members of a draft that are no taps are its region. -/
theorem IsDraft.mem_region_iff {d : Draft} (hd : d.IsDraft g) {e : ElementId} :
    e ∈ d.region ↔ e ∈ d.elements ∧ g.hasKind Kind.isTap e = false := by
  constructor
  · intro he
    refine ⟨?_, (hd.works_of_mem_region he).not_isTap⟩
    rcases hd with ⟨r, hr⟩ | hc
    · exact (hr.elements e).2 (.inl he)
    · rw [hc.region_eq] at he
      exact absurd he IdSet.not_mem_empty
  · rintro ⟨he, hnt⟩
    rcases hd with ⟨r, hr⟩ | ⟨a, b, ha, hb, -, rfl⟩
    · rcases (hr.elements e).1 he with he | ⟨ht, -⟩
      · exact he
      · rw [hnt] at ht
        cases ht
    · have hab : e = a ∨ e = b := by simpa [ofLink] using he
      rcases hab with rfl | rfl
      · rw [hnt] at ha; cases ha
      · rw [hnt] at hb; cases hb

/-- Two places of a list of drafts share no work, and hold no copy twice. -/
theorem Drafted.eq_of_shared {ds : List Draft} (h : Drafted g ds) {j k : Nat} {d d' : Draft}
    (hd : ds[j]? = some d) (hd' : ds[k]? = some d')
    (hs : d = d' ∨ ∃ e, e ∈ d.region ∧ e ∈ d'.region) : j = k := by
  obtain ⟨hj, rfl⟩ := List.getElem?_eq_some_iff.1 hd
  obtain ⟨hk, rfl⟩ := List.getElem?_eq_some_iff.1 hd'
  have hapart := List.pairwise_iff_getElem.1 h.apart
  rcases Nat.lt_trichotomy j k with hlt | heq | hlt
  · obtain ⟨hne, hdisj⟩ := hapart j k hj hk hlt
    rcases hs with heq | ⟨e, he, he'⟩
    · exact absurd heq hne
    · exact absurd he' (hdisj e he)
  · exact heq
  · obtain ⟨hne, hdisj⟩ := hapart k j hk hj hlt
    rcases hs with heq | ⟨e, he, he'⟩
    · exact absurd heq.symm hne
    · exact absurd he (hdisj e he')

/-- The step shows the draft. -/
structure Shows (g : Graph) (d : Draft) (k : Nat) (s : Step) : Prop where
  id : s.id = k
  elements : s.elements = d.elements
  reads : s.reads = d.sources
  writes : s.writes = d.sinks
  described : ∀ r ∈ s.sources ++ s.sinks, tapRef? g r.element = some r
  sides : ∃ early late, s.nodes = nodesOf g early late ∧ Splits g (· ∈ d.region) early late

theorem shows_of_finish (h : g.Agrees) {order : List ElementId}
    (ho : g.topology.order = .ok order) {d : Draft} (hd : d.IsDraft g) {k total : Nat} {s : Step}
    (hf : d.finish g order k total = .ok s) : Shows g d k s := by
  obtain ⟨hid, hel, hsrc, hsnk, grouping, hnodes⟩ := finish_eq_ok hf
  refine ⟨hid, hel, ?_, ?_, fun r hr => ?_, ?_⟩
  · unfold Step.reads
    rw [hsrc, map_tapRef? fun _ => hd.isTap_of_mem_sources]
  · unfold Step.writes
    rw [hsnk, map_tapRef? fun _ => hd.isTap_of_mem_sinks]
  · rw [hsrc, hsnk] at hr
    rcases List.mem_append.1 hr with hr | hr <;> exact tapRef?_of_mem hr
  · rw [hnodes]
    exact sides_spec h ho (fun e he => (hd.works_of_mem_region he).contains) grouping

theorem nodesOf_eq_nil {early late : List ElementId} :
    nodesOf g early late = [] ↔ early = [] ∧ late = [] := by
  unfold nodesOf
  cases early <;> cases late <;> simp

/-- A copy is a step without a region. -/
theorem Shows.isCopy_iff {d : Draft} {k : Nat} {s : Step} (hs : Shows g d k s) :
    s.isCopy = true ↔ ∀ e, e ∉ d.region := by
  obtain ⟨early, late, hnodes, hsplit⟩ := hs.sides
  rw [Step.isCopy, hnodes, List.isEmpty_iff, nodesOf_eq_nil, ← List.append_eq_nil_iff,
    List.eq_nil_iff_forall_not_mem]
  exact forall_congr' fun e => not_congr (hsplit.mem_iff e)

theorem Shows.isCopy_of_isCopy {d : Draft} {k : Nat} {s : Step} (hs : Shows g d k s)
    (hd : d.IsCopy g) : s.isCopy = true := by
  rw [hs.isCopy_iff, hd.region_eq]
  exact fun _ => IdSet.not_mem_empty

theorem Shows.not_isCopy_of_mem {d : Draft} {k : Nat} {s : Step} (hs : Shows g d k s)
    {e : ElementId} (he : e ∈ d.region) : s.isCopy = false := by
  rw [← Bool.not_eq_true, hs.isCopy_iff]
  exact fun hall => hall e he

end Draft

namespace StepGraph

open Draft

variable {order : List ElementId} {l : List Draft} {p : StepGraph}

/-! ## Places -/

theorem Lists.isDraft (hl : p.Lists g order l) {k : Nat} {d : Draft} (hd : l[k]? = some d) :
    d.IsDraft g :=
  hl.drafted.each d (List.mem_of_getElem? hd)

theorem Lists.exists_step (hl : p.Lists g order l) {k : Nat} {d : Draft} (hd : l[k]? = some d) :
    ∃ s, p.step? k = some s ∧ Shows g d k s := by
  obtain ⟨s, hs, hf⟩ := hl.finished k d hd
  exact ⟨s, hs, shows_of_finish hl.agrees hl.ordered (hl.isDraft hd) hf⟩

theorem Lists.exists_draft (hl : p.Lists g order l) {k : Nat} {s : Step} (hs : p.step? k = some s) :
    ∃ d, l[k]? = some d ∧ d.IsDraft g ∧ Shows g d k s := by
  obtain ⟨d, hd, hf⟩ := hl.found k s hs
  exact ⟨d, hd, hl.isDraft hd, shows_of_finish hl.agrees hl.ordered (hl.isDraft hd) hf⟩

theorem Lists.draft_of_mem (hl : p.Lists g order l) {s : Step} (hs : s ∈ p.steps) :
    ∃ k d, d.IsDraft g ∧ Shows g d k s := by
  obtain ⟨k, hk⟩ := List.getElem?_of_mem hs
  obtain ⟨d, -, hdraft, hshow⟩ := hl.exists_draft hk
  exact ⟨k, d, hdraft, hshow⟩

theorem Lists.eq_of_shared (hl : p.Lists g order l) {j k : Nat} {d d' : Draft}
    (hd : l[j]? = some d) (hd' : l[k]? = some d')
    (hs : d = d' ∨ ∃ e, e ∈ d.region ∧ e ∈ d'.region) : j = k :=
  hl.drafted.eq_of_shared hd hd' hs

/-- The step at place `k` holds the element. -/
def Holds (p : StepGraph) (k : Nat) (e : ElementId) : Prop :=
  ∃ s, p.step? k = some s ∧ e ∈ s.elements

/-- The step at place `k` copies the tap `a` into the tap `b`. -/
def Copies (p : StepGraph) (k : Nat) (a b : ElementId) : Prop :=
  ∃ s, p.step? k = some s ∧ s.isCopy = true ∧ s.reads = [a] ∧ s.writes = [b]

/-- What works and is held by a step lies in the region of its draft. -/
theorem Lists.holds_iff (hl : p.Lists g order l) {k : Nat} {e : ElementId} (hw : g.Works e) :
    p.Holds k e ↔ ∃ d, l[k]? = some d ∧ e ∈ d.region := by
  constructor
  · rintro ⟨s, hs, he⟩
    obtain ⟨d, hd, hdraft, hshow⟩ := hl.exists_draft hs
    rw [hshow.elements] at he
    exact ⟨d, hd, hdraft.mem_region_iff.2 ⟨he, hw.not_isTap⟩⟩
  · rintro ⟨d, hd, he⟩
    obtain ⟨s, hs, hshow⟩ := hl.exists_step hd
    refine ⟨s, hs, ?_⟩
    rw [hshow.elements]
    exact ((hl.isDraft hd).mem_region_iff.1 he).1

/-- Whatever is live and no extent is in a step. -/
theorem Lists.exists_holds (hl : p.Lists g order l) {e : ElementId} (he : g.contains e = true)
    (hx : isExtent e = false) : ∃ k, p.Holds k e := by
  obtain ⟨d, hd, hed⟩ := hl.drafted.placed e he hx
  obtain ⟨k, hk⟩ := List.getElem?_of_mem hd
  obtain ⟨s, hs, hshow⟩ := hl.exists_step hk
  exact ⟨k, s, hs, hshow.elements ▸ hed⟩

theorem Lists.holds_unique (hl : p.Lists g order l) {j k : Nat} {e : ElementId} (hw : g.Works e)
    (hj : p.Holds j e) (hk : p.Holds k e) : j = k := by
  obtain ⟨d, hd, hed⟩ := (hl.holds_iff hw).1 hj
  obtain ⟨d', hd', hed'⟩ := (hl.holds_iff hw).1 hk
  exact hl.eq_of_shared hd hd' (.inr ⟨e, hed, hed'⟩)

/-- A step holds, with an element that works, whatever that hangs together with. -/
theorem Lists.holds_iff_linked (hl : p.Lists g order l) {k : Nat} {x y : ElementId}
    (hx : g.Works x) (hy : g.Works y) (hk : p.Holds k x) :
    p.Holds k y ↔ ReflTransGen (g.Linked g.Works) x y := by
  obtain ⟨d, hd, hxd⟩ := (hl.holds_iff hx).1 hk
  have hregion : ∃ r, d.IsRegion g r := by
    rcases hl.isDraft hd with hr | hc
    · exact hr
    · rw [hc.region_eq] at hxd
      exact absurd hxd IdSet.not_mem_empty
  obtain ⟨r, hr⟩ := hregion
  have hrx := (hr.region x).1 hxd
  rw [hl.holds_iff hy]
  constructor
  · rintro ⟨d', hd', hyd⟩
    rw [hd] at hd'; cases hd'
    exact (reflTransGen_linked_symm hrx).trans ((hr.region y).1 hyd)
  · intro hxy
    exact ⟨d, hd, (hr.region y).2 (hrx.trans hxy)⟩

/-- `p` covers `g`: what works is in one step each, the steps read and write the taps
next to them, and every scope between taps has its copy. -/
structure Covers (p : StepGraph) (g : Graph) : Prop where
  /-- Only the extents may be left out. -/
  placed : ∀ e, g.contains e = true → isExtent e = false → ∃ k, p.Holds k e
  once : ∀ e, g.Works e → isExtent e = false → ∃! k, p.Holds k e
  /-- A step is what hangs together without passing a tap or an extent. -/
  together : ∀ x y, g.Works x → g.Works y → isExtent x = false → isExtent y = false →
    ((∃ k, p.Holds k x ∧ p.Holds k y) ↔ ReflTransGen (g.Linked g.Works) x y)
  writes : ∀ s ∈ p.steps, ∀ x ∈ s.elements, ∀ t, g.Works x → g.hasKind Kind.isTap t = true →
    g.Leads x t → t ∈ s.writes
  reads : ∀ s ∈ p.steps, ∀ x ∈ s.elements, ∀ t, g.Works x → g.hasKind Kind.isTap t = true →
    g.Leads t x → t ∈ s.reads
  /-- A step writes nothing else. -/
  writes_only : ∀ s ∈ p.steps, s.isCopy = false → ∀ t ∈ s.writes,
    g.hasKind Kind.isTap t = true ∧ ∃ x ∈ s.elements, g.Works x ∧ g.Leads x t
  /-- A step reads nothing else. -/
  reads_only : ∀ s ∈ p.steps, s.isCopy = false → ∀ t ∈ s.reads,
    g.hasKind Kind.isTap t = true ∧ ∃ x ∈ s.elements, g.Works x ∧ g.Leads t x
  copied : ∀ a b, g.hasKind Kind.isTap a = true → g.hasKind Kind.isTap b = true → g.Leads a b →
    ∃! k, p.Copies k a b
  /-- There are no other copies. -/
  copied_only : ∀ s ∈ p.steps, s.isCopy = true → ∃ a b, g.hasKind Kind.isTap a = true ∧
    g.hasKind Kind.isTap b = true ∧ g.Leads a b ∧ s.reads = [a] ∧ s.writes = [b] ∧
    ∀ e, e ∈ s.elements ↔ e = a ∨ e = b
  /-- No tap is listed twice. -/
  listed : ∀ s ∈ p.steps, s.reads.Nodup ∧ s.writes.Nodup
  /-- A listed tap is described as the graph has it. -/
  described : ∀ s ∈ p.steps, ∀ r ∈ s.sources ++ s.sinks, tapRef? g r.element = some r
  /-- The sides list the members that are no taps, once each. -/
  sides : ∀ s ∈ p.steps, s.isCopy = false → ∃ early late, s.nodes = nodesOf g early late ∧
    Splits g (fun e => e ∈ s.elements ∧ g.hasKind Kind.isTap e = false) early late

theorem Lists.copied (hl : p.Lists g order l) {a b : ElementId}
    (ha : g.hasKind Kind.isTap a = true) (hb : g.hasKind Kind.isTap b = true)
    (hab : g.Leads a b) : ∃! k, p.Copies k a b := by
  obtain ⟨k, hk⟩ := List.getElem?_of_mem (hl.drafted.copied a b ha hb hab)
  obtain ⟨s, hs, hshow⟩ := hl.exists_step hk
  refine ⟨k, ⟨s, hs, hshow.isCopy_of_isCopy ⟨a, b, ha, hb, hab, rfl⟩, hshow.reads,
    hshow.writes⟩, ?_⟩
  rintro j ⟨s', hs', hcopy, hreads, hwrites⟩
  obtain ⟨d, hd, hdraft, hshow'⟩ := hl.exists_draft hs'
  rcases hdraft with ⟨r, hr⟩ | ⟨a', b', -, -, -, rfl⟩
  · exact absurd hr.self_mem (hshow'.isCopy_iff.1 hcopy r)
  · have haa : [a'] = [a] := hshow'.reads.symm.trans hreads
    have hbb : [b'] = [b] := hshow'.writes.symm.trans hwrites
    rw [List.singleton_inj.1 haa, List.singleton_inj.1 hbb] at hd
    exact hl.eq_of_shared hd hk (.inl rfl)

/-- A step that is no copy shows a region. -/
theorem Lists.region_of_mem (hl : p.Lists g order l) {s : Step} (hs : s ∈ p.steps)
    (hcopy : s.isCopy = false) : ∃ r k d, d.IsRegion g r ∧ Shows g d k s := by
  obtain ⟨k, d, hdraft, hshow⟩ := hl.draft_of_mem hs
  rcases hdraft with ⟨r, hr⟩ | hc
  · exact ⟨r, k, d, hr, hshow⟩
  · rw [hshow.isCopy_of_isCopy hc] at hcopy
    cases hcopy

theorem Lists.not_isCopy (hl : p.Lists g order l) {s : Step} (hs : s ∈ p.steps) {x : ElementId}
    (hx : x ∈ s.elements) (hw : g.Works x) : s.isCopy = false := by
  obtain ⟨k, d, hdraft, hshow⟩ := hl.draft_of_mem hs
  rw [hshow.elements] at hx
  exact hshow.not_isCopy_of_mem (hdraft.mem_region_iff.2 ⟨hx, hw.not_isTap⟩)

/-- A step writes the taps that its work leads to. -/
theorem Lists.mem_writes_iff (hl : p.Lists g order l) {s : Step} (hs : s ∈ p.steps)
    (hcopy : s.isCopy = false) {t : ElementId} : t ∈ s.writes ↔
      g.hasKind Kind.isTap t = true ∧ ∃ x ∈ s.elements, g.Works x ∧ g.Leads x t := by
  obtain ⟨r, k, d, hr, hshow⟩ := hl.region_of_mem hs hcopy
  rw [hshow.writes, hshow.elements, hr.sinks]
  refine and_congr_right fun _ => ?_
  constructor
  · rintro ⟨x, hx, hxt⟩
    exact ⟨x, (hr.elements x).2 (.inl hx), hr.works_of_mem hx, hxt⟩
  · rintro ⟨x, hx, hw, hxt⟩
    exact ⟨x, hr.mem_region_of_works hw hx, hxt⟩

/-- A step reads the taps that lead to its work. -/
theorem Lists.mem_reads_iff (hl : p.Lists g order l) {s : Step} (hs : s ∈ p.steps)
    (hcopy : s.isCopy = false) {t : ElementId} : t ∈ s.reads ↔
      g.hasKind Kind.isTap t = true ∧ ∃ x ∈ s.elements, g.Works x ∧ g.Leads t x := by
  obtain ⟨r, k, d, hr, hshow⟩ := hl.region_of_mem hs hcopy
  rw [hshow.reads, hshow.elements, hr.sources]
  refine and_congr_right fun _ => ?_
  constructor
  · rintro ⟨x, hx, htx⟩
    exact ⟨x, (hr.elements x).2 (.inl hx), hr.works_of_mem hx, htx⟩
  · rintro ⟨x, hx, hw, htx⟩
    exact ⟨x, hr.mem_region_of_works hw hx, htx⟩

theorem Lists.copied_only (hl : p.Lists g order l) {s : Step} (hs : s ∈ p.steps)
    (hcopy : s.isCopy = true) :
    ∃ a b, g.hasKind Kind.isTap a = true ∧ g.hasKind Kind.isTap b = true ∧ g.Leads a b ∧
      s.reads = [a] ∧ s.writes = [b] ∧ ∀ e, e ∈ s.elements ↔ e = a ∨ e = b := by
  obtain ⟨k, d, hdraft, hshow⟩ := hl.draft_of_mem hs
  rcases hdraft with ⟨r, hr⟩ | ⟨a, b, ha, hb, hab, rfl⟩
  · exact absurd hr.self_mem (hshow.isCopy_iff.1 hcopy r)
  · refine ⟨a, b, ha, hb, hab, hshow.reads, hshow.writes, fun e => ?_⟩
    rw [hshow.elements]
    simp [ofLink]

/-- **A step graph covers its graph.** -/
theorem covers_of_build (h : g.Agrees) {multiEdge : Bool} {p : StepGraph}
    (hb : build g multiEdge = .ok p) : p.Covers g := by
  obtain ⟨order, l, hl⟩ := lists_of_build h hb
  constructor
  case placed =>
    exact fun e he hne => hl.exists_holds he hne
  case once =>
    intro e hw hx
    obtain ⟨k, hk⟩ := hl.exists_holds hw.contains hx
    exact ⟨k, hk, fun j hj => hl.holds_unique hw hj hk⟩
  case together =>
    intro x y hwx hwy hx hy
    obtain ⟨k, hk⟩ := hl.exists_holds hwx.contains hx
    constructor
    · rintro ⟨j, hj, hjy⟩
      exact (hl.holds_iff_linked hwx hwy hj).1 hjy
    · intro hxy
      exact ⟨k, hk, (hl.holds_iff_linked hwx hwy hk).2 hxy⟩
  case writes =>
    intro s hs x hxs t hw ht hxt
    exact (hl.mem_writes_iff hs (hl.not_isCopy hs hxs hw)).2 ⟨ht, x, hxs, hw, hxt⟩
  case reads =>
    intro s hs x hxs t hw ht htx
    exact (hl.mem_reads_iff hs (hl.not_isCopy hs hxs hw)).2 ⟨ht, x, hxs, hw, htx⟩
  case writes_only =>
    exact fun s hs hcopy t ht => (hl.mem_writes_iff hs hcopy).1 ht
  case reads_only =>
    exact fun s hs hcopy t ht => (hl.mem_reads_iff hs hcopy).1 ht
  case copied =>
    exact fun a b ha hb hab => hl.copied ha hb hab
  case copied_only =>
    exact fun s hs hcopy => hl.copied_only hs hcopy
  case listed =>
    intro s hs
    obtain ⟨k, d, hdraft, hshow⟩ := hl.draft_of_mem hs
    rw [hshow.reads, hshow.writes]
    exact ⟨hdraft.nodup_sources, hdraft.nodup_sinks⟩
  case described =>
    intro s hs r hr
    obtain ⟨k, d, -, hshow⟩ := hl.draft_of_mem hs
    exact hshow.described r hr
  case sides =>
    intro s hs hcopy
    obtain ⟨k, d, hdraft, hshow⟩ := hl.draft_of_mem hs
    obtain ⟨early, late, hnodes, hsplit⟩ := hshow.sides
    refine ⟨early, late, hnodes, hsplit.congr fun e => ?_⟩
    rw [hshow.elements]
    exact hdraft.mem_region_iff

end StepGraph

/-- A sink is read back, by a stage and by another sink. -/
def relayed : Definition where
  name := "relayed"
  stages :=
    [⟨"in", [], .source ⟨"hdfs", "in", none, true⟩⟩, ⟨"all", ["in"], .merge⟩,
      ⟨"kept", ["all"], .sink ⟨"hdfs", "kept", none, true⟩⟩,
      ⟨"by-day", ["kept"], .groupBy ["day"]⟩,
      ⟨"out", ["by-day"], .sink ⟨"hdfs", "out", none, true⟩⟩,
      ⟨"spare", ["kept"], .sink ⟨"hdfs", "spare", none, true⟩⟩]

/-- Its graph can be cut into steps. -/
theorem build_relayed : ∃ g p, relayed.toGraph = .ok g ∧ g.Agrees ∧
    StepGraph.build g false = .ok p := by
  have hany : (relayed.toGraph.toOption.any fun g => (StepGraph.build g false).toOption.any
      fun _ => true) = true := by
    cbv
  obtain ⟨g, hd, hany⟩ := exists_ok_of_any hany
  obtain ⟨p, hb, -⟩ := exists_ok_of_any hany
  obtain ⟨order, -, -, ho, -⟩ := StepGraph.build_eq_ok hb
  exact ⟨g, p, hd, (Definition.shaped_toGraph hd ho).agrees, hb⟩

theorem covers_relayed : ∃ g p, relayed.toGraph = .ok g ∧ StepGraph.build g false = .ok p ∧
    p.Covers g := by
  obtain ⟨g, p, hd, h, hb⟩ := build_relayed
  exact ⟨g, p, hd, hb, StepGraph.covers_of_build h hb⟩

end Dataflow
