import Dataflow.Proofs.Step.Cover

/-!
# The step edges carry the order of the graph

A path between two working elements alternates between regions, taps and links from
tap to tap. Each time it comes out of a region it enters a tap that the step writes,
and where it goes on from the tap there is a step that reads it, so along the path the
steps are joined by edges. The invariant of that induction is `Arrived`.

An extent carries no data from one step to another, so the path must not go through one.
In a rewritten graph none does, as nothing leads out of `tail` or into `head`.

Results:

* `leadsInside_of_leads`: where extents are only at the ends, every path is off them;
* `Lists.arrived_of_path`: the invariant holds along every path off the extents;
* `orders_of_build`: numbers, edges and order of the steps.
-/
namespace Dataflow

open Dataflow.Graph Relation

variable {g : Graph}

namespace Graph

/-- A scope leads from `a` to `b`, and `b` is no extent. -/
def LeadsInside (g : Graph) (a b : ElementId) : Prop := g.Leads a b ∧ isExtent b = false

/-- Where nothing leads out of `tail` or into `head`, a path to an inner element goes through
neither. -/
theorem leadsInside_of_leads (htail : ∀ a, ¬ g.Leads tail a) (hhead : ∀ a, ¬ g.Leads a head)
    {x y : ElementId} (hy : isExtent y = false) (hxy : ReflTransGen g.Leads x y) :
    ReflTransGen g.LeadsInside x y := by
  induction hxy using ReflTransGen.head_induction_on with
  | refl => exact .refl
  | @head a b hab hby ih =>
    refine .head ⟨hab, ?_⟩ ih
    rw [← Bool.not_eq_true, isExtent_iff]
    rintro (rfl | rfl)
    · exact hhead a hab
    · rcases ReflTransGen.cases_head hby with rfl | ⟨c, hc, -⟩
      · cases hy
      · exact htail c hc

end Graph

namespace StepGraph

open Draft

variable {order : List ElementId} {l : List Draft} {p : StepGraph}

/-- The step at place `k` writes the tap. -/
def Writes (p : StepGraph) (k : Nat) (t : ElementId) : Prop :=
  ∃ s, p.step? k = some s ∧ t ∈ s.writes

/-- The step at place `k` reads the tap. -/
def Reads (p : StepGraph) (k : Nat) (t : ElementId) : Prop :=
  ∃ s, p.step? k = some s ∧ t ∈ s.reads

/-- An edge leads from step `j` to step `k`. -/
def Before (p : StepGraph) (j k : Nat) : Prop := ∃ e ∈ p.edges, e.origin = j ∧ e.target = k

/-! ## Handing over -/

theorem Lists.writes_iff (hl : p.Lists g order l) {k : Nat} {t : ElementId} :
    p.Writes k t ↔ ∃ d, l[k]? = some d ∧ t ∈ d.sinks := by
  constructor
  · rintro ⟨s, hs, ht⟩
    obtain ⟨d, hd, -, hshow⟩ := hl.exists_draft hs
    exact ⟨d, hd, hshow.writes ▸ ht⟩
  · rintro ⟨d, hd, ht⟩
    obtain ⟨s, hs, hshow⟩ := hl.exists_step hd
    exact ⟨s, hs, hshow.writes.symm ▸ ht⟩

theorem Lists.reads_iff (hl : p.Lists g order l) {k : Nat} {t : ElementId} :
    p.Reads k t ↔ ∃ d, l[k]? = some d ∧ t ∈ d.sources := by
  constructor
  · rintro ⟨s, hs, ht⟩
    obtain ⟨d, hd, -, hshow⟩ := hl.exists_draft hs
    exact ⟨d, hd, hshow.reads ▸ ht⟩
  · rintro ⟨d, hd, ht⟩
    obtain ⟨s, hs, hshow⟩ := hl.exists_step hd
    exact ⟨s, hs, hshow.reads.symm ▸ ht⟩

/-- The edges are the taps that one step writes and another one reads. -/
theorem Lists.mem_edges_iff (hl : p.Lists g order l) {e : StepEdge} : e ∈ p.edges ↔
      ∃ a b t, a ≠ b ∧ p.Writes a t ∧ p.Reads b t ∧ e = ⟨a, b, g.nameOf t⟩ := by
  simp only [hl.edges, hl.writes_iff, hl.reads_iff]
  constructor
  · rintro ⟨a, b, d, d', t, hne, hd, hd', hs, hr, rfl⟩
    exact ⟨a, b, t, hne, ⟨d, hd, hs⟩, ⟨d', hd', hr⟩, rfl⟩
  · rintro ⟨a, b, t, hne, ⟨d, hd, hs⟩, ⟨d', hd', hr⟩, rfl⟩
    exact ⟨a, b, d, d', t, hne, hd, hd', hs, hr, rfl⟩

/-- What one step writes and another one reads puts the one before the other. -/
theorem Lists.before_of_handover (hl : p.Lists g order l) {j k : Nat} {t : ElementId}
    (hw : p.Writes j t) (hr : p.Reads k t) : ReflTransGen p.Before j k := by
  by_cases hjk : j = k
  · subst hjk
    exact .refl
  · exact .single ⟨_, (hl.mem_edges_iff).2 ⟨j, k, t, hjk, hw, hr, rfl⟩, rfl, rfl⟩

/-- A step writes the taps that its work leads to. -/
theorem Lists.writes_of_holds (hl : p.Lists g order l) {k : Nat} {x t : ElementId}
    (hk : p.Holds k x) (hw : g.Works x) (ht : g.hasKind Kind.isTap t = true)
    (hxt : g.Leads x t) : p.Writes k t := by
  obtain ⟨s, hs, hxs⟩ := hk
  have hmem : s ∈ p.steps := List.mem_of_getElem? hs
  exact ⟨s, hs, (hl.mem_writes_iff hmem (hl.not_isCopy hmem hxs hw)).2
    ⟨ht, x, hxs, hw, hxt⟩⟩

/-- A step reads the taps that lead to its work. -/
theorem Lists.reads_of_holds (hl : p.Lists g order l) {k : Nat} {x t : ElementId}
    (hk : p.Holds k x) (hw : g.Works x) (ht : g.hasKind Kind.isTap t = true)
    (htx : g.Leads t x) : p.Reads k t := by
  obtain ⟨s, hs, hxs⟩ := hk
  have hmem : s ∈ p.steps := List.mem_of_getElem? hs
  exact ⟨s, hs, (hl.mem_reads_iff hmem (hl.not_isCopy hmem hxs hw)).2
    ⟨ht, x, hxs, hw, htx⟩⟩

/-! ## Along a path -/

/-- What is in a step works or is a tap. -/
theorem Lists.works_or_isTap (hl : p.Lists g order l) {e : ElementId}
    (he : g.contains e = true) (hx : isExtent e = false) :
    g.Works e ∨ g.hasKind Kind.isTap e = true := by
  obtain ⟨d, hd, hed⟩ := hl.drafted.placed e he hx
  cases htap : g.hasKind Kind.isTap e with
  | true => exact .inr rfl
  | false =>
    have hdraft : d.IsDraft g := hl.drafted.each d hd
    exact .inl (hdraft.works_of_mem_region (hdraft.mem_region_iff.2 ⟨hed, htap⟩))

/-- Step `j` comes before everything that the element at the end of a path takes part
in: before the step that it works in, or before a step that writes it. -/
def Arrived (g : Graph) (p : StepGraph) (j : Nat) (e : ElementId) : Prop :=
  (g.Works e → ∀ k, p.Holds k e → ReflTransGen p.Before j k) ∧
    (g.hasKind Kind.isTap e = true → ∃ k, p.Writes k e ∧ ReflTransGen p.Before j k)

/-- One more scope: four cases, by what the path leaves and what it enters. -/
theorem Lists.arrived_step (hl : p.Lists g order l) {j : Nat} {a b : ElementId}
    (hlive : g.contains a = true) (hx : isExtent a = false) (hab : g.Leads a b)
    (harr : Arrived g p j a) : Arrived g p j b := by
  obtain ⟨i, hi⟩ := hl.exists_holds hlive hx
  constructor
  · intro hb k hk
    rcases hl.works_or_isTap hlive hx with ha | ha
    · -- within a region
      have hib : p.Holds i b := (hl.holds_iff_linked ha hb hi).2 (.single ⟨ha, hb, .inl hab⟩)
      rw [hl.holds_unique hb hk hib]
      exact harr.1 ha i hi
    · -- into a region
      obtain ⟨w, hw, hjw⟩ := harr.2 ha
      exact hjw.trans (hl.before_of_handover hw (hl.reads_of_holds hk hb ha hab))
  · intro hb
    rcases hl.works_or_isTap hlive hx with ha | ha
    · -- out of a region
      exact ⟨i, hl.writes_of_holds hi ha hb hab, harr.1 ha i hi⟩
    · -- along a copy
      obtain ⟨w, hw, hjw⟩ := harr.2 ha
      obtain ⟨c, ⟨s, hs, -, hreads, hwrites⟩, -⟩ := hl.copied ha hb hab
      have hca : p.Reads c a := ⟨s, hs, by rw [hreads]; exact List.mem_cons_self⟩
      have hcb : p.Writes c b := ⟨s, hs, by rw [hwrites]; exact List.mem_cons_self⟩
      exact ⟨c, hcb, hjw.trans (hl.before_of_handover hw hca)⟩

theorem Lists.arrived_of_path (hl : p.Lists g order l) {j : Nat} {x y : ElementId}
    (hw : g.Works x) (hx : isExtent x = false) (hj : p.Holds j x) (hy : g.contains y = true)
    (hxy : ReflTransGen g.LeadsInside x y) : Arrived g p j y := by
  induction hxy with
  | refl =>
    refine ⟨fun _ k hk => ?_, fun ht => absurd hw (not_works_of_isTap ht)⟩
    rw [hl.holds_unique hw hj hk]
  | @tail a b hxa hab ih =>
    have ha : g.contains a = true := hl.agrees.contains_of_leads hl.ordered hab.1 hy
    have hin : isExtent a = false := by
      cases hxa with
      | refl => exact hx
      | tail _ hca => exact hca.2
    exact hl.arrived_step ha hin hab.1 (ih ha)

/-! ## The order of the steps -/

/-- The steps of `p` come in the order that `g` implies, and its edges say so. -/
structure Orders (p : StepGraph) (g : Graph) : Prop where
  ids : p.steps.map Step.id = List.range p.steps.length
  edges : ∀ e, e ∈ p.edges ↔
    ∃ a b t, a ≠ b ∧ p.Writes a t ∧ p.Reads b t ∧ e = ⟨a, b, g.nameOf t⟩
  forward : ∀ e ∈ p.edges, e.origin < e.target
  /-- What can be reached without passing an extent comes later. -/
  implied : ∀ x y j k, g.Works x → g.Works y → isExtent x = false → p.Holds j x →
    p.Holds k y → j ≠ k → ReflTransGen g.LeadsInside x y → TransGen p.Before j k ∧ j < k
  /-- Where nothing leads out of `tail` or into `head`, that is all that can be reached. -/
  reached : (∀ a, ¬ g.Leads tail a) → (∀ a, ¬ g.Leads a head) → ∀ x y j k, g.Works x →
    g.Works y → isExtent x = false → isExtent y = false → p.Holds j x → p.Holds k y → j ≠ k →
      ReflTransGen g.Leads x y → TransGen p.Before j k ∧ j < k

theorem Lists.ids (hl : p.Lists g order l) : p.steps.map Step.id = List.range p.steps.length := by
  refine List.ext_getElem? fun k => ?_
  rw [List.getElem?_map]
  cases hs : p.steps[k]? with
  | none =>
    have hk : p.steps.length ≤ k := List.getElem?_eq_none_iff.1 hs
    rw [List.getElem?_eq_none (by simpa using hk)]
    rfl
  | some s =>
    obtain ⟨d, -, -, hshow⟩ := hl.exists_draft hs
    rw [List.getElem?_range (List.getElem?_eq_some_iff.1 hs).1, Option.map_some, hshow.id]

theorem Lists.lt_of_before (hl : p.Lists g order l) {j k : Nat} (h : TransGen p.Before j k) :
    j < k := by
  have hstep : ∀ a b, p.Before a b → a < b := by
    rintro a b ⟨e, he, rfl, rfl⟩
    exact hl.forward e he
  induction h with
  | single hab => exact hstep _ _ hab
  | tail _ hbc ih => exact Nat.lt_trans ih (hstep _ _ hbc)

theorem Lists.orders (hl : p.Lists g order l) : p.Orders g := by
  have himplied : ∀ x y j k, g.Works x → g.Works y → isExtent x = false → p.Holds j x →
      p.Holds k y → j ≠ k → ReflTransGen g.LeadsInside x y → TransGen p.Before j k ∧ j < k := by
    intro x y j k hwx hwy hx hj hk hne hxy
    have harr := hl.arrived_of_path hwx hx hj hwy.contains hxy
    have hreach : TransGen p.Before j k := by
      rcases reflTransGen_iff_eq_or_transGen.1 (harr.1 hwy k hk) with heq | hlt
      · exact absurd heq.symm hne
      · exact hlt
    exact ⟨hreach, hl.lt_of_before hreach⟩
  refine ⟨hl.ids, fun e => hl.mem_edges_iff, hl.forward, himplied, ?_⟩
  intro htail hhead x y j k hwx hwy hx hy hj hk hne hxy
  exact himplied x y j k hwx hwy hx hj hk hne (leadsInside_of_leads htail hhead hy hxy)

/-- **The step edges carry the order of the graph.** -/
theorem orders_of_build (h : g.Agrees) {multiEdge : Bool} {p : StepGraph}
    (hb : build g multiEdge = .ok p) : p.Orders g := by
  obtain ⟨order, l, hl⟩ := lists_of_build h hb
  exact hl.orders

end StepGraph

/-- By way of the sink that is read back, the stage that reads it comes behind the merge. -/
theorem orders_relayed : ∃ g p, relayed.toGraph = .ok g ∧ g.Agrees ∧
    StepGraph.build g false = .ok p ∧ p.Orders g ∧ g.Works 3 ∧ g.Works 5 ∧ p.Holds 0 3 ∧
      p.Holds 1 5 ∧ ReflTransGen g.LeadsInside 3 5 ∧ TransGen p.Before 0 1 := by
  have hany : (relayed.toGraph.toOption.any fun g => (StepGraph.build g false).toOption.any fun p =>
      decide (p.steps.map (fun s => s.elements.toList) = [[2, 3, 4], [4, 5, 6], [4, 7]] ∧
        g.hasKind Kind.isWork 3 = true ∧ g.hasKind Kind.isWork 5 = true ∧
          4 ∈ g.successors 3 ∧ 5 ∈ g.successors 4)) = true := by cbv
  obtain ⟨g, hd, hany⟩ := exists_ok_of_any hany
  obtain ⟨p, hb, hany⟩ := exists_ok_of_any hany
  obtain ⟨hsteps, h3, h5, h34, h45⟩ := of_decide_eq_true hany
  obtain ⟨order, -, -, ho, -⟩ := StepGraph.build_eq_ok hb
  have h : g.Agrees := (Definition.shaped_toGraph hd ho).agrees
  have horders := StepGraph.orders_of_build h hb
  have hholds : ∀ k e, (∃ l, ([[2, 3, 4], [4, 5, 6], [4, 7]] : List (List Nat))[k]? = some l ∧
      e ∈ l) → p.Holds k e := by
    rintro k e ⟨l, hl, he⟩
    rw [← hsteps, List.getElem?_map, Option.map_eq_some_iff] at hl
    obtain ⟨s, hs, rfl⟩ := hl
    exact ⟨s, hs, he⟩
  have hj : p.Holds 0 3 := hholds 0 3 ⟨_, rfl, by decide⟩
  have hk : p.Holds 1 5 := hholds 1 5 ⟨_, rfl, by decide⟩
  have hway : ReflTransGen g.LeadsInside 3 5 :=
    .tail (.single ⟨h.mem_successors.1 h34, rfl⟩) ⟨h.mem_successors.1 h45, rfl⟩
  exact ⟨g, p, hd, h, hb, horders, h3, h5, hj, hk, hway,
    (horders.implied 3 5 0 1 h3 h5 rfl hj hk (by decide) hway).1⟩

end Dataflow
