import Mathlib
import Dataflow.Proofs.Flow.Isolation

/-!
# Join isolation comes to an end

An accumulated input clashes if a grouping is upstream of it, or something that is upstream
of another input of its join as well. A boundary on the input stops what is upstream of it
at that boundary. The boundary is upstream of what the join feeds, and of nothing else. So
where two inputs come to share it they shared the join before, and no input of the join
itself shares it, since no join feeds itself.

Results:

* `Agrees.upstream_boundaryOn`: what is upstream of an element past a new boundary;
* `clashes_boundaryOn`: a boundary on an input that clashes makes no other input clash;
* `isolates_of_ordered`: how join isolation ends on every graph without cycles.
-/
namespace Dataflow

open Dataflow.Graph Relation

variable {g g' g'' : Graph} {scheme : String}

namespace Graph

theorem Upstream.leads {x o : ElementId} (h : g.Upstream x o) : ReflTransGen g.Leads x o :=
  ReflTransGen.mono (fun _ _ hac => hac.1.1) _ _ h

/-- Only the tap itself is upstream of a tap. -/
theorem Upstream.eq_of_isTap {x o : ElementId} (h : g.Upstream x o)
    (ho : g.hasKind Kind.isTap o = true) : x = o :=
  h.supplies.eq_of_isTap ho

/-- Nothing that an element feeds is upstream of it. -/
theorem Acyclic.not_upstream (h : g.Acyclic) {a b : ElementId} (hl : g.Leads a b) :
    ¬ g.Upstream b a := by
  obtain ⟨rank, hrank⟩ := h
  exact fun hup => absurd (hrank a b hl) (Nat.not_lt_of_le (RankedBy.le hrank hup.leads))

/-- With `π` leading from what is new to what stands before it, `g'` feeds every element of
`g` at the same positions and from the same elements. All that is new are boundaries. -/
structure KeepsInputs (g g' : Graph) (π : ElementId → ElementId) : Prop where
  size_le : g.size ≤ g'.size
  old : ∀ e, e < g.size → π e = e ∧ g'.element? e = g.element? e
  fresh : ∀ e, g.size ≤ e → g'.contains e = true →
    g'.hasKind Kind.isBoundary e = true ∧ ∃ a, g'.inputs e = [a] ∧ π e = π a
  slots : ∀ e, e < g.size → ((g'.slots e).map (Prod.map id π)).Perm (g.slots e)

theorem KeepsInputs.refl (g : Graph) : g.KeepsInputs g id where
  size_le := Nat.le_refl _
  old _ _ := ⟨rfl, rfl⟩
  fresh _ he hlive := absurd (lt_size_of_contains hlive) (Nat.not_lt_of_le he)
  slots e _ := by simp

/-- A boundary on one more scope. -/
theorem KeepsInputs.boundaryOn {π : ElementId → ElementId} (h : g.KeepsInputs g' π)
    (ha : g'.Agrees) {i : ScopeId} {sc : Scope} (hi : g'.scope? i = some sc) :
    g.KeepsInputs (g'.boundaryOn scheme i) (π ∘ instead g'.size sc.origin) := by
  have hg := grows_boundaryOn g' scheme hi
  have hsize := h.size_le
  have hslots : ∀ {e}, e < g'.size → (((g'.boundaryOn scheme i).slots e).map
      (Prod.map id (instead g'.size sc.origin))).Perm (g'.slots e) := fun he =>
    ha.slots_boundaryOn scheme hi (Nat.ne_of_lt he)
  refine ⟨by rw [hg.size]; omega, fun e he => ?_, fun e he hlive => ?_, fun e he => ?_⟩
  · have hlt := Nat.lt_of_lt_of_le he hsize
    obtain ⟨hπ, hel⟩ := h.old e he
    refine ⟨?_, (hg.element?_old hlt).trans hel⟩
    rw [Function.comp_apply, instead_of_ne (Nat.ne_of_lt hlt), hπ]
  · rcases hg.old_or_new hlive with hlt | rfl
    · rw [contains, hg.element?_old hlt] at hlive
      obtain ⟨hb, a, hin, hπ⟩ := h.fresh e he hlive
      -- the one input is what it was, or the new boundary in its place
      have hperm : ((g'.boundaryOn scheme i).inputs e |>.map
          (instead g'.size sc.origin)).Perm (g'.inputs e) := by
        have hmap := (hslots hlt).map Prod.snd
        rw [List.map_map] at hmap
        rw [← map_snd_slots, ← map_snd_slots, List.map_map]
        exact hmap
      rw [hin] at hperm
      obtain ⟨b, hb', hab⟩ := List.map_eq_singleton_iff.1 (List.perm_singleton.1 hperm)
      refine ⟨(hg.hasKind_old hlt).trans hb, b, hb', ?_⟩
      rw [Function.comp_apply, Function.comp_apply, hab, instead_of_ne (Nat.ne_of_lt hlt), hπ]
    · refine ⟨hg.hasKind_new fun _ => rfl, sc.origin, ?_, ?_⟩
      · rw [← map_snd_slots, ha.slots_boundaryOn_new scheme hi]
        rfl
      · rw [Function.comp_apply, Function.comp_apply, instead_self,
          instead_of_ne (Nat.ne_of_lt (ha.origin_lt hi))]
  · have hperm := (hslots (Nat.lt_of_lt_of_le he hsize)).map (Prod.map id π)
    rw [List.map_map] at hperm
    exact hperm.trans (h.slots e he)

/-! ## Past a new boundary -/

section

variable {i : ScopeId} {sc : Scope} (hi : g.scope? i = some sc)
include hi

/-- What is upstream of an old element was so before, or is the new boundary and the element
that was cut off is upstream. -/
theorem Agrees.upstream_boundaryOn (h : g.Agrees) {x o : ElementId} (ho : o < g.size)
    (hup : (g.boundaryOn scheme i).Upstream x o) :
    (x < g.size ∧ g.Upstream x o) ∨ (x = g.size ∧ g.Upstream sc.target o) := by
  have hg := grows_boundaryOn g scheme hi
  induction hup using ReflTransGen.head_induction_on with
  | refl => exact .inl ⟨ho, .refl⟩
  | @head a c hac hco ih =>
    obtain ⟨⟨hl, htap⟩, hxa, hxc⟩ := hac
    rcases ih with ⟨hc, hco⟩ | ⟨rfl, -⟩
    · rw [hg.hasKind_old hc] at htap
      rcases leads_boundaryOn scheme hi hl with ⟨rfl, rfl⟩ | ⟨-, rfl⟩ | hl
      · exact .inr ⟨rfl, hco⟩
      · exact absurd hc (Nat.lt_irrefl _)
      · exact .inl ⟨(h.lt_size_of_leads hl).1, hco.head ⟨⟨hl, htap⟩, hxa, hxc⟩⟩
    · -- the way would pass the new boundary
      rw [hg.hasKind_new fun _ => rfl] at htap
      cases htap

theorem upstream_boundaryOn_new {x : ElementId}
    (hup : (g.boundaryOn scheme i).Upstream x g.size) : x = g.size :=
  hup.eq_of_isTap ((grows_boundaryOn g scheme hi).hasKind_new fun _ => rfl)

/-- What the new boundary is upstream of, the element that was cut off was upstream of. -/
theorem Agrees.upstream_of_boundaryOn_new (h : g.Agrees) {o : ElementId} (ho : o < g.size)
    (hup : (g.boundaryOn scheme i).Upstream g.size o) : g.Upstream sc.target o := by
  rcases h.upstream_boundaryOn hi ho hup with ⟨hlt, -⟩ | ⟨-, hup⟩
  · exact absurd hlt (Nat.lt_irrefl _)
  · exact hup

/-- Two old elements that share something upstream did so before. -/
theorem Agrees.exists_upstream_of_boundaryOn (h : g.Agrees) {x o o' : ElementId}
    (ho : o < g.size) (ho' : o' < g.size) (hup : (g.boundaryOn scheme i).Upstream x o)
    (hup' : (g.boundaryOn scheme i).Upstream x o') : ∃ y, g.Upstream y o ∧ g.Upstream y o' := by
  rcases h.upstream_boundaryOn hi ho hup with ⟨hlt, hx⟩ | ⟨rfl, hx⟩
  · rcases h.upstream_boundaryOn hi ho' hup' with ⟨-, hx'⟩ | ⟨rfl, -⟩
    · exact ⟨x, hx, hx'⟩
    · exact absurd hlt (Nat.lt_irrefl _)
  · exact ⟨sc.target, hx, h.upstream_of_boundaryOn_new hi ho' hup'⟩

end

end Graph

namespace JoinIsolation

/-- A boundary on an accumulated input isolates it, and what clashes past the boundary
clashed before. -/
theorem clashes_boundaryOn (h : g.Ordered) {i : ScopeId} {sc : Scope} (hi : g.Accumulates i sc)
    {s : ScopeId} (hs : Clashes (g.boundaryOn scheme i) s) : s ≠ i ∧ Clashes g s := by
  have hlive := hi.live
  have hg := grows_boundaryOn g scheme hlive
  -- what the join feeds is not upstream of its inputs
  have hjoin : ∀ {t tc}, g.scope? t = some tc → tc.target = sc.target →
      ¬ g.Upstream sc.target tc.origin := fun ht htar =>
    h.acyclic.not_upstream ⟨_, _, ht, rfl, htar⟩
  obtain ⟨⟨sc', hlive', hj, hkept⟩, hclash⟩ := hs
  obtain ⟨hjlt, hj⟩ := hg.of_hasKind hj fun _ => rfl
  replace hclash := hclash sc' hlive'
  rcases boundaryOn_cases scheme hlive hlive' with ⟨rfl, rfl⟩ | ⟨-, rfl⟩ | ⟨hne, hs⟩
  · -- nothing but the new boundary is upstream of the input that was cut
    exfalso
    rcases hclash with ⟨x, hx, hgroup⟩ | ⟨t, tc, x, ht, htar, hts, hx, hx'⟩
    · rw [upstream_boundaryOn_new hlive hx] at hgroup
      exact absurd (hg.of_hasKind hgroup fun _ => rfl).1 (Nat.lt_irrefl _)
    · rw [upstream_boundaryOn_new hlive hx] at hx'
      rcases boundaryOn_cases scheme hlive ht with ⟨hnew, -⟩ | ⟨-, rfl⟩ | ⟨-, ht⟩
      · exact hts hnew
      · exact absurd htar.symm (Nat.ne_of_lt hjlt)
      · exact hjoin ht htar (h.agrees.upstream_of_boundaryOn_new hlive (h.agrees.origin_lt ht) hx')
  · exact absurd hjlt (Nat.lt_irrefl _)
  · have holt := h.agrees.origin_lt hs
    refine ⟨hne, ⟨sc', hs, hj, hkept⟩, fun tc htc => ?_⟩
    rw [hs] at htc
    cases htc
    rcases hclash with ⟨x, hx, hgroup⟩ | ⟨t, tc, x, ht, htar, hts, hx, hx'⟩
    · obtain ⟨hxlt, hgroup⟩ := hg.of_hasKind hgroup fun _ => rfl
      rcases h.agrees.upstream_boundaryOn hlive holt hx with ⟨-, hx⟩ | ⟨rfl, -⟩
      · exact .inl ⟨x, hx, hgroup⟩
      · exact absurd hxlt (Nat.lt_irrefl _)
    · rcases boundaryOn_cases scheme hlive ht with ⟨rfl, rfl⟩ | ⟨-, rfl⟩ | ⟨-, ht⟩
      · -- the new boundary is upstream of no other input of the join
        obtain rfl := upstream_boundaryOn_new hlive hx'
        exact absurd (h.agrees.upstream_of_boundaryOn_new hlive holt hx) (hjoin hs htar.symm)
      · exact absurd htar.symm (Nat.ne_of_lt hjlt)
      · obtain ⟨y, hup, hup'⟩ := h.agrees.exists_upstream_of_boundaryOn hlive holt
          (h.agrees.origin_lt ht) hx hx'
        exact .inr ⟨t, tc, y, ht, htar, hts, hup, hup'⟩

/-- The accumulated inputs that need a tap of their own. -/
def clashing (g : Graph) : IdSet :=
  g.liveScopes.filter fun s => (g.scope? s).any fun sc => g.hasKind Kind.isHashJoin sc.target &&
    isIncompatible g (regions g sc.target) (s, .ofList (feeding g sc.origin))

theorem mem_clashing (h : g.Agrees) {s : ScopeId} : s ∈ clashing g ↔ Clashes g s := by
  simp only [clashing, IdSet.mem_filter, mem_liveScopes, Option.any_eq_true, Bool.and_eq_true]
  constructor
  · rintro ⟨-, sc, hsc, hjoin, hbad⟩
    exact (isIncompatible_regions h hsc hjoin).1 hbad
  · intro hclash
    obtain ⟨sc, hsc, hjoin, -⟩ := hclash.accumulates
    exact ⟨⟨sc, hsc⟩, sc, hsc, hjoin, (isIncompatible_regions h hsc hjoin).2 hclash⟩

/-- A change puts a boundary on an accumulated input that clashes. -/
theorem apply_eq_true (h : g.Ordered) (happly : apply scheme g = (.ok true, g')) :
    ∃ i sc, Clashes g i ∧ g.Accumulates i sc ∧ g' = g.boundaryOn scheme i := by
  rw [apply_eq, changeAt_eq_true] at happly
  obtain ⟨i, hcut, rfl⟩ := happly
  have hclash := clashes_of_incompatibleInput h.agrees h.ends hcut
  obtain ⟨sc, hi⟩ := hclash.accumulates
  exact ⟨i, sc, hclash, hi, rfl⟩

/-- One change: a scope that does not clash takes the place of one that does, and no other
scope comes to clash. -/
structure Isolates (g g' : Graph) : Prop where
  replaced : ∃ i sc r rc, Clashes g i ∧ g.scope? i = some sc ∧ g'.scope? r = some rc ∧
    rc.target = sc.target ∧ rc.ordinal = sc.ordinal ∧ ¬ Clashes g' r ∧ ¬ Clashes g' i
  others : ∀ s, Clashes g' s → Clashes g s

theorem isolates_of_apply (h : g.Ordered) (happly : apply scheme g = (.ok true, g')) :
    g'.Ordered ∧ Isolates g g' ∧ (clashing g').size < (clashing g).size := by
  obtain ⟨i, sc, hclash, hi, rfl⟩ := apply_eq_true h happly
  have hord := h.boundaryOn scheme hi.live
  have hback := fun s (hs : Clashes (g.boundaryOn scheme i) s) => clashes_boundaryOn h hi hs
  refine ⟨hord, ⟨⟨i, sc, _, _, hclash, hi.live, scope?_boundaryOn_new scheme hi.live, rfl, rfl,
    fun hs => ?_, fun hs => (hback i hs).1 rfl⟩, fun s hs => (hback s hs).2⟩, ?_⟩
  · -- the new scope has an id that was not given out
    obtain ⟨sc', hacc⟩ := (hback _ hs).2.accumulates
    exact absurd (lt_scopes_of_scope? hacc.live) (Nat.lt_irrefl _)
  · refine IdSet.size_lt_size (fun s hs => ?_) ((mem_clashing h.agrees).2 hclash) fun hs => ?_
    · exact (mem_clashing h.agrees).2 (hback s ((mem_clashing hord.agrees).1 hs)).2
    · exact (hback i ((mem_clashing hord.agrees).1 hs)).1 rfl

theorem exists_keepsInputs {limit n : Nat} (h : g.Ordered)
    (hrun : (Rule.joinIsolation scheme).fixpoint limit g = (.ok n, g')) :
    ∃ π, g.KeepsInputs g' π := by
  refine (Rule.iterate_induction (P := fun a => a.Ordered ∧ ∃ π, g.KeepsInputs a π) hrun
    ⟨h, id, .refl g⟩ fun a b hab happly => ?_).2
  obtain ⟨ha, π, hπ⟩ := hab
  obtain ⟨i, sc, -, hi, rfl⟩ := apply_eq_true ha happly
  exact ⟨ha.boundaryOn scheme hi.live, _, hπ.boundaryOn ha.agrees hi.live⟩

/-- On a graph without cycles join isolation comes to an end. Each change isolates one
accumulated input and makes no other one clash, so fewer clash than before. With a limit
above the number of those that clash it ends without an error. Then none clashes, and every
element that was there has its inputs at the positions it had, some of them through
boundaries that are new. -/
theorem isolates_of_ordered (h : g.Ordered) (scheme : String) :
    (∀ s, s ∈ clashing g ↔ Clashes g s) ∧
    (∀ g', apply scheme g = (.ok true, g') →
      g'.Ordered ∧ Isolates g g' ∧ (clashing g').size < (clashing g).size) ∧
    ∀ limit, (clashing g).size < limit →
      ∃ n g' π, (Rule.joinIsolation scheme).fixpoint limit g = (.ok n, g') ∧
        n ≤ (clashing g).size ∧ (∀ s, ¬ Clashes g' s) ∧ g.KeepsInputs g' π := by
  refine ⟨fun s => mem_clashing h.agrees, fun g' => isolates_of_apply h, fun limit hlimit => ?_⟩
  obtain ⟨n, g', hrun, hn, hord, hsettled⟩ := Rule.fixpoint_of_decreasing
    (r := .joinIsolation scheme) (P := Graph.Ordered) (m := fun a => (clashing a).size)
    (fun a b ha happly => (isolates_of_apply ha happly).imp_right And.right)
    (fun a e ha => not_error ha.agrees ha.ends) h hlimit
  obtain ⟨π, hπ⟩ := exists_keepsInputs h hrun
  refine ⟨n, g', π, hrun, hn, (incompatibleInput_eq_none hord.agrees hord.ends).1 ?_, hπ⟩
  simp only [Rule.apply, apply] at hsettled
  split at hsettled
  · cases hsettled
  · assumption
  · cases hsettled

/-- One source at all three inputs of a join. -/
def tripled : Definition where
  name := "tripled"
  stages :=
    [⟨"in", [], .source ⟨"hdfs", "in", none, true⟩⟩,
      ⟨"join", ["in", "in", "in"], .hashJoin ⟨["key"], .inner, some ["a", "b", "c"]⟩⟩,
      ⟨"out", ["join"], .sink ⟨"hdfs", "out", none, true⟩⟩]

/-- Two of the inputs clash, and two changes isolate them. -/
theorem isolates_tripled : ∃ g g' n g'' π, tripled.toGraph = .ok g ∧ g.Ordered ∧
    (clashing g).size = 2 ∧ apply "sequence" g = (.ok true, g') ∧ Isolates g g' ∧
      (clashing g').size < 2 ∧ (Rule.joinIsolation "sequence").fixpoint 3 g = (.ok n, g'') ∧
        n ≤ 2 ∧ (∀ s, ¬ Clashes g'' s) ∧ g.KeepsInputs g'' π := by
  have hany : (tripled.toGraph.toOption.any fun g =>
      (PlannerConfig.verify .byScheme g).toOption.any fun _ =>
        decide ((clashing g).size = 2 ∧ (apply "sequence" g).1 = .ok true)) = true := by cbv
  obtain ⟨g, hd, hany⟩ := exists_ok_of_any hany
  obtain ⟨w, hw, hany⟩ := exists_ok_of_any hany
  obtain ⟨hsize, happly⟩ := of_decide_eq_true hany
  have h := (PlannerConfig.shaped_of_verify hd hw).ordered
  obtain ⟨-, hstep, hrun⟩ := isolates_of_ordered h "sequence"
  obtain ⟨-, hiso, hlt⟩ := hstep _ (Prod.ext happly rfl)
  obtain ⟨n, g'', π, hfix, hn, hnone, hπ⟩ := hrun 3 (by omega)
  exact ⟨g, _, n, g'', π, hd, h, hsize, Prod.ext happly rfl, hiso, by omega, hfix, by omega,
    hnone, hπ⟩

end JoinIsolation
end Dataflow
