import Mathlib
import Dataflow.Proofs.Step.Placed
import Dataflow.Proofs.Step.Precedence

/-!
# When the steps can be ordered

A step starts once all that it reads is there, and what it writes is there once the whole
step is done. So what is behind an element also waits for whatever that element hangs
together with: `Carries` follows the scopes downwards, and crosses a region in every
direction. Two regions that carry to each other cannot both come first, nor can a copy
whose target carries back to its source. A graph with such a pair is `Entangled`; the
element graph itself may well be acyclic. Nothing else keeps its steps from being ordered.

Results:

* `Topology.exists_cycle`: where no order is found, the vertices feed each other in a circle;
* `StepGraph.not_entangled_of_build`: the steps of an entangled graph have no order;
* `Draft.entangled_of_hands`: handovers in a circle are found in entangled graphs only;
* `StepGraph.exists_build_iff`: when a graph is cut into steps.
-/
namespace Dataflow

open Dataflow.Graph Relation

variable {g : Graph}

namespace Graph

/-- What is at `b` waits for what is at `a`: a scope between inner elements leads there, or
both work in one region. -/
def Carries (g : Graph) (a b : ElementId) : Prop :=
  (g.Leads a b ∧ isExtent a = false ∧ isExtent b = false) ∨ g.Linked g.Works a b

/-- Two regions carry to each other, or the target of a copy carries to its source. -/
def Entangled (g : Graph) : Prop :=
  (∃ x y, g.Works x ∧ g.Works y ∧ ¬ ReflTransGen (g.Linked g.Works) x y ∧
    ReflTransGen g.Carries x y ∧ ReflTransGen g.Carries y x) ∨
  ∃ a b, g.hasKind Kind.isTap a = true ∧ g.hasKind Kind.isTap b = true ∧ g.Leads a b ∧
    ReflTransGen g.Carries b a

theorem carries_of_linked {a b : ElementId} (h : ReflTransGen (g.Linked g.Works) a b) :
    ReflTransGen g.Carries a b :=
  ReflTransGen.mono (fun _ _ => Or.inr) _ _ h

theorem Shaped.isExtent_of_works (hs : g.Shaped) {e : ElementId} (he : g.Works e) :
    isExtent e = false :=
  hs.isExtent_eq_false (fun _ => rfl) he

theorem Shaped.isExtent_of_isTap (hs : g.Shaped) {e : ElementId}
    (he : g.hasKind Kind.isTap e = true) : isExtent e = false :=
  hs.isExtent_eq_false (fun _ => rfl) he

end Graph

/-! ## An order that is found -/

namespace StepGraph

open Draft

variable {order : List ElementId} {l : List Draft} {p : StepGraph} {j k : Nat} {x y : ElementId}

/-- A step has arrived at what works in it. -/
theorem Lists.arrived_of_holds (hl : p.Lists g order l) (hw : g.Works x) (hj : p.Holds j x) :
    Arrived g p j x := by
  refine ⟨fun _ k hk => ?_, fun ht => absurd hw (not_works_of_isTap ht)⟩
  rw [hl.holds_unique hw hj hk]

theorem Lists.arrived_carries (hl : p.Lists g order l) (hends : g.EndsLive)
    (h : ReflTransGen g.Carries x y) (hx : Arrived g p j x) : Arrived g p j y := by
  induction h with
  | refl => exact hx
  | @tail a b _ hab ih =>
    rcases hab with ⟨hlead, ha, -⟩ | ⟨ha, hb, hlink⟩
    · exact hl.arrived_step (hends a b hlead).1 ha hlead ih
    · -- the rest of the region is in the same step
      refine ⟨fun _ k hk => ih.1 ha k ?_, fun ht => absurd hb (not_works_of_isTap ht)⟩
      exact (hl.holds_iff_linked hb ha hk).2 (.single (linked_symm ⟨ha, hb, hlink⟩))

theorem Lists.not_before_self (hl : p.Lists g order l) : ¬ TransGen p.Before k k :=
  fun h => Nat.lt_irrefl k (hl.lt_of_before h)

/-- What is ordered is not entangled. -/
theorem not_entangled_of_build (hs : g.Shaped) {multiEdge : Bool}
    (hb : build g multiEdge = .ok p) : ¬ g.Entangled := by
  obtain ⟨order, l, hl⟩ := lists_of_build hs.agrees hb
  have hhold : ∀ {e}, g.Works e → ∃ k, p.Holds k e := fun he =>
    hl.exists_holds he.contains (hs.isExtent_of_works he)
  intro h
  rcases h with ⟨x, y, hx, hy, hapart, hxy, hyx⟩ | ⟨a, b, ha, hb, hab, hba⟩
  · obtain ⟨j, hj⟩ := hhold hx
    obtain ⟨k, hk⟩ := hhold hy
    have hjk := (hl.arrived_carries hs.ends hxy (hl.arrived_of_holds hx hj)).1 hy k hk
    have hkj := (hl.arrived_carries hs.ends hyx (hl.arrived_of_holds hy hk)).1 hx j hj
    rcases reflTransGen_iff_eq_or_transGen.1 hjk with heq | hlt
    · rw [heq] at hk
      exact hapart ((hl.holds_iff_linked hx hy hj).1 hk)
    · exact hl.not_before_self (hlt.trans_left hkj)
  · -- the copy waits for the step that writes its source, and that one for the copy
    obtain ⟨c, ⟨s, hsc, -, hreads, hwrites⟩, -⟩ := hl.copied ha hb hab
    have hca : p.Reads c a := ⟨s, hsc, by rw [hreads]; exact List.mem_cons_self⟩
    have hcb : p.Writes c b := ⟨s, hsc, by rw [hwrites]; exact List.mem_cons_self⟩
    have harr : Arrived g p c b :=
      ⟨fun hw => absurd hw (not_works_of_isTap hb), fun _ => ⟨c, hcb, .refl⟩⟩
    obtain ⟨k, hka, hck⟩ := (hl.arrived_carries hs.ends hba harr).2 ha
    by_cases hkc : k = c
    · obtain ⟨s', hs', ha'⟩ := hkc ▸ hka
      rw [hsc] at hs'; cases hs'
      rw [hwrites, List.mem_singleton] at ha'
      exact hs.not_leads_self b (ha' ▸ hab)
    · exact hl.not_before_self (.tail' hck ⟨_, hl.mem_edges_iff.2 ⟨k, c, a, hkc, hka, hca, rfl⟩,
        rfl, rfl⟩)

end StepGraph

/-! ## Drafts in a circle -/

namespace Topology

variable {t : Topology}

/-- An edge leads from `a` to `b`. -/
def Into (t : Topology) (a b : ElementId) : Prop := ∃ s, (s, a) ∈ t.edgesIn b

/-- Where no order is found, some vertices feed each other in a circle. -/
theorem exists_cycle {e : CycleError} (h : t.order = .error e)
    (hfrom : ∀ v ∈ t.vertices, ∀ x ∈ t.edgesIn v, x.2 ∈ t.vertices) :
    ∃ v, TransGen t.Into v v := by
  obtain ⟨⟨v, hv⟩, hstuck⟩ := stuck_spec h
  by_contra hnone
  -- the stuck vertices are finitely many, so one of them would be fed by no other
  let R (a b : { v // v ∈ e.stuck.toList }) : Prop := TransGen t.Into a.1 b.1
  have htrans : IsTrans _ R := ⟨fun _ _ _ => TransGen.trans⟩
  have hirrefl : Std.Irrefl R := ⟨fun a ha => hnone ⟨a.1, ha⟩⟩
  have hwf : WellFounded R := Finite.wellFounded_of_trans_of_irrefl R
  obtain ⟨m, -, hmin⟩ := hwf.has_min Set.univ ⟨⟨v, hv⟩, trivial⟩
  obtain ⟨hvert, ⟨s, w⟩, hx, hw⟩ := hstuck m.1 m.2
  exact hmin ⟨w, hw.resolve_right fun hout => hout (hfrom m.1 hvert _ hx)⟩ trivial
    (.single ⟨s, hx⟩)

end Topology

namespace Draft

variable {d d' : Draft} {ds : List Draft} {i j : Nat} {t u : ElementId}

/-- Draft `i` hands a tap over to another draft `j`. -/
def Hands (ds : List Draft) (i j : Nat) : Prop := i ≠ j ∧ ∃ d d' t, ds[i]? = some d ∧
  ds[j]? = some d' ∧ t ∈ d.sinks ∧ t ∈ d'.sources

theorem order_error {e : CycleError} (h : order ds (handovers ds) = .error e) :
    ∃ i, TransGen (Hands ds) i i := by
  have hinto : ∀ {v : Nat} {x : ElementId × Nat},
      x ∈ (topology ds.length (handovers ds)).edgesIn v → Hands ds x.2 v := by
    intro v x hx
    obtain ⟨y, hy, rfl⟩ := List.mem_map.1 hx
    obtain ⟨hy, hto⟩ := List.mem_filter.1 hy
    obtain ⟨hne, d, d', hd, hd', hsink, hsource⟩ := mem_handovers.1 hy
    rw [beq_iff_eq] at hto
    subst hto
    exact ⟨hne, d, d', y.tap, hd, hd', hsink, hsource⟩
  rw [order_eq] at h
  split at h
  · cases h
  · next e' he =>
    obtain ⟨v, hv⟩ := Topology.exists_cycle he fun v _ x hx => by
      obtain ⟨-, d, -, -, hd, -⟩ := hinto hx
      exact IdSet.mem_below.2 ⟨(List.getElem?_eq_some_iff.1 hd).1, rfl⟩
    exact ⟨v, TransGen.mono (fun _ _ ⟨_, hs⟩ => hinto hs) _ _ hv⟩

/-- Something in the region of `d` lies behind every tap that `d` reads, and before every
one that it writes. -/
theorem IsRegion.carries (hs : g.Shaped) {r : ElementId} (hd : d.IsRegion g r) :
    (t ∈ d.sources → ReflTransGen g.Carries t r) ∧
      (t ∈ d.sinks → ReflTransGen g.Carries r t) := by
  refine ⟨fun ht => ?_, fun ht => ?_⟩
  · obtain ⟨htap, x, hx, htx⟩ := (hd.sources t).1 ht
    have hlink := reflTransGen_linked_symm ((hd.region x).1 hx)
    exact (carries_of_linked hlink).head (.inl ⟨htx, hs.isExtent_of_isTap htap,
      hs.isExtent_of_works (hd.works_of_mem hx)⟩)
  · obtain ⟨htap, x, hx, hxt⟩ := (hd.sinks t).1 ht
    exact (carries_of_linked ((hd.region x).1 hx)).tail (.inl ⟨hxt,
      hs.isExtent_of_works (hd.works_of_mem hx), hs.isExtent_of_isTap htap⟩)

/-- What a draft writes waits for what it reads. -/
theorem IsDraft.carries (hs : g.Shaped) (hd : d.IsDraft g) (ht : t ∈ d.sources)
    (hu : u ∈ d.sinks) : ReflTransGen g.Carries t u := by
  rcases hd with ⟨r, hr⟩ | ⟨a, b, ha, hb, hab, rfl⟩
  · exact ((hr.carries hs).1 ht).trans ((hr.carries hs).2 hu)
  · rw [List.mem_singleton.1 ht, List.mem_singleton.1 hu]
    exact .single (.inl ⟨hab, hs.isExtent_of_isTap ha, hs.isExtent_of_isTap hb⟩)

/-- Along handovers, some tap that the last draft reads waits for one that the first one
writes. -/
theorem Hands.carries (hs : g.Shaped) (hds : Drafted g ds) (h : TransGen (Hands ds) i j) :
    ∃ d d' t u, ds[i]? = some d ∧ ds[j]? = some d' ∧ t ∈ d.sinks ∧ u ∈ d'.sources ∧
      ReflTransGen g.Carries t u := by
  induction h with
  | single h =>
    obtain ⟨-, d, d', t, hd, hd', ht, ht'⟩ := h
    exact ⟨d, d', t, t, hd, hd', ht, ht', .refl⟩
  | tail _ h ih =>
    obtain ⟨d, d', t, u, hd, hd', ht, hu, htu⟩ := ih
    obtain ⟨-, d₁, d'', v, hd₁, hd'', hv, hv'⟩ := h
    rw [hd'] at hd₁; cases hd₁
    have huv := IsDraft.carries hs (hds.each d' (List.mem_of_getElem? hd')) hu hv
    exact ⟨d, d'', t, v, hd, hd'', ht, hv', htu.trans huv⟩

/-- A copy in a circle of handovers. -/
theorem entangled_of_isCopy (hs : g.Shaped) (hds : Drafted g ds) (h : TransGen (Hands ds) i i)
    (hd : ds[i]? = some d) (hcopy : d.IsCopy g) : g.Entangled := by
  obtain ⟨d₁, d₂, t, u, hd₁, hd₂, ht, hu, htu⟩ := Hands.carries hs hds h
  rw [hd] at hd₁ hd₂; cases hd₁; cases hd₂
  obtain ⟨a, b, ha, hb, hab, rfl⟩ := hcopy
  rw [List.mem_singleton.1 ht, List.mem_singleton.1 hu] at htu
  exact .inr ⟨a, b, ha, hb, hab, htu⟩

/-- The region of one draft carries to that of another one. -/
theorem IsRegion.carries_of_hands (hs : g.Shaped) (hds : Drafted g ds)
    (h : TransGen (Hands ds) i j) (hd : ds[i]? = some d) (hd' : ds[j]? = some d')
    {r r' : ElementId} (hr : d.IsRegion g r) (hr' : d'.IsRegion g r') :
    ReflTransGen g.Carries r r' := by
  obtain ⟨d₁, d₂, t, u, hd₁, hd₂, ht, hu, htu⟩ := Hands.carries hs hds h
  rw [hd] at hd₁; cases hd₁
  rw [hd'] at hd₂; cases hd₂
  exact ((hr.carries hs).2 ht).trans (htu.trans ((hr'.carries hs).1 hu))

/-- Handovers in a circle entangle the graph. -/
theorem entangled_of_hands (hs : g.Shaped) (hds : Drafted g ds)
    (h : TransGen (Hands ds) i i) : g.Entangled := by
  -- the circle has a second draft, from which the way leads back to the first one
  obtain ⟨j, hij, hback⟩ := TransGen.head'_iff.1 h
  obtain ⟨hne, d, d', -, hd, hd', -⟩ := id hij
  have hji : TransGen (Hands ds) j i :=
    (reflTransGen_iff_eq_or_transGen.1 hback).resolve_left hne
  have hdraft : ∀ {k : Nat} {d : Draft}, ds[k]? = some d → d.IsDraft g := fun hk =>
    hds.each _ (List.mem_of_getElem? hk)
  rcases hdraft hd with ⟨r, hr⟩ | hcopy
  · rcases hdraft hd' with ⟨r', hr'⟩ | hcopy
    · refine .inl ⟨r, r', hr.works, hr'.works, fun hlink => ?_,
        hr.carries_of_hands hs hds (.single hij) hd hd' hr',
        hr'.carries_of_hands hs hds hji hd' hd hr⟩
      exact hne (hds.eq_of_shared hd hd' (.inr ⟨r', (hr.region r').2 hlink, hr'.self_mem⟩))
    · exact entangled_of_isCopy hs hds (hji.tail hij) hd' hcopy
  · exact entangled_of_isCopy hs hds h hd hcopy

end Draft

namespace StepGraph

open Draft

/-- A graph whose drafts can be finished is cut into steps if it is not entangled, and only
then; all that can go wrong is a cycle. -/
theorem exists_build_iff (hs : g.Shaped) (h : g.OnPath) (hp : g.Partitioned) (multiEdge : Bool) :
    ((∃ p, build g multiEdge = .ok p) ↔ ¬ g.Entangled) ∧
      ∀ e, build g multiEdge = .error e → ∃ c, e = .cycle c := by
  refine ⟨⟨fun ⟨p, hb⟩ => not_entangled_of_build hs hb, fun hnot => ?_⟩, fun e hb => ?_⟩
  · cases hb : build g multiEdge with
    | ok p => exact ⟨p, rfl⟩
    | error e =>
      obtain ⟨ds, c, hds, hc, -⟩ := build_error hs h hp hb
      obtain ⟨i, hi⟩ := order_error hc
      exact absurd (entangled_of_hands hs (drafted_of_list hs.agrees hds) hi) hnot
  · obtain ⟨ds, c, -, -, hc⟩ := build_error hs h hp hb
    exact ⟨c, hc⟩

end StepGraph
end Dataflow
