import Dataflow.Proofs.Flow.Ways
import Dataflow.Rule.JoinIsolation

/-!
# What supplies an element

Behind a tap the rows come from a file, so what supplies an element ends at the nearest
taps above it. Join isolation and source normalization both look at these elements, and
each edit does little to them: a boundary on a scope takes the place of what is above it,
a pipe that goes drops out, a tap in place of a boundary stands in for it.

Results:

* `Agrees.mem_feeding`: the search of join isolation finds what is upstream of an element;
* `OnPath.upstream_iff`: that is what supplies the element, where elements lie on ways;
* `supplies_insertOnScope`, `supplies_removePassThrough`, `supplies_replaceElement`,
  `Relabels.supplies_iff`: what each edit does to it.
-/
namespace Dataflow
namespace Graph

open Relation

variable {g g' : Graph} {κ : ElementId → ElementId}

/-- The element that a scope leads to is no tap. -/
def LeadsOn (g : Graph) (a c : ElementId) : Prop := g.Leads a c ∧ g.hasKind Kind.isTap c = false

/-- `x` leads to `o`, and behind `x` the way meets no tap. -/
def Supplies (g : Graph) (x o : ElementId) : Prop := ReflTransGen g.LeadsOn x o

/-- Nothing but the tap itself supplies a tap. -/
theorem Supplies.eq_of_isTap {x o : ElementId} (h : g.Supplies x o)
    (ho : g.hasKind Kind.isTap o = true) : x = o := by
  rcases h.cases_tail with heq | ⟨b, -, -, hb⟩
  · exact heq.symm
  · rw [ho] at hb
    cases hb

/-- Nothing leads on from `tail`, so it supplies nothing else. -/
theorem Supplies.ne_tail (h : g.Supplies x o) (hs : g.Shaped) (ho : o ≠ tail) : x ≠ tail := by
  rintro rfl
  rcases h.cases_head with heq | ⟨c, ⟨hl, -⟩, -⟩
  · exact ho heq.symm
  · exact hs.tail_last c hl

/-- A relation between steps carries over to what they reach. -/
theorem Supplies.mono (hstep : ∀ a c, g.LeadsOn a c → g'.Supplies a c) {x o : ElementId}
    (h : g.Supplies x o) : g'.Supplies x o := by
  induction h with
  | refl => exact .refl
  | tail _ hbc ih => exact ih.trans (hstep _ _ hbc)

/-- A scope to what is no tap, between elements that are no extents. -/
def LeadsWithin (g : Graph) (a c : ElementId) : Prop :=
  g.LeadsOn a c ∧ isExtent a = false ∧ isExtent c = false

/-- `x` is upstream of `o`: it leads there, and behind it the way meets neither taps nor
extents. -/
def Upstream (g : Graph) (x o : ElementId) : Prop := ReflTransGen g.LeadsWithin x o

theorem Upstream.supplies {x o : ElementId} (h : g.Upstream x o) : g.Supplies x o :=
  ReflTransGen.mono (fun _ _ hac => hac.1) _ _ h

/-- What the search of join isolation goes on to from `v`. -/
def above (g : Graph) (v : ElementId) : List ElementId :=
  if !g.hasKind Kind.isTap v && !isExtent v then
    ((g.edgesIn v).map Prod.snd).filter fun p => !isExtent p
  else []

theorem Agrees.mem_above (h : g.Agrees) {v w : ElementId} :
    w ∈ g.above v ↔ g.LeadsWithin w v := by
  have hinputs : w ∈ (g.edgesIn v).map Prod.snd ↔ g.Leads w v := h.mem_inputs
  unfold above
  split
  · next hv =>
    simp only [Bool.and_eq_true, Bool.not_eq_true'] at hv
    simp [LeadsWithin, LeadsOn, List.mem_filter, hinputs, hv]
  · next hv =>
    simp only [Bool.and_eq_true, Bool.not_eq_true'] at hv
    exact iff_of_false List.not_mem_nil fun hl => hv ⟨hl.1.2, hl.2.2⟩

/-- The search of join isolation finds what is upstream of an element. -/
theorem Agrees.mem_feeding (h : g.Agrees) {x o : ElementId} (ho : o < g.size) :
    x ∈ JoinIsolation.feeding g o ↔ g.Upstream x o := by
  have hback : Function.swap (fun v w => w ∈ g.above v) = g.LeadsWithin :=
    funext₂ fun _ _ => propext h.mem_above
  show x ∈ explore g.above (g.size + 1) [o] [o] ↔ _
  rw [mem_explore (fun v w hw => (h.lt_size_of_leads (h.mem_above.1 hw).1.1).1) ho, Upstream,
    ← hback, reflTransGen_swap]

/-- Where elements lie on ways, a scope to what is no tap joins no extent to `tail` or from
`head`. -/
theorem OnPath.leadsWithin (h : g.OnPath) (hs : g.Shaped) {v w : ElementId} (hv : v ≠ tail)
    (hl : g.LeadsOn w v) : g.LeadsWithin w v := by
  refine ⟨hl, ?_, ?_⟩ <;> rw [← Bool.not_eq_true, isExtent_iff]
  · rintro (rfl | rfl)
    · -- `head` feeds sources, which are taps
      have htap := hl.2
      rw [hasKind_imp (fun _ => Kind.isTap_of_isSource) (hs.head_first v hl.1)] at htap
      cases htap
    · exact hs.tail_last v hl.1
  · rintro (rfl | rfl)
    · exact h.not_leads_head hs w hl.1
    · exact hv rfl

/-- Where elements lie on ways, an element is supplied by what is upstream of it. -/
theorem OnPath.upstream_iff (h : g.OnPath) (hs : g.Shaped) {x o : ElementId} (ho : o ≠ tail) :
    g.Upstream x o ↔ g.Supplies x o := by
  refine ⟨Upstream.supplies, fun hxo => ?_⟩
  induction hxo using ReflTransGen.head_induction_on with
  | refl => exact .refl
  | head hac hco ih => exact ih.head (h.leadsWithin hs (Supplies.ne_tail hco hs ho) hac)

/-! ## What edits do to it -/

/-- Where merging moves nothing but taps along the scopes that stay, what supplied an
element is moved to what supplies the element that stands in for it. -/
theorem Merges.supplies (h : Merges κ g g') (hs : g.Shaped)
    (hκ : ∀ a c, g.LeadsOn a c → κ a ≠ κ c → κ c = c) {x o : ElementId}
    (hxo : g.Supplies x o) : g'.Supplies (κ x) (κ o) := by
  induction hxo with
  | refl => exact .refl
  | @tail a c _ hac ih =>
    by_cases hne : κ a = κ c
    · exact hne ▸ ih
    · have hc := hκ a c hac hne
      have hlive := h.live c (hs.ends a c hac.1).2
      rw [hc] at hlive
      refine ih.tail ⟨h.leads_iff.2 ⟨hne, a, c, hac.1, rfl, rfl⟩, ?_⟩
      rw [hc, h.hasKind_eq (fun _ => rfl) hlive]
      exact hac.2

theorem Relabels.supplies_iff (h : g.Relabels g') (hs : g.Shaped) {x o : ElementId} :
    g'.Supplies x o ↔ g.Supplies x o := by
  refine ⟨Supplies.mono fun a c hac => .single ⟨h.leads hac.1, ?_⟩,
    (h.merges hs).supplies hs fun _ _ _ _ => rfl⟩
  rw [← (h.merges hs).hasKind_eq (fun _ => rfl) ((h.shaped hs).ends a c hac.1).2]
  exact hac.2

/-- A boundary on a scope supplies what the origin of the scope did. -/
theorem supplies_insertOnScope (hs : g.Shaped) {i : ScopeId} {sc : Scope} {x : Element}
    (hi : g.scope? i = some sc) (hb : x.kind.isBoundary = true) {e o : ElementId}
    (ho : o ≠ g.size) (heo : (g.insertOnScope i x).2.Supplies e o) :
    g.Supplies (instead g.size sc.origin e) o := by
  have hg := grows_insertOnScope hi hb
  have hnew : (g.insertOnScope i x).2.hasKind Kind.isTap g.size = true :=
    hg.hasKind_new fun _ => rfl
  induction heo using ReflTransGen.head_induction_on with
  | refl => rw [instead_of_ne ho]; exact .refl
  | @head a c hac _ ih =>
    obtain ⟨hl, htap⟩ := hac
    have hc : c ≠ g.size := by
      rintro rfl
      rw [hnew] at htap
      cases htap
    rw [instead_of_ne hc] at ih
    rcases leads_insertOnScope hi hl with ⟨rfl, rfl⟩ | ⟨-, rfl⟩ | hl'
    · rw [hg.hasKind_old (hs.agrees.target_lt hi)] at htap
      rw [instead_self]
      exact ih.head ⟨⟨i, sc, hi, rfl, rfl⟩, htap⟩
    · exact absurd rfl hc
    · have hlt := hs.agrees.lt_size_of_leads hl'
      rw [hg.hasKind_old hlt.2] at htap
      rw [instead_of_ne (Nat.ne_of_lt hlt.1)]
      exact ih.head ⟨hl', htap⟩

/-- A pipe that is spliced out drops out of what supplies an element. -/
theorem supplies_removePassThrough {p : ElementId} {i : ScopeId} {sc : Scope}
    (ha : g.arrivals p = [i]) (hi : g.scope? i = some sc) (hs : g.Shaped)
    (hp : g.hasKind Kind.isPipe p = true) {x o : ElementId} :
    (g.removePassThrough p).2.Supplies x (instead p sc.origin o) ↔ x ≠ p ∧ g.Supplies x o := by
  have hg := shrinks_removePassThrough ha hi
  have hm := merges_removePassThrough ha hi hs hp
  have hs' := shaped_removePassThrough ha hi hs hp
  have hnotap : g.hasKind Kind.isTap p = false :=
    hasKind_eq_false (fun k hk => by rw [Kind.eq_pipe_of_isPipe hk]; rfl) hp
  have hin : g.LeadsOn sc.origin p :=
    ⟨⟨i, sc, hi, rfl, hs.agrees.target_eq_of_arrivals ha hi⟩, hnotap⟩
  have hne : sc.origin ≠ p := fun ho => hs.not_leads_self p (ho ▸ hin.1)
  constructor
  · intro hxo
    have hxp : x ≠ p := by
      rcases hxo.cases_head with heq | ⟨c, hxc, -⟩
      · rw [heq]
        unfold instead
        split
        · exact hne
        · next hop => exact hop
      · exact (hg.of_contains (hs'.ends x c hxc.1).1).1
    have hback : ∀ {c}, (g.removePassThrough p).2.Supplies x c → g.Supplies x c :=
      Supplies.mono fun a c hac => by
        obtain ⟨hcp, hl⟩ := hs.agrees.leads_removePassThrough ha hi (contains_of_hasKind hp) hne hac.1
        have hc := hac.2
        rw [hg.hasKind_of_ne hcp] at hc
        rcases hl with ⟨rfl, hl⟩ | ⟨-, hl⟩
        · exact .tail (.single hin) ⟨hl, hc⟩
        · exact .single ⟨hl, hc⟩
    refine ⟨hxp, ?_⟩
    by_cases hop : o = p
    · subst hop
      rw [instead_self] at hxo
      exact (hback hxo).tail hin
    · rw [instead_of_ne hop] at hxo
      exact hback hxo
  · rintro ⟨hxp, hxo⟩
    rw [← instead_of_ne (t := sc.origin) hxp]
    refine hm.supplies hs (fun a c hac hκ => instead_of_ne ?_) hxo
    rintro rfl
    -- the one scope into the pipe is gone
    have hsole := hs.agrees.soleInput_of_arrivals ha
    obtain ⟨s, tc, htc, rfl, htar⟩ := hac.1
    rw [hsole.2 s tc htc htar, hi] at htc
    cases htc
    rw [instead_self, instead_of_ne hne] at hκ
    exact hκ rfl

/-- A tap in place of a boundary supplies what either did. -/
theorem supplies_replaceElement {b t : ElementId} {i : ScopeId} {sc : Scope}
    (hr : g.Replaceable b t i sc) (hs : g.Shaped) {x o : ElementId} :
    (g.replaceElement b t).Supplies x (instead b t o) ↔
      ∃ y, g.Supplies y o ∧ instead b t y = x := by
  have hg := shrinks_replaceElement g b t
  have hm := merges_replaceElement hr hs
  have hs' := shaped_replaceElement hr hs
  have htb := (hr.ne hs).1
  have htap : ∀ {c}, (g.replaceElement b t).hasKind Kind.isTap (instead b t c) = false →
      instead b t c = c := by
    intro c hc
    refine instead_of_ne ?_
    rintro rfl
    rw [instead_self, hg.hasKind_of_ne htb, hasKind_imp (fun _ => Kind.isTap_of_passesOn) hr.tap]
      at hc
    cases hc
  constructor
  · intro hxo
    induction hxo using ReflTransGen.head_induction_on with
    | refl => exact ⟨o, .refl, rfl⟩
    | @head a c hac _ ih =>
      -- what stands in for an element that is no tap is that element
      obtain ⟨w, hwo, rfl⟩ := ih
      obtain ⟨hl, hc⟩ := hac
      obtain ⟨-, u, v, huv, rfl, hv⟩ := hm.leads_iff.1 hl
      have hw := htap hc
      have hvw : v = w := by
        rw [← hv] at hc
        rw [← htap hc, hv, hw]
      subst hvw
      rw [hw, hm.hasKind_eq (fun _ => rfl) (hw ▸ (hs'.ends _ _ hl).2)] at hc
      exact ⟨u, hwo.head ⟨huv, hc⟩, rfl⟩
  · rintro ⟨y, hyo, rfl⟩
    refine hm.supplies hs (fun a c hac _ => instead_of_ne ?_) hyo
    rintro rfl
    have := hac.2
    rw [hasKind_imp (fun _ hk => Kind.isTap_of_passesOn (Kind.passesOn_of_isBoundary hk))
      hr.boundary] at this
    cases this

end Graph
end Dataflow
