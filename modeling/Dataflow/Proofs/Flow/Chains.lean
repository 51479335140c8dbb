import Dataflow.Proofs.Flow.Progress
import Dataflow.Proofs.Flow.Splits
import Dataflow.Proofs.Flow.Upheld

/-!
# What tears an every chain

In a sound graph an every is fed by groupings and other everies. Rules put boundaries in,
so the one way to lose this is a tap in front of an every. Job partitioning moves its cuts
past the chains, join isolation cuts in front of joins, source normalization behind taps,
and the rules that take elements away put no tap before an every that had none. Split
insertion does not ask what the split feeds: a split that feeds an every tears the chain.

Results:

* `Upheld.chained_iff`: an every chain holds together unless it is torn;
* `torn_boundaryAfter`, `torn_cutScopes`, `Merges.torn_iff`: what the edits do;
* `Rule.torn_iff`: the rules other than split insertion tear no chain and mend none;
* `SplitInsertion.torn_or_parts_iff`: split insertion tears the chains that splits part.
-/
namespace Dataflow

namespace Graph

variable {scheme : String} {rules : TapRules} {g g' : Graph}

/-- Every every is fed by groupings and other everies alone. -/
def Chained (g : Graph) : Prop :=
  ∀ a e, g.Leads a e → g.hasKind Kind.isEvery e = true → g.hasKind Kind.feedsEvery a = true

/-- Some every is fed by a boundary or a sink. -/
def Torn (g : Graph) : Prop :=
  ∃ a e, g.Leads a e ∧ g.hasKind Kind.passesOn a = true ∧ g.hasKind Kind.isEvery e = true

/-- A scope leaves every every. -/
def EveriesLead (g : Graph) : Prop :=
  ∀ e, g.hasKind Kind.isEvery e = true → g.outgoing e ≠ []

/-- An every that is on a way to `tail` feeds something. -/
theorem Shaped.everiesLead (hs : g.Shaped) (h : g.OnPath) : g.EveriesLead := by
  intro e he hnil
  obtain ⟨-, htail⟩ := h e (contains_of_hasKind he) (hs.isExtent_eq_false (fun _ => rfl) he)
  rcases Relation.ReflTransGen.cases_head htail with heq | ⟨v, ⟨t, tc, htc, ho, -⟩, -⟩
  · exact (hs.ne_extent (fun _ => rfl) he).2 heq
  · have hmem := (hs.agrees.outgoing_iff e t).2 ⟨tc, htc, ho⟩
    rw [hnil] at hmem
    cases hmem

theorem Upheld.chained_iff (h : g.Upheld rules) : g.Chained ↔ ¬ g.Torn := by
  constructor
  · intro hc ⟨a, e, hl, hpass, hev⟩
    rw [hasKind_eq_false (fun _ => Kind.passesOn_of_feedsEvery) (hc a e hl hev)] at hpass
    cases hpass
  · intro hnot a e hl hev
    exact (h.everies a e hl hev).resolve_right fun hpass => hnot ⟨a, e, hl, hpass, hev⟩

/-! ## Boundaries that go in -/

/-- A boundary behind an element tears the everies off that the element feeds. -/
theorem torn_boundaryAfter (hs : g.Shaped) {o : ElementId} :
    (g.boundaryAfter scheme o).Torn ↔
      g.Torn ∨ ∃ e, g.Leads o e ∧ g.hasKind Kind.isEvery e = true := by
  have hg := grows_boundaryAfter g scheme o
  have hpass : (g.boundaryAfter scheme o).hasKind Kind.passesOn g.size = true :=
    hg.hasKind_new fun _ => rfl
  have hold : ∀ {p : Kind → Bool} {a e}, g.Leads a e →
      (g.boundaryAfter scheme o).hasKind p a = g.hasKind p a ∧
        (g.boundaryAfter scheme o).hasKind p e = g.hasKind p e := fun hl =>
    ⟨hg.hasKind_old (hs.agrees.lt_size_of_leads hl).1,
      hg.hasKind_old (hs.agrees.lt_size_of_leads hl).2⟩
  constructor
  · intro ⟨a, e, hl, ha, he⟩
    rcases (hs.agrees.leads_boundaryAfter scheme).1 hl with ⟨-, rfl⟩ | ⟨-, hl⟩ | ⟨-, hl⟩
    · rw [passesOn_of_isEvery he] at hpass
      cases hpass
    · exact .inr ⟨e, hl, (hold hl).2 ▸ he⟩
    · exact .inl ⟨a, e, hl, (hold hl).1 ▸ ha, (hold hl).2 ▸ he⟩
  · have hbehind : ∀ e, g.Leads o e → g.hasKind Kind.isEvery e = true →
        (g.boundaryAfter scheme o).Torn := fun e hl he =>
      ⟨g.size, e, (hs.agrees.leads_boundaryAfter scheme).2 (.inr (.inl ⟨rfl, hl⟩)), hpass,
        (hold hl).2.trans he⟩
    rintro (⟨a, e, hl, ha, he⟩ | ⟨e, hl, he⟩)
    · by_cases hao : a = o
      · exact hbehind e (hao ▸ hl) he
      · exact ⟨a, e, (hs.agrees.leads_boundaryAfter scheme).2 (.inr (.inr ⟨hao, hl⟩)),
          (hold hl).1.trans ha, (hold hl).2.trans he⟩
    · exact hbehind e hl he

/-- A boundary on a scope tears the every off to which the scope leads. -/
theorem torn_boundaryOn (h : g.Agrees) {i : ScopeId} {sc : Scope} (hi : g.scope? i = some sc) :
    (g.boundaryOn scheme i).Torn ↔ g.Torn ∨ g.hasKind Kind.isEvery sc.target = true := by
  have hg := grows_boundaryOn g scheme hi
  have hpass : (g.boundaryOn scheme i).hasKind Kind.passesOn g.size = true :=
    hg.hasKind_new fun _ => rfl
  have hbehind : g.hasKind Kind.isEvery sc.target = true → (g.boundaryOn scheme i).Torn := by
    intro he
    exact ⟨g.size, sc.target, ⟨_, _, scope?_boundaryOn_new scheme hi, rfl, rfl⟩, hpass,
      (hg.hasKind_old (h.target_lt hi)).trans he⟩
  constructor
  · intro ⟨a, e, hl, ha, he⟩
    rcases leads_boundaryOn scheme hi hl with ⟨-, rfl⟩ | ⟨-, rfl⟩ | ⟨s, tc, hs, rfl, rfl⟩
    · exact .inr ((hg.hasKind_old (h.target_lt hi)).symm.trans he)
    · rw [passesOn_of_isEvery he] at hpass
      cases hpass
    · exact .inl ⟨_, _, ⟨s, tc, hs, rfl, rfl⟩, (hg.hasKind_old (h.origin_lt hs)).symm.trans ha,
        (hg.hasKind_old (h.target_lt hs)).symm.trans he⟩
  · rintro (⟨_, _, ⟨s, tc, hs, rfl, rfl⟩, ha, he⟩ | he)
    · by_cases hsi : s = i
      · rw [hsi, hi] at hs
        cases hs
        exact hbehind he
      · exact ⟨_, _, ⟨s, tc, scope?_boundaryOn_old scheme hi hs hsi, rfl, rfl⟩,
          (hg.hasKind_old (h.origin_lt hs)).trans ha, (hg.hasKind_old (h.target_lt hs)).trans he⟩
    · exact hbehind he

/-- A boundary on a scope that leads to no every keeps the chains. -/
theorem Chained.boundaryOn (h : g.Chained) (ha : g.Agrees) {i : ScopeId} {sc : Scope}
    (hi : g.scope? i = some sc) (hev : g.hasKind Kind.isEvery sc.target = false) :
    (g.boundaryOn scheme i).Chained := by
  have hg := grows_boundaryOn g scheme hi
  intro a e hl he
  rcases leads_boundaryOn scheme hi hl with ⟨-, rfl⟩ | ⟨-, rfl⟩ | hab
  · rw [hg.hasKind_old (ha.target_lt hi), hev] at he
    cases he
  · rw [hasKind, kind?, hg.element?_new] at he
    cases he
  · obtain ⟨halt, helt⟩ := ha.lt_size_of_leads hab
    rw [hg.hasKind_old halt]
    exact h a e hab (hg.hasKind_old helt ▸ he)

/-- Boundaries on scopes tear no chain if none of the scopes leads to an every. -/
theorem torn_cutScopes (h : g.Agrees) {cut : IdSet}
    (hcut : ∀ s ∈ cut, ∃ sc, g.scope? s = some sc ∧
      (g.hasKind Kind.isEvery sc.target = true → g.Torn)) :
    (g.cutScopes scheme cut).Torn ↔ g.Torn := by
  -- a new element is no every, so the everies that scopes lead to are those of `g`
  refine (cutScopes_induction (P := fun a => a.Agrees ∧
    (∀ e, a.hasKind Kind.isEvery e = true → g.hasKind Kind.isEvery e = true) ∧ (a.Torn ↔ g.Torn))
    hcut ⟨h, fun _ => id, Iff.rfl⟩ fun a i sc ⟨ha, hold, htorn⟩ hi hev => ?_).2.2
  refine ⟨agrees_boundaryOn scheme ha (Option.isSome_iff_exists.2 ⟨sc, hi⟩), fun e he => ?_, ?_⟩
  · exact hold e ((grows_boundaryOn a scheme hi).of_hasKind he fun _ => rfl).2
  · rw [torn_boundaryOn ha hi, htorn]
    exact or_iff_left_of_imp fun he => hev (hold _ he)

/-! ## Elements that go -/

section

/- A boundary leaves its scopes to another tap, a pipe to what fed it. -/
variable {κ : ElementId → ElementId} (hm : Merges κ g g')
  (hκ : ∀ e, κ e ≠ e →
    (g.hasKind Kind.isBoundary e = true ∧ g.hasKind Kind.passesOn (κ e) = true) ∨
      (g.hasKind Kind.isPipe e = true ∧ ∀ u, g.Leads u e → κ u = κ e))
include hm hκ

/-- Neither tears a chain. -/
theorem Merges.torn_before (h : g.Upheld rules) (htorn : g'.Torn) : g.Torn := by
  obtain ⟨a, e, hl, ha, he⟩ := htorn
  have hlive := contains_of_hasKind ha
  have hev : g.hasKind Kind.isEvery e = true := by
    rw [← hm.hasKind_eq (fun _ => rfl) (contains_of_hasKind he)]
    exact he
  rw [hm.hasKind_eq (fun _ => rfl) hlive] at ha
  obtain ⟨hne, u, v, huv, rfl, rfl⟩ := hm.leads_iff.1 hl
  have hv : κ v = v := by
    by_contra hmoved
    rcases hκ v hmoved with ⟨-, hpass⟩ | ⟨-, hsame⟩
    · rw [passesOn_of_isEvery hev] at hpass
      cases hpass
    · exact hne (hsame u huv)
  rw [hv] at hev
  refine ⟨u, v, huv, ?_, hev⟩
  by_cases hu : κ u = u
  · rwa [hu] at ha
  · rcases hκ u hu with ⟨hb, -⟩ | ⟨hpipe, -⟩
    · exact hasKind_imp (fun _ => Kind.passesOn_of_isBoundary) hb
    · -- a pipe feeds no every
      refine (h.everies u v huv hev).resolve_left fun hf => ?_
      rw [hasKind_eq_false (fun _ => Kind.feedsEvery_of_isPipe) hpipe] at hf
      cases hf

/-- Neither mends a chain. -/
theorem Merges.torn_after (hs : g.Shaped) (htorn : g.Torn) : g'.Torn := by
  obtain ⟨a, e, hl, ha, he⟩ := htorn
  have hee : κ e = e := by
    by_contra hmoved
    rcases hκ e hmoved with ⟨hb, -⟩ | ⟨hpipe, -⟩
    · rw [hasKind_eq_false (fun _ => Kind.isEvery_of_isBoundary) hb] at he
      cases he
    · rw [hasKind_eq_false (fun _ => Kind.isEvery_of_isPipe) hpipe] at he
      cases he
  have hpass : g.hasKind Kind.passesOn (κ a) = true := by
    by_cases haa : κ a = a
    · rw [haa]
      exact ha
    · rcases hκ a haa with ⟨-, hpass⟩ | ⟨hpipe, -⟩
      · exact hpass
      · rw [hasKind_eq_false (fun _ => Kind.passesOn_of_isPipe) hpipe] at ha
        cases ha
  have hne : κ a ≠ e := by
    intro heq
    rw [heq, passesOn_of_isEvery he] at hpass
    cases hpass
  obtain ⟨ha', he'⟩ := hs.ends a e hl
  have hlive := hm.live e he'
  rw [hee] at hlive
  refine ⟨κ a, e, hm.leads_iff.2 ⟨hne, a, e, hl, rfl, hee⟩, ?_, ?_⟩
  · rw [hm.hasKind_eq (fun _ => rfl) (hm.live a ha')]
    exact hpass
  · rw [hm.hasKind_eq (fun _ => rfl) hlive]
    exact he

theorem Merges.torn_iff (hs : g.Shaped) (h : g.Upheld rules) : g'.Torn ↔ g.Torn :=
  ⟨hm.torn_before hκ h, hm.torn_after hκ hs⟩

end

theorem Relabels.torn_iff (hr : g.Relabels g') (hs : g.Shaped) (h : g.Upheld rules) :
    g'.Torn ↔ g.Torn :=
  (hr.merges hs).torn_iff (fun _ hne => absurd rfl hne) hs h

theorem torn_removePassThrough (hs : g.Shaped) (h : g.Upheld rules) {p : ElementId} {i : ScopeId}
    {sc : Scope} (ha : g.arrivals p = [i]) (hi : g.scope? i = some sc)
    (hp : g.hasKind Kind.isPipe p = true) : (g.removePassThrough p).2.Torn ↔ g.Torn := by
  refine (merges_removePassThrough ha hi hs hp).torn_iff (fun e hne => .inr ?_) hs h
  have hep : e = p := by
    by_contra hother
    exact hne (instead_of_ne hother)
  subst hep
  refine ⟨hp, fun u ⟨s, uc, huc, ho, ht⟩ => ?_⟩
  have hmem := (hs.agrees.arrivals_iff e s).2 ⟨uc, huc, ht⟩
  rw [ha, List.mem_singleton] at hmem
  rw [hmem, hi] at huc
  cases huc
  rw [instead_self, ← ho, instead_of_ne (ht ▸ hs.origin_ne_target hi)]

theorem Replaceable.torn_iff {b t : ElementId} {i : ScopeId} {sc : Scope}
    (hr : g.Replaceable b t i sc) (hs : g.Shaped) (h : g.Upheld rules) :
    (g.replaceElement b t).Torn ↔ g.Torn := by
  refine (merges_replaceElement hr hs).torn_iff (fun e hne => .inl ?_) hs h
  have heb : e = b := by
    by_contra hother
    exact hne (instead_of_ne hother)
  subst heb
  rw [instead_self]
  exact ⟨hr.boundary, hr.tap⟩

end Graph

open Dataflow.Graph

variable {scheme : String} {rules : TapRules} {g g' : Graph}

/-! ## What each rule does -/

namespace JobPartitioning

/-- Past an every chain a cut leads to no every. -/
theorem isEvery_of_mem_pastChain (h : g.Agrees) (hends : g.EndsLive) (hlead : g.EveriesLead)
    {l : List ElementId} (hl : g.topology.order = .ok l) {budget : Nat} {s r : ScopeId} {sc : Scope}
    (hsc : g.scope? s = some sc) (hbudget : l.length ≤ budget + l.idxOf sc.target)
    (hr : r ∈ pastChain g budget s) :
    ∃ rc, g.scope? r = some rc ∧ g.hasKind Kind.isEvery rc.target = false := by
  induction budget generalizing s sc with
  | zero =>
    -- no element stands behind the last one
    have hlive := (hends _ _ ⟨s, sc, hsc, rfl, rfl⟩).2
    have := List.idxOf_lt_length_of_mem ((mem_order_iff hl).2 hlive)
    omega
  | succ budget ih =>
    simp only [pastChain, hsc] at hr
    split at hr
    · obtain ⟨t, ht, hr⟩ := List.mem_flatMap.1 hr
      obtain ⟨tc, htc, hto⟩ := (h.outgoing_iff _ _).1 ht
      have hab : g.Leads sc.target tc.target := ⟨t, tc, htc, hto, rfl⟩
      have hlt := h.idxOf_lt_of_leads hl hab (hends _ _ hab).2
      exact ih htc (by omega) hr
    · next hstop =>
      rw [List.mem_singleton.1 hr]
      exact ⟨sc, hsc, Bool.eq_false_iff.2 fun hev => hstop ⟨hev, hlead _ hev⟩⟩

/-- No scope that is cut leads to an every. -/
theorem isEvery_of_findCut (h : g.Ordered) (hlead : g.EveriesLead) {cut : IdSet}
    (hcut : findCut g = .ok (some cut)) {s : ScopeId} (hs : s ∈ cut) :
    ∃ sc, g.scope? s = some sc ∧ g.hasKind Kind.isEvery sc.target = false := by
  obtain ⟨l, hl⟩ := h.exists_order
  have hlen : l.length ≤ g.size := length_le_of_nodup_of_lt (Topology.nodup_of_order hl)
    fun e he => lt_size_of_contains ((mem_order_iff hl).1 he)
  obtain ⟨mt, hmt, rfl⟩ := (findCut_eq_some_iff h.agrees h.ends).1 hcut
  obtain ⟨motif, hm, hfound⟩ := List.exists_of_findSome?_eq_some hmt
  obtain ⟨t, ht, hst⟩ := List.mem_flatMap.1 (IdSet.mem_ofList.1 hs)
  have hinner := mem_innerScopes_of_matchOf h.agrees hm hfound (List.mem_filter.1 ht).1
  obtain ⟨a, b, -, -, tc, htc, -, -⟩ := mem_innerScopes.1 hinner
  exact isEvery_of_mem_pastChain h.agrees h.ends hlead hl htc
    (Nat.le_trans hlen (Nat.le_add_right _ _)) hst

theorem torn_iff (hs : g.Shaped) (h : g.OnPath) : (apply scheme g).2.Torn ↔ g.Torn := by
  rw [apply_eq]
  refine changeAt_induction (P := fun a => a.Torn ↔ g.Torn) Iff.rfl fun cut hcut => ?_
  refine torn_cutScopes hs.agrees fun s hmem => ?_
  obtain ⟨sc, hsc, hev⟩ := isEvery_of_findCut hs.ordered (hs.everiesLead h) hcut hmem
  refine ⟨sc, hsc, fun he => ?_⟩
  rw [hev] at he
  cases he

end JobPartitioning

theorem JoinIsolation.torn_iff (h : g.Agrees) : (apply scheme g).2.Torn ↔ g.Torn := by
  rw [apply_eq]
  refine changeAt_induction (P := fun a => a.Torn ↔ g.Torn) Iff.rfl fun s hcut => ?_
  obtain ⟨sc, hsc, hjoin⟩ := exists_join h hcut
  refine (torn_boundaryOn h hsc).trans (or_iff_left fun he => ?_)
  rw [hasKind_eq_false (fun _ => Kind.isEvery_of_isHashJoin) hjoin] at he
  cases he

/-- A tap that is cut from an every had torn it off before. -/
theorem SourceNormalization.torn_iff (hs : g.Shaped) (h : g.Upheld rules) {rules' : TapRules} :
    (apply scheme rules' g).2.Torn ↔ g.Torn := by
  rw [apply_eq]
  refine changeAt_induction (P := fun a => a.Torn ↔ g.Torn) Iff.rfl fun cut hcut => ?_
  refine torn_cutScopes hs.agrees fun s hmem => ?_
  obtain ⟨_, f, sc, -, hfeed, -, hsc, ho, -⟩ := leavesFeed_of_findCut hs.agrees hcut s hmem
  have htap : g.hasKind Kind.isTap sc.origin = true := ho ▸ hfeed.tap
  refine ⟨sc, hsc, fun he => ?_⟩
  have hlead : g.Leads sc.origin sc.target := ⟨s, sc, hsc, rfl, rfl⟩
  refine ⟨_, _, hlead, (h.everies _ _ hlead he).resolve_left fun hf => ?_, he⟩
  rw [hasKind_eq_false (fun _ => Kind.feedsEvery_of_isTap) htap] at hf
  cases hf

theorem PassThrough.torn_iff (hs : g.Shaped) (h : g.Upheld rules) :
    (apply g).2.Torn ↔ g.Torn := by
  rw [apply_eq]
  refine changeAt_induction (P := fun a => a.Torn ↔ g.Torn) Iff.rfl fun id hid => ?_
  obtain ⟨i, sc, hi, hsc, hpipe⟩ := arrivals_of_removable hs hid
  exact torn_removePassThrough hs h hi hsc hpipe

theorem BoundaryCollapse.torn_iff (hs : g.Shaped) (h : g.Upheld rules) {rules' : TapRules} :
    (apply rules' g).2.Torn ↔ g.Torn := by
  rw [apply_eq]
  refine changeAt_induction (P := fun a => a.Torn ↔ g.Torn) Iff.rfl fun _ hbt => ?_
  obtain ⟨⟨i, sc, hr⟩, -⟩ := replaceable_of_collapsible hs hbt
  exact hr.torn_iff hs h

/-- The rules other than split insertion tear no chain and mend none. -/
theorem Rule.torn_iff {r : Rule} (hr : ∀ s, r ≠ .splitInsertion s) (hs : g.Shaped)
    (h : g.Upheld rules) : (r.apply g).2.Torn ↔ g.Torn := by
  cases r with
  | splitInsertion s => exact absurd rfl (hr s)
  | jobPartitioning s => exact JobPartitioning.torn_iff hs h.onPath
  | joinIsolation s => exact JoinIsolation.torn_iff hs.agrees
  | sourceNormalization s _ => exact SourceNormalization.torn_iff hs h
  | passThrough => exact PassThrough.torn_iff hs h
  | boundaryCollapse _ => exact BoundaryCollapse.torn_iff hs h

namespace SplitInsertion

/-- A split that is to be cut feeds an every. -/
def Parts (g : Graph) : Prop :=
  ∃ e, Point g e ∧ ∃ v, g.Leads e v ∧ g.hasKind Kind.isEvery v = true

/-- A split that gets a boundary parts from the everies that it feeds. Those that other
splits feed are still to be parted. -/
theorem torn_or_parts_iff (hs : g.Shaped) (h : g.Upheld rules) :
    (apply scheme g).2.Torn ∨ Parts (apply scheme g).2 ↔ g.Torn ∨ Parts g := by
  rw [apply_eq]
  refine changeAt_induction (P := fun a => a.Torn ∨ Parts a ↔ g.Torn ∨ Parts g) Iff.rfl
    fun o hfirst => ?_
  obtain ⟨rest, hids⟩ := firstPoint_eq_some.1 hfirst
  have hpoint : ∀ {e}, e ∈ o :: rest ↔ Point g e := mem_splitPoints hs.agrees hs.ends hids
  have ho := hpoint.1 List.mem_cons_self
  have holt : o < g.size := lt_size_of_contains (contains_of_hasKind ho.isProcessing)
  have hg := grows_boundaryAfter g scheme o
  constructor
  · rintro (htorn | ⟨e, he, v, hl, hv⟩)
    · exact ((torn_boundaryAfter hs).1 htorn).imp_right fun ⟨v, hl, hv⟩ => ⟨o, ho, v, hl, hv⟩
    · obtain ⟨hvlt, hv⟩ := hg.of_hasKind hv fun _ => rfl
      obtain ⟨helt, -⟩ := hg.of_hasKind he.isProcessing fun _ => rfl
      rcases (hs.agrees.leads_boundaryAfter scheme).1 hl with ⟨-, rfl⟩ | ⟨rfl, -⟩ | ⟨heo, hl⟩
      · exact absurd hvlt (Nat.lt_irrefl _)
      · exact absurd helt (Nat.lt_irrefl _)
      · exact .inr ⟨e, .of_boundaryAfter hs.agrees scheme holt heo he, v, hl, hv⟩
  · rintro (htorn | ⟨e, he, v, hl, hv⟩)
    · exact .inl ((torn_boundaryAfter hs).2 (.inl htorn))
    · by_cases htorn : g.Torn ∨ ∃ v, g.Leads o v ∧ g.hasKind Kind.isEvery v = true
      · exact .inl ((torn_boundaryAfter hs).2 htorn)
      push Not at htorn
      obtain ⟨htorn, hnone⟩ := htorn
      -- what feeds an every and works on tuples is an every itself
      have hevery : g.hasKind Kind.isEvery e = true := by
        have hfeeds := h.chained_iff.2 htorn e v hl hv
        obtain ⟨x, hx, hk⟩ := hasKind_iff.1 hfeeds
        obtain ⟨y, hy, hk'⟩ := hasKind_iff.1 he.isProcessing
        rw [hx] at hy
        cases hy
        exact hasKind_iff.2 ⟨x, hx, Kind.isEvery_of_feedsEvery hk hk'⟩
      have hnot : ¬ g.Leads o e := fun hoe => hnone e hoe hevery
      have heo : e ≠ o := by
        rintro rfl
        exact hnone v hl hv
      have hmem := (List.mem_cons.1 (hpoint.2 he)).resolve_left heo
      refine .inr ⟨e, he.boundaryAfter hs.agrees scheme holt heo hnot
        (routes_eq_zero hs.agrees hs.ends hids hmem), v,
        (hs.agrees.leads_boundaryAfter scheme).2 (.inr (.inr ⟨heo, hl⟩)), ?_⟩
      exact (hg.hasKind_old (hs.agrees.lt_size_of_leads hl).2).trans hv

/-- Where split insertion settles, no split is left to part a chain. -/
theorem not_parts_of_settled (h : g.Agrees) (hends : g.EndsLive)
    (hset : apply scheme g = (.ok false, g')) : ¬ Parts g := by
  rw [apply_eq, changeAt_eq_false, firstPoint_eq_none] at hset
  intro ⟨e, he, _⟩
  cases (mem_splitPoints h hends hset.1).2 he

end SplitInsertion
end Dataflow
