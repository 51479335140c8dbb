import Dataflow.Proofs.Flow.Failures
import Dataflow.Proofs.Flow.Separation
import Mathlib

/-!
# What job partitioning comes to

Each change puts boundaries on the scopes of one cut. A cut that takes in a scope inside a
step makes progress: the scope ends at a boundary from then on. A cut that takes in none
is idle: the work stays as it is, so the same cut is found again, and job partitioning
runs out of any budget. That takes two groupings that share an every chain.

Results:

* `size_innerScopes_of_apply`: the scopes inside steps after a change;
* `Idle.iterate`: after an idle cut job partitioning never settles;
* `Idle.sharesChain`: what an idle cut takes;
* `settles_unless_stalled`: what job partitioning comes to, from any graph on.
-/
namespace Dataflow

namespace JobPartitioning

open Dataflow.Graph Relation

variable {g g' : Graph} {scheme : String}

/-! ## What a change does -/

/-- The scopes of a match are inside steps. -/
theorem mem_innerScopes_of_matchOf (h : g.Agrees) {motif : Motif} (hm : motif ∈ motifs)
    {mt : Match} (hmt : matchOf g motif = some mt) {s : ScopeId} (hs : s ∈ mt.scopes) :
    s ∈ g.innerScopes := by
  obtain ⟨e, -, v, w, hv, hw, hedge⟩ := Matcher.mem_scopes_of_firstMatch? hmt hs
  obtain ⟨-, a, b, hav, hbw, hjoin⟩ := (Contraction.mem_edgesOut_whole h).1 hedge
  exact mem_innerScopes.2 ⟨a, b, works_of_admits hm rfl hv (Contraction.mem_members.2 hav),
    works_of_admits hm rfl hw (Contraction.mem_members.2 hbw), hjoin⟩

/-- A change puts boundaries on the scopes of the cut. -/
theorem apply_eq_true (h : g.Agrees) (hends : g.EndsLive)
    (happly : apply scheme g = (.ok true, g')) : ∃ cut : IdSet,
      findCut g = .ok (some cut) ∧ Cuts g g' (· ∈ cut) := by
  rw [apply_eq, changeAt_eq_true] at happly
  obtain ⟨cut, hcut, rfl⟩ := happly
  refine ⟨cut, hcut, cuts_cutScopes h hends fun s hs => ?_⟩
  obtain ⟨sc, hsc, -⟩ := leavesWork_of_findCut h hends hcut hs
  exact Option.isSome_iff_exists.2 ⟨sc, hsc⟩

/-! ## Idle cuts -/

/-- The cut that is found takes in no scope inside a step. -/
def Idle (g : Graph) : Prop :=
  ∃ cut : IdSet, findCut g = .ok (some cut) ∧ ∀ s ∈ cut, s ∉ g.innerScopes

/-- A change that is not idle leaves fewer scopes inside steps, an idle one leaves them all. -/
theorem size_innerScopes_of_apply (h : g.Agrees) (hends : g.EndsLive)
    (happly : apply scheme g = (.ok true, g')) :
    (¬ Idle g → g'.innerScopes.size < g.innerScopes.size) ∧
      (Idle g → g'.innerScopes = g.innerScopes) := by
  obtain ⟨cut, hcut, hcuts⟩ := apply_eq_true h hends happly
  constructor
  · intro hidle
    have hmem : ∀ s, s ∈ g'.innerScopes ↔ s ∈ g.innerScopes ∧ s ∉ cut := fun s =>
      hcuts.mem_innerScopes
    obtain ⟨s, hs, hin⟩ : ∃ s ∈ cut, s ∈ g.innerScopes := by
      by_contra hnone
      exact hidle ⟨cut, hcut, fun s hs hin => hnone ⟨s, hs, hin⟩⟩
    exact IdSet.size_lt_size (fun x hx => ((hmem x).1 hx).1) hin fun hx => ((hmem s).1 hx).2 hs
  · intro ⟨cut', hcut', hout⟩
    rw [hcut] at hcut'
    cases hcut'
    exact (hcuts.sameWork hout).innerScopes

/-! ## An idle cut is found again -/

theorem pastChain_of_not_works {s : ScopeId} {sc : Scope} (hsc : g.scope? s = some sc)
    (ht : ¬ g.Works sc.target) (budget : Nat) : pastChain g budget s = [s] := by
  cases budget with
  | zero => rfl
  | succ budget =>
    have hevery : ¬ (g.hasKind Kind.isEvery sc.target = true ∧ g.outgoing sc.target ≠ []) :=
      fun he => ht (hasKind_imp (fun _ => Kind.isWork_of_isEvery) he.1)
    simp only [pastChain, hsc]
    exact if_neg hevery

section

variable (hw : SameWork g g') (h : g.Agrees) (h' : g'.Agrees)
include hw h h'

/-- A scope that leaves what works leads to the same element that works, or to none in either
graph. -/
theorem sameWork_scope? {s : ScopeId} {sc : Scope} (hsc : g.scope? s = some sc)
    (ho : g.Works sc.origin) : ∃ sc', g'.scope? s = some sc' ∧ sc'.origin = sc.origin ∧
      (g.Works sc.target → sc'.target = sc.target) ∧
      (¬ g.Works sc.target → ¬ g'.Works sc'.target) := by
  have hmem := (h.outgoing_iff _ _).2 ⟨sc, hsc, rfl⟩
  rw [← hw.outgoing _ ho] at hmem
  obtain ⟨sc', hsc', ho'⟩ := (h'.outgoing_iff _ _).1 hmem
  refine ⟨sc', hsc', ho', fun ht => ?_, fun ht ht' => ht ?_⟩
  · obtain ⟨sc2, hsc2, -, ht2⟩ := (hw.joins s _ _ ho ht).2 ⟨sc, hsc, rfl, rfl⟩
    rw [hsc'] at hsc2
    cases hsc2
    exact ht2
  · have ht' := (hw.works _).1 ht'
    obtain ⟨sc2, hsc2, -, ht2⟩ := (hw.joins s _ _ ho ht').1 ⟨sc', hsc', ho', rfl⟩
    rw [hsc] at hsc2
    cases hsc2
    exact ht2 ▸ ht'

/-- Past an every chain the cut is the same, if it ends off what works. -/
theorem pastChain_eq {budget budget' : Nat} (hle : budget ≤ budget') {s : ScopeId}
    (hs : LeavesWork g s) (hout : ∀ r ∈ pastChain g budget s, r ∉ g.innerScopes) :
    pastChain g' budget' s = pastChain g budget s := by
  induction budget generalizing budget' s with
  | zero =>
    obtain ⟨sc, hsc, ho⟩ := hs
    obtain ⟨sc', hsc', -, -, hnot⟩ := sameWork_scope? hw h h' hsc ho
    refine pastChain_of_not_works hsc' (hnot fun ht => ?_) _
    exact hout s (List.mem_singleton.2 rfl) (mem_innerScopes.2 ⟨_, _, ho, ht, sc, hsc, rfl, rfl⟩)
  | succ budget ih =>
    obtain ⟨sc, hsc, ho⟩ := hs
    obtain ⟨sc', hsc', -, heq, hnot⟩ := sameWork_scope? hw h h' hsc ho
    by_cases ht : g.Works sc.target
    · obtain ⟨budget', rfl⟩ : ∃ b, budget' = b + 1 := ⟨budget' - 1, by omega⟩
      have hkind : g'.hasKind Kind.isEvery sc.target = g.hasKind Kind.isEvery sc.target :=
        hw.separates.hasKind (fun _ => Kind.isWork_of_isEvery) _
      simp only [pastChain, hsc] at hout
      simp only [pastChain, hsc, hsc', heq ht, hkind, hw.outgoing _ ht]
      split at hout
      · next hevery =>
        rw [if_pos hevery, if_pos hevery]
        refine List.flatMap_congr fun r hr => ?_
        obtain ⟨rc, hrc, hro⟩ := (h.outgoing_iff _ _).1 hr
        exact ih (by omega) ⟨rc, hrc, hro ▸ ht⟩ fun x hx =>
          hout x (List.mem_flatMap.2 ⟨r, hr, hx⟩)
      · -- the scope itself would be cut, inside a step
        exact absurd (mem_innerScopes.2 ⟨_, _, ho, ht, sc, hsc, rfl, rfl⟩)
          (hout s (List.mem_singleton.2 rfl))
    · rw [pastChain_of_not_works hsc ht, pastChain_of_not_works hsc' (hnot ht)]

theorem cutOf_eq (hsize : g.size ≤ g'.size) {motif : Motif} (hm : motif ∈ motifs) {mt : Match}
    (hmt : matchOf g motif = some mt)
    (hout : ∀ r ∈ cutOf (contraction g) mt, r ∉ g.innerScopes) :
    cutOf (contraction g') mt = cutOf (contraction g) mt := by
  have hinner : ∀ s ∈ mt.scopes, s ∈ g.innerScopes := fun s =>
    mem_innerScopes_of_matchOf h hm hmt
  have hexpand : ∀ e, g.Works e → (e ∈ (contraction g').expand mt.secondary ↔
      e ∈ (contraction g).expand mt.secondary) := by
    intro e he
    refine Contraction.mem_expand.trans (Iff.trans ?_ Contraction.mem_expand.symm)
    have hrep := sameWork_representative? hw h h' he
    exact exists_congr fun v => and_congr_right fun _ => hrep ▸ Iff.rfl
  have hfilter : mt.scopes.toList.filter (touches g' ((contraction g').expand mt.secondary)) =
      mt.scopes.toList.filter (touches g ((contraction g).expand mt.secondary)) := by
    refine List.filter_congr fun s hs => ?_
    obtain ⟨a, b, ha, hb, hjoin⟩ := mem_innerScopes.1 (hinner s hs)
    obtain ⟨sc', hsc', rfl, rfl⟩ := (hw.joins s a b ha hb).2 hjoin
    obtain ⟨sc, hsc, ho, ht⟩ := hjoin
    simp only [touches, hsc, hsc', Option.any_some, ho, ht, hexpand _ ha, hexpand _ hb]
  show (mt.scopes.toList.filter (touches g' ((contraction g').expand mt.secondary))).flatMap
      (pastChain g' g'.size) =
    (mt.scopes.toList.filter (touches g ((contraction g).expand mt.secondary))).flatMap
      (pastChain g g.size)
  rw [hfilter]
  refine List.flatMap_congr fun s hs => ?_
  obtain ⟨a, b, ha, -, sc, hsc, rfl, -⟩ := mem_innerScopes.1 (hinner s (List.mem_filter.1 hs).1)
  exact pastChain_eq hw h h' hsize ⟨sc, hsc, ha⟩ fun r hr =>
    hout r (List.mem_flatMap.2 ⟨s, hs, hr⟩)

end

/-- Where the work is the same, an idle cut is found again. -/
theorem Idle.of_sameWork (hidle : Idle g) (hw : SameWork g g') (h : g.Agrees) (hends : g.EndsLive)
    (h' : g'.Agrees) (hends' : g'.EndsLive) (hsize : g.size ≤ g'.size) : Idle g' := by
  obtain ⟨cut, hcut, hout⟩ := hidle
  have hmatch : ∀ l : List Motif, (∀ m ∈ l, m ∈ motifs) →
      l.findSome? (matchOf g') = l.findSome? (matchOf g) := by
    intro l hl
    induction l with
    | nil => simp only [List.findSome?_nil]
    | cons m rest ih =>
      have hm : matchOf g' m = matchOf g m :=
        (sameWork_sameSight hw h h' (hl m List.mem_cons_self)).firstMatch? true
      rw [List.findSome?_cons, List.findSome?_cons, hm,
        ih fun m hm => hl m (List.mem_cons_of_mem _ hm)]
  obtain ⟨mt, hmt, rfl⟩ := (findCut_eq_some_iff h hends).1 hcut
  obtain ⟨motif, hm, hfound⟩ := List.exists_of_findSome?_eq_some hmt
  have hcutOf := cutOf_eq hw h h' hsize hm hfound fun r hr => hout r (IdSet.mem_ofList.2 hr)
  refine ⟨.ofList (cutOf (contraction g) mt), (findCut_eq_some_iff h' hends').2 ⟨mt, ?_, ?_⟩, ?_⟩
  · rw [hmatch motifs fun _ hm => hm, hmt]
  · rw [hcutOf]
  · rw [hw.innerScopes]
    exact hout

/-- After an idle cut job partitioning never settles, whatever the budget. -/
theorem Idle.iterate (hidle : Idle g) (h : g.Agrees) (hends : g.EndsLive)
    (limit budget changes : Nat) :
    ((Rule.jobPartitioning scheme).iterate limit budget changes g).1 =
      .error (.nonTermination "job-partitioning" limit) := by
  induction budget generalizing g changes with
  | zero => rfl
  | succ budget ih =>
    obtain ⟨cut, hcut, hout⟩ := id hidle
    have happly : apply scheme g = (.ok true, g.cutScopes scheme cut) := by
      rw [apply_eq, changeAt_eq_true]
      exact ⟨cut, hcut, rfl⟩
    obtain ⟨cut', hcut', hcuts⟩ := apply_eq_true h hends happly
    rw [hcut] at hcut'
    cases hcut'
    have hidle' := hidle.of_sameWork (hcuts.sameWork hout) h hends hcuts.agrees hcuts.ends
      hcuts.size_le
    have hiter := ih hidle' hcuts.agrees hcuts.ends (changes + 1)
    simp only [Rule.iterate, Rule.apply, happly]
    exact hiter

/-! ## What an idle cut takes -/

/-- Two groupings feed one region, one of them through an every. -/
def SharesChain (g : Graph) : Prop :=
  ∃ u v x y, u ≠ v ∧ g.hasKind Kind.isGrouping u = true ∧ g.hasKind Kind.isGrouping v = true ∧
    g.Leads u x ∧ g.Leads v y ∧ g.hasKind Kind.isEvery y = true ∧
      ReflTransGen (g.Linked (Processes g)) x y

/-- A scope that would be cut inside a step leads to an every. -/
theorem isEvery_of_pastChain {s : ScopeId} {a b : ElementId} (ha : g.Works a) (hb : g.Works b)
    (hs : g.Joins s a b) (hout : ∀ r ∈ pastChain g g.size s, r ∉ g.innerScopes) :
    g.hasKind Kind.isEvery b = true := by
  have hpos : 0 < g.size := Nat.zero_lt_of_lt (lt_size_of_contains ha.contains)
  obtain ⟨n, hn⟩ : ∃ n, g.size = n + 1 := Nat.exists_eq_add_one.2 hpos
  by_contra hevery
  obtain ⟨sc, hsc, ho, ht⟩ := id hs
  have hnot : ¬ (g.hasKind Kind.isEvery sc.target = true ∧ g.outgoing sc.target ≠ []) :=
    fun he => hevery (ht ▸ he.1)
  refine hout s ?_ (mem_innerScopes.2 ⟨a, b, ha, hb, hs⟩)
  simp only [hn, pastChain, hsc, if_neg hnot]
  exact List.mem_singleton.2 rfl

/-- What the search makes of a shape that occurs. -/
structure Assigns (g : Graph) (motif : Motif) (a : Assignment) : Prop where
  total : ∀ p, p < motif.size → ∃ v, a.lookup p = some v
  apart : (a.map Prod.snd).Nodup
  admitted : (matcherOf motif).Admitted (contraction g).target a
  held : (matcherOf motif).EdgesHeld (contraction g).target a

theorem exists_assigns {motif : Motif} (hm : motif ∈ motifs) {mt : Match}
    (hmt : matchOf g motif = some mt) : ∃ anchor a, Assigns g motif a ∧
      mt = (matcherOf motif).merge (contraction g).target anchor [a] := by
  obtain ⟨anchor, a, hanchor, ha, rfl⟩ := Matcher.firstMatch?_eq_some hmt
  refine ⟨anchor, a, ⟨fun p hp => ?_, Matcher.nodup_of_mem_assignments ha,
    Matcher.admits_of_mem_assignments hanchor ha, Matcher.edgesHeld_of_mem_assignments ha⟩, rfl⟩
  exact Matcher.exists_lookup_of_mem_assignments ha (order_matcherOf hm) (List.mem_range.2 hp)

section

variable {motif : Motif} {a : Assignment} (hasg : Assigns g motif a)
include hasg

theorem Assigns.works (hm : motif ∈ motifs) {p : Nat} {v x : ElementId} (hv : a.lookup p = some v)
    (hx : (contraction g).representative? x = some v) : g.Works x :=
  works_of_admits hm rfl (hasg.admitted.of_lookup hv) (Contraction.mem_members.2 hx)

theorem Assigns.isGrouping {p : Nat} {v x : ElementId} (hv : a.lookup p = some v)
    (hp : (motif.nodes[p]?).map MotifNode.test = some (.kind .grouping))
    (hx : (contraction g).representative? x = some v) : g.hasKind Kind.isGrouping x = true := by
  obtain ⟨n, hn, ht⟩ := Option.map_eq_some_iff.1 hp
  have hadm := hasg.admitted.of_lookup hv
  simp only [Matcher.admits, matcherOf, hn, Option.any_some, ht] at hadm
  exact (Contraction.holds_kind_whole.1 hadm).2 x hx

variable (h : g.Agrees)
include h

/-- A motif edge stands for a scope. -/
theorem Assigns.exists_joins {e : MotifEdge} (he : e ∈ motif.edges) {v w : ElementId}
    (hv : a.lookup e.origin = some v) (hw : a.lookup e.target = some w) :
    ∃ s x y, s ∈ (contraction g).target.scopesBetween v w e.test ∧ g.Joins s x y ∧
      (contraction g).representative? x = some v ∧
      (contraction g).representative? y = some w := by
  obtain ⟨s, hs⟩ := List.exists_mem_of_ne_nil _ (hasg.held e he v w hv hw)
  obtain ⟨-, x, y, hxv, hyw, hjoin⟩ :=
    (Contraction.mem_edgesOut_whole h).1 (Matcher.mem_scopesBetween.1 hs).1
  exact ⟨s, x, y, hs, hjoin, hxv, hyw⟩

end

/-- The shape of two groupings that feed one region. -/
def merging : Motif :=
  ⟨[processing (some .primary), grouping .included, grouping .secondary], [arc 1 0, arc 2 0]⟩

/-- In the other shapes the scope that is cut leads to a grouping. -/
theorem exists_secondary_grouping {motif : Motif} (hm : motif ∈ motifs) (hne : motif ≠ merging) :
    ∃ e ∈ motif.edges, e.origin < motif.size ∧ e.target < motif.size ∧
      (motif.nodes[e.target]?.bind MotifNode.capture) = some .secondary ∧
      (motif.nodes[e.target]?).map MotifNode.test = some (.kind .grouping) := by
  simp only [motifs, List.mem_cons, List.not_mem_nil, or_false] at hm
  rcases hm with rfl | rfl | rfl | rfl
  · exact ⟨arc 0 1, by decide, by decide, by decide, by decide, rfl⟩
  · exact ⟨arc 1 2, by decide, by decide, by decide, by decide, rfl⟩
  · exact ⟨arc 0 2, by decide, by decide, by decide, by decide, rfl⟩
  · exact absurd rfl hne

/-- An idle cut is one of two groupings that feed a region: in every other shape, and past
anything but an every, the scope that is cut is inside a step. -/
theorem Idle.sharesChain (hidle : Idle g) (h : g.Agrees) (hends : g.EndsLive) :
    SharesChain g := by
  obtain ⟨cut, hcut, hout⟩ := hidle
  obtain ⟨mt, hmt, rfl⟩ := (findCut_eq_some_iff h hends).1 hcut
  obtain ⟨motif, hm, hfound⟩ := List.exists_of_findSome?_eq_some hmt
  obtain ⟨anchor, a, hasg, rfl⟩ := exists_assigns hm hfound
  by_cases hne : motif = merging
  · subst hne
    obtain ⟨r, hr⟩ := hasg.total 0 (by decide)
    obtain ⟨u, hu⟩ := hasg.total 1 (by decide)
    obtain ⟨v, hv⟩ := hasg.total 2 (by decide)
    obtain ⟨t, u', x, -, hux, hu', hx⟩ := hasg.exists_joins h (e := arc 1 0) (by decide) hu hr
    obtain ⟨s, v', y, hs, hvy, hv', hy⟩ := hasg.exists_joins h (e := arc 2 0) (by decide) hv hr
    have hevery := isEvery_of_pastChain (hasg.works hm hv hv') (hasg.works hm hr hy) hvy
      fun q hq => hout q (IdSet.mem_ofList.2
        (mem_cutOf h (e := arc 2 0) (by decide) hv hr (.inl rfl) hs hq))
    have hlink := (Contraction.representative?_eq_iff h hx).1 hy
    rw [candidate_eq] at hlink
    refine ⟨u', v', x, y, ?_, hasg.isGrouping hu rfl hu', hasg.isGrouping hv rfl hv', ⟨t, hux⟩,
      ⟨s, hvy⟩, hevery, hlink⟩
    intro huv
    rw [huv, hv'] at hu'
    exact Matcher.ne_of_lookup hasg.apart hu hv (by decide) (Option.some.inj hu').symm
  · obtain ⟨e, he, ho, ht, hsec, htest⟩ := exists_secondary_grouping hm hne
    obtain ⟨v, hv⟩ := hasg.total _ ho
    obtain ⟨w, hw⟩ := hasg.total _ ht
    obtain ⟨s, x, y, hs, hxy, hxv, hyw⟩ := hasg.exists_joins h he hv hw
    have hevery := isEvery_of_pastChain (hasg.works hm hv hxv) (hasg.works hm hw hyw) hxy
      fun q hq => hout q (IdSet.mem_ofList.2 (mem_cutOf h he hv hw (.inr hsec) hs hq))
    rw [hasKind_eq_false (fun _ => Kind.isEvery_of_isGrouping) (hasg.isGrouping hw htest hyw)]
      at hevery
    cases hevery

/-! ## Any number of changes -/

/-- One change. -/
def Changes (scheme : String) (a b : Graph) : Prop := apply scheme a = (.ok true, b)

/-- The changes come to an idle cut. -/
def Stalls (scheme : String) (g : Graph) : Prop := ∃ a, ReflTransGen (Changes scheme) g a ∧ Idle a

/-- A chain that is shared was shared before boundaries went in. -/
theorem SharesChain.of_separates {cut : ScopeId → Prop} (h : SharesChain g')
    (hsep : Separates g g' cut) : SharesChain g := by
  obtain ⟨u, v, x, y, hne, hu, hv, hux, hvy, hy, hxy⟩ := h
  have hproc : ∀ e, Processes g' e → Processes g e := fun e he => by
    rw [Processes, hsep.hasKind fun _ => Kind.isWork_of_isProcessing] at he
    exact he
  have hleads : ∀ a b, g'.Works a → g'.Works b → g'.Leads a b → g.Leads a b := by
    rintro a b ha hb ⟨s, hs⟩
    exact ⟨s, ((hsep.joins s a b ((hsep.works a).1 ha) ((hsep.works b).1 hb)).1 hs).1⟩
  have hwork : ∀ e, Processes g' e → g'.Works e := fun e =>
    hasKind_imp fun _ => Kind.isWork_of_isProcessing
  have hyw : g'.Works y := hasKind_imp (fun _ => Kind.isWork_of_isEvery) hy
  have hxw : g'.Works x := by
    rcases ReflTransGen.cases_head hxy with rfl | ⟨z, hxz, -⟩
    · exact hyw
    · exact hwork x hxz.1
  refine ⟨u, v, x, y, hne, ?_, ?_, ?_, ?_, ?_, ReflTransGen.mono (fun a b hab => ?_) _ _ hxy⟩
  · rwa [hsep.hasKind fun _ => Kind.isWork_of_isGrouping] at hu
  · rwa [hsep.hasKind fun _ => Kind.isWork_of_isGrouping] at hv
  · exact hleads u x (hasKind_imp (fun _ => Kind.isWork_of_isGrouping) hu) hxw hux
  · exact hleads v y (hasKind_imp (fun _ => Kind.isWork_of_isGrouping) hv) hyw hvy
  · rwa [hsep.hasKind fun _ => Kind.isWork_of_isEvery] at hy
  · obtain ⟨ha, hb, hl⟩ := hab
    exact ⟨hproc a ha, hproc b hb, hl.imp (hleads a b (hwork a ha) (hwork b hb))
      (hleads b a (hwork b hb) (hwork a ha))⟩

/-- What every change keeps. -/
theorem changes_induction (h : g.Agrees) (hends : g.EndsLive)
    (hrun : ReflTransGen (Changes scheme) g g') :
    g'.Agrees ∧ g'.EndsLive ∧ (SharesChain g' → SharesChain g) := by
  induction hrun with
  | refl => exact ⟨h, hends, id⟩
  | tail _ hchange ih =>
    obtain ⟨ha, hae, hshare⟩ := ih
    obtain ⟨cut, -, hcuts⟩ := apply_eq_true ha hae hchange
    exact ⟨hcuts.agrees, hcuts.ends, fun hs => hshare (hs.of_separates hcuts.toSeparates)⟩

theorem Stalls.sharesChain (hs : Stalls scheme g) (h : g.Agrees) (hends : g.EndsLive) :
    SharesChain g := by
  obtain ⟨a, hrun, hidle⟩ := hs
  obtain ⟨ha, hae, hshare⟩ := changes_induction h hends hrun
  exact hshare (hidle.sharesChain ha hae)

/-- Changes that come to an idle cut exceed every budget. -/
theorem Stalls.iterate (hs : Stalls scheme g) (h : g.Agrees) (hends : g.EndsLive)
    (limit budget changes : Nat) :
    ((Rule.jobPartitioning scheme).iterate limit budget changes g).1 =
      .error (.nonTermination "job-partitioning" limit) := by
  obtain ⟨a, hrun, hidle⟩ := hs
  induction hrun using ReflTransGen.head_induction_on generalizing budget changes with
  | refl => exact hidle.iterate h hends limit budget changes
  | head hchange _ ih =>
    cases budget with
    | zero => rfl
    | succ budget =>
      obtain ⟨cut, -, hcuts⟩ := apply_eq_true h hends hchange
      have hiter := ih hcuts.agrees hcuts.ends budget (changes + 1)
      simp only [Rule.iterate, Rule.apply, show apply scheme _ = _ from hchange]
      exact hiter

/-- Changes that come to no idle cut end once every scope inside a step could have been cut. -/
theorem exists_iterate (hs : ¬ Stalls scheme g) (h : g.Agrees) (hends : g.EndsLive)
    (limit changes : Nat) {budget : Nat} (hbudget : g.innerScopes.size < budget) :
    ∃ n g', (Rule.jobPartitioning scheme).iterate limit budget changes g = (.ok n, g') ∧
      n + g'.innerScopes.size ≤ changes + g.innerScopes.size := by
  have hstep : ∀ a b, (¬ Stalls scheme a ∧ a.Agrees ∧ a.EndsLive) →
      (Rule.jobPartitioning scheme).apply a = (.ok true, b) →
        (¬ Stalls scheme b ∧ b.Agrees ∧ b.EndsLive) ∧ b.innerScopes.size < a.innerScopes.size := by
    rintro a b ⟨hs, h, hends⟩ happly
    obtain ⟨cut, -, hcuts⟩ := apply_eq_true h hends happly
    refine ⟨⟨?_, hcuts.agrees, hcuts.ends⟩, ?_⟩
    · rintro ⟨c, hrun, hc⟩
      exact hs ⟨c, hrun.head happly, hc⟩
    · exact (size_innerScopes_of_apply h hends happly).1 fun hidle => hs ⟨a, .refl, hidle⟩
  rcases Rule.iterate_of_decreasing hstep limit changes ⟨hs, h, hends⟩ hbudget with
    ⟨n, g', hrun, -, hle⟩ | ⟨a, e, g', ⟨-, ha, hlive⟩, happly, -⟩
  · exact ⟨n, g', hrun, hle⟩
  · exact absurd (congrArg Prod.fst happly) (not_error ha hlive)

/-- Job partitioning makes progress but for idle cuts. A change leaves fewer scopes inside
steps exactly if its cut is not idle. With a limit above the number of such scopes job
partitioning ends, after at most as many changes as scopes went, unless the changes come to
an idle cut; then it exceeds every limit. That takes two groupings which feed one region, one
of them through an every: where no two do, it always ends. How a cut moves past everies is said by
`pastChain_eq_flatMap`, for graphs in which no everies feed each other in a circle. -/
theorem settles_unless_stalled (h : g.Agrees) (hends : g.EndsLive) (scheme : String) :
    (∀ g', apply scheme g = (.ok true, g') →
      (g'.innerScopes.size < g.innerScopes.size ↔ ¬ Idle g)) ∧
    (∀ limit, g.innerScopes.size < limit → ¬ Stalls scheme g →
      ∃ n g', (Rule.jobPartitioning scheme).fixpoint limit g = (.ok n, g') ∧
        n + g'.innerScopes.size ≤ g.innerScopes.size) ∧
    (∀ limit, Stalls scheme g → ((Rule.jobPartitioning scheme).fixpoint limit g).1 =
      .error (.nonTermination "job-partitioning" limit)) ∧
    (Stalls scheme g → SharesChain g) := by
  refine ⟨fun g' happly => ?_, fun limit hlimit hs => ?_, fun limit hs => ?_, fun hs => ?_⟩
  · obtain ⟨hlt, heq⟩ := size_innerScopes_of_apply h hends happly
    refine ⟨fun hsize hidle => ?_, hlt⟩
    rw [heq hidle] at hsize
    exact Nat.lt_irrefl _ hsize
  · obtain ⟨n, g', hiter, hle⟩ := exists_iterate hs h hends limit 0 hlimit
    exact ⟨n, g', hiter, by omega⟩
  · exact hs.iterate h hends limit limit 0
  · exact hs.sharesChain h hends

/-- Two groupings feed one every, which feeds a sink. -/
def shared : Definition where
  name := "shared"
  stages :=
    [⟨"in", [], .source ⟨"hdfs", "in", some ["key"], true⟩⟩,
      ⟨"g", ["in"], .groupBy ["key"]⟩, ⟨"h", ["in"], .groupBy ["key"]⟩,
      ⟨"e", ["g", "h"], .every ⟨"e", none, none, ["key"], .all⟩⟩,
      ⟨"out", ["e"], .sink ⟨"hdfs", "out", none, true⟩⟩]

/-- Its changes stall. -/
theorem stalls_shared : ∃ g, shared.toGraph = .ok g ∧ g.Agrees ∧ g.EndsLive ∧
    Stalls "sequence" g ∧ SharesChain g := by
  have hany : (shared.toGraph.toOption.any fun g =>
      (PlannerConfig.verify .byScheme g).toOption.any fun _ =>
        decide (g.innerScopes.size < 3 ∧ ((Rule.jobPartitioning "sequence").fixpoint 3 g).1 =
          .error (.nonTermination "job-partitioning" 3))) = true := by cbv
  obtain ⟨g, hd, hany⟩ := exists_ok_of_any hany
  obtain ⟨w, hw, hany⟩ := exists_ok_of_any hany
  obtain ⟨hsize, hfix⟩ := of_decide_eq_true hany
  have hs := PlannerConfig.shaped_of_verify hd hw
  obtain ⟨-, hends, -, hshares⟩ := settles_unless_stalled hs.agrees hs.ends "sequence"
  have hstalls : Stalls "sequence" g := by
    by_contra hnot
    obtain ⟨n, g', heq, -⟩ := hends 3 hsize hnot
    rw [heq] at hfix
    cases hfix
  exact ⟨g, hd, hs.agrees, hs.ends, hstalls, hshares hstalls⟩

/-- The first change leaves the scopes inside steps all there, and with a limit above their
number job partitioning does not end. -/
theorem shared_stuck : ∃ g w g', shared.toGraph = .ok g ∧ PlannerConfig.verify .byScheme g = .ok w ∧
    apply "sequence" g = (.ok true, g') ∧ g'.innerScopes.size = g.innerScopes.size ∧
      g.innerScopes.size < 3 ∧ ((Rule.jobPartitioning "sequence").fixpoint 3 g).1 =
        .error (.nonTermination "job-partitioning" 3) := by
  have hany : (shared.toGraph.toOption.any fun g =>
      (PlannerConfig.verify .byScheme g).toOption.any fun _ =>
        decide ((apply "sequence" g).1 = .ok true ∧
          (apply "sequence" g).2.innerScopes.size = g.innerScopes.size ∧ g.innerScopes.size < 3 ∧
          ((Rule.jobPartitioning "sequence").fixpoint 3 g).1 =
            .error (.nonTermination "job-partitioning" 3))) = true := by cbv
  obtain ⟨g, hd, hany⟩ := exists_ok_of_any hany
  obtain ⟨w, hw, hany⟩ := exists_ok_of_any hany
  obtain ⟨happly, hsame, hsize, hfix⟩ := of_decide_eq_true hany
  exact ⟨g, w, _, hd, hw, Prod.ext happly rfl, hsame, hsize, hfix⟩

end JobPartitioning
end Dataflow
