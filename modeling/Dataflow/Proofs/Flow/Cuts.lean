import Dataflow.Proofs.Contraction
import Dataflow.Proofs.Cursor.Motif
import Dataflow.Proofs.Flow.Supply
import Dataflow.Proofs.Motif.Matcher
import Dataflow.Proofs.Rule.Application
import Dataflow.Proofs.View

/-!
# Where the rules put boundaries

Three rules choose scopes to cut, each in its own way. All of these scopes are
`Cuttable`: they start at a grouping, an element that processes or a tap, and they
do not end at `tail`.

Results:

* `JobPartitioning.pastChain_eq_flatMap`: how a cut moves past an every;
* `JobPartitioning.cutAmong_cons`: what is cut for one shape, by a search in place of a cursor;
* `JobPartitioning.findCut_eq`: the cut is that of the first shape that occurs;
* `JobPartitioning.cuttable`: past every chains, the cut leaves an element of a step;
* `JoinIsolation.cuttable`: the cut enters a join;
* `SourceNormalization.leavesFeed_of_findCut`: the cut leaves taps that supply a grouping.
-/
namespace Dataflow

open Dataflow.Graph

variable {g : Graph}

/-- A scope that leaves an element which is neither an extent nor a sink. -/
theorem Graph.Shaped.cuttable_of_origin (hs : g.Shaped) {p : Kind → Bool}
    (hext : ∀ x, p (.extent x) = false) (hsink : ∀ k, p k = true → k.isSink = false)
    {s : ScopeId} {sc : Scope} (hsc : g.scope? s = some sc) (ho : g.hasKind p sc.origin = true) :
    g.Cuttable s := by
  refine ⟨sc, hsc, (hs.ne_extent hext ho).1, fun ht => ?_⟩
  have := hs.tail_fed sc.origin ⟨s, sc, hsc, rfl, ht⟩
  rw [hasKind_eq_false hsink ho] at this
  cases this

namespace JobPartitioning

/-- The scope leaves an element that works. -/
def LeavesWork (g : Graph) (s : ScopeId) : Prop :=
  ∃ sc, g.scope? s = some sc ∧ g.Works sc.origin

/-- Past an every chain a cut still leaves an element that works. -/
theorem leavesWork_of_pastChain (ha : g.Agrees) (budget : Nat) {s r : ScopeId}
    (hs : LeavesWork g s) (hr : r ∈ pastChain g budget s) : LeavesWork g r := by
  induction budget generalizing s with
  | zero =>
    rw [List.mem_singleton.1 hr]
    exact hs
  | succ budget ih =>
    obtain ⟨sc, hsc, ho⟩ := hs
    simp only [pastChain, hsc] at hr
    split at hr
    · next hevery =>
      obtain ⟨t, ht, hr⟩ := List.mem_flatMap.1 hr
      obtain ⟨tc, htc, hto⟩ := (ha.outgoing_iff _ _).1 ht
      refine ih ⟨tc, htc, ?_⟩ hr
      rw [hto]
      exact hasKind_imp (fun _ => Kind.isWork_of_isEvery) hevery.1
    · rw [List.mem_singleton.1 hr]
      exact ⟨sc, hsc, ho⟩

theorem pastChain_ne_nil (g : Graph) (budget : Nat) (s : ScopeId) : pastChain g budget s ≠ [] := by
  induction budget generalizing s with
  | zero => exact List.cons_ne_nil _ _
  | succ budget ih =>
    unfold pastChain
    split
    · exact List.cons_ne_nil _ _
    · split
      · next hchain =>
        obtain ⟨t, ht⟩ := List.exists_mem_of_ne_nil _ hchain.2
        obtain ⟨r, hr⟩ := List.exists_mem_of_ne_nil _ (ih t)
        exact List.ne_nil_of_mem (List.mem_flatMap.2 ⟨t, ht, hr⟩)
      · exact List.cons_ne_nil _ _

/-- Every element that is passed takes a place in the topological order, so budget for the places
behind a scope is enough. -/
theorem pastChain_succ (ha : g.Agrees) {order : List ElementId}
    (ho : g.topology.order = .ok order) (budget : Nat) {s : ScopeId}
    (hb : ∀ sc, g.scope? s = some sc → order.length ≤ budget + order.idxOf sc.target) :
    pastChain g (budget + 1) s = pastChain g budget s := by
  induction budget generalizing s with
  | zero =>
    unfold pastChain
    split
    · rfl
    · next sc hsc =>
      rw [if_neg]
      rintro ⟨hevery, -⟩
      have hlt := List.idxOf_lt_length_of_mem ((mem_order_iff ho).2 (contains_of_hasKind hevery))
      have hle := hb sc hsc
      omega
  | succ budget ih =>
    rw [pastChain, pastChain]
    split
    · rfl
    · next sc hsc =>
      split
      · refine List.flatMap_congr fun t ht => ih fun tc htc => ?_
        obtain ⟨tc', htc', horigin⟩ := (ha.outgoing_iff _ _).1 ht
        rw [htc] at htc'
        cases htc'
        have hle := hb sc hsc
        by_cases hlive : g.contains tc.target = true
        · have hlt := ha.idxOf_lt_of_leads ho ⟨t, tc, htc, horigin, rfl⟩ hlive
          omega
        · rw [List.idxOf_eq_length fun hmem => hlive ((mem_order_iff ho).1 hmem)]
          omega
      · rfl

/-- **On a graph without a cycle the budget never ends a chain**: past an every with scopes behind
it the cut moves to all of them, and each of these is moved in the same way. -/
theorem pastChain_eq_flatMap (h : g.Ordered) {s : ScopeId} {sc : Scope}
    (hsc : g.scope? s = some sc) : pastChain g g.size s =
      if g.hasKind Kind.isEvery sc.target ∧ g.outgoing sc.target ≠ [] then
        (g.outgoing sc.target).flatMap (pastChain g g.size)
      else [s] := by
  obtain ⟨order, ho⟩ := h.exists_order
  have hlen : order.length ≤ g.size := by
    rw [(Topology.perm_of_order ho).length_eq]
    exact (List.length_filter_le _ _).trans (Nat.le_of_eq List.length_range)
  rw [← pastChain_succ h.agrees ho g.size fun _ _ => Nat.le_add_right_of_le hlen, pastChain, hsc]

/-! ### One match of a cursor -/

/-- The graph contracted by processing elements. -/
def contraction (g : Graph) : Contraction := (View.whole g).contract (.kind .processing)

/-- The scopes to cut for a match in a contraction. -/
def cutOf (c : Contraction) (m : Match) : List ScopeId := cutAt c.view.graph (c.expand m.secondary) m

/-- The one match that is taken from a fresh cursor is the first that a search finds, and taking
it does not fail. -/
theorem cutAmong_cons (g : Graph) (motif : Motif) (rest : List Motif) :
    cutAmong g (motif :: rest) =
      match Matcher.ofMotif motif with
      | .error e => .error (.motif e)
      | .ok matcher =>
        match ((matcher.firstMatch? (contraction g).target ∅ true).map
            (cutOf (contraction g))).getD [] with
        | [] => cutAmong g rest
        | cut =>
          match cut.findSome? (leadsNowhere? g) with
          | some ref => .error (.dead ref)
          | none => .ok (some (.ofList cut)) := by
  rw [cutAmong]
  cases hm : Matcher.ofMotif motif with
  | error e =>
    rw [MotifCursor.new, hm]
    rfl
  | ok matcher =>
    have hnew : MotifCursor.new (.whole g) (some (.kind .processing)) motif true =
        .ok (.start (contraction g) matcher true) := MotifCursor.new_of_ofMotif hm
    have hawaits : (MotifCursor.start (contraction g) matcher true).Awaits
        (matcher.allMatches (contraction g).target ∅ true) :=
      MotifCursor.awaits_start hm (View.whole g) (some (.kind .processing)) true
    rw [hnew]
    dsimp only
    rw [Matcher.firstMatch?_eq_head?]
    cases hall : matcher.allMatches (contraction g).target ∅ true with
    | nil =>
      rw [hall] at hawaits
      rw [hawaits.hasNext_nil]
      rfl
    | cons m ms =>
      rw [hall] at hawaits
      have hnext : Cursor.next (MotifCursor.start (contraction g) matcher true).advance =
          (.ok _, _) := hawaits.advance.next_cons (Selection.deadScope?_whole g)
      rw [hawaits.hasNext_cons]
      dsimp only
      rw [hnext]
      rfl

/-! ### The shapes -/

/-- The matchers of the four shapes, anchored at their first vertex. -/
def matcherOf (motif : Motif) : Matcher := ⟨motif, 0, List.range motif.size⟩

theorem ofMotif_eq {motif : Motif} (h : motif ∈ motifs) :
    Matcher.ofMotif motif = .ok (matcherOf motif) := by
  simp only [motifs, List.mem_cons, List.not_mem_nil, or_false] at h
  rcases h with rfl | rfl | rfl | rfl <;> rfl

/-- The match of a shape in the contracted graph. -/
def matchOf (g : Graph) (motif : Motif) : Option Match :=
  (matcherOf motif).firstMatch? (contraction g).target ∅ true

/-- An edge of every shape ends at the grouping that is cut away. -/
theorem exists_secondary {motif : Motif} (h : motif ∈ motifs) : ∃ e ∈ motif.edges,
    e.origin < motif.size ∧ e.target < motif.size ∧
      ((motif.nodes[e.origin]?.bind MotifNode.capture) = some .secondary ∨
        (motif.nodes[e.target]?.bind MotifNode.capture) = some .secondary) := by
  simp only [motifs, List.mem_cons, List.not_mem_nil, or_false] at h
  rcases h with rfl | rfl | rfl | rfl <;> decide

theorem order_matcherOf {motif : Motif} (hm : motif ∈ motifs) :
    (matcherOf motif).order = 0 :: (List.range motif.size).tail := by
  simp only [motifs, List.mem_cons, List.not_mem_nil, or_false] at hm
  rcases hm with rfl | rfl | rfl | rfl <;> rfl

/-- A scope of a match with an end at the secondary grouping is cut, past every chains. -/
theorem mem_cutOf (h : g.Agrees) {motif : Motif} {anchor : ElementId} {a : Assignment}
    {e : MotifEdge} (he : e ∈ motif.edges) {v w : ElementId} (hv : a.lookup e.origin = some v)
    (hw : a.lookup e.target = some w)
    (hsec : (motif.nodes[e.origin]?.bind MotifNode.capture) = some .secondary ∨
      (motif.nodes[e.target]?.bind MotifNode.capture) = some .secondary)
    {s r : ScopeId} (hs : s ∈ (contraction g).target.scopesBetween v w e.test)
    (hr : r ∈ pastChain g g.size s) :
    r ∈ cutOf (contraction g) ((matcherOf motif).merge (contraction g).target anchor [a]) := by
  have hcap : ∀ {p x}, a.lookup p = some x →
      (motif.nodes[p]?.bind MotifNode.capture) = some .secondary →
      x ∈ (matcherOf motif).capturedBy .secondary a := by
    intro p x hx hp
    refine IdSet.mem_ofList.2 (List.mem_filterMap.2 ⟨(p, x), Matcher.mem_of_lookup hx, ?_⟩)
    exact if_pos hp
  have htouch : touches g ((contraction g).expand ((matcherOf motif).merge (contraction g).target
      anchor [a]).secondary) s = true := by
    obtain ⟨-, o, t, hro, hrt, sc, hsc, rfl, rfl⟩ :=
      (Contraction.mem_edgesOut_whole h).1 (Matcher.mem_scopesBetween.1 hs).1
    have hmem : ∀ {x y}, (contraction g).representative? x = some y →
        y ∈ (matcherOf motif).capturedBy .secondary a →
        x ∈ (contraction g).expand ((matcherOf motif).merge (contraction g).target
          anchor [a]).secondary := fun hx hy =>
      Contraction.mem_expand.2 ⟨_, IdSet.mem_unionOf.2 ⟨a, List.mem_singleton.2 rfl, hy⟩, hx⟩
    simp only [touches, hsc, Option.any_some, Bool.or_eq_true, decide_eq_true_eq]
    exact hsec.imp (fun hp => hmem hro (hcap hv hp)) fun hp => hmem hrt (hcap hw hp)
  have hscope : s ∈ ((matcherOf motif).merge (contraction g).target anchor [a]).scopes :=
    IdSet.mem_unionOf.2 ⟨a, List.mem_singleton.2 rfl,
      Matcher.mem_scopesOf.2 ⟨e, he, v, w, hv, hw, hs⟩⟩
  exact List.mem_flatMap.2 ⟨s, List.mem_filter.2 ⟨hscope, htouch⟩, hr⟩

/-- Of a match that was found, some scope is cut. -/
theorem cutOf_ne_nil (h : g.Agrees) {motif : Motif} (hm : motif ∈ motifs) {mt : Match}
    (hmt : matchOf g motif = some mt) : cutOf (contraction g) mt ≠ [] := by
  obtain ⟨anchor, a, -, ha, rfl⟩ := Matcher.firstMatch?_eq_some hmt
  obtain ⟨e, he, ho, ht, hsec⟩ := exists_secondary hm
  have horder := order_matcherOf hm
  obtain ⟨v, hv⟩ := Matcher.exists_lookup_of_mem_assignments ha horder (List.mem_range.2 ho)
  obtain ⟨w, hw⟩ := Matcher.exists_lookup_of_mem_assignments ha horder (List.mem_range.2 ht)
  obtain ⟨s, hs⟩ := List.exists_mem_of_ne_nil _
    (Matcher.edgesHeld_of_mem_assignments ha e he v w hv hw)
  obtain ⟨r, hr⟩ := List.exists_mem_of_ne_nil _ (pastChain_ne_nil g g.size s)
  exact List.ne_nil_of_mem (mem_cutOf h he hv hw hsec hs hr)

/-- The tests of the motifs ask for groupings and elements that process. -/
theorem test_of_motif {motif : Motif} (hm : motif ∈ motifs) {p : Nat} {n : MotifNode}
    (hn : motif.nodes[p]? = some n) :
    n.test = .kind .grouping ∨ n.test = .kind .processing := by
  have hall : ∀ motif ∈ motifs, ∀ n ∈ motif.nodes,
      n.test = .kind .grouping ∨ n.test = .kind .processing := by
    simp [motifs, grouping, processing]
  exact hall motif hm n (List.mem_of_getElem? hn)

/-- What stands behind a vertex of the contracted graph that a motif admits. -/
theorem works_of_admits {motif : Motif} (hm : motif ∈ motifs) {matcher : Matcher}
    (hmat : matcher.motif = motif) {p : Nat} {v e : ElementId}
    (h : matcher.admits (contraction g).target p v = true)
    (he : e ∈ (contraction g).members v) : g.Works e := by
  simp only [Matcher.admits, Option.any_eq_true, hmat] at h
  obtain ⟨n, hn, h⟩ := h
  have hworks : ∀ c : KindClass, (∀ k, c.admits k = true → k.isWork = true) →
      n.test = .kind c → g.Works e := by
    intro c hc ht
    rw [ht] at h
    simp only [VertexTest.holds, Bool.and_eq_true, List.all_eq_true] at h
    exact hasKind_imp hc (h.2 e he)
  rcases test_of_motif hm hn with ht | ht
  · exact hworks .grouping (fun _ => Kind.isWork_of_isGrouping) ht
  · exact hworks .processing (fun _ => Kind.isWork_of_isProcessing) ht

theorem leavesWork_of_match (ha : g.Agrees) {motif : Motif} (hm : motif ∈ motifs) {mt : Match}
    (h : matchOf g motif = some mt) {s : ScopeId} (hs : s ∈ mt.scopes) : LeavesWork g s := by
  obtain ⟨e, -, v, w, hv, -, hedge⟩ := Matcher.mem_scopes_of_firstMatch? h hs
  obtain ⟨a, hmem, b, hab, -⟩ := Contraction.mem_edgesOut.1 hedge
  obtain ⟨-, -, sc, hsc, ho, -⟩ := (View.mem_edgesOut_whole ha).1 hab
  exact ⟨sc, hsc, ho ▸ works_of_admits hm rfl hv hmem⟩

/-! ### The cut that is found -/

theorem leadsNowhere?_eq_none (hends : g.EndsLive) (s : ScopeId) : leadsNowhere? g s = none := by
  unfold leadsNowhere?
  cases hsc : g.scope? s with
  | none => rfl
  | some sc =>
    have hlive := (hends _ _ ⟨s, sc, hsc, rfl, rfl⟩).2
    exact if_pos hlive

theorem cutAmong_eq (h : g.Agrees) (hends : g.EndsLive) {l : List Motif}
    (hl : ∀ m ∈ l, m ∈ motifs) : cutAmong g l =
      .ok ((l.findSome? (matchOf g)).map fun mt => .ofList (cutOf (contraction g) mt)) := by
  induction l with
  | nil => rfl
  | cons motif rest ih =>
    have hm := hl motif List.mem_cons_self
    have hrest := ih fun m hm => hl m (List.mem_cons_of_mem _ hm)
    rw [List.findSome?_cons]
    simp only [cutAmong_cons, ofMotif_eq hm]
    cases hmt : matchOf g motif with
    | none =>
      rw [show (matcherOf motif).firstMatch? (contraction g).target ∅ true = none from hmt]
      exact hrest
    | some mt =>
      rw [show (matcherOf motif).firstMatch? (contraction g).target ∅ true = some mt from hmt]
      have hlive : (cutOf (contraction g) mt).findSome? (leadsNowhere? g) = none := List.findSome?_eq_none_iff.2 fun s _ => leadsNowhere?_eq_none hends s
      simp only [Option.map_some, Option.getD_some]
      split
      · next hnil => exact absurd hnil (cutOf_ne_nil h hm hmt)
      · rw [hlive]

/-- The cut is that of the first shape that occurs. -/
theorem findCut_eq (h : g.Agrees) (hends : g.EndsLive) : findCut g =
    .ok ((motifs.findSome? (matchOf g)).map fun mt => .ofList (cutOf (contraction g) mt)) :=
  cutAmong_eq h hends fun _ hm => hm

theorem findCut_eq_some_iff (h : g.Agrees) (hends : g.EndsLive) {cut : IdSet} :
    findCut g = .ok (some cut) ↔ ∃ mt, motifs.findSome? (matchOf g) = some mt ∧
      cut = .ofList (cutOf (contraction g) mt) := by
  rw [findCut_eq h hends]
  cases motifs.findSome? (matchOf g) with
  | none => simp
  | some mt => simp [eq_comm]

theorem findCut_eq_none_iff (h : g.Agrees) (hends : g.EndsLive) :
    findCut g = .ok none ↔ ∀ motif ∈ motifs, matchOf g motif = none := by
  rw [findCut_eq h hends]
  cases hfound : motifs.findSome? (matchOf g) with
  | none => simpa using hfound
  | some mt =>
    obtain ⟨motif, hm, hmt⟩ := List.exists_of_findSome?_eq_some hfound
    refine iff_of_false (fun he => ?_) fun hall => ?_
    · cases he
    · rw [hall motif hm] at hmt
      cases hmt

theorem leavesWork_of_findCut (h : g.Agrees) (hends : g.EndsLive) {cut : IdSet}
    (hcut : findCut g = .ok (some cut)) {s : ScopeId} (hs : s ∈ cut) : LeavesWork g s := by
  obtain ⟨mt, hmt, rfl⟩ := (findCut_eq_some_iff h hends).1 hcut
  obtain ⟨motif, hm, hfound⟩ := List.exists_of_findSome?_eq_some hmt
  obtain ⟨r, hr, hsr⟩ := List.mem_flatMap.1 (IdSet.mem_ofList.1 hs)
  exact leavesWork_of_pastChain h _
    (leavesWork_of_match h hm hfound (List.mem_filter.1 hr).1) hsr

theorem cuttable (hs : g.Shaped) {cut : IdSet} (h : findCut g = .ok (some cut)) :
    ∀ s ∈ cut, g.Cuttable s := by
  intro s hcut
  obtain ⟨sc, hsc, ho⟩ := leavesWork_of_findCut hs.agrees hs.ends h hcut
  exact hs.cuttable_of_origin (fun _ => rfl) (fun _ => Kind.isSink_of_isWork) hsc ho

end JobPartitioning

namespace JoinIsolation

/-- What is cut is an input of a join. -/
theorem exists_join (h : g.Agrees) {s : ScopeId} (hcut : incompatibleInput g = .ok (some s)) :
    ∃ sc, g.scope? s = some sc ∧ g.hasKind Kind.isHashJoin sc.target = true := by
  unfold incompatibleInput at hcut
  split at hcut
  · cases hcut
  · next found hfound =>
    obtain ⟨join, hjoin, hsome⟩ := List.exists_of_findSome?_eq_some hfound
    unfold joins at hjoin
    replace hjoin := (List.mem_filter.1 hjoin).2
    split at hsome
    · cases hsome; cases hcut
    · obtain ⟨s', hs', rfl⟩ := Option.map_eq_some_iff.1 hsome
      obtain ⟨s'', hs'', heq⟩ := map_eq_ok.1 hcut
      cases hs''; cases heq
      obtain ⟨⟨t, region⟩, hreg, rfl⟩ := Option.map_eq_some_iff.1 hs'
      obtain ⟨⟨t', o⟩, ho, heq⟩ := List.mem_map.1 (List.mem_of_find?_eq_some hreg)
      cases heq
      obtain ⟨sc, hsc, -, rfl⟩ := h.mem_edgesIn.1 ho
      exact ⟨sc, hsc, hjoin⟩

theorem cuttable (hs : g.Shaped) {s : ScopeId} (h : incompatibleInput g = .ok (some s)) :
    g.Cuttable s := by
  obtain ⟨sc, hsc, hjoin⟩ := exists_join hs.agrees h
  refine ⟨sc, hsc, fun h0 => ?_, (hs.ne_extent (fun _ => rfl) hjoin).2⟩
  -- `head` feeds sources, not joins
  have := hs.head_first sc.target ⟨s, sc, hsc, h0, rfl⟩
  rw [hasKind_eq_false (q := Kind.isSource)
    (fun k hk => by cases k <;> first | rfl | cases hk) hjoin] at this
  cases this

end JoinIsolation

namespace SourceNormalization

theorem isTap_of_tapOf {x : ElementId} {a : Tap} (h : tapOf g x = some a) :
    g.hasKind Kind.isTap x = true := by
  obtain ⟨k, hk, ha⟩ := Option.bind_eq_some_iff.1 h
  obtain ⟨y, hy, rfl⟩ := Option.map_eq_some_iff.1 hk
  exact hasKind_iff.2 ⟨y, hy, by rw [Kind.isTap, ha]; rfl⟩

theorem exists_tapOf {x : ElementId} (h : g.hasKind Kind.isTap x = true) :
    ∃ a, tapOf g x = some a := by
  obtain ⟨y, hy, hk⟩ := hasKind_iff.1 h
  obtain ⟨a, ha⟩ := Option.isSome_iff_exists.1 hk
  exact ⟨a, Option.bind_eq_some_iff.2 ⟨y.kind, Option.map_eq_some_iff.2 ⟨y, hy, rfl⟩, ha⟩⟩

/-- A tap that supplies `G`, with the first element behind it on the way. -/
structure IsFeed (g : Graph) (G : ElementId) (f : Feed) : Prop where
  tap : g.hasKind Kind.isTap f.tap = true
  leads : g.Leads f.tap f.leaving
  leaving : g.hasKind Kind.isTap f.leaving = false
  onward : g.Supplies f.leaving G

theorem IsFeed.supplies {G : ElementId} {f : Feed} (h : IsFeed g G f) : g.Supplies f.tap G :=
  .head ⟨h.leads, h.leaving⟩ h.onward

/-- The nearest tap before an element that is no tap feeds it. -/
theorem isFeed_of_nearestTap {v : View} (h : v.graph.Agrees) {budget : Nat} {id : ElementId}
    {f : Feed} (hid : v.graph.hasKind Kind.isTap id = false)
    (hf : nearestTap v budget id = some f) : IsFeed v.graph id f := by
  induction budget generalizing id with
  | zero => cases hf
  | succ budget ih =>
    unfold nearestTap at hf
    split at hf
    · cases hf
    · next previous hprev =>
      have hl : v.graph.Leads previous id := by
        have hmem : previous ∈ v.topology.predecessors id := List.mem_of_head? hprev
        obtain ⟨⟨s, a⟩, hedge, rfl⟩ := List.mem_map.1 (IdSet.mem_ofList.1 hmem)
        obtain ⟨-, hgraph, -⟩ := View.mem_edgesIn.1 hedge
        exact ⟨s, h.mem_edgesIn.1 hgraph⟩
      split at hf
      · next htap =>
        cases hf
        exact ⟨htap, hl, hid, .refl⟩
      · next htap =>
        have hfeed := ih (by simpa using htap) hf
        exact { hfeed with onward := hfeed.onward.tail ⟨hl, hid⟩ }

theorem isFeed_of_mem_feeds (h : g.Agrees) {G : ElementId} (hG : g.hasKind Kind.isTap G = false)
    {fs : List Feed} (hfs : feeds g G = .ok fs) {f : Feed} (hf : f ∈ fs) : IsFeed g G f := by
  simp only [feeds] at hfs
  split at hfs
  · cases hfs
  · split at hfs
    · cases hfs
      cases hf
    · cases hfs
      obtain ⟨path, -, hpath⟩ := List.mem_filterMap.1 hf
      exact isFeed_of_nearestTap (v := path.view g) h hG hpath

/-- A cut consists of the scopes that lead from the feeds that are picked along their ways. -/
theorem mem_cutWhere (h : g.Agrees) {fs : List Feed} {select : Tap → Bool} {s : ScopeId} :
    s ∈ cutWhere g fs select ↔ ∃ f ∈ fs, g.hasKind Kind.isBoundary f.tap = false ∧
      (∃ a, tapOf g f.tap = some a ∧ select a = true) ∧
        ∃ sc, g.scope? s = some sc ∧ sc.origin = f.tap ∧ sc.target = f.leaving := by
  have hbetween : ∀ f : Feed, s ∈ g.scopesBetween f.tap f.leaving ↔
      ∃ sc, g.scope? s = some sc ∧ sc.origin = f.tap ∧ sc.target = f.leaving := by
    intro f
    simp only [scopesBetween, List.mem_filterMap, Prod.exists, h.mem_edgesOut]
    constructor
    · rintro ⟨s', t, ⟨sc, hsc, ho, ht⟩, hst⟩
      split at hst
      · next heq => cases hst; exact ⟨sc, hsc, ho, ht.trans heq⟩
      · cases hst
    · rintro ⟨sc, hsc, ho, ht⟩
      exact ⟨s, f.leaving, ⟨sc, hsc, ho, ht⟩, if_pos rfl⟩
  simp only [cutWhere, IdSet.mem_ofList, List.mem_flatMap, List.mem_filter, hbetween,
    Bool.and_eq_true, Bool.not_eq_true', Option.any_eq_true, and_assoc]

/-- The scope leaves a tap that supplies a grouping and is no boundary. -/
def LeavesFeed (g : Graph) (s : ScopeId) : Prop :=
  ∃ G f sc, g.hasKind Kind.isGrouping G = true ∧ IsFeed g G f ∧
    g.hasKind Kind.isBoundary f.tap = false ∧ g.scope? s = some sc ∧ sc.origin = f.tap ∧
      sc.target = f.leaving

/-- What is cut leaves taps that supply some grouping. -/
theorem leavesFeed_of_findCut (h : g.Agrees) {scheme : String} {rules : TapRules} {cut : IdSet}
    (hcut : findCut scheme rules g = .ok (some cut)) : ∀ s ∈ cut, LeavesFeed g s := by
  obtain ⟨G, hG, hcut⟩ := exists_cutFor hcut (by simp)
  obtain ⟨fs, select, hfs, rfl, -⟩ := exists_cutWhere hcut
  have htap := hasKind_eq_false (fun _ => Kind.isTap_of_isGrouping) hG
  intro s hs
  obtain ⟨f, hf, hb, -, sc, hsc, ho, ht⟩ := (mem_cutWhere h).1 hs
  exact ⟨G, f, sc, hG, isFeed_of_mem_feeds h htap hfs hf, hb, hsc, ho, ht⟩

theorem cuttable (hs : g.Shaped) {scheme : String} {rules : TapRules} {cut : IdSet}
    (h : findCut scheme rules g = .ok (some cut)) : ∀ s ∈ cut, g.Cuttable s := by
  intro s hmem
  obtain ⟨G, f, sc, hG, hfeed, -, hsc, ho, ht⟩ := leavesFeed_of_findCut hs.agrees h s hmem
  refine ⟨sc, hsc, ho ▸ (hs.ne_extent (fun _ => rfl) hfeed.tap).1, ?_⟩
  rw [ht]
  exact hfeed.onward.ne_tail hs (hs.ne_extent (fun _ => rfl) hG).2

end SourceNormalization
end Dataflow
