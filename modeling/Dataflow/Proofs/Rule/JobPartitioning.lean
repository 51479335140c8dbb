import Dataflow.Proofs.Flow.Chains

/-!
# Job partitioning leaves no region with two groupings

Each of the four shapes is made of links: the elements behind one vertex hang together, and
so do the two ends of the scope behind an arc. So wherever a shape occurs two groupings
share a region. With the converse, that some shape occurs in a region with two groupings,
job partitioning changes a graph exactly if there is such a region.

The cuts end behind the every chains that they meet, so the chains stay whole.

Results:

* `Assigns.not_partitioned`: where a shape occurs, a region holds two groupings;
* `findCut_eq_none_iff_partitioned`: job partitioning finds nothing exactly if no region does;
* `wellChained_cutScopes`: boundaries past every chains keep the chains;
* `partitions_of_wellChained`: what job partitioning does to a graph with its chains whole.
-/
namespace Dataflow

/-- A graph without cycles in which every every is fed by groupings and everies alone, and
feeds something. -/
structure Graph.WellChained (g : Graph) : Prop extends g.Ordered where
  chained : g.Chained
  everiesLead : g.EveriesLead

namespace JobPartitioning

open Dataflow.Graph Relation

variable {g g' : Graph} {scheme : String}

/-! ## Shapes are regions with two groupings -/

/-- The elements behind one vertex hang together. -/
theorem linked_of_representative? (h : g.Agrees) {v x y : ElementId}
    (hx : (contraction g).representative? x = some v)
    (hy : (contraction g).representative? y = some v) : ReflTransGen (g.Linked g.Works) x y := by
  have hlink := (Contraction.representative?_eq_iff h hx).1 hy
  rw [candidate_eq] at hlink
  refine ReflTransGen.mono (fun a b hab => ?_) _ _ hlink
  obtain ⟨ha, hb, hl⟩ := hab
  exact ⟨hasKind_imp (fun _ => Kind.isWork_of_isProcessing) ha,
    hasKind_imp (fun _ => Kind.isWork_of_isProcessing) hb, hl⟩

section

variable {motif : Motif} {a : Assignment} (hasg : Assigns g motif a)
include hasg

/-- Two positions that ask for groupings have two groupings behind them. -/
theorem Assigns.not_linked (hpart : g.Partitioned) {p q : Nat} (hpq : p ≠ q) {v w x y : ElementId}
    (hv : a.lookup p = some v) (hw : a.lookup q = some w)
    (hp : (motif.nodes[p]?).map MotifNode.test = some (.kind .grouping))
    (hq : (motif.nodes[q]?).map MotifNode.test = some (.kind .grouping))
    (hx : (contraction g).representative? x = some v)
    (hy : (contraction g).representative? y = some w) :
    ¬ ReflTransGen (g.Linked g.Works) x y := by
  intro hlink
  have heq := hpart x y (hasg.isGrouping hv hp hx) (hasg.isGrouping hw hq hy) hlink
  rw [heq, hy] at hx
  exact Matcher.ne_of_lookup hasg.apart hv hw hpq (Option.some.inj hx).symm

variable (hm : motif ∈ motifs)
include hm

/-- Some element stands behind every position of a shape that occurs. -/
theorem Assigns.exists_behind {p : Nat} (hp : p < motif.size) :
    ∃ v x, a.lookup p = some v ∧ (contraction g).representative? x = some v := by
  obtain ⟨v, hv⟩ := hasg.total p hp
  have hadm := hasg.admitted.of_lookup hv
  simp only [Matcher.admits, Option.any_eq_true] at hadm
  obtain ⟨n, hn, hadm⟩ := hadm
  obtain ⟨c, hc⟩ : ∃ c, n.test = .kind c :=
    (test_of_motif hm hn).elim (fun ht => ⟨_, ht⟩) fun ht => ⟨_, ht⟩
  rw [hc] at hadm
  obtain ⟨x, hx⟩ := (Contraction.holds_kind_whole.1 hadm).1
  exact ⟨v, x, hv, hx⟩

variable (h : g.Agrees)
include h

/-- What stands behind the two ends of an arc hangs together. -/
theorem Assigns.linked {e : MotifEdge} (he : e ∈ motif.edges) {v w x y : ElementId}
    (hv : a.lookup e.origin = some v) (hw : a.lookup e.target = some w)
    (hx : (contraction g).representative? x = some v)
    (hy : (contraction g).representative? y = some w) : ReflTransGen (g.Linked g.Works) x y := by
  obtain ⟨s, x', y', -, hjoin, hx', hy'⟩ := hasg.exists_joins h he hv hw
  have hlink : g.Linked g.Works x' y' :=
    ⟨hasg.works hm hv hx', hasg.works hm hw hy', .inl ⟨s, hjoin⟩⟩
  exact ((linked_of_representative? h hx hx').tail hlink).trans (linked_of_representative? h hy' hy)

/-- Where a shape occurs a region holds two groupings, as arcs join them. -/
theorem Assigns.not_partitioned : ¬ g.Partitioned := by
  intro hpart
  have hcases := hm
  simp only [motifs, List.mem_cons, List.not_mem_nil, or_false] at hcases
  rcases hcases with rfl | rfl | rfl | rfl <;>
    obtain ⟨u, x, hu, hx⟩ := hasg.exists_behind hm (p := 0) (by decide) <;>
    obtain ⟨v, y, hv, hy⟩ := hasg.exists_behind hm (p := 1) (by decide)
  · exact hasg.not_linked hpart (by decide) hu hv rfl rfl hx hy
      (hasg.linked hm h (e := arc 0 1) (by decide) hu hv hx hy)
  · obtain ⟨w, z, hw, hz⟩ := hasg.exists_behind hm (p := 2) (by decide)
    have hxy := hasg.linked hm h (e := arc 0 1) (by decide) hu hv hx hy
    have hyz := hasg.linked hm h (e := arc 1 2) (by decide) hv hw hy hz
    exact hasg.not_linked hpart (by decide) hu hw rfl rfl hx hz (hxy.trans hyz)
  · obtain ⟨w, z, hw, hz⟩ := hasg.exists_behind hm (p := 2) (by decide)
    have hxy := hasg.linked hm h (e := arc 0 1) (by decide) hu hv hx hy
    have hxz := hasg.linked hm h (e := arc 0 2) (by decide) hu hw hx hz
    exact hasg.not_linked hpart (by decide) hv hw rfl rfl hy hz
      ((reflTransGen_linked_symm hxy).trans hxz)
  · obtain ⟨w, z, hw, hz⟩ := hasg.exists_behind hm (p := 2) (by decide)
    have hyx := hasg.linked hm h (e := arc 1 0) (by decide) hv hu hy hx
    have hzx := hasg.linked hm h (e := arc 2 0) (by decide) hw hu hz hx
    exact hasg.not_linked hpart (by decide) hv hw rfl rfl hy hz
      (hyx.trans (reflTransGen_linked_symm hzx))

end

/-- Nothing is cut exactly if no region holds two groupings. -/
theorem findCut_eq_none_iff_partitioned (h : g.Agrees) (hends : g.EndsLive) :
    findCut g = .ok none ↔ g.Partitioned := by
  refine ⟨partitioned_of_findCut h hends, fun hpart => ?_⟩
  refine (findCut_eq_none_iff h hends).2 fun motif hm => ?_
  rcases hmt : matchOf g motif with _ | mt
  · rfl
  · obtain ⟨anchor, a, hasg, -⟩ := exists_assigns hm hmt
    exact absurd hpart (hasg.not_partitioned hm h)

/-! ## What a change does to the chains -/

/-- Boundaries past every chains close no cycle and tear no chain. -/
theorem wellChained_cutScopes (h : g.WellChained) {cut : IdSet}
    (hcut : findCut g = .ok (some cut)) : (g.cutScopes scheme cut).WellChained := by
  have hlive : ∀ s ∈ cut, ∃ sc, g.scope? s = some sc ∧ g.hasKind Kind.isEvery sc.target = false :=
    fun s hs => isEvery_of_findCut h.toOrdered h.everiesLead hcut hs
  -- no new element is an every, so the scopes still to be cut lead to none either
  have hkeeps : (g.cutScopes scheme cut).Ordered ∧ (g.cutScopes scheme cut).Chained ∧
      ∀ e, g.hasKind Kind.isEvery e = false →
        (g.cutScopes scheme cut).hasKind Kind.isEvery e = false := by
    refine cutScopes_induction (P := fun a => a.Ordered ∧ a.Chained ∧
      ∀ e, g.hasKind Kind.isEvery e = false → a.hasKind Kind.isEvery e = false)
      hlive ⟨h.toOrdered, h.chained, fun _ => id⟩ fun a i sc ha hi hev => ?_
    obtain ⟨hord, hchained, hold⟩ := ha
    have hg := grows_boundaryOn a scheme hi
    refine ⟨hord.boundaryOn scheme hi, hchained.boundaryOn hord.agrees hi (hold _ hev),
      fun e he => Bool.eq_false_iff.2 fun he' => ?_⟩
    obtain ⟨-, he'⟩ := hg.of_hasKind he' fun _ => rfl
    rw [hold e he] at he'
    cases he'
  obtain ⟨hord, hchained, -⟩ := hkeeps
  have hcuts : Cuts g (g.cutScopes scheme cut) (· ∈ cut) :=
    cuts_cutScopes h.agrees h.ends fun s hs =>
      Option.isSome_iff_exists.2 ((hlive s hs).imp fun _ => And.left)
  refine ⟨hord, hchained, fun e he => ?_⟩
  rw [hcuts.hasKind fun _ => Kind.isWork_of_isEvery] at he
  rw [hcuts.outgoing e (hasKind_imp (fun _ => Kind.isWork_of_isEvery) he)]
  exact h.everiesLead e he

/-- One change: boundaries go in on scopes that leave what works and enter no every. -/
def Parts (scheme : String) (g g' : Graph) : Prop :=
  ∃ cut : IdSet, (∃ s, s ∈ cut) ∧ g' = g.cutScopes scheme cut ∧ ∀ s ∈ cut, ∃ sc,
    g.scope? s = some sc ∧ g.Works sc.origin ∧ g.hasKind Kind.isEvery sc.target = false

theorem parts_cutScopes (h : g.WellChained) {cut : IdSet} (hcut : findCut g = .ok (some cut)) :
    Parts scheme g (g.cutScopes scheme cut) := by
  refine ⟨cut, ?_, rfl, fun s hs => ?_⟩
  · obtain ⟨mt, hmt, rfl⟩ := (findCut_eq_some_iff h.agrees h.ends).1 hcut
    obtain ⟨motif, hm, hfound⟩ := List.exists_of_findSome?_eq_some hmt
    obtain ⟨s, hs⟩ := List.exists_mem_of_ne_nil _ (cutOf_ne_nil h.agrees hm hfound)
    exact ⟨s, IdSet.mem_ofList.2 hs⟩
  · obtain ⟨sc, hsc, hev⟩ := isEvery_of_findCut h.toOrdered h.everiesLead hcut hs
    obtain ⟨tc, htc, ho⟩ := leavesWork_of_findCut h.agrees h.ends hcut hs
    rw [hsc] at htc
    cases htc
    exact ⟨sc, hsc, ho, hev⟩

/-- Job partitioning answers on every graph with whole chains, keeps the chains whole and
changes the graph exactly if a region holds two groupings. -/
theorem apply_spec (h : g.WellChained) (scheme : String) : ∃ changed g',
    apply scheme g = (.ok changed, g') ∧ g'.WellChained ∧ (changed = false ↔ g.Partitioned) ∧
      (changed = true → Parts scheme g g') := by
  have hiff := findCut_eq_none_iff_partitioned h.agrees h.ends
  rw [apply_eq]
  rcases hcut : findCut g with e | _ | cut
  · rw [findCut_eq h.agrees h.ends] at hcut
    cases hcut
  · exact ⟨false, g, rfl, h, iff_of_true rfl (hiff.1 hcut), by simp⟩
  · refine ⟨true, _, rfl, wellChained_cutScopes h hcut, ?_, fun _ => parts_cutScopes h hcut⟩
    refine iff_of_false Bool.noConfusion fun hpart => ?_
    rw [hiff.2 hpart] at hcut
    cases hcut

/-- Take a graph without cycles in which every every is fed by groupings and everies alone
and feeds something. Job partitioning answers, keeps all of this, and finds nothing to change
exactly if no two groupings hang together through elements that work; a change puts
boundaries on some scopes that leave what works, and on none that enters an every. So where
job partitioning ends without an error, each region holds one grouping at most. -/
theorem partitions_of_wellChained (h : g.WellChained) (scheme : String) :
    (∃ changed g', apply scheme g = (.ok changed, g') ∧ g'.WellChained ∧
      (changed = false ↔ g.Partitioned) ∧ (changed = true → Parts scheme g g')) ∧
    ∀ limit n g', (Rule.jobPartitioning scheme).fixpoint limit g = (.ok n, g') →
      g'.WellChained ∧ g'.Partitioned := by
  refine ⟨apply_spec h scheme, fun limit n g' hrun => ?_⟩
  have h' : g'.WellChained := by
    refine Rule.iterate_induction (P := Graph.WellChained) hrun h fun a b ha hab => ?_
    obtain ⟨changed, b', happly, hb, -⟩ := apply_spec ha scheme
    rw [show apply scheme a = (.ok true, b) from hab] at happly
    cases happly
    exact hb
  obtain ⟨changed, b, happly, -, hiff, -⟩ := apply_spec h' scheme
  rw [show apply scheme g' = (.ok false, g') from Rule.settled_of_iterate hrun] at happly
  cases happly
  exact ⟨h', hiff.1 rfl⟩

/-- Two groupings with an every behind each feed one merge, the second one also through a
second every. -/
def branched : Definition where
  name := "branched"
  stages :=
    [⟨"in", [], .source ⟨"hdfs", "in", some ["key"], true⟩⟩,
      ⟨"g", ["in"], .groupBy ["key"]⟩, ⟨"h", ["in"], .groupBy ["key"]⟩,
      ⟨"d", ["g"], .every ⟨"d", none, none, ["key"], .all⟩⟩,
      ⟨"e", ["h"], .every ⟨"e", none, none, ["key"], .all⟩⟩,
      ⟨"f", ["e"], .every ⟨"f", none, none, ["key"], .all⟩⟩,
      ⟨"m", ["d", "e", "f"], .merge⟩,
      ⟨"out", ["m"], .sink ⟨"hdfs", "out", none, true⟩⟩]

/-- The cut ends behind both everies of the second grouping, and one change is enough. -/
theorem partitions_branched : ∃ g g' g'', branched.toGraph = .ok g ∧ g.WellChained ∧
    ¬ g.Partitioned ∧ apply "sequence" g = (.ok true, g') ∧ g'.WellChained ∧
      Parts "sequence" g g' ∧ g'.size = g.size + 2 ∧
        (Rule.jobPartitioning "sequence").fixpoint 2 g = (.ok 1, g'') ∧ g''.WellChained ∧
          g''.Partitioned := by
  have hany : (branched.toGraph.toOption.any fun g =>
      (PlannerConfig.verify .byScheme g).toOption.any fun _ =>
        decide ((apply "sequence" g).1 = .ok true ∧ (apply "sequence" g).2.size = g.size + 2 ∧
          ((Rule.jobPartitioning "sequence").fixpoint 2 g).1 = .ok 1)) = true := by cbv
  obtain ⟨g, hd, hany⟩ := exists_ok_of_any hany
  obtain ⟨w, hw, hany⟩ := exists_ok_of_any hany
  obtain ⟨happly, hsize, hfix⟩ := of_decide_eq_true hany
  have hs := PlannerConfig.shaped_of_verify hd hw
  obtain ⟨hverify, hok⟩ := PlannerConfig.verify_eq_ok hw
  have hchained : g.Chained := (sound_of_verify hs hverify hok).1.everies
  have h : g.WellChained :=
    ⟨hs.ordered, hchained, hs.everiesLead (PlannerConfig.onPath_of_verify hs hw)⟩
  obtain ⟨⟨changed, g', hone, h', hiff, hparts⟩, hrun⟩ := partitions_of_wellChained h "sequence"
  rw [hone] at happly hsize
  cases happly
  obtain ⟨hend, hpart⟩ := hrun 2 1 _ (Prod.ext hfix rfl)
  exact ⟨g, g', _, hd, h, fun hp => Bool.noConfusion (hiff.2 hp), hone, h', hparts rfl, hsize,
    Prod.ext hfix rfl, hend, hpart⟩

end JobPartitioning
end Dataflow
