import Mathlib
import Dataflow.Proofs.Flow.Failures
import Dataflow.Proofs.Flow.Schemes
import Dataflow.Proofs.Graph.Sessions

/-!
# Source normalization comes to an end

A scope that leads from a tap to what is no tap exposes the tap, unless that is a boundary. A
cut puts boundaries on exposing scopes, and boundaries expose nothing. So fewer scopes expose
taps after each change, whatever feeds the groupings then. Where nothing is left to cut, the
feeds of each grouping can be read together, or they are boundaries that cannot. Boundaries of
one scheme always can, where schemes alone count.

The ways to a grouping must start at one place for that. In a verified graph they do, unless
it has a cycle: verification passes a scope from `tail` to itself, and does not look at
anything else then.

Results:

* `exposes_cutScopes`: what exposes a tap after a cut did so before it;
* `Changes.rooted`, `Changes.drawn`: what changes keep;
* `normalizes_of_verify`: how source normalization ends on a verified graph.
-/
namespace Dataflow

open Dataflow.Graph Relation

namespace SourceNormalization

variable {g g' g'' : Graph} {rules : TapRules} {scheme : String}

/-- The scope leads from a tap that is no boundary to what is no tap. -/
def Exposes (g : Graph) (s : ScopeId) : Prop :=
  ∃ sc, g.scope? s = some sc ∧ g.hasKind Kind.isTap sc.origin = true ∧
    g.hasKind Kind.isBoundary sc.origin = false ∧ g.hasKind Kind.isTap sc.target = false

/-- The scopes that expose a tap. -/
def exposed (g : Graph) : IdSet :=
  g.liveScopes.filter fun s => (g.scope? s).any fun sc => g.hasKind Kind.isTap sc.origin &&
    !g.hasKind Kind.isBoundary sc.origin && !g.hasKind Kind.isTap sc.target

theorem mem_exposed {s : ScopeId} : s ∈ exposed g ↔ Exposes g s := by
  simp only [exposed, Exposes, IdSet.mem_filter, mem_liveScopes, Option.any_eq_true,
    Bool.and_eq_true, Bool.not_eq_true', and_assoc]
  exact and_iff_right_of_imp fun hexp => hexp.imp fun _ hsc => hsc.1

theorem LeavesFeed.exposes {s : ScopeId} (h : LeavesFeed g s) : Exposes g s := by
  obtain ⟨_, f, sc, -, hfeed, hb, hsc, ho, ht⟩ := h
  exact ⟨sc, hsc, ho ▸ hfeed.tap, ho ▸ hb, ht ▸ hfeed.leaving⟩

/-! ## What a cut exposes -/

/-- Neither half of a scope that a boundary went in on exposes a tap. -/
theorem exposes_boundaryOn (h : g.Agrees) {i : ScopeId} {sc : Scope} (hi : g.scope? i = some sc)
    {s : ScopeId} (hs : Exposes (g.boundaryOn scheme i) s) : s ≠ i ∧ Exposes g s := by
  have hg := grows_boundaryOn g scheme hi
  obtain ⟨tc, htc, htap, hb, hnot⟩ := hs
  rcases boundaryOn_cases scheme hi htc with ⟨-, rfl⟩ | ⟨-, rfl⟩ | ⟨hne, hold⟩
  · rw [hg.hasKind_new fun _ => rfl] at hb
    cases hb
  · have htap' := hg.hasKind_new (p := Kind.isTap) fun _ => rfl
    exact absurd htap' (ne_true_of_eq_false hnot)
  · rw [hg.hasKind_old (h.origin_lt hold)] at htap hb
    rw [hg.hasKind_old (h.target_lt hold)] at hnot
    exact ⟨hne, tc, hold, htap, hb, hnot⟩

/-- What exposes a tap after a cut did so before, and was not cut. -/
theorem exposes_cutScopes (h : g.Agrees) {cut : IdSet}
    (hcut : ∀ s ∈ cut, ∃ sc, g.scope? s = some sc) {s : ScopeId}
    (hs : Exposes (g.cutScopes scheme cut) s) : s ∉ cut ∧ Exposes g s := by
  have hall : (g.cutScopes scheme cut).Agrees ∧
      ∀ s, Exposes (g.cutScopes scheme cut) s → s ∉ cut ∧ Exposes g s := by
    refine cutScopes_induction_done
      (P := fun done a => a.Agrees ∧ ∀ s, Exposes a s → ¬ done s ∧ Exposes g s)
      (fun s hs => (hcut s hs).imp fun _ hsc => ⟨hsc, trivial⟩) ⟨h, fun _ hs => ⟨id, hs⟩⟩
      fun done a i sc ⟨ha, hback⟩ hi _ => ?_
    refine ⟨agrees_boundaryOn scheme ha (Option.isSome_iff_exists.2 ⟨sc, hi⟩), fun s hs => ?_⟩
    obtain ⟨hne, hs⟩ := exposes_boundaryOn ha hi hs
    obtain ⟨hnot, hs⟩ := hback s hs
    exact ⟨fun hmem => hmem.elim hnot hne, hs⟩
  exact hall.2 s hs

/-! ## One change, and any number of them -/

/-- A change cuts scopes that expose taps. -/
theorem apply_eq_true (h : g.Agrees) (happly : apply scheme rules g = (.ok true, g')) :
    ∃ cut, (∃ s, s ∈ cut) ∧ (∀ s ∈ cut, Exposes g s) ∧ g' = g.cutScopes scheme cut := by
  rw [apply_eq, changeAt_eq_true] at happly
  obtain ⟨cut, hcut, rfl⟩ := happly
  exact ⟨cut, List.exists_mem_of_ne_nil cut.toList (ne_nil_of_findCut hcut),
    fun s hs => (leavesFeed_of_findCut h hcut s hs).exposes, rfl⟩

theorem exposed_lt_of_apply (h : g.Agrees) (happly : apply scheme rules g = (.ok true, g')) :
    (exposed g').size < (exposed g).size := by
  obtain ⟨cut, ⟨s, hs⟩, hexp, rfl⟩ := apply_eq_true h happly
  have hback : ∀ t, Exposes (g.cutScopes scheme cut) t → t ∉ cut ∧ Exposes g t := fun _ =>
    exposes_cutScopes h fun s hs => (hexp s hs).imp fun _ hsc => hsc.1
  exact IdSet.size_lt_size (fun t ht => mem_exposed.2 (hback t (mem_exposed.1 ht)).2)
    (mem_exposed.2 (hexp s hs)) fun hmem => (hback s (mem_exposed.1 hmem)).1 hs

/-- What a boundary on a scope keeps, a change keeps. -/
theorem apply_induction {P : Graph → Prop} (h : g.Agrees) (hg : P g)
    (hstep : ∀ a i sc, P a → a.scope? i = some sc → P (a.boundaryOn scheme i))
    (happly : apply scheme rules g = (.ok true, g')) : P g' := by
  obtain ⟨cut, -, hexp, rfl⟩ := apply_eq_true h happly
  refine cutScopes_induction (Q := fun _ => True) (fun s hs => ?_) hg
    fun a i sc ha hi _ => hstep a i sc ha hi
  obtain ⟨sc, hsc, -⟩ := hexp s hs
  exact ⟨sc, hsc, trivial⟩

/-- One change after the other. -/
def Changes (scheme : String) (rules : TapRules) : Graph → Graph → Prop :=
  ReflTransGen fun a b => apply scheme rules a = (.ok true, b)

/-- What a boundary on a scope keeps, all changes keep. -/
theorem Changes.induction {P : Graph → Prop} (h : Changes scheme rules g g') (ha : g.Agrees)
    (hg : P g) (hstep : ∀ a i sc, P a → a.scope? i = some sc → P (a.boundaryOn scheme i)) :
    g'.Agrees ∧ P g' := by
  induction h with
  | refl => exact ⟨ha, hg⟩
  | tail _ happly ih =>
    refine apply_induction (P := fun a => a.Agrees ∧ P a) ih.1 ih (fun a i sc hP hi => ?_) happly
    exact ⟨agrees_boundaryOn scheme hP.1 (Option.isSome_iff_exists.2 ⟨sc, hi⟩), hstep a i sc hP.2 hi⟩

theorem Changes.agrees (h : Changes scheme rules g g') (ha : g.Agrees) : g'.Agrees :=
  (h.induction (P := fun _ => True) ha trivial fun _ _ _ _ _ => trivial).1

theorem Changes.rooted (h : Changes scheme rules g g') (hg : g.Rooted) : g'.Rooted :=
  (h.induction hg.agrees hg fun _ _ _ ha hi => ha.boundaryOn hi).2

/-- Every boundary has the scheme. -/
def Drawn (scheme : String) (g : Graph) : Prop :=
  ∀ b, g.hasKind Kind.isBoundary b = true → g.scheme? b = some scheme

theorem Changes.drawn (h : Changes scheme rules g g') (ha : g.Agrees) (hg : Drawn scheme g) :
    Drawn scheme g' := by
  refine (h.induction ha hg fun a i sc hd hi b hb => ?_).2
  have hgrows := grows_boundaryOn a scheme hi
  rcases hgrows.old_or_new (contains_of_hasKind hb) with hlt | rfl
  · rw [hgrows.hasKind_old hlt] at hb
    rw [scheme?_congr (hgrows.element?_old hlt)]
    exact hd b hb
  · exact scheme?_eq hgrows.element?_new

/-! ## How it ends -/

/-- Any two taps that supply one grouping can be read together. -/
def Normalized (rules : TapRules) (g : Graph) : Prop :=
  ∀ G x y, g.hasKind Kind.isGrouping G = true → x ≠ y → g.Supplies x G → g.Supplies y G →
    Agree rules g x y

/-- Where boundaries have one scheme and schemes alone count, none stay incompatible. -/
theorem Drawn.not_stuck (h : Drawn scheme g) (G : ElementId) : ¬ Stuck .byScheme g G := by
  rintro ⟨x, y, -, hx, hy, -, -, hag⟩
  refine hag fun a b ha hb => ?_
  have hsame : ∀ {z c}, g.hasKind Kind.isBoundary z = true → tapOf g z = some c →
      c.scheme = scheme := fun hz hc => by
    have := h _ hz
    rw [Graph.scheme?, hc] at this
    exact Option.some.inj this
  exact beq_iff_eq.2 ((hsame hx ha).trans (hsame hy hb).symm)

theorem normalized_of_apply (h : g.Rooted)
    (hsym : ∀ a b, rules.compatible a b = true → rules.compatible b a = true)
    (happly : apply scheme rules g = (.ok false, g')) : Normalized rules g := by
  have hspec := findCut_spec h scheme rules
  rw [apply_eq, changeAt_eq_false] at happly
  rw [happly.1] at hspec
  cases hspec with
  | matched hall =>
    intro G x y hG hne hx hy a b ha hb
    rcases Nat.lt_or_gt_of_ne hne with hlt | hgt
    · exact hall G hG x y hlt hx hy a b ha hb
    · exact hsym b a (hall G hG y x hgt hy hx b a hb ha)

/-- Whatever the graph, normalization fails in the search for ways or on feeds that stay
incompatible. -/
theorem findCut_error {e : PlanError} (he : findCut scheme rules g = .error e) :
    (∃ c, e = .cursor c) ∨ ∃ name, e = .incompatibleFeeds name := by
  obtain ⟨G, -, he⟩ := exists_cutFor he (by simp)
  rcases bind_eq_error.1 he with hfeeds | ⟨fs, -, he⟩
  · simp only [feeds] at hfeeds
    split at hfeeds
    · cases hfeeds; exact .inl ⟨_, rfl⟩
    · split at hfeeds <;> cases hfeeds
  · split at he
    · cases he
    · dsimp only at he
      split at he
      · split at he
        · cases he; exact .inr ⟨_, rfl⟩
        · cases he
      · cases he

theorem fixpoint_ne_nonTermination (h : g.Agrees) {limit : Nat}
    (hlimit : (exposed g).size < limit) (name : String) (n : Nat) :
    ((Rule.sourceNormalization scheme rules).fixpoint limit g).1 ≠
      .error (.nonTermination name n) := by
  rcases Rule.iterate_of_decreasing (r := .sourceNormalization scheme rules)
    (P := Changes scheme rules g) (m := fun a => (exposed a).size)
    (fun a b ha happly => ⟨ha.tail happly, exposed_lt_of_apply (ha.agrees h) happly⟩) limit
    0 .refl hlimit with ⟨n', g', hrun, -⟩ | ⟨a, e, g', -, happly, hrun⟩
  · rw [Rule.fixpoint, hrun]
    exact fun he => by cases he
  · rw [Rule.fixpoint, hrun]
    rintro he
    cases he
    rw [Rule.apply, apply_eq, changeAt_eq_error] at happly
    rcases findCut_error happly.1 with ⟨c, hc⟩ | ⟨name, hname⟩
    · cases hc
    · cases hname

/-- Source normalization on a verified graph. Each change leaves fewer scopes that expose taps,
so a limit above their number is never used up. If there is no cycle, the taps that supply a
grouping can be read together wherever it settles, and it fails only on boundaries that supply
one grouping and cannot be read together. Where schemes alone count and all boundaries have that
of new ones, it does not fail. -/
theorem normalizes_of_verify (h : g.Agrees) (hends : g.EndsLive) {vrules rules : TapRules}
    {ds : Diagnostics} (hv : g.verify vrules = .ok ds) (hds : ds.hasErrors = false)
    (hsym : ∀ a b, rules.compatible a b = true → rules.compatible b a = true)
    (scheme : String) :
    (∀ g' g'', Changes scheme rules g g' → apply scheme rules g' = (.ok true, g'') →
      (exposed g'').size < (exposed g').size) ∧
    (∀ limit, (exposed g).size < limit → ∀ name n,
      ((Rule.sourceNormalization scheme rules).fixpoint limit g).1 ≠
        .error (.nonTermination name n)) ∧
    (g.Acyclic →
      (∀ limit n g', (Rule.sourceNormalization scheme rules).fixpoint limit g = (.ok n, g') →
        Normalized rules g') ∧
      (∀ g' e, Changes scheme rules g g' → (apply scheme rules g').1 = .error e →
        ∃ G, g'.hasKind Kind.isGrouping G = true ∧ e = .incompatibleFeeds (g'.nameOf G) ∧
          Stuck rules g' G) ∧
      (rules = .byScheme → Drawn scheme g → ∀ g' e, Changes scheme rules g g' →
        (apply scheme rules g').1 ≠ .error e)) := by
  refine ⟨fun g' g'' hch => exposed_lt_of_apply (hch.agrees h),
    fun limit => fixpoint_ne_nonTermination h, fun hacyc => ?_⟩
  have hord : g.Ordered := ⟨h, hends, hacyc⟩
  have hroot := (onPath_of_verify hord hv hds).rooted hord
  have hfail : ∀ g' e, Changes scheme rules g g' → (apply scheme rules g').1 = .error e →
      ∃ G, g'.hasKind Kind.isGrouping G = true ∧ e = .incompatibleFeeds (g'.nameOf G) ∧
        Stuck rules g' G := fun g' e hch => apply_error (hch.rooted hroot)
  refine ⟨fun limit n g' hrun => ?_, hfail, fun hscheme hdrawn g' e hch he => ?_⟩
  · have hch : Changes scheme rules g g' := Rule.iterate_induction (P := Changes scheme rules g)
      hrun .refl fun a b ha happly => ha.tail happly
    exact normalized_of_apply (hch.rooted hroot) hsym (Rule.settled_of_iterate hrun)
  · subst hscheme
    obtain ⟨G, -, -, hstuck⟩ := hfail g' e hch he
    exact (hch.drawn h hdrawn).not_stuck G hstuck

/-- Two groupings share one of two sources each. -/
def shared : Definition where
  name := "shared"
  stages :=
    [⟨"in", [], .source ⟨"hdfs", "in", none, true⟩⟩,
      ⟨"left", [], .source ⟨"jdbc", "left", none, true⟩⟩,
      ⟨"right", [], .source ⟨"avro", "right", none, true⟩⟩,
      ⟨"pairs", ["in", "left"], .coGroup ⟨["key"], .inner, some ["a", "b"]⟩⟩,
      ⟨"triples", ["pairs", "in", "right"], .coGroup ⟨["key"], .inner, some ["a", "b", "c"]⟩⟩,
      ⟨"out", ["triples"], .sink ⟨"hdfs", "out", none, true⟩⟩]

/-- Two changes cut four of the five scopes that expose taps; the last one leads to `tail`. -/
theorem normalizes_shared : ∃ g ds g₁ g', shared.toGraph = .ok g ∧ g.Acyclic ∧
    g.verify .byScheme = .ok ds ∧ ds.hasErrors = false ∧ Drawn "sequence" g ∧
      (exposed g).size = 5 ∧ apply "sequence" .byScheme g = (.ok true, g₁) ∧
        (exposed g₁).size < 5 ∧ (∀ e, (apply "sequence" .byScheme g₁).1 ≠ .error e) ∧
          (Rule.sourceNormalization "sequence" .byScheme).fixpoint 6 g = (.ok 2, g') ∧
            Normalized .byScheme g' := by
  have hany : (shared.toGraph.toOption.any fun g =>
      (PlannerConfig.verify .byScheme g).toOption.any fun _ =>
        decide ((g.elements.toList.filter (g.hasKind Kind.isBoundary)) = [] ∧
          (exposed g).size = 5 ∧ (apply "sequence" .byScheme g).1 = .ok true ∧
            ((Rule.sourceNormalization "sequence" .byScheme).fixpoint 6 g).1 = .ok 2)) = true := by
    cbv
  obtain ⟨g, hd, hany⟩ := exists_ok_of_any hany
  obtain ⟨w, hw, hany⟩ := exists_ok_of_any hany
  obtain ⟨hnone, hsize, happly, hfix⟩ := of_decide_eq_true hany
  have h := (PlannerConfig.shaped_of_verify hd hw).ordered
  obtain ⟨hverify, hok⟩ := PlannerConfig.verify_eq_ok hw
  have hdrawn : Drawn "sequence" g := fun b hb => by
    have := List.filter_eq_nil_iff.1 hnone b (mem_elements.2 (contains_of_hasKind hb))
    exact absurd hb this
  have hsym : ∀ a b, TapRules.byScheme.compatible a b = true →
      TapRules.byScheme.compatible b a = true := fun a b hab =>
    beq_iff_eq.2 (beq_iff_eq.1 hab).symm
  obtain ⟨hless, -, hacyc⟩ := normalizes_of_verify h.agrees h.ends hverify hok hsym "sequence"
  obtain ⟨hnormal, -, hnever⟩ := hacyc h.acyclic
  have hone : apply "sequence" .byScheme g = (.ok true, _) := Prod.ext happly rfl
  have hlt := hless g _ .refl hone
  rw [hsize] at hlt
  exact ⟨g, w, _, _, hd, h.acyclic, hverify, hok, hdrawn, hsize, hone, hlt,
    fun e => hnever rfl hdrawn _ e (.single hone), Prod.ext hfix rfl,
    hnormal 6 2 _ (Prod.ext hfix rfl)⟩

/-- A merge that reads nothing feeds a grouping, and `tail` feeds itself. -/
def looped : List Command :=
  [.addSource "in" (.temporary "hdfs" "in"), .addElement ⟨"rest", .merge⟩,
    .addStage "pairs" (.group .coGroup (.on (.of ["key"]))) [2, 3],
    .addSink "out" (.temporary "hdfs" "out") 4, .addScope tail tail 1]

/-- Verification finds no error, and the search for the ways to the grouping fails, as they
start at two places. -/
theorem looped_fails : ∃ g ds, Command.performAll (empty "looped") looped = .ok g ∧ g.Agrees ∧
    g.EndsLive ∧ g.verify .byScheme = .ok ds ∧ ds.hasErrors = false ∧
      (∀ x, g.Leads head x → g.hasKind Kind.isSource x = true) ∧
        (apply "sequence" .byScheme g).1 = .error (.cursor (.notSingleSourceSink 2 1)) := by
  have hadmits : Command.AdmitsAll (empty "looped") looped := by decide
  obtain ⟨g, hg, hi, -⟩ := Command.exists_performAll (intact_empty "looped") hadmits
  have hany : ((Command.performAll (empty "looped") looped).toOption.any fun g =>
      g.verify .byScheme |>.toOption.any fun ds => decide (ds.hasErrors = false ∧
        (∀ x ∈ (g.successors head).toList, g.hasKind Kind.isSource x = true) ∧
          (apply "sequence" .byScheme g).1 = .error (.cursor (.notSingleSourceSink 2 1)))) =
            true := by cbv
  rw [hg] at hany
  obtain ⟨ds, hv, hany⟩ := exists_ok_of_any (x := g.verify .byScheme) hany
  obtain ⟨hds, hhead, happly⟩ := of_decide_eq_true hany
  refine ⟨g, ds, hg, hi.agrees, ?_, hv, hds, fun x hx => ?_, happly⟩
  · rintro a b ⟨s, sc, hsc, rfl, rfl⟩
    exact hi.ends s sc hsc
  · exact hhead x (hi.agrees.mem_successors.2 hx)

end SourceNormalization
end Dataflow
