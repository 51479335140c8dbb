import Dataflow.Proofs.Flow.Partitioning
import Dataflow.Proofs.Flow.Rules
import Dataflow.Proofs.Flow.Upheld
import Dataflow.Proofs.Planner.Meaning

/-!
# A reshaped graph passes verification again

Verification runs once, on the graph of the definition. Of what it asks for, edits keep
everything but two things. Job partitioning sees to it that no split behind a boundary
reaches two groupings, as they would be in one region, and the check at the end that
each every still follows its grouping. The warnings are about joins, which no rule
touches.

Results:

* `warnings_eq`: a rewritten graph is warned about as before;
* `Upheld.sound`: what is missing for a graph to be sound;
* `PlannerConfig.sound_of_reshape`: a reshaped graph is sound;
* `reverified_of_reshape`: verification of the reshaped graph.
-/
namespace Dataflow

open Dataflow.Graph Relation

variable {g g' : Graph} {rules : TapRules}

namespace Verify

/-- Joins alone are warned about. -/
theorem warningsOf_eq_nil {id : ElementId} {k : Kind} (h : k.isJoin = false) :
    warningsOf id k = [] := by
  cases k with
  | group kind j => cases kind <;> first | rfl | cases h
  | hashJoin j => cases h
  | _ => rfl

theorem messages_warnings (g : Graph) : (warnings g).messages =
    (g.innerElements.filter (g.hasKind Kind.isJoin)).toList.flatMap
      fun id => (g.kind? id).elim [] (warningsOf id) := by
  have hdrop : ∀ l : List ElementId, l.flatMap (fun id => (g.kind? id).elim [] (warningsOf id)) =
      (l.filter (g.hasKind Kind.isJoin)).flatMap
        fun id => (g.kind? id).elim [] (warningsOf id) := by
    intro l
    induction l with
    | nil => rfl
    | cons id rest ih =>
      rw [List.flatMap_cons, List.filter_cons, ih]
      split
      · rfl
      · next hno =>
        have hnil : (g.kind? id).elim [] (warningsOf id) = [] := by
          cases hk : g.kind? id with
          | none => rfl
          | some k =>
            rw [hasKind, hk, Option.any_some, Bool.not_eq_true] at hno
            exact warningsOf_eq_nil hno
        rw [hnil, List.nil_append]
  exact hdrop _

/-- A rewriting leaves joins as they are. -/
theorem element?_join (h : Rewrites.{0} g g') {e : ElementId}
    (he : g.hasKind Kind.isJoin e = true) : g'.element? e = g.element? e := by
  obtain ⟨x, hx, hk⟩ := hasKind_iff.1 he
  rw [hx]
  refine h.kept e x hx ?_
  rintro (hb | ⟨hp, -⟩)
  · rw [hasKind_eq_false (q := Kind.isJoin) (fun k hk => by
      obtain ⟨t, rfl⟩ := Kind.isBoundary_iff.1 hk; rfl) hb] at he
    cases he
  · rw [hasKind_eq_false (q := Kind.isJoin) (fun k hk => by
      rw [Kind.eq_pipe_of_isPipe hk]; rfl) hp] at he
    cases he

/-- A rewritten graph is warned about as before. -/
theorem warnings_eq (h : Rewrites.{0} g g') : warnings g' = warnings g := by
  have hjoin : ∀ e, g'.hasKind Kind.isJoin e = true ↔ g.hasKind Kind.isJoin e = true := by
    intro e
    refine ⟨h.hasKind_of fun _ => rfl, fun he => ?_⟩
    rw [hasKind, kind?, element?_join h he]
    exact he
  have hset : g'.innerElements.filter (g'.hasKind Kind.isJoin) =
      g.innerElements.filter (g.hasKind Kind.isJoin) := by
    refine IdSet.ext_mem fun e => ?_
    simp only [IdSet.mem_filter, mem_innerElements, hjoin]
    refine and_congr_left fun he => and_congr_left fun _ => ?_
    exact iff_of_true (contains_of_hasKind ((hjoin e).2 he)) (contains_of_hasKind he)
  have hmess : (warnings g').messages = (warnings g).messages := by
    rw [messages_warnings, messages_warnings, hset]
    refine congrArg List.flatten (List.map_congr_left fun e he => ?_)
    rw [kind?, element?_join h (IdSet.mem_filter.1 he).2]
    rfl
  exact congrArg Diagnostics.mk hmess

end Verify

namespace Graph

/-- What is met behind an element that works hangs together with it. -/
theorem linked_of_met (hs : g.Shaped) {s u : ElementId} (hw : g.Works s) (hu : g.Works u)
    (hmet : Verify.Met g s u) : ReflTransGen (g.Linked g.Works) s u := by
  obtain ⟨v, hsv, hvu⟩ := hmet
  have hback : ∀ {v}, ReflTransGen (fun a b => Verify.Passes g a ∧ g.Leads a b) v u → g.Works v ∧
      ReflTransGen (g.Linked g.Works) v u := by
    intro v hvu
    induction hvu using ReflTransGen.head_induction_on with
    | refl => exact ⟨hu, .refl⟩
    | @head a b hab _ ih =>
      obtain ⟨⟨hext, -, htap⟩, hl⟩ := hab
      have ha : g.Works a := by
        by_contra hnot
        rcases hs.isTap_or_isExtent (hs.ends a b hl).1 hnot with h | h
        · rw [htap] at h; cases h
        · rw [hext] at h; cases h
      exact ⟨ha, ih.2.head ⟨ha, ih.1, .inl hl⟩⟩
  obtain ⟨hv, hvu⟩ := hback hvu
  exact hvu.head ⟨hw, hv, .inl hsv⟩

/-- What is upheld makes a sound graph where no region holds two groupings and each every
follows a grouping. -/
theorem Upheld.sound (h : g.Upheld rules) (hs : g.Shaped) (hp : g.Partitioned)
    (hev : ∀ a e, g.Leads a e → g.hasKind Kind.isEvery e = true →
      g.hasKind Kind.feedsEvery a = true)
    (hj : ∀ j, g.hasKind Kind.isJoin j = true → 2 ≤ (g.inputs j).length) : g.Sound rules where
  onPath := h.onPath
  everies := hev
  buffers := h.buffers
  joins := hj
  splits b s _ _ hsplit u v hu hv hgu hgv := by
    have hw : g.Works s := by
      simp only [Verify.isSplit, Bool.and_eq_true] at hsplit
      exact hasKind_imp (fun _ => Kind.isWork_of_isProcessing) hsplit.1
    have hwg : ∀ {x}, g.hasKind Kind.isGrouping x = true → g.Works x :=
      hasKind_imp fun _ => Kind.isWork_of_isGrouping
    exact hp u v hgu hgv ((reflTransGen_linked_symm (linked_of_met hs hw (hwg hgu) hu)).trans
      (linked_of_met hs hw (hwg hgv) hv))
  readers t tap ht e hl hext := h.readers t tap ht e hl fun htail => by
    rw [htail] at hext
    cases hext

/-- Where the check of the every chains passes, groupings and everies feed everies. -/
theorem feedsEvery_of_checkEveryChains (h : g.Agrees) (hc : g.checkEveryChains = .ok ())
    {a e : ElementId} (hl : g.Leads a e) (he : g.hasKind Kind.isEvery e = true) :
    g.hasKind Kind.feedsEvery a = true := by
  have hnone : g.detached? = none := by
    unfold checkEveryChains at hc
    split at hc
    · next hnone => exact hnone
    · split at hc <;> cases hc
  have hmem : e ∈ g.elements.toList.filter (g.hasKind Kind.isEvery) :=
    List.mem_filter.2 ⟨mem_elements.2 (contains_of_hasKind he), he⟩
  have hhead := List.findSome?_eq_none_iff.1 hnone e hmem
  rw [Option.map_eq_none_iff, List.head?_eq_none_iff] at hhead
  by_contra hf
  have hmis : a ∈ Verify.misplaced g e :=
    List.mem_filter.2 ⟨h.mem_predecessors.2 hl, by simpa using hf⟩
  rw [hhead] at hmis
  cases hmis

end Graph

namespace PlannerConfig

variable {c : PlannerConfig}

/-- No region of a reshaped graph holds two groupings. -/
theorem partitioned_of_reshape {d : Definition} {w : Diagnostics} (hd : d.toGraph = .ok g)
    (h : c.reshape rules g = .ok (g', w)) : g'.Partitioned := by
  obtain ⟨hw, g1, g2, h1, h2, h3, -⟩ := reshape_eq_ok h
  have hs := shaped_of_verify hd hw
  obtain ⟨g0, hpre, hset, hpost⟩ := settleAll_settled (fun _ => uses_of_mem_shapingRules) hs h1
    (x := (.jobPartitioning, .jobPartitioning c.tempScheme)) (by simp [shapingRules])
  have hs0 := hpre.shaped hs
  have hpart : g0.Partitioned := by
    refine JobPartitioning.partitioned_of_findCut hs0.agrees hs0.ends ?_
    rw [Rule.apply, JobPartitioning.apply_eq, changeAt_eq_false] at hset
    exact hset.1
  have hpost' : Edits c.tempScheme rules g0 g2 := hpost.trans (resolve_edits h2)
  have hrest : Edits c.tempScheme rules g2 g' := collapse_edits (hpost'.shaped hs0) h3
  exact Edits.partitioned (hpost'.trans hrest) hs0 hpart

/-- Where reshaping succeeds the graph is sound again, and warned about as before. -/
theorem sound_of_reshape {d : Definition} {w : Diagnostics} (hd : d.toGraph = .ok g)
    (h : c.reshape rules g = .ok (g', w)) :
    g'.Shaped ∧ g'.Sound rules ∧ w.hasErrors = false ∧ w = Verify.warnings g' := by
  obtain ⟨hw, g1, g2, -, -, -, hchains⟩ := reshape_eq_ok h
  obtain ⟨hverify, hok⟩ := verify_eq_ok hw
  obtain ⟨hs, he⟩ := reshape_edits hd h
  obtain ⟨hs', hrw⟩ := Edits.keeps.{0} he hs
  obtain ⟨hsound, rfl⟩ := sound_of_verify hs hverify hok
  have hevery : g'.checkEveryChains = .ok () := by
    obtain ⟨⟨_, g3⟩, hrun, -⟩ := map_eq_ok.1 hchains
    exact congrArg Prod.fst (Phase.run_eq_ok hrun)
  refine ⟨hs', ?_, hok, (Verify.warnings_eq hrw).symm⟩
  refine (he.upheld hs (hsound.upheld hs)).sound hs' (partitioned_of_reshape hd h)
    (fun a e hl he => feedsEvery_of_checkEveryChains hs'.agrees hevery hl he) fun j hj => ?_
  have hjold := hrw.hasKind_of (fun _ => rfl) hj
  rw [hrw.length_inputs hs (lt_size_of_contains (contains_of_hasKind hjold))
    (contains_of_hasKind hj)]
  exact hsound.joins j hjold

end PlannerConfig

/-- **A reshaped graph passes verification.** Where reshaping succeeds on the graph of a
definition, verification of the graph that it returns finds no error and warns as before. -/
theorem reverified_of_reshape {d : Definition} {c : PlannerConfig} {w : Diagnostics}
    (hd : d.toGraph = .ok g) (h : c.reshape rules g = .ok (g', w)) :
    g'.verify rules = .ok w ∧ w.hasErrors = false ∧ (∃ l, g'.topology.order = .ok l) ∧
      g'.Sound rules := by
  obtain ⟨hs', hsound, hok, rfl⟩ := PlannerConfig.sound_of_reshape hd h
  exact ⟨hsound.verify_eq hs', hok, order_of_acyclic hs'.agrees hs'.ends hs'.acyclic, hsound⟩

theorem reverified_regrouped : ∃ g g' w, regrouped.toGraph = .ok g ∧
    PlannerConfig.default.reshape .byScheme g = .ok (g', w) ∧ g' ≠ g ∧
      g'.verify .byScheme = .ok w ∧ g'.Sound .byScheme := by
  have hany : (regrouped.toGraph.toOption.any fun g =>
      (PlannerConfig.default.reshape .byScheme g).toOption.any fun r =>
        decide (r.1.size ≠ g.size)) = true := by cbv
  obtain ⟨g, hd, hany⟩ := exists_ok_of_any hany
  obtain ⟨⟨g', w⟩, h, hsize⟩ := exists_ok_of_any hany
  obtain ⟨hverify, -, -, hsound⟩ := reverified_of_reshape hd h
  refine ⟨g, g', w, hd, h, ?_, hverify, hsound⟩
  rintro rfl
  exact of_decide_eq_true hsize rfl

end Dataflow
