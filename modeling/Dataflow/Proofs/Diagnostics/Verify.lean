import Dataflow.Diagnostics.Verify
import Dataflow.Proofs.Flow.Definition
import Dataflow.Proofs.Topology.Reach

/-!
# What verification asks of a graph

`Sound` says in terms of scopes and ways what the checks look for. On a well-shaped
graph verification reports an error exactly if the graph is not sound, and otherwise
reports the joins whose fields are left to a joiner, and nothing else.

Results:

* `mem_onPath`, `mem_metBelow`: what the two searches find;
* `kindReport_eq`: the report on an element, split into its errors and its warnings;
* `errorsOf_eq_nil_iff`: when an element has no errors;
* `Sound.verify_eq`, `sound_of_verify`: verification as a whole;
* `Graph.onPath_of_verify`: what it leaves of any graph with a topological order;
* `Graph.order_of_verify`: a cycle does not pass, unless it consists of extents.
-/
namespace Dataflow

open Dataflow.Graph Relation

variable {g : Graph} {rules : TapRules}

namespace Verify

/-- The search behind a split goes on here. -/
def Passes (g : Graph) (v : ElementId) : Prop :=
  isExtent v = false ∧ g.hasKind Kind.isGrouping v = false ∧ g.hasKind Kind.isTap v = false

/-- `v` is met behind `id`, past no extent, grouping or tap. -/
def Met (g : Graph) (id v : ElementId) : Prop :=
  ∃ u, g.Leads id u ∧ ReflTransGen (fun a b => Passes g a ∧ g.Leads a b) u v

end Verify

/-- A graph in which verification finds nothing wrong. -/
structure Graph.Sound (rules : TapRules) (g : Graph) : Prop where
  onPath : g.OnPath
  /-- Groupings and other everies alone feed an every. -/
  everies : ∀ a e, g.Leads a e → g.hasKind Kind.isEvery e = true →
    g.hasKind Kind.feedsEvery a = true
  /-- No other every stands next to a buffer. -/
  buffers : ∀ b e, g.hasKind Kind.isBuffer b = true → g.Leads e b ∨ g.Leads b e →
    g.hasKind Kind.isEvery e = false
  joins : ∀ j, g.hasKind Kind.isJoin j = true → 2 ≤ (g.inputs j).length
  /-- No split directly behind a boundary meets two groupings. -/
  splits : ∀ b s, g.hasKind Kind.isBoundary b = true → g.Leads b s → Verify.isSplit g s = true →
    ∀ u v, Verify.Met g s u → Verify.Met g s v → g.hasKind Kind.isGrouping u = true →
      g.hasKind Kind.isGrouping v = true → u = v
  /-- A sink that is read back can return what it wrote. -/
  readers : ∀ t tap, g.kind? t = some (.sink tap) → ∀ e, g.Leads t e → isExtent e = false →
    rules.symmetrical tap = true

namespace Verify

/-! ## What the searches find -/

theorem mem_onPath (h : g.Agrees) {e : ElementId} :
    e ∈ Verify.onPath g ↔ TransGen g.Leads head e ∧ TransGen g.Leads e tail := by
  rw [Verify.onPath, IdSet.mem_filter, decide_eq_true_eq, h.mem_descendants, h.mem_ancestors]

theorem mem_onPath_of_inner (h : g.Agrees) {e : ElementId} (he : isExtent e = false) :
    e ∈ Verify.onPath g ↔ ReflTransGen g.Leads head e ∧ ReflTransGen g.Leads e tail := by
  have hhead : e ≠ head := by rintro rfl; cases he
  have htail : tail ≠ e := by rintro rfl; cases he
  rw [mem_onPath h, reflTransGen_iff_eq_or_transGen, reflTransGen_iff_eq_or_transGen,
    or_iff_right hhead, or_iff_right htail]

theorem mem_metBelow (h : g.Agrees) {id v : ElementId} : v ∈ metBelow g id ↔ Met g id v := by
  have hnext : ∀ a b, b ∈ (if (!isExtent a && !g.hasKind Kind.isGrouping a &&
      !g.hasKind Kind.isTap a) = true then (g.successors a).toList else []) ↔
      Passes g a ∧ g.Leads a b := by
    intro a b
    split
    · next hp =>
      simp only [Bool.and_eq_true, Bool.not_eq_true'] at hp
      exact h.mem_successors.trans ⟨fun hl => ⟨⟨hp.1.1, hp.1.2, hp.2⟩, hl⟩, And.right⟩
    · next hp =>
      simp only [List.not_mem_nil, false_iff]
      rintro ⟨⟨h1, h2, h3⟩, -⟩
      exact hp (by simp [h1, h2, h3])
  have hlt : ∀ b, (∃ a, g.Leads a b) → b < g.size := by
    rintro b ⟨a, s, sc, hsc, -, rfl⟩
    exact h.target_lt hsc
  unfold metBelow
  rw [mem_explore_starts (fun a b hb => hlt b ⟨a, ((hnext a b).1 hb).2⟩)
    (IdSet.nodup_toList _) (fun b hb => hlt b ⟨id, h.mem_successors.1 hb⟩)]
  simp only [hnext]
  exact exists_congr fun u => and_congr_left fun _ => h.mem_successors

theorem mem_groupingsBelow (h : g.Agrees) {id v : ElementId} :
    v ∈ groupingsBelow g id ↔ Met g id v ∧ g.hasKind Kind.isGrouping v = true := by
  rw [groupingsBelow, IdSet.mem_ofList, List.mem_filter, mem_metBelow h]

/-! ## Errors and warnings of one element -/

/-- What is wrong with an element of the kind. -/
def errorsOf (g : Graph) (rules : TapRules) (id : ElementId) : Kind → List Diagnostic
  | .every op => everyReport g id ++ if op.role = .buffer then bufferReport g id else []
  | .group .coGroup _ | .hashJoin _ => arityReport g id
  | .sink tap => readBackReport g rules id tap
  | .boundary _ => splitReport g id
  | .group .groupBy _ | .extent _ | .source _ | .pipe | .each _ | .merge => []

/-- What is worth a warning about an element of the kind. -/
def warningsOf (id : ElementId) : Kind → List Diagnostic
  | .group .coGroup j | .hashJoin j => deferralReport id j
  | _ => []

theorem kindReport_eq (id : ElementId) (k : Kind) :
    kindReport g rules id k = errorsOf g rules id k ++ warningsOf id k := by
  cases k with
  | group kind j => cases kind <;> simp [kindReport, errorsOf, warningsOf]
  | _ => simp [kindReport, errorsOf, warningsOf]

theorem severity_of_mem_everyReport {id : ElementId} {d : Diagnostic} (h : d ∈ everyReport g id) :
    d.severity = .error := by
  unfold everyReport at h
  split at h
  · cases h
  · rw [List.mem_singleton.1 h]; rfl

theorem severity_of_mem_bufferReport {id : ElementId} {d : Diagnostic}
    (h : d ∈ bufferReport g id) : d.severity = .error := by
  unfold bufferReport at h
  dsimp only at h
  split at h
  · cases h
  · rw [List.mem_singleton.1 h]; rfl

theorem severity_of_mem_arityReport {id : ElementId} {d : Diagnostic} (h : d ∈ arityReport g id) :
    d.severity = .error := by
  unfold arityReport at h
  dsimp only at h
  split at h
  · rw [List.mem_singleton.1 h]; rfl
  · cases h

theorem severity_of_mem_readBackReport {id : ElementId} {tap : Tap} {d : Diagnostic}
    (h : d ∈ readBackReport g rules id tap) : d.severity = .error := by
  unfold readBackReport at h
  dsimp only at h
  split at h
  · rw [List.mem_singleton.1 h]; rfl
  · cases h

theorem severity_of_mem_splitReport {id : ElementId} {d : Diagnostic} (h : d ∈ splitReport g id) :
    d.severity = .error := by
  obtain ⟨s, -, hs⟩ := List.mem_filterMap.1 h
  dsimp only at hs
  split at hs
  · cases hs
  · cases hs; rfl

theorem severity_of_mem_errorsOf {id : ElementId} {k : Kind} {d : Diagnostic}
    (h : d ∈ errorsOf g rules id k) : d.severity = .error := by
  unfold errorsOf at h
  split at h
  · rcases List.mem_append.1 h with h | h
    · exact severity_of_mem_everyReport h
    · split at h
      · exact severity_of_mem_bufferReport h
      · cases h
  · exact severity_of_mem_arityReport h
  · exact severity_of_mem_arityReport h
  · exact severity_of_mem_readBackReport h
  · exact severity_of_mem_splitReport h
  all_goals cases h

/-! ## When a report is empty -/

theorem everyReport_eq_nil_iff (h : g.Agrees) {id : ElementId} :
    everyReport g id = [] ↔ ∀ a, g.Leads a id → g.hasKind Kind.feedsEvery a = true := by
  have hmis : misplaced g id = [] ↔ ∀ a, g.Leads a id → g.hasKind Kind.feedsEvery a = true := by
    simp only [misplaced, List.filter_eq_nil_iff, Bool.not_eq_true', Bool.not_eq_false]
    exact forall_congr' fun a => imp_congr_left h.mem_predecessors
  rw [← hmis]
  unfold everyReport
  split
  · next hnil => simp [hnil]
  · next hne => simpa using hne

theorem bufferReport_eq_nil_iff (h : g.Agrees) {id : ElementId} : bufferReport g id = [] ↔
    ∀ e, g.Leads e id ∨ g.Leads id e → g.hasKind Kind.isEvery e = false := by
  have hnil : ∀ (s : IdSet) (f : ElementId → Related),
      (s.toList.filter (g.hasKind Kind.isEvery)).map f = [] ↔
        ∀ e ∈ s, g.hasKind Kind.isEvery e = false := by
    intro s f
    simp only [List.map_eq_nil_iff, List.filter_eq_nil_iff, Bool.not_eq_true]
    rfl
  have hall : (∀ e ∈ g.predecessors id, g.hasKind Kind.isEvery e = false) ∧
      (∀ e ∈ g.successors id, g.hasKind Kind.isEvery e = false) ↔
      ∀ e, g.Leads e id ∨ g.Leads id e → g.hasKind Kind.isEvery e = false := by
    simp only [h.mem_predecessors, h.mem_successors, or_imp, forall_and]
  unfold bufferReport
  dsimp only
  split
  · next heq =>
    rw [List.append_eq_nil_iff, hnil, hnil, hall] at heq
    simpa using heq
  · next hne =>
    rw [imp_false, List.append_eq_nil_iff, hnil, hnil, hall] at hne
    simpa using hne

theorem length_inputs (h : g.Agrees) (id : ElementId) :
    (g.inputs id).length = (g.incoming id).length := by
  rw [h.inputs_eq, List.length_map]

theorem arityReport_eq_nil_iff (h : g.Agrees) {id : ElementId} :
    arityReport g id = [] ↔ 2 ≤ (g.inputs id).length := by
  unfold arityReport
  rw [length_inputs h]
  dsimp only
  split
  · next hlt => exact iff_of_false (List.cons_ne_nil _ _) (Nat.not_le_of_lt hlt)
  · next hle => exact iff_of_true rfl (Nat.le_of_not_lt hle)

theorem readBackReport_eq_nil_iff (h : g.Agrees) {id : ElementId} {tap : Tap} :
    readBackReport g rules id tap = [] ↔
      ∀ e, g.Leads id e → isExtent e = false → rules.symmetrical tap = true := by
  unfold readBackReport
  dsimp only
  split
  · next hbad =>
    simp only [Bool.and_eq_true, List.any_eq_true, Bool.not_eq_true'] at hbad
    obtain ⟨⟨e, he, hx⟩, hsym⟩ := hbad
    refine iff_of_false (by simp) fun hall => ?_
    rw [hall e (h.mem_successors.1 he) hx] at hsym
    cases hsym
  · next hok =>
    refine iff_of_true rfl fun e he hx => ?_
    rw [← Bool.not_eq_false]
    intro hsym
    refine hok ?_
    simp only [hsym, Bool.not_false, Bool.and_true, List.any_eq_true, Bool.not_eq_true']
    exact ⟨e, h.mem_successors.2 he, hx⟩

theorem splitReport_eq_nil_iff (h : g.Agrees) {id : ElementId} : splitReport g id = [] ↔
    ∀ s, g.Leads id s → isSplit g s = true → ∀ u v, Met g s u → Met g s v →
      g.hasKind Kind.isGrouping u = true → g.hasKind Kind.isGrouping v = true → u = v := by
  have hone : ∀ s, (groupingsBelow g s).size < 2 ↔ ∀ u v, Met g s u → Met g s v →
      g.hasKind Kind.isGrouping u = true → g.hasKind Kind.isGrouping v = true → u = v := by
    intro s
    simp only [IdSet.size_lt_two_iff, mem_groupingsBelow h]
    exact ⟨fun hs u v hu hv hgu hgv => hs u ⟨hu, hgu⟩ v ⟨hv, hgv⟩,
      fun hs u hu v hv => hs u v hu.1 hv.1 hu.2 hv.2⟩
  have hiff : splitReport g id = [] ↔ ∀ s ∈ g.successors id, isSplit g s = true →
      (groupingsBelow g s).size < 2 := by
    simp only [splitReport, List.filterMap_eq_nil_iff, List.mem_filter, and_imp]
    refine forall_congr' fun s => forall_congr' fun _ => forall_congr' fun _ => ?_
    split
    · next hlt => simpa using hlt
    · next hge => simpa using hge
  rw [hiff]
  exact forall_congr' fun s => imp_congr h.mem_successors (imp_congr_right fun _ => hone s)

theorem errorsOf_eq_nil_iff (h : g.Agrees) {id : ElementId} {k : Kind} :
    errorsOf g rules id k = [] ↔
      (k.isEvery = true → ∀ a, g.Leads a id → g.hasKind Kind.feedsEvery a = true) ∧
      (k.isBuffer = true → ∀ e, g.Leads e id ∨ g.Leads id e → g.hasKind Kind.isEvery e = false) ∧
      (k.isJoin = true → 2 ≤ (g.inputs id).length) ∧
      (k.isBoundary = true → ∀ s, g.Leads id s → isSplit g s = true → ∀ u v, Met g s u →
        Met g s v → g.hasKind Kind.isGrouping u = true → g.hasKind Kind.isGrouping v = true →
          u = v) ∧
      ∀ tap, k = .sink tap → ∀ e, g.Leads id e → isExtent e = false →
        rules.symmetrical tap = true := by
  cases k with
  | every op =>
    simp only [errorsOf, List.append_eq_nil_iff, everyReport_eq_nil_iff h, Kind.isEvery,
      Kind.isBuffer, Kind.isJoin, Kind.isBoundary, beq_iff_eq]
    split
    · next hrole => simp [hrole, bufferReport_eq_nil_iff h]
    · next hrole => simp [hrole]
  | group kind j => cases kind <;> simp [errorsOf, arityReport_eq_nil_iff h, Kind.isEvery,
      Kind.isBuffer, Kind.isJoin, Kind.isBoundary]
  | hashJoin j => simp [errorsOf, arityReport_eq_nil_iff h, Kind.isEvery,
      Kind.isBuffer, Kind.isJoin, Kind.isBoundary]
  | sink tap => simp [errorsOf, readBackReport_eq_nil_iff h, Kind.isEvery,
      Kind.isBuffer, Kind.isJoin, Kind.isBoundary]
  | boundary tap => simp [errorsOf, splitReport_eq_nil_iff h, Kind.isEvery,
      Kind.isBuffer, Kind.isJoin, Kind.isBoundary]
  | _ => simp [errorsOf, Kind.isEvery, Kind.isBuffer, Kind.isJoin, Kind.isBoundary]

/-! ## Verification as a whole -/

/-- What is worth a warning, by element. -/
def warnings (g : Graph) : Diagnostics :=
  ⟨g.innerElements.toList.flatMap fun id => (g.kind? id).elim [] (warningsOf id)⟩

theorem hasErrors_eq_false_iff {ds : Diagnostics} :
    ds.hasErrors = false ↔ ∀ d ∈ ds.messages, d.severity ≠ .error := by
  simp [Diagnostics.hasErrors]

/-- Where nothing leads to a removed element, every check can be made. -/
theorem unreadable?_eq_none (h : g.Agrees) (hends : g.EndsLive) (P : IdSet) (id : ElementId) :
    unreadable? g P id = none := by
  have hlive : ∀ {a b}, g.Leads a b → ¬ (!g.contains b) = true := fun hab => by
    simp [(hends _ _ hab).2]
  have hmet : ∀ {s v}, Met g s v → g.contains v = true := by
    rintro s v ⟨u, hu, huv⟩
    induction huv with
    | refl => exact (hends _ _ hu).2
    | tail _ hab _ => exact (hends _ _ hab.2).2
  unfold unreadable?
  dsimp only
  split
  · rfl
  split
  · exact List.find?_eq_none.2 fun b hb => hlive (h.mem_successors.1 hb)
  split
  · refine List.findSome?_eq_none_iff.2 fun s hs => ?_
    rw [if_neg (hlive (h.mem_successors.1 hs))]
    split
    · refine List.find?_eq_none.2 fun v hv => ?_
      simp [hmet ((mem_metBelow h).1 hv)]
    · rfl
  · rfl

theorem verify_eq (h : g.Ordered) (rules : TapRules) : g.verify rules =
    .ok ⟨g.innerElements.toList.flatMap (elementReport g rules (Verify.onPath g))⟩ := by
  obtain ⟨l, hl⟩ := h.exists_order
  have hnone : g.innerElements.toList.findSome? (unreadable? g (Verify.onPath g)) = none :=
    List.findSome?_eq_none_iff.2 fun id _ => unreadable?_eq_none h.agrees h.ends _ id
  simp only [verify, hl, hnone]

/-- An element has no errors if it lies on a way and has none of its kind. -/
theorem elementReport_of_clear {P : IdSet} {id : ElementId} {k : Kind} (hk : g.kind? id = some k)
    (hP : id ∈ P) (hc : errorsOf g rules id k = []) :
    elementReport g rules P id = (g.kind? id).elim [] (warningsOf id) := by
  rw [elementReport, if_pos hP, hk, Option.elim_some, Option.elim_some, kindReport_eq, hc,
    List.nil_append]

theorem clear_of_elementReport {P : IdSet} {id : ElementId} {k : Kind} (hk : g.kind? id = some k)
    (h : ∀ d ∈ elementReport g rules P id, d.severity ≠ .error) :
    id ∈ P ∧ errorsOf g rules id k = [] := by
  unfold elementReport at h
  split at h
  · next hP =>
    refine ⟨hP, List.eq_nil_iff_forall_not_mem.2 fun d hd => ?_⟩
    rw [hk, Option.elim_some, kindReport_eq] at h
    exact h d (List.mem_append_left _ hd) (severity_of_mem_errorsOf hd)
  · exact absurd rfl (h _ List.mem_cons_self)

/-- Where verification finds no errors, every inner element lies on a way and has none of its
kind. -/
theorem clear_of_verify (h : g.Ordered) {ds : Diagnostics} (hv : g.verify rules = .ok ds)
    (hds : ds.hasErrors = false) {e : ElementId} {x : Element} (hx : g.element? e = some x)
    (hext : isExtent e = false) : e ∈ Verify.onPath g ∧ errorsOf g rules e x.kind = [] := by
  rw [verify_eq h] at hv
  cases hv
  refine clear_of_elementReport (by rw [kind?, hx]; rfl) fun d hd => ?_
  refine hasErrors_eq_false_iff.1 hds d (List.mem_flatMap.2 ⟨e, ?_, hd⟩)
  exact mem_innerElements.2 ⟨contains_iff.2 ⟨x, hx⟩, hext⟩

end Verify

open Verify

/-- Verification leaves no inner element off a way. -/
theorem Graph.onPath_of_verify (h : g.Ordered) {ds : Diagnostics} (hv : g.verify rules = .ok ds)
    (hds : ds.hasErrors = false) : g.OnPath := by
  intro e he hext
  obtain ⟨x, hx⟩ := contains_iff.1 he
  exact (mem_onPath_of_inner h.agrees hext).1 (clear_of_verify h hv hds hx hext).1

/-- A sound graph gets its warnings and nothing else. -/
theorem Graph.Sound.verify_eq (h : g.Sound rules) (hs : g.Shaped) :
    g.verify rules = .ok (warnings g) := by
  rw [Verify.verify_eq hs.ordered, warnings]
  congr 2
  refine congrArg List.flatten (List.map_congr_left fun id hid => ?_)
  obtain ⟨hlive, hext⟩ := mem_innerElements.1 hid
  obtain ⟨x, hx⟩ := contains_iff.1 hlive
  have hk : g.kind? id = some x.kind := by rw [kind?, hx]; rfl
  have hkind : ∀ {p : Kind → Bool}, p x.kind = true → g.hasKind p id = true := fun hp =>
    hasKind_iff.2 ⟨x, hx, hp⟩
  refine elementReport_of_clear hk ((mem_onPath_of_inner hs.agrees hext).2 (h.onPath id hlive hext))
    ((errorsOf_eq_nil_iff hs.agrees).2 ⟨fun hp a ha => h.everies a id ha (hkind hp),
      fun hp e he => h.buffers id e (hkind hp) he, fun hp => h.joins id (hkind hp),
      fun hp s hl hsplit => h.splits id s (hkind hp) hl hsplit, fun tap htap e he hx' => ?_⟩)
  exact h.readers id tap (by rw [hk, htap]) e he hx'

/-- What verification passes is sound, and has no messages but its warnings. -/
theorem Graph.sound_of_verify (hs : g.Shaped) {ds : Diagnostics} (h : g.verify rules = .ok ds)
    (hds : ds.hasErrors = false) : g.Sound rules ∧ ds = warnings g := by
  have hsound : g.Sound rules := by
    have herr : ∀ {p : Kind → Bool}, (∀ x, p (.extent x) = false) → ∀ {e},
        g.hasKind p e = true →
          ∃ x : Element, p x.kind = true ∧ errorsOf g rules e x.kind = [] := by
      intro p hp e he
      obtain ⟨x, hx, hk⟩ := hasKind_iff.1 he
      exact ⟨x, hk, (clear_of_verify hs.ordered h hds hx (hs.isExtent_eq_false hp he)).2⟩
    refine ⟨onPath_of_verify hs.ordered h hds, fun a e hl he => ?_, fun b e hb hl => ?_, fun j hj => ?_,
      fun b s hb hl hsplit => ?_, fun t tap ht e hl hext => ?_⟩
    · obtain ⟨x, hk, hnil⟩ := herr (fun _ => rfl) he
      exact ((errorsOf_eq_nil_iff hs.agrees).1 hnil).1 hk a hl
    · obtain ⟨x, hk, hnil⟩ := herr (fun _ => rfl) hb
      exact ((errorsOf_eq_nil_iff hs.agrees).1 hnil).2.1 hk e hl
    · obtain ⟨x, hk, hnil⟩ := herr (fun _ => rfl) hj
      exact ((errorsOf_eq_nil_iff hs.agrees).1 hnil).2.2.1 hk
    · obtain ⟨x, hk, hnil⟩ := herr (fun _ => rfl) hb
      exact ((errorsOf_eq_nil_iff hs.agrees).1 hnil).2.2.2.1 hk s hl hsplit
    · obtain ⟨x, hx, hk⟩ := Option.map_eq_some_iff.1 ht
      have hsink : g.hasKind Kind.isSink t = true := hasKind_iff.2 ⟨x, hx, by rw [hk]; rfl⟩
      have hnil := (clear_of_verify hs.ordered h hds hx
        (hs.isExtent_eq_false (fun _ => rfl) hsink)).2
      exact ((errorsOf_eq_nil_iff hs.agrees).1 hnil).2.2.2.2 tap hk e hl hext
  rw [hsound.verify_eq hs] at h
  cases h
  exact ⟨hsound, rfl⟩

/-- A cycle is reported, unless it consists of extents. -/
theorem Graph.order_of_verify (h : g.Agrees) (hends : g.EndsLive)
    (hext : ∀ a b, isExtent a = true → isExtent b = true → ¬ g.Leads a b) {ds : Diagnostics}
    (hv : g.verify rules = .ok ds) (hds : ds.hasErrors = false) :
    ∃ l, g.topology.order = .ok l := by
  cases ho : g.topology.order with
  | ok l => exact ⟨l, rfl⟩
  | error e =>
    simp only [verify, ho] at hv
    cases hv
    have hstuck : ∀ v ∈ e.stuck, isExtent v = true := by
      intro v hv
      unfold cycleReport at hds
      split at hds
      · next hnil =>
        have := List.filter_eq_nil_iff.1 hnil v hv
        simpa using this
      · cases hds
    -- whatever is stuck is fed by something stuck, and extents do not feed each other
    obtain ⟨⟨v, hv⟩, hfed⟩ := Topology.stuck_spec ho
    obtain ⟨-, x, hx, hor⟩ := hfed v hv
    obtain ⟨sc, hsc, hso, hst⟩ := h.mem_edgesIn.1 hx
    have hl : g.Leads x.2 v := ⟨x.1, sc, hsc, hso, hst⟩
    rcases hor with hor | hor
    · exact absurd hl (hext _ _ (hstuck _ hor) (hstuck v hv))
    · exact absurd (mem_elements.2 (hends _ _ hl).1) hor

/-! ## The graph of a definition -/

namespace Definition

variable {d : Definition}

/-- No scope joins the two extents. -/
theorem Layout.not_leads_extents (h : Layout d g) {a b : ElementId} (ha : isExtent a = true)
    (hb : isExtent b = true) : ¬ g.Leads a b := by
  intro hl
  obtain ⟨i, s, w, -, hat, rfl, rfl⟩ := h.leads hl
  have hne : ∀ j, isExtent (firstId + j) ≠ true := fun j => by
    rw [firstId_add_not_extent]; exact Bool.false_ne_true
  cases hat with
  | source t _ hw => rw [hw] at hb; exact hne i hb
  | sink t _ hw => rw [hw] at ha; exact hne i ha
  | input j k _ _ hw => rw [hw] at ha; exact hne j ha

/-- A cycle in the graph of a definition is reported, as it does not consist of extents. -/
theorem order_of_verify (hd : d.toGraph = .ok g) {ds : Diagnostics} (h : g.verify rules = .ok ds)
    (hds : ds.hasErrors = false) : ∃ l, g.topology.order = .ok l := by
  have hlay := toGraph_layout hd
  exact Graph.order_of_verify hlay.agrees hlay.ends (fun _ _ => hlay.not_leads_extents) h hds

end Definition
end Dataflow
