import Dataflow.Proofs.Diagnostics.Verify
import Dataflow.Proofs.Flow.Cuts
import Dataflow.Proofs.Flow.Edits
import Dataflow.Proofs.Rule.Fixpoint
import Dataflow.Planner.Reshape

/-!
# Every rule is a chain of edits

One application of a rule is one edit, or a few of a kind. So by induction is a rule
that is applied up to its fixed point, and reshaping is one rule after the other with
field resolution between them. A rule that settles finds nothing to change in the
graph that it leaves, and a rule that fails does so on a graph that edits lead to.

Results:

* `Rule.apply_edits`, `Rule.iterate_edits`: one application, and any number of them;
* `Rule.settled_of_iterate`, `Rule.iterate_error`: how a rule ends;
* `PlannerConfig.settleAll_settled`: every rule of a list settles on the way;
* `PlannerConfig.reshape_edits`, `reshape_spec`: reshaping as a whole.
-/
namespace Dataflow

universe u

open Dataflow.Graph Relation

variable {g : Graph}

/-! ## One application -/

theorem SplitInsertion.shapings {scheme : String} :
    Shapings scheme g (SplitInsertion.apply scheme g).2 := by
  rw [SplitInsertion.apply_eq]
  refine changeAt_induction .refl fun id hid => ?_
  have hsplit := SplitInsertion.isSplit_of_firstPoint hid
  rw [SplitInsertion.isSplit, Bool.and_eq_true] at hsplit
  exact .single (.after hsplit.1)

theorem JobPartitioning.shapings (hs : g.Shaped) {scheme : String} :
    Shapings scheme g (JobPartitioning.apply scheme g).2 := by
  rw [JobPartitioning.apply_eq]
  exact changeAt_induction .refl fun cut hcut =>
    shapings_cutScopes (JobPartitioning.cuttable hs hcut)

theorem JoinIsolation.shapings (hs : g.Shaped) {scheme : String} :
    Shapings scheme g (JoinIsolation.apply scheme g).2 := by
  rw [JoinIsolation.apply_eq]
  exact changeAt_induction .refl fun s hcut => .single (.on (JoinIsolation.cuttable hs hcut))

theorem SourceNormalization.shapings (hs : g.Shaped) {scheme : String} {rules : TapRules} :
    Shapings scheme g (SourceNormalization.apply scheme rules g).2 := by
  rw [SourceNormalization.apply_eq]
  exact changeAt_induction .refl fun cut hcut =>
    shapings_cutScopes (SourceNormalization.cuttable hs hcut)

/-- A pipe that is removed has one scope to be spliced out of. -/
theorem arrivals_of_removable (hs : g.Shaped) {id : ElementId}
    (h : PassThrough.removable g = .ok (some id)) :
    ∃ i sc, g.arrivals id = [i] ∧ g.scope? i = some sc ∧ g.hasKind Kind.isPipe id = true := by
  obtain ⟨hpipe, i, hi⟩ := PassThrough.isPipe_of_removable h
  obtain ⟨sc, hsc, -⟩ := (hs.agrees.arrivals_iff id i).1 (by rw [hi]; exact List.mem_cons_self)
  exact ⟨i, sc, hi, hsc, hpipe⟩

theorem PassThrough.shapings (hs : g.Shaped) {scheme : String} :
    Shapings scheme g (PassThrough.apply g).2 := by
  rw [PassThrough.apply_eq]
  refine changeAt_induction .refl fun id hid => ?_
  obtain ⟨i, sc, hi, hsc, hpipe⟩ := arrivals_of_removable hs hid
  exact .single (.splice hi hsc hpipe)

/-- A boundary that collapses may give way to the tap, which can be read back. -/
theorem replaceable_of_collapsible (hs : g.Shaped) {rules : TapRules} {b t : ElementId}
    (h : BoundaryCollapse.collapsible rules g = .ok (some (b, t))) :
    (∃ i sc, g.Replaceable b t i sc) ∧
      ∀ tap, g.kind? t = some (.sink tap) → rules.symmetrical tap = true := by
  obtain ⟨hb, hsucc, hcan⟩ := BoundaryCollapse.canReplace_of_collapsible h
  have hlead := hs.agrees.mem_successors.1 hsucc
  unfold BoundaryCollapse.canReplace at hcan
  split at hcan
  · next written target hw ht =>
    simp only [Bool.and_eq_true, beq_iff_eq] at hcan
    have honly : ∀ a, g.Leads a t → a = b := by
      intro a ha
      have hmem : a ∈ (g.predecessors t).toList := hs.agrees.mem_predecessors.2 ha
      rw [hcan.1.1] at hmem
      exact List.mem_singleton.1 hmem
    have htap : g.hasKind Kind.passesOn t = true := by
      obtain ⟨k, hk, hkt⟩ := Option.bind_eq_some_iff.1 ht
      obtain ⟨z, hz, rfl⟩ := Option.map_eq_some_iff.1 hk
      refine hasKind_iff.2 ⟨z, hz, ?_⟩
      cases hkind : z.kind <;> rw [hkind] at hkt <;> first | rfl | cases hkt
    obtain ⟨i, hi⟩ := hs.sole b (hasKind_imp (fun _ => Kind.passesOn_of_isBoundary) hb)
    obtain ⟨⟨sc, hsc, -⟩, -⟩ := id hi
    refine ⟨⟨i, sc, hb, htap, hlead, honly, hsc, hi⟩, fun tap hkind => ?_⟩
    rw [hkind] at ht
    cases ht
    exact hcan.1.2
  · cases hcan

theorem BoundaryCollapse.edits (hs : g.Shaped) {scheme : String} {rules : TapRules} :
    Edits scheme rules g (BoundaryCollapse.apply rules g).2 := by
  rw [BoundaryCollapse.apply_eq]
  refine changeAt_induction .refl fun _ hbt => ?_
  obtain ⟨⟨i, sc, hr⟩, hsym⟩ := replaceable_of_collapsible hs hbt
  exact .single (.replace hr hsym)

namespace Rule

/-- The rule draws no boundaries of another scheme and asks no other tap rules before
it replaces a boundary. -/
def Uses (scheme : String) (rules : TapRules) : Rule → Prop
  | splitInsertion s | jobPartitioning s | joinIsolation s | sourceNormalization s _ => s = scheme
  | passThrough => True
  | boundaryCollapse r => r = rules

variable {r : Rule} {scheme : String} {rules : TapRules} {g' : Graph}

/-- One application of a rule is a chain of edits, whatever its outcome. -/
theorem apply_edits (hu : r.Uses scheme rules) (hs : g.Shaped) :
    Edits scheme rules g (r.apply g).2 := by
  cases r with
  | splitInsertion s => cases hu; exact SplitInsertion.shapings.edits
  | jobPartitioning s => cases hu; exact (JobPartitioning.shapings hs).edits
  | joinIsolation s => cases hu; exact (JoinIsolation.shapings hs).edits
  | sourceNormalization s _ => cases hu; exact (SourceNormalization.shapings hs).edits
  | passThrough => exact (PassThrough.shapings hs).edits
  | boundaryCollapse _ => cases hu; exact BoundaryCollapse.edits hs

/-! ## Any number of applications -/

/-- What every application of the rule keeps holds of the graph that it ends with. -/
theorem iterate_keeps {P : Graph → Prop} (hstep : ∀ a, P a → P (r.apply a).2)
    (limit budget changes : Nat) (hg : P g) : P (r.iterate limit budget changes g).2 := by
  induction budget generalizing g changes with
  | zero => exact hg
  | succ budget ih =>
    have hnext := hstep g hg
    unfold iterate
    split
    · next e g' h => rw [h] at hnext; exact hnext
    · next g' h => rw [h] at hnext; exact hnext
    · next g' h => rw [h] at hnext; exact ih (changes + 1) hnext

theorem iterate_edits (hu : r.Uses scheme rules) (limit budget changes : Nat) (hs : g.Shaped) :
    Edits scheme rules g (r.iterate limit budget changes g).2 := by
  have hstep : ∀ a, a.Shaped ∧ Edits scheme rules g a →
      (r.apply a).2.Shaped ∧ Edits scheme rules g (r.apply a).2 := by
    intro a ⟨ha, he⟩
    have happly := apply_edits hu ha
    exact ⟨happly.shaped ha, he.trans happly⟩
  exact (iterate_keeps hstep limit budget changes ⟨hs, .refl⟩).2

/-- What every change by the rule keeps holds where the rule settles. -/
theorem iterate_induction {P : Graph → Prop} {limit budget changes n : Nat}
    (h : r.iterate limit budget changes g = (.ok n, g')) (hg : P g)
    (hstep : ∀ a b, P a → r.apply a = (.ok true, b) → P b) : P g' := by
  obtain ⟨k, -, -, hrun, -⟩ := iterate_eq_ok_iff.1 h
  clear h
  induction hrun with
  | none => exact hg
  | next happly _ ih => exact ih (hstep _ _ hg happly)

/-- A rule that counts no change has changed nothing. -/
theorem eq_of_iterate {limit budget changes n : Nat}
    (h : r.iterate limit budget changes g = (.ok n, g')) :
    changes ≤ n ∧ (n = changes → g' = g) := by
  obtain ⟨k, -, rfl, hrun, -⟩ := iterate_eq_ok_iff.1 h
  refine ⟨Nat.le_add_right _ _, fun heq => ?_⟩
  obtain rfl : k = 0 := by omega
  cases hrun
  rfl

/-- Where a rule settles, it finds nothing to change. -/
theorem settled_of_iterate {limit budget changes n : Nat}
    (h : r.iterate limit budget changes g = (.ok n, g')) : r.apply g' = (.ok false, g') := by
  obtain ⟨_, -, -, -, hend⟩ := iterate_eq_ok_iff.1 h
  exact hend

/-- Where every change keeps `P` and brings a measure down, a budget above the measure does: the
rule settles after at most as many changes, or fails on a graph of which `P` holds. -/
theorem iterate_of_decreasing {P : Graph → Prop} {m : Graph → Nat}
    (hstep : ∀ a b, P a → r.apply a = (.ok true, b) → P b ∧ m b < m a)
    (limit changes : Nat) {budget : Nat} (hg : P g) (hbudget : m g < budget) :
    (∃ n g', r.iterate limit budget changes g = (.ok n, g') ∧ P g' ∧
      n + m g' ≤ changes + m g) ∨
      ∃ a e g', P a ∧ r.apply a = (.error e, g') ∧
        r.iterate limit budget changes g = (.error e, g') := by
  induction budget generalizing g changes with
  | zero => omega
  | succ budget ih =>
    unfold iterate
    rcases happly : r.apply g with ⟨e | changed, g1⟩
    · exact .inr ⟨g, e, g1, hg, happly, rfl⟩
    · cases changed with
      | false =>
        obtain rfl := eq_of_apply happly
        exact .inl ⟨changes, g1, rfl, hg, by omega⟩
      | true =>
        obtain ⟨hg1, hlt⟩ := hstep g g1 hg happly
        rcases ih (changes + 1) hg1 (by omega) with ⟨n, g', hrun, hP, hle⟩ | hfail
        · exact .inl ⟨n, g', hrun, hP, by omega⟩
        · exact .inr hfail

/-- Such a rule settles if it does not fail. -/
theorem fixpoint_of_decreasing {P : Graph → Prop} {m : Graph → Nat}
    (hstep : ∀ a b, P a → r.apply a = (.ok true, b) → P b ∧ m b < m a)
    (hok : ∀ a e, P a → (r.apply a).1 ≠ .error e) {limit : Nat} (hg : P g)
    (hlimit : m g < limit) : ∃ n g', r.fixpoint limit g = (.ok n, g') ∧ n ≤ m g ∧ P g' ∧
      r.apply g' = (.ok false, g') := by
  rcases iterate_of_decreasing hstep limit 0 hg hlimit with
    ⟨n, g', hrun, hP, hle⟩ | ⟨a, e, g', ha, happly, -⟩
  · exact ⟨n, g', hrun, by omega, hP, settled_of_iterate hrun⟩
  · exact absurd (congrArg Prod.fst happly) (hok a e ha)

/-- A rule that fails runs out of its budget, or fails on a graph that edits lead to. -/
theorem iterate_error (hu : r.Uses scheme rules) {limit budget changes : Nat} {e : PlanError}
    (hs : g.Shaped) (h : r.iterate limit budget changes g = (.error e, g')) :
    e = .nonTermination r.name limit ∨
      ∃ g1, Edits scheme rules g g1 ∧ r.apply g1 = (.error e, g') := by
  induction budget generalizing g changes with
  | zero => cases h; exact .inl rfl
  | succ budget ih =>
    have hstep := apply_edits hu hs
    unfold iterate at h
    split at h
    · next happly => cases h; exact .inr ⟨g, .refl, happly⟩
    · cases h
    · next g1 happly =>
      rw [happly] at hstep
      rcases ih (hstep.shaped hs) h with he | ⟨g2, h2, happly⟩
      · exact .inl he
      · exact .inr ⟨g2, hstep.trans h2, happly⟩

end Rule

/-! ## Phases -/

theorem Phase.run_eq_ok {α : Type} {phase : Phase} {work : Graph → Outcome α} {g' : Graph} {a : α}
    (h : phase.run work g = .ok (a, g')) : work g = (.ok a, g') := by
  unfold Phase.run at h
  split at h
  · next h' => cases h; exact h'
  · cases h

theorem Phase.run_eq_error {α : Type} {phase : Phase} {work : Graph → Outcome α}
    {f : PhaseFailure} (h : phase.run work g = .error f) :
    f.phase = phase ∧ work g = (.error f.error, f.graph) := by
  unfold Phase.run at h
  split at h
  · cases h
  · next h' => cases h; exact ⟨rfl, h'⟩

namespace PlannerConfig

variable {c : PlannerConfig} {scheme : String} {rules : TapRules} {g' : Graph}

theorem settle_edits {phase : Phase} {rule : Rule} {n : Nat} (hu : rule.Uses scheme rules)
    (hs : g.Shaped) (h : c.settle phase rule g = .ok (n, g')) : Edits scheme rules g g' := by
  have hedits := Rule.iterate_edits hu c.maxRuleIterations c.maxRuleIterations 0 hs
  have hrun := Phase.run_eq_ok h
  rw [Rule.fixpoint] at hrun
  rw [hrun] at hedits
  exact hedits

theorem eq_of_settle {phase : Phase} {rule : Rule}
    (h : c.settle phase rule g = .ok (0, g')) : g' = g :=
  (Rule.eq_of_iterate (Phase.run_eq_ok h)).2 rfl

theorem settle_settled {phase : Phase} {rule : Rule} {n : Nat}
    (h : c.settle phase rule g = .ok (n, g')) : rule.apply g' = (.ok false, g') :=
  Rule.settled_of_iterate (Phase.run_eq_ok h)

theorem settleAll_cons {phase : Phase} {rule : Rule} {rest : List (Phase × Rule)} :
    c.settleAll ((phase, rule) :: rest) g = .ok g' ↔
      ∃ n g1, c.settle phase rule g = .ok (n, g1) ∧ c.settleAll rest g1 = .ok g' := by
  rw [settleAll]
  cases c.settle phase rule g with
  | error f => simp
  | ok x =>
    obtain ⟨n, g1⟩ := x
    simp

theorem settleAll_edits {l : List (Phase × Rule)} (hl : ∀ x ∈ l, x.2.Uses scheme rules)
    (hs : g.Shaped) (h : c.settleAll l g = .ok g') : Edits scheme rules g g' := by
  induction l generalizing g with
  | nil => cases h; exact .refl
  | cons x rest ih =>
    obtain ⟨n, g1, h1, h2⟩ := settleAll_cons.1 h
    have hstep := settle_edits (hl x List.mem_cons_self) hs h1
    exact hstep.trans (ih (fun y hy => hl y (List.mem_cons_of_mem x hy)) (hstep.shaped hs) h2)

/-- Every rule of a list settles at some point, and edits follow. -/
theorem settleAll_settled {l : List (Phase × Rule)} (hl : ∀ x ∈ l, x.2.Uses scheme rules)
    (hs : g.Shaped) (h : c.settleAll l g = .ok g') {x : Phase × Rule} (hx : x ∈ l) :
    ∃ g1, Edits scheme rules g g1 ∧ x.2.apply g1 = (.ok false, g1) ∧ Edits scheme rules g1 g' := by
  induction l generalizing g with
  | nil => cases hx
  | cons y rest ih =>
    obtain ⟨n, g1, h1, h2⟩ := settleAll_cons.1 h
    have hrest : ∀ x ∈ rest, x.2.Uses scheme rules := fun x hx => hl x (List.mem_cons_of_mem y hx)
    have hstep := settle_edits (hl y List.mem_cons_self) hs h1
    rcases List.mem_cons.1 hx with rfl | hx
    · exact ⟨g1, hstep, settle_settled h1, settleAll_edits hrest (hstep.shaped hs) h2⟩
    · obtain ⟨g2, h12, hset, h2'⟩ := ih hrest (hstep.shaped hs) h2 hx
      exact ⟨g2, hstep.trans h12, hset, h2'⟩

theorem settleAll_append {l l' : List (Phase × Rule)} : c.settleAll (l ++ l') g = .ok g' ↔
    ∃ g1, c.settleAll l g = .ok g1 ∧ c.settleAll l' g1 = .ok g' := by
  induction l generalizing g with
  | nil =>
    constructor
    · exact fun h => ⟨g, rfl, h⟩
    · rintro ⟨g1, h1, h⟩
      cases h1
      exact h
  | cons x rest ih =>
    obtain ⟨phase, rule⟩ := x
    rw [List.cons_append, settleAll_cons]
    simp only [settleAll_cons, ih]
    constructor
    · rintro ⟨n, g1, h1, g2, h2, h⟩
      exact ⟨g2, ⟨n, g1, h1, h2⟩, h⟩
    · rintro ⟨g2, ⟨n, g1, h1, h2⟩, h⟩
      exact ⟨n, g1, h1, g2, h2, h⟩

/-- The last rule of a list settles on the graph that the list leads to. -/
theorem settleAll_concat {l : List (Phase × Rule)} {x : Phase × Rule}
    (h : c.settleAll (l ++ [x]) g = .ok g') : x.2.apply g' = (.ok false, g') := by
  obtain ⟨g1, -, h⟩ := settleAll_append.1 h
  obtain ⟨n, g2, h2, h⟩ := settleAll_cons.1 h
  cases h
  exact settle_settled h2

/-- What every change by a rule of a list keeps holds where the list leads to. -/
theorem settleAll_induction {P : Graph → Prop} {l : List (Phase × Rule)}
    (h : c.settleAll l g = .ok g') (hg : P g)
    (hstep : ∀ x ∈ l, ∀ a b, P a → x.2.apply a = (.ok true, b) → P b) : P g' := by
  induction l generalizing g with
  | nil => cases h; exact hg
  | cons x rest ih =>
    obtain ⟨n, g1, h1, h2⟩ := settleAll_cons.1 h
    have hg1 := Rule.iterate_induction (Phase.run_eq_ok h1) hg (hstep x List.mem_cons_self)
    exact ih h2 hg1 fun y hy => hstep y (List.mem_cons_of_mem x hy)

/-- A list of rules fails where one of them does. -/
theorem settleAll_error {l : List (Phase × Rule)} (hl : ∀ x ∈ l, x.2.Uses scheme rules)
    (hs : g.Shaped) {f : PhaseFailure} (h : c.settleAll l g = .error f) :
    ∃ x ∈ l, ∃ g1, Edits scheme rules g g1 ∧ c.settle x.1 x.2 g1 = .error f := by
  induction l generalizing g with
  | nil => cases h
  | cons y rest ih =>
    unfold settleAll at h
    split at h
    · next h1 => cases h; exact ⟨y, List.mem_cons_self, g, .refl, h1⟩
    · next n g1 h1 =>
      have hstep := settle_edits (hl y List.mem_cons_self) hs h1
      obtain ⟨x, hx, g2, h2, hfail⟩ :=
        ih (fun x hx => hl x (List.mem_cons_of_mem y hx)) (hstep.shaped hs) h
      exact ⟨x, List.mem_cons_of_mem y hx, g2, hstep.trans h2, hfail⟩

theorem mem_shapingRules {x : Phase × Rule} (h : x ∈ c.shapingRules rules) :
    x = (.splitInsertion, .splitInsertion c.tempScheme) ∨
      x = (.jobPartitioning, .jobPartitioning c.tempScheme) ∨
      x = (.joinIsolation, .joinIsolation c.tempScheme) ∨
      x = (.sourceNormalization, .sourceNormalization c.tempScheme rules) ∨
      x = (.passThrough, .passThrough) := by
  unfold shapingRules at h
  split at h <;> simp at h <;> tauto

theorem uses_of_mem_shapingRules {x : Phase × Rule} (h : x ∈ c.shapingRules rules) :
    x.2.Uses c.tempScheme rules := by
  rcases mem_shapingRules h with rfl | rfl | rfl | rfl | rfl <;> trivial

/-- The rules that run before fields are resolved change the shape alone. -/
theorem shapings_of_shapingRules (hs : g.Shaped)
    (h : c.settleAll (c.shapingRules rules) g = .ok g') : Shapings c.tempScheme g g' := by
  refine (settleAll_induction (P := fun a => a.Shaped ∧ Shapings c.tempScheme g a) h ⟨hs, .refl⟩
    fun x hx a b ⟨ha, hga⟩ hab => ?_).2
  have hstep : Shapings c.tempScheme a (x.2.apply a).2 := by
    rcases mem_shapingRules hx with rfl | rfl | rfl | rfl | rfl
    · exact SplitInsertion.shapings
    · exact JobPartitioning.shapings ha
    · exact JoinIsolation.shapings ha
    · exact SourceNormalization.shapings ha
    · exact PassThrough.shapings ha
  rw [hab] at hstep
  have hedits : Edits c.tempScheme rules a b := hstep.edits
  exact ⟨hedits.shaped ha, hga.trans hstep⟩

/-! ## Reshaping -/

theorem resolve_eq_ok : resolve g = .ok g' ↔ g.resolveFields = (.ok (), g') := by
  unfold resolve Phase.run
  rcases g.resolveFields with ⟨_ | _, g1⟩ <;> simp [Except.map]

theorem relabels_of_resolve (h : resolve g = .ok g') : g.Relabels g' := by
  have hrel := relabels_resolveFields g
  rw [resolve_eq_ok.1 h] at hrel
  exact hrel

theorem resolve_edits (h : resolve g = .ok g') : Edits scheme rules g g' := by
  have hstep : Edit scheme rules g g.resolveFields.2 := .resolve
  rw [resolve_eq_ok.1 h] at hstep
  exact .single hstep

/-- Collapsing leaves the graph as it is, or settles and resolves the fields of what it leads to. -/
theorem collapse_eq_ok (h : c.collapse rules g = .ok g') : g' = g ∨
    ∃ n g1, c.settle .boundaryCollapse (.boundaryCollapse rules) g = .ok (n, g1) ∧
      resolve g1 = .ok g' := by
  unfold collapse at h
  split at h
  · split at h
    · cases h
    · next h1 =>
      cases h
      exact .inl (eq_of_settle h1)
    · next h1 => exact .inr ⟨_, _, h1, h⟩
  · cases h
    exact .inl rfl

/-- Collapsing fails before it has settled, or when it resolves fields again. -/
theorem collapse_eq_error {f : PhaseFailure} (h : c.collapse rules g = .error f) :
    c.settle .boundaryCollapse (.boundaryCollapse rules) g = .error f ∨
      ∃ n g1, c.settle .boundaryCollapse (.boundaryCollapse rules) g = .ok (n, g1) ∧
        resolve g1 = .error f := by
  unfold collapse at h
  split at h
  · split at h
    · next h1 =>
      cases h
      exact .inl h1
    · cases h
    · next h1 => exact .inr ⟨_, _, h1, h⟩
  · cases h

theorem collapse_edits (hs : g.Shaped) (h : c.collapse rules g = .ok g') :
    Edits scheme rules g g' := by
  have huses : (Rule.boundaryCollapse rules).Uses scheme rules := rfl
  rcases collapse_eq_ok h with rfl | ⟨n, g1, h1, h2⟩
  · exact .refl
  · exact (settle_edits huses hs h1).trans (resolve_edits h2)

theorem verify_eq_ok {w : Diagnostics} (h : verify rules g = .ok w) :
    g.verify rules = .ok w ∧ w.hasErrors = false := by
  unfold verify at h
  split at h
  · cases h
  · next ds hds =>
    split at h
    · cases h
    · next hok => cases h; exact ⟨hds, by simpa using hok⟩

theorem reshape_eq_ok {w : Diagnostics} (h : c.reshape rules g = .ok (g', w)) :
    verify rules g = .ok w ∧ ∃ g1 g2, c.settleAll (c.shapingRules rules) g = .ok g1 ∧
      resolve g1 = .ok g2 ∧ c.collapse rules g2 = .ok g' ∧ checkChains g' = .ok () := by
  obtain ⟨_, hw, h⟩ := bind_eq_ok.1 h
  obtain ⟨g1, h1, h⟩ := bind_eq_ok.1 h
  obtain ⟨g2, h2, h⟩ := bind_eq_ok.1 h
  obtain ⟨g3, h3, h⟩ := bind_eq_ok.1 h
  obtain ⟨_, h4, h⟩ := bind_eq_ok.1 h
  cases h
  exact ⟨hw, g1, g2, h1, h2, h3, h4⟩

/-- The graph before boundaries collapse: every other rule has settled, and fields are
resolved. -/
def settled (c : PlannerConfig) (rules : TapRules) (g : Graph) : Except PhaseFailure Graph := do
  let g ← c.settleAll (c.shapingRules rules) g
  resolve g

theorem settled_edits (hs : g.Shaped) (h : c.settled rules g = .ok g') :
    Edits c.tempScheme rules g g' := by
  obtain ⟨g1, h1, h2⟩ := bind_eq_ok.1 h
  exact (settleAll_edits (fun _ => uses_of_mem_shapingRules) hs h1).trans (resolve_edits h2)

theorem settled_of_reshape {w : Diagnostics} (h : c.reshape rules g = .ok (g', w)) :
    ∃ g2, c.settled rules g = .ok g2 ∧ c.collapse rules g2 = .ok g' := by
  obtain ⟨-, g1, g2, h1, h2, h3, -⟩ := reshape_eq_ok h
  exact ⟨g2, bind_eq_ok.2 ⟨g1, h1, h2⟩, h3⟩

/-- The graph of a definition that passes verification is well-shaped. -/
theorem shaped_of_verify {d : Definition} (hd : d.toGraph = .ok g) {w : Diagnostics}
    (h : verify rules g = .ok w) : g.Shaped := by
  obtain ⟨hw, hok⟩ := verify_eq_ok h
  obtain ⟨l, hl⟩ := Definition.order_of_verify hd hw hok
  exact Definition.shaped_toGraph hd hl

/-- Every element of a graph that passes verification lies on a way. -/
theorem onPath_of_verify (hs : g.Shaped) {w : Diagnostics} (h : verify rules g = .ok w) :
    g.OnPath := by
  obtain ⟨hw, hok⟩ := verify_eq_ok h
  exact Graph.onPath_of_verify hs.ordered hw hok

theorem reshape_edits {d : Definition} (hd : d.toGraph = .ok g) {w : Diagnostics}
    (h : c.reshape rules g = .ok (g', w)) : g.Shaped ∧ Edits c.tempScheme rules g g' := by
  have hs := shaped_of_verify hd (reshape_eq_ok h).1
  obtain ⟨g2, h2, h3⟩ := settled_of_reshape h
  have e2 := settled_edits hs h2
  exact ⟨hs, e2.trans (collapse_edits (Edits.shaped e2 hs) h3)⟩

/-- Reshaping the graph of a definition keeps it, and so the definition is acyclic. -/
theorem reshape_spec {d : Definition} (hd : d.toGraph = .ok g) {w : Diagnostics}
    (h : c.reshape rules g = .ok (g', w)) : g.Shaped ∧ Keeps.{u} g g' := by
  obtain ⟨hs, he⟩ := reshape_edits hd h
  exact ⟨hs, he.keeps hs⟩

end PlannerConfig
end Dataflow
