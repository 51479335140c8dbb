import Dataflow.Proofs.Flow.Collapsing
import Dataflow.Proofs.Flow.Failures

/-!
# Inputs of hash joins that are kept apart

Join isolation looks for an accumulated input that a grouping supplies, or that shares
what supplies it with another input of its join. Where it finds none the inputs are
isolated. Boundaries on scopes and pipes that go keep them so: what supplies an input
afterwards comes from what supplied it before.

Results:

* `JoinIsolation.clashes_of_incompatibleInput`, `JoinIsolation.incompatibleInput_eq_none`: the
  search finds an input that needs a tap of its own, if there is one;
* `JoinIsolation.incompatibleInput_eq_none_iff`: what it means that no input is found;
* `Isolated.boundaryOn`, `Isolated.removePassThrough`, `Relabels.isolated`: the edits
  that keep inputs isolated.
-/
namespace Dataflow
namespace Graph

open Relation

variable {g g' : Graph} {shared : ElementId → Prop}

/-- The scope is an input of a hash join that is read into memory first. -/
structure Accumulates (g : Graph) (s : ScopeId) (sc : Scope) : Prop where
  live : g.scope? s = some sc
  join : g.hasKind Kind.isHashJoin sc.target = true
  kept : sc.isStreamed = false

/-- No grouping supplies an accumulated input, and what supplies another input of its join
as well is `shared`. -/
structure Isolated (g : Graph) (shared : ElementId → Prop) : Prop where
  ungrouped : ∀ s sc, g.Accumulates s sc → ∀ x, g.Supplies x sc.origin →
    g.hasKind Kind.isGrouping x = false
  apart : ∀ s sc t tc, g.Accumulates s sc → g.scope? t = some tc → tc.target = sc.target →
    t ≠ s → ∀ x, g.Supplies x sc.origin → g.Supplies x tc.origin → shared x

end Graph

open Dataflow.Graph

namespace JoinIsolation

variable {g : Graph}

theorem mem_joins {j : ElementId} : j ∈ joins g ↔ g.hasKind Kind.isHashJoin j = true := by
  have hkind : joins g = g.elements.toList.filter (g.hasKind Kind.isHashJoin) := by
    refine List.filter_congr fun id _ => ?_
    rw [hasKind, hasKind]
    cases g.kind? id with
    | none => rfl
    | some k => cases k <;> rfl
  rw [hkind, List.mem_filter]
  exact and_iff_right_of_imp fun h => mem_elements.2 (contains_of_hasKind h)

theorem mem_regions (h : g.Agrees) {j : ElementId} {s : ScopeId} {region : IdSet} :
    (s, region) ∈ regions g j ↔
      ∃ sc, g.scope? s = some sc ∧ sc.target = j ∧ region = .ofList (feeding g sc.origin) := by
  simp only [regions, List.mem_map, Prod.mk.injEq]
  constructor
  · rintro ⟨⟨s', o⟩, hedge, rfl, rfl⟩
    obtain ⟨sc, hsc, rfl, rfl⟩ := h.mem_edgesIn.1 hedge
    exact ⟨sc, hsc, rfl, rfl⟩
  · rintro ⟨sc, hsc, rfl, rfl⟩
    exact ⟨(s, sc.origin), h.mem_edgesIn.2 ⟨sc, hsc, rfl, rfl⟩, rfl, rfl⟩

theorem isIncompatible_iff {l : List (ScopeId × IdSet)} {s : ScopeId} {sc : Scope}
    {region : IdSet} (hs : g.scope? s = some sc) : isIncompatible g l (s, region) = true ↔
      sc.isStreamed = false ∧ ((∃ x ∈ region, g.hasKind Kind.isGrouping x = true) ∨
        ∃ t theirs, (t, theirs) ∈ l ∧ t ≠ s ∧ ∃ x ∈ region, x ∈ theirs) := by
  have hshare : ∀ theirs : IdSet, region.disjoint theirs = false ↔
      ∃ x ∈ region, x ∈ theirs := by
    intro theirs
    rw [← Bool.not_eq_true, IdSet.disjoint_iff]
    push Not
    rfl
  simp only [isIncompatible, hs, Option.any_some, Bool.and_eq_true, Bool.or_eq_true,
    Bool.not_eq_true', List.any_eq_true, bne_iff_ne, Prod.exists, hshare, IdSet.mem_def]

/-- An accumulated input that needs a tap of its own: upstream of it is a grouping, or what
is upstream of another input of its join. -/
structure Clashes (g : Graph) (s : ScopeId) : Prop where
  accumulates : ∃ sc, g.Accumulates s sc
  clash : ∀ sc, g.scope? s = some sc →
    (∃ x, g.Upstream x sc.origin ∧ g.hasKind Kind.isGrouping x = true) ∨
      ∃ t tc x, g.scope? t = some tc ∧ tc.target = sc.target ∧ t ≠ s ∧
        g.Upstream x sc.origin ∧ g.Upstream x tc.origin

/-- The search reports the inputs that need a tap of their own. -/
theorem isIncompatible_regions (h : g.Agrees) {s : ScopeId} {sc : Scope}
    (hs : g.scope? s = some sc) (hjoin : g.hasKind Kind.isHashJoin sc.target = true) :
    isIncompatible g (regions g sc.target) (s, .ofList (feeding g sc.origin)) = true ↔
      Clashes g s := by
  have hup : ∀ {t tc x}, g.scope? t = some tc →
      (x ∈ IdSet.ofList (feeding g tc.origin) ↔ g.Upstream x tc.origin) := fun ht =>
    IdSet.mem_ofList.trans (h.mem_feeding (h.origin_lt ht))
  rw [isIncompatible_iff hs]
  constructor
  · rintro ⟨hkept, hbad⟩
    refine ⟨⟨sc, hs, hjoin, hkept⟩, fun sc' hs' => ?_⟩
    rw [hs] at hs'
    cases hs'
    refine hbad.imp (fun ⟨x, hx, hg⟩ => ⟨x, (hup hs).1 hx, hg⟩) ?_
    rintro ⟨t, theirs, ht, hne, x, hx, hx'⟩
    obtain ⟨tc, htc, htar, rfl⟩ := (mem_regions h).1 ht
    exact ⟨t, tc, x, htc, htar, hne, (hup hs).1 hx, (hup htc).1 hx'⟩
  · rintro ⟨⟨sc', hlive, -, hkept⟩, hclash⟩
    rw [hs] at hlive
    cases hlive
    refine ⟨hkept, (hclash sc hs).imp (fun ⟨x, hx, hg⟩ => ⟨x, (hup hs).2 hx, hg⟩) ?_⟩
    rintro ⟨t, tc, x, htc, htar, hne, hx, hx'⟩
    exact ⟨t, _, (mem_regions h).2 ⟨tc, htc, htar, rfl⟩, hne, x, (hup hs).2 hx, (hup htc).2 hx'⟩

/-- What is cut needs a tap of its own. -/
theorem clashes_of_incompatibleInput (h : g.Agrees) (hends : g.EndsLive) {s : ScopeId}
    (hcut : incompatibleInput g = .ok (some s)) : Clashes g s := by
  rw [incompatibleInput_eq h hends, Except.ok.injEq] at hcut
  obtain ⟨j, hj, hfound⟩ := List.exists_of_findSome?_eq_some hcut
  obtain ⟨⟨s', region⟩, hfind, rfl⟩ := Option.map_eq_some_iff.1 hfound
  obtain ⟨sc, hsc, rfl, rfl⟩ := (mem_regions h).1 (List.mem_of_find?_eq_some hfind)
  exact (isIncompatible_regions h hsc (mem_joins.1 hj)).1 (List.find?_some hfind)

/-- Nothing is cut where no input needs a tap of its own. -/
theorem incompatibleInput_eq_none (h : g.Agrees) (hends : g.EndsLive) :
    incompatibleInput g = .ok none ↔ ∀ s, ¬ Clashes g s := by
  rw [incompatibleInput_eq h hends, Except.ok.injEq, List.findSome?_eq_none_iff]
  simp only [incompatibleInputOf, Option.map_eq_none_iff, List.find?_eq_none]
  constructor
  · intro hall s hclash
    obtain ⟨sc, hsc, hjoin, -⟩ := hclash.accumulates
    exact hall _ (mem_joins.2 hjoin) _ ((mem_regions h).2 ⟨sc, hsc, rfl, rfl⟩)
      ((isIncompatible_regions h hsc hjoin).2 hclash)
  · rintro hnone j hj ⟨s, region⟩ hinput hbad
    obtain ⟨sc, hsc, rfl, rfl⟩ := (mem_regions h).1 hinput
    exact hnone s ((isIncompatible_regions h hsc (mem_joins.1 hj)).1 hbad)

/-- No input is found where the accumulated inputs are isolated. -/
theorem incompatibleInput_eq_none_iff (hs : g.Shaped) (h : g.OnPath) :
    incompatibleInput g = .ok none ↔ g.Isolated fun _ => False := by
  have hup : ∀ {s sc x}, g.scope? s = some sc →
      (g.Upstream x sc.origin ↔ g.Supplies x sc.origin) := fun {s sc _} hsc =>
    h.upstream_iff hs fun heq => hs.tail_last sc.target ⟨s, sc, hsc, heq, rfl⟩
  rw [incompatibleInput_eq_none hs.agrees hs.ends]
  constructor
  · intro hnone
    refine ⟨fun s sc ha x hx => ?_, fun s sc t tc ha ht htar hne x hx hx' => ?_⟩
    · rw [← Bool.not_eq_true]
      refine fun hgroup => hnone s ⟨⟨sc, ha⟩, fun sc' hsc' => .inl ⟨x, ?_, hgroup⟩⟩
      obtain rfl : sc = sc' := Option.some.inj (ha.live.symm.trans hsc')
      exact (hup hsc').2 hx
    · refine hnone s ⟨⟨sc, ha⟩, fun sc' hsc' => .inr ?_⟩
      obtain rfl : sc = sc' := Option.some.inj (ha.live.symm.trans hsc')
      exact ⟨t, tc, x, ht, htar, hne, (hup hsc').2 hx, (hup ht).2 hx'⟩
  · rintro hiso s ⟨⟨sc, ha⟩, hclash⟩
    rcases hclash sc ha.live with ⟨x, hx, hgroup⟩ | ⟨t, tc, x, htc, htar, hne, hx, hx'⟩
    · have hnot := hiso.ungrouped s sc ha x ((hup ha.live).1 hx)
      rw [hgroup] at hnot
      cases hnot
    · exact hiso.apart s sc t tc ha htc htar hne x ((hup ha.live).1 hx) ((hup htc).1 hx')

end JoinIsolation

namespace Graph

variable {g g' : Graph}

/-! ## The edits that keep inputs isolated -/

/-- Inputs stay isolated where each input of a join comes from one that was there, and what
supplies it from what supplied that one. -/
theorem Isolated.of_supplies (h : g.Isolated fun _ => False) {σ : ScopeId → ScopeId}
    {π : ElementId → ElementId}
    (hgroup : ∀ e, g'.hasKind Kind.isGrouping e = true → g.hasKind Kind.isGrouping (π e) = true)
    (hinput : ∀ s sc', g'.scope? s = some sc' → g'.hasKind Kind.isHashJoin sc'.target = true →
      ∃ sc, g.scope? (σ s) = some sc ∧ sc.target = sc'.target ∧ sc.ordinal = sc'.ordinal ∧
        g.hasKind Kind.isHashJoin sc.target = true ∧
          ∀ x, g'.Supplies x sc'.origin → g.Supplies (π x) sc.origin)
    (hinj : ∀ s sc' t tc', g'.scope? s = some sc' → g'.scope? t = some tc' →
      g'.hasKind Kind.isHashJoin sc'.target = true → tc'.target = sc'.target → σ t = σ s → t = s) :
    g'.Isolated fun _ => False := by
  have hacc : ∀ {s sc'}, g'.Accumulates s sc' → ∃ sc, g.Accumulates (σ s) sc ∧
      sc.target = sc'.target ∧ ∀ x, g'.Supplies x sc'.origin → g.Supplies (π x) sc.origin := by
    intro s sc' ha
    obtain ⟨sc, hsc, htar, hord, hjoin, hsup⟩ := hinput s sc' ha.live ha.join
    refine ⟨sc, ⟨hsc, hjoin, ?_⟩, htar, hsup⟩
    rw [Scope.isStreamed, hord]
    exact ha.kept
  refine ⟨fun s sc' ha x hx => ?_, fun s sc' t tc' ha ht htar hne x hx hx' => ?_⟩
  · obtain ⟨sc, ha', -, hsup⟩ := hacc ha
    rw [← Bool.not_eq_true]
    intro hg
    have := h.ungrouped _ sc ha' _ (hsup x hx)
    rw [hgroup x hg] at this
    cases this
  · obtain ⟨sc, ha', hsct, hsup⟩ := hacc ha
    obtain ⟨tc, htc, htct, -, -, hsup'⟩ := hinput t tc' ht (htar ▸ ha.join)
    refine h.apart _ sc _ tc ha' htc ((htct.trans htar).trans hsct.symm) (fun heq => ?_) _
      (hsup x hx) (hsup' x hx')
    exact hne (hinj s sc' t tc' ha.live ht ha.join htar heq)

theorem Relabels.isolated (h : g.Relabels g') (hs : g.Shaped)
    (hiso : g.Isolated fun _ => False) : g'.Isolated fun _ => False := by
  have hkind : ∀ {p : Kind → Bool}, (∀ t, p (.boundary t) = false) → ∀ e,
      g'.hasKind p e = true → g.hasKind p e = true :=
    fun hp e => (h.hasKind (alike_of_boundaries hp)).1
  refine hiso.of_supplies (σ := id) (π := id) (hkind fun _ => rfl) (fun s sc' hsc' hj => ?_)
    fun _ _ _ _ _ _ _ _ heq => heq
  obtain ⟨sc, hsc, ho, ht, hk⟩ := h.scope_from s sc' hsc'
  refine ⟨sc, hsc, ht.symm, hk.symm, hkind (fun _ => rfl) _ (ht ▸ hj), fun x hx => ?_⟩
  rw [ho] at hx
  exact (h.supplies_iff hs).1 hx

theorem Isolated.recount (h : g.Isolated fun _ => False) (n : Nat) :
    ({ g with boundaryCount := n } : Graph).Isolated fun _ => False :=
  ⟨fun s sc ha x hx => h.ungrouped s sc ⟨ha.live, ha.join, ha.kept⟩ x hx,
    fun s sc t tc ha ht htar hne x hx hx' =>
      h.apart s sc t tc ⟨ha.live, ha.join, ha.kept⟩ ht htar hne x hx hx'⟩

theorem Isolated.insertOnScope (h : g.Isolated fun _ => False) (hs : g.Shaped) {i : ScopeId}
    {sc : Scope} {x : Element} (hi : g.scope? i = some sc) (hb : x.kind.isBoundary = true) :
    (g.insertOnScope i x).2.Isolated fun _ => False := by
  have hg := grows_insertOnScope hi hb
  -- the scope behind the boundary is the input that the scope before it was
  refine h.of_supplies (σ := fun s => if s = g.scopes.length then i else s)
    (π := instead g.size sc.origin) (fun e he => ?_) (fun s sc' hsc' hj => ?_)
    (fun s sc' t tc' hsc' htc' hj htar heq => ?_)
  · obtain ⟨hlt, he'⟩ := hg.of_hasKind he fun _ => rfl
    rw [instead_of_ne (Nat.ne_of_lt hlt)]
    exact he'
  · obtain ⟨htlt, hj'⟩ := hg.of_hasKind hj fun _ => rfl
    rcases insertOnScope_cases hi hsc' with ⟨rfl, rfl⟩ | ⟨rfl, rfl⟩ | ⟨hsi, hsc⟩
    · refine ⟨sc, by rw [if_pos rfl]; exact hi, rfl, rfl, hj', fun y hy => ?_⟩
      rw [hy.eq_of_isTap ?_, instead_self]
      · exact .refl
      · exact hg.hasKind_new fun _ => rfl
    · exact absurd htlt (Nat.lt_irrefl _)
    · have hlt := lt_scopes_of_scope? hsc
      refine ⟨sc', by rw [if_neg (Nat.ne_of_lt hlt)]; exact hsc, rfl, rfl, hj', fun y hy => ?_⟩
      exact supplies_insertOnScope hs hi hb (Nat.ne_of_lt (hs.agrees.origin_lt hsc)) hy
  · have hsi : ∀ {u uc'}, (g.insertOnScope i x).2.scope? u = some uc' →
        uc'.target = sc'.target → u ≠ i := by
      rintro u uc' huc' hut rfl
      rw [scope?_insertOnScope_self hi] at huc'
      cases huc'
      exact Nat.ne_of_lt (hg.of_hasKind hj fun _ => rfl).1 hut.symm
    have hs1 := hsi hsc' rfl
    have ht1 := hsi htc' htar
    by_cases hsn : s = g.scopes.length <;> by_cases htn : t = g.scopes.length
    · exact htn.trans hsn.symm
    · rw [if_neg htn, if_pos hsn] at heq
      exact absurd heq ht1
    · rw [if_pos htn, if_neg hsn] at heq
      exact absurd heq.symm hs1
    · rw [if_neg htn, if_neg hsn] at heq
      exact heq

theorem Isolated.removePassThrough (h : g.Isolated fun _ => False) (hs : g.Shaped)
    {p : ElementId} {i : ScopeId} {sc : Scope} (ha : g.arrivals p = [i])
    (hi : g.scope? i = some sc) (hp : g.hasKind Kind.isPipe p = true) :
    (g.removePassThrough p).2.Isolated fun _ => False := by
  have hg := shrinks_removePassThrough ha hi
  have hold : ∀ {q : Kind → Bool} (e), (g.removePassThrough p).2.hasKind q e = true →
      g.hasKind q e = true := by
    intro q e he
    rw [← hg.hasKind_of_ne (hg.of_contains (contains_of_hasKind he)).1]
    exact he
  refine h.of_supplies (σ := id) (π := id) hold (fun s sc' hsc' hj => ?_)
    fun _ _ _ _ _ _ _ _ heq => heq
  obtain ⟨tc, htc, -, rfl⟩ := hs.agrees.removePassThrough_cases ha hi (contains_of_hasKind hp)
    (hs.origin_ne_of_arrivals ha hi) hsc'
  rw [Scope.target_rerouted] at hj
  refine ⟨tc, htc, Scope.target_rerouted.symm, Scope.ordinal_rerouted.symm, hold _ hj,
    fun x hx => ?_⟩
  rw [Scope.origin_rerouted] at hx
  exact ((supplies_removePassThrough ha hi hs hp).1 hx).2

theorem Isolated.boundaryOn (h : g.Isolated fun _ => False) (hs : g.Shaped) {scheme : String}
    {i : ScopeId} (hi : g.Cuttable i) : (g.boundaryOn scheme i).Isolated fun _ => False := by
  obtain ⟨sc, hsc, -⟩ := hi
  exact (h.recount _).insertOnScope (shaped_recount hs _) hsc rfl

/-- Where boundaries collapse, inputs come to share the taps that take over, and no more. -/
theorem Isolated.collapses {κ : ElementId → ElementId} (h : g.Isolated fun _ => False)
    (hc : Collapses κ g g') : g'.Isolated (TookOver g g') := by
  have hacc : ∀ {s sc'}, g'.Accumulates s sc' → ∃ sc, g.Accumulates s sc ∧
      sc.target = sc'.target ∧ κ sc.origin = sc'.origin := by
    intro s sc' ha
    obtain ⟨sc, hsc, ⟨ho, ht, hk⟩, -⟩ := hc.scope_from s sc' ha.live
    have hj := ha.join
    rw [ht] at hj
    obtain ⟨hκ, hj⟩ := hc.eq_of_hasKind (fun _ => Kind.passesOn_of_isHashJoin) hj
    refine ⟨sc, ⟨hsc, hj, ?_⟩, (ht.trans hκ).symm, ho.symm⟩
    rw [Scope.isStreamed, ← hk]
    exact ha.kept
  refine ⟨fun s sc' ha x hx => ?_, fun s sc' t tc' ha ht htar hne x hx hx' => ?_⟩
  · obtain ⟨sc, ha', -, ho⟩ := hacc ha
    obtain ⟨y, hy, rfl⟩ := (hc.supplies x sc.origin).1 (ho ▸ hx)
    rw [← Bool.not_eq_true]
    intro hg
    have := h.ungrouped s sc ha' y hy
    rw [(hc.eq_of_hasKind (fun _ => Kind.passesOn_of_isGrouping) hg).2] at this
    cases this
  · obtain ⟨sc, ha', hsct, ho⟩ := hacc ha
    obtain ⟨tc, htc, ⟨ho', htt, -⟩, -⟩ := hc.scope_from t tc' ht
    rw [htt] at htar
    have hj := ha.join
    rw [← htar] at hj
    obtain ⟨htκ, -⟩ := hc.eq_of_hasKind (fun _ => Kind.passesOn_of_isHashJoin) hj
    rw [htκ] at htar
    obtain ⟨y, hy, rfl⟩ := (hc.supplies x sc.origin).1 (ho ▸ hx)
    obtain ⟨z, hz, hzy⟩ := (hc.supplies _ tc.origin).1 (ho' ▸ hx')
    by_cases hκy : κ y = y
    · by_cases hκz : κ z = z
      · -- what did not move supplied both inputs before
        rw [hκy, hκz] at hzy
        subst hzy
        exact (h.apart s sc t tc ha' htc (htar.trans hsct.symm) hne z hy hz).elim
      · exact hzy ▸ (hc.moved z hκz).2
    · exact (hc.moved y hκy).2

end Graph

/-! ## The rules that keep inputs isolated -/

variable {g : Graph}

theorem SourceNormalization.isolated (hs : g.Shaped) (h : g.Isolated fun _ => False)
    {scheme : String} {rules : TapRules} :
    (SourceNormalization.apply scheme rules g).2.Isolated fun _ => False := by
  rw [SourceNormalization.apply_eq]
  refine changeAt_induction (P := fun a => a.Isolated fun _ => False) h fun cut hcut => ?_
  refine (cutScopes_induction (P := fun a => a.Shaped ∧ a.Isolated fun _ => False)
    (SourceNormalization.cuttable hs hcut) ⟨hs, h⟩ fun a i sc ha hsc hends => ?_).2
  have hi : a.Cuttable i := ⟨sc, hsc, hends⟩
  have hedits : Edits scheme rules a (a.boundaryOn scheme i) := edits_boundaryOn hi
  exact ⟨hedits.shaped ha.1, ha.2.boundaryOn ha.1 hi⟩

theorem PassThrough.isolated (hs : g.Shaped) (h : g.Isolated fun _ => False) :
    (PassThrough.apply g).2.Isolated fun _ => False := by
  rw [PassThrough.apply_eq]
  refine changeAt_induction (P := fun a => a.Isolated fun _ => False) h fun id hid => ?_
  obtain ⟨i, sc, hi, hsc, hp⟩ := arrivals_of_removable hs hid
  exact h.removePassThrough hs hi hsc hp

end Dataflow
