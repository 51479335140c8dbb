import Dataflow.Proofs.Flow.Partitioning
import Dataflow.Proofs.Motif.Sight

/-!
# Boundaries separate what works

The scopes inside steps are those with an element that works at both ends. A boundary
on one of them takes it away; a boundary on any other scope changes nothing that works.

Results:

* `cuts_cutScopes`: what boundaries on several scopes do to what works;
* `Separates.mem_innerScopes`: the scopes inside steps that are left;
* `sameWork_representative?`, `sameWork_sameSight`: where what works is the same, so are
  its groups, and every shape of job partitioning is seen alike.
-/
namespace Dataflow

open Relation

namespace Graph

variable {g g' g'' : Graph} {scheme : String}

/-- The scope goes from `a` to `b`. -/
def Joins (g : Graph) (s : ScopeId) (a b : ElementId) : Prop :=
  ∃ sc, g.scope? s = some sc ∧ sc.origin = a ∧ sc.target = b

/-- Both ends of the scope are neither taps nor extents. -/
def isInner (g : Graph) (s : ScopeId) : Bool :=
  (g.scope? s).any fun sc => g.hasKind Kind.isWork sc.origin && g.hasKind Kind.isWork sc.target

/-- The scopes inside steps. -/
def innerScopes (g : Graph) : IdSet := g.liveScopes.filter g.isInner

theorem mem_innerScopes {s : ScopeId} :
    s ∈ g.innerScopes ↔ ∃ a b, g.Works a ∧ g.Works b ∧ g.Joins s a b := by
  simp only [innerScopes, IdSet.mem_filter, mem_liveScopes, isInner, Option.any_eq_true,
    Bool.and_eq_true]
  constructor
  · rintro ⟨_, sc, hsc, ho, ht⟩
    exact ⟨_, _, ho, ht, sc, hsc, rfl, rfl⟩
  · rintro ⟨a, b, ha, hb, sc, hsc, ho, ht⟩
    subst ho ht
    exact ⟨⟨sc, hsc⟩, sc, hsc, ha, hb⟩

/-- `g'` has the work of `g`, without the scopes of `cut` between it. -/
structure Separates (g g' : Graph) (cut : ScopeId → Prop) : Prop where
  kind? : ∀ e, g.Works e ∨ g'.Works e → g'.kind? e = g.kind? e
  joins : ∀ s a b, g.Works a → g.Works b → (g'.Joins s a b ↔ g.Joins s a b ∧ ¬ cut s)
  outgoing : ∀ e, g.Works e → g'.outgoing e = g.outgoing e

theorem Separates.refl (g : Graph) : Separates g g fun _ => False :=
  ⟨fun _ _ => rfl, fun _ _ _ _ _ => by simp, fun _ _ => rfl⟩

section

variable {cut : ScopeId → Prop} (h : Separates g g' cut)
include h

theorem Separates.hasKind {p : Kind → Bool} (hp : ∀ k, p k = true → k.isWork = true)
    (e : ElementId) : g'.hasKind p e = g.hasKind p e := by
  rw [Bool.eq_iff_iff]
  have hk : ∀ a b : Graph, a.hasKind p e = true → a.kind? e = b.kind? e → b.hasKind p e = true := by
    intro a b ha heq
    rw [Graph.hasKind, ← heq]
    exact ha
  constructor
  · exact fun he => hk _ _ he (h.kind? e (.inr (hasKind_imp hp he)))
  · exact fun he => hk _ _ he (h.kind? e (.inl (hasKind_imp hp he))).symm

theorem Separates.works (e : ElementId) : g'.Works e ↔ g.Works e := by
  rw [Works, h.hasKind (fun _ => id), Works]

/-- The scopes inside steps that are left. -/
theorem Separates.mem_innerScopes {s : ScopeId} :
    s ∈ g'.innerScopes ↔ s ∈ g.innerScopes ∧ ¬ cut s := by
  rw [Graph.mem_innerScopes, Graph.mem_innerScopes]
  constructor
  · intro ⟨a, b, ha, hb, hs⟩
    have ha' := (h.works a).1 ha
    have hb' := (h.works b).1 hb
    obtain ⟨hs, hcut⟩ := (h.joins s a b ha' hb').1 hs
    exact ⟨⟨a, b, ha', hb', hs⟩, hcut⟩
  · intro ⟨⟨a, b, ha, hb, hs⟩, hcut⟩
    exact ⟨a, b, (h.works a).2 ha, (h.works b).2 hb, (h.joins s a b ha hb).2 ⟨hs, hcut⟩⟩

theorem Separates.trans {cut' : ScopeId → Prop} (h' : Separates g' g'' cut') :
    Separates g g'' fun s => cut s ∨ cut' s where
  kind? e he := by
    have hw : g'.Works e := by
      rcases he with he | he
      · exact (h.works e).2 he
      · exact (h'.works e).1 he
    rw [h'.kind? e (.inl hw), h.kind? e (.inr hw)]
  joins s a b ha hb := by
    rw [h'.joins s a b ((h.works a).2 ha) ((h.works b).2 hb), h.joins s a b ha hb, and_assoc,
      not_or]
  outgoing e he := by
    rw [h'.outgoing e ((h.works e).2 he), h.outgoing e he]

end

/-! ## Boundaries on scopes -/

theorem separates_insertOnScope {x : Element} (hb : x.kind.isBoundary = true) {i : ScopeId}
    {sc : Scope} (hi : g.scope? i = some sc) :
    Separates g (g.insertOnScope i x).2 (· = i) := by
  have hg := grows_insertOnScope hi hb
  have hold : ∀ e, g.Works e → (g.insertOnScope i x).2.kind? e = g.kind? e := by
    intro e he
    rw [Graph.kind?, hg.element?_old (lt_size_of_contains he.contains), Graph.kind?]
  have hworks : ∀ e, (g.insertOnScope i x).2.Works e → g.Works e := by
    intro e he
    rcases hg.old_or_new he.contains with hlt | rfl
    · rw [Works, hg.hasKind_old hlt] at he
      exact he
    · have htap : (g.insertOnScope i x).2.hasKind Kind.isTap g.size = true :=
        hg.hasKind_new fun _ => rfl
      exact absurd he (not_works_of_isTap htap)
  refine ⟨fun e he => hold e (he.elim id (hworks e)), fun s a b ha hb => ?_, fun e he => ?_⟩
  · have hlt : ∀ e, g.Works e → e ≠ g.size := fun e he =>
      Nat.ne_of_lt (lt_size_of_contains he.contains)
    constructor
    · rintro ⟨sc', hsc', ho, ht⟩
      rcases insertOnScope_cases hi hsc' with ⟨-, rfl⟩ | ⟨-, rfl⟩ | ⟨hne, hsc'⟩
      · exact absurd ho.symm (hlt a ha)
      · exact absurd ht.symm (hlt b hb)
      · exact ⟨⟨sc', hsc', ho, ht⟩, hne⟩
    · rintro ⟨⟨sc', hsc', ho, ht⟩, hne⟩
      exact ⟨sc', scope?_insertOnScope_old hi hsc' hne, ho, ht⟩
  · have hlt := lt_size_of_contains he.contains
    rw [insertOnScope_eq hi, outgoing_addScope (by simp), if_neg (Nat.ne_of_lt hlt),
      outgoing_retarget, outgoing_addElement]

/-- A boundary on one scope separates what the scope joins. -/
theorem separates_boundaryOn {i : ScopeId} (hi : g.containsScope i = true) :
    Separates g (g.boundaryOn scheme i) (· = i) := by
  obtain ⟨sc, hsc⟩ := Option.isSome_iff_exists.1 hi
  have hsc' : ({ g with boundaryCount := g.nextBoundaryNumber } : Graph).scope? i = some sc := hsc
  have hsep := separates_insertOnScope (x := ⟨boundaryName g.nextBoundaryNumber,
    .boundary (.temporary scheme (g.name ++ "/" ++ boundaryName g.nextBoundaryNumber))⟩) rfl hsc'
  exact ⟨hsep.kind?, hsep.joins, hsep.outgoing⟩

/-- What boundaries on several scopes do. -/
structure Cuts (g g' : Graph) (cut : ScopeId → Prop) : Prop extends Separates g g' cut where
  agrees : g'.Agrees
  ends : g'.EndsLive
  size_le : g.size ≤ g'.size

theorem cuts_cutScopes (h : g.Agrees) (hends : g.EndsLive) {cut : IdSet}
    (hcut : ∀ s ∈ cut, g.containsScope s = true) :
    Cuts g (g.cutScopes scheme cut) (· ∈ cut) := by
  refine cutScopes_induction_done (P := fun done a => Cuts g a done) (Q := fun _ => True)
    (fun s hs => ?_) ⟨.refl g, h, hends, Nat.le_refl _⟩ fun done a i sc ha hi _ => ?_
  · obtain ⟨sc, hsc⟩ := Option.isSome_iff_exists.1 (hcut s hs)
    exact ⟨sc, hsc, trivial⟩
  · have hlive : a.containsScope i = true := Option.isSome_iff_exists.2 ⟨sc, hi⟩
    refine ⟨ha.toSeparates.trans (separates_boundaryOn hlive),
      agrees_boundaryOn scheme ha.agrees hlive, endsLive_boundaryOn scheme ha.ends hlive, ?_⟩
    rw [size_boundaryOn]
    exact Nat.le_succ_of_le ha.size_le

/-! ## The same work -/

/-- What works is the same in both graphs, and joined and left by the same scopes. -/
structure SameWork (g g' : Graph) : Prop where
  kind? : ∀ e, g.Works e ∨ g'.Works e → g'.kind? e = g.kind? e
  joins : ∀ s a b, g.Works a → g.Works b → (g'.Joins s a b ↔ g.Joins s a b)
  outgoing : ∀ e, g.Works e → g'.outgoing e = g.outgoing e

/-- Boundaries off the scopes inside steps leave what works alone. -/
theorem Separates.sameWork {cut : ScopeId → Prop} (h : Separates g g' cut)
    (hcut : ∀ s, cut s → s ∉ g.innerScopes) : SameWork g g' where
  kind? := h.kind?
  joins s a b ha hb := by
    rw [h.joins s a b ha hb]
    exact and_iff_left_of_imp fun hs hc => hcut s hc (Graph.mem_innerScopes.2 ⟨a, b, ha, hb, hs⟩)
  outgoing := h.outgoing

theorem SameWork.separates (h : SameWork g g') : Separates g g' fun _ => False :=
  ⟨h.kind?, fun s a b ha hb => by simp [h.joins s a b ha hb], h.outgoing⟩

theorem SameWork.works (h : SameWork g g') (e : ElementId) : g'.Works e ↔ g.Works e :=
  h.separates.works e

theorem SameWork.symm (h : SameWork g g') : SameWork g' g where
  kind? e he := (h.kind? e he.symm).symm
  joins s a b ha hb := (h.joins s a b ((h.works a).1 ha) ((h.works b).1 hb)).symm
  outgoing e he := (h.outgoing e ((h.works e).1 he)).symm

theorem SameWork.innerScopes (h : SameWork g g') : g'.innerScopes = g.innerScopes :=
  IdSet.ext_mem fun s => by rw [h.separates.mem_innerScopes]; simp

end Graph

namespace JobPartitioning

open Dataflow.Graph

variable {g g' : Graph}

/-- The shapes do not ask for input positions. -/
theorem edge_test_of_motif {motif : Motif} (hm : motif ∈ motifs) {e : MotifEdge}
    (he : e ∈ motif.edges) : e.test = .any := by
  have hall : ∀ motif ∈ motifs, ∀ e ∈ motif.edges, e.test = .any := by decide
  exact hall motif hm e he

section

variable (hw : SameWork g g') (h : g.Agrees) (h' : g'.Agrees)
include hw

theorem sameWork_linked : g'.Linked (Processes g') = g.Linked (Processes g) := by
  have hproc : ∀ e, Processes g' e ↔ Processes g e := fun e => by
    rw [Processes, hw.separates.hasKind fun _ => Kind.isWork_of_isProcessing, Processes]
  have hworks : ∀ e, Processes g e → g.Works e := fun e =>
    hasKind_imp fun _ => Kind.isWork_of_isProcessing
  have hleads : ∀ a b, g.Works a → g.Works b → (g'.Leads a b ↔ g.Leads a b) := fun a b ha hb =>
    exists_congr fun s => hw.joins s a b ha hb
  funext a b
  apply propext
  unfold Linked
  rw [hproc, hproc]
  refine and_congr_right fun ha => and_congr_right fun hb => ?_
  rw [hleads a b (hworks a ha) (hworks b hb), hleads b a (hworks b hb) (hworks a ha)]

include h h'

/-- What works belongs to a group of the same name. -/
theorem sameWork_representative? {e : ElementId} (he : g.Works e) :
    (contraction g').representative? e = (contraction g).representative? e := by
  obtain ⟨r, hr⟩ := Contraction.exists_representative (.kind .processing) he.contains
  obtain ⟨r', hr'⟩ :=
    Contraction.exists_representative (.kind .processing) ((hw.works e).2 he).contains
  -- each of the two names is in the group that the other one names
  have hchain := (Contraction.representative?_spec h hr).2
  have hchain' := (Contraction.representative?_spec h' hr').2
  rw [candidate_eq] at hchain hchain'
  rw [sameWork_linked hw] at hchain'
  rw [← candidate_eq] at hchain'
  rw [← sameWork_linked hw, ← candidate_eq] at hchain
  have hle : r ≤ r' :=
    View.representative?_le ((Contraction.representative?_eq_iff h hr).2 hchain')
  have hle' : r' ≤ r :=
    View.representative?_le ((Contraction.representative?_eq_iff h' hr').2 hchain)
  exact hr'.trans ((congrArg some (Nat.le_antisymm hle' hle)).trans hr.symm)

theorem sameWork_holds {c : KindClass} (hc : ∀ k, c.admits k = true → k.isWork = true)
    {v : ElementId} (hv : (VertexTest.kind c).holds (contraction g).target v = true) :
    (VertexTest.kind c).holds (contraction g').target v = true := by
  obtain ⟨⟨e, he⟩, hall⟩ := Contraction.holds_kind_whole.1 hv
  have hwe : g.Works e := hasKind_imp hc (hall e he)
  have he' := (sameWork_representative? hw h h' hwe).trans he
  refine Contraction.holds_kind_whole.2 ⟨⟨e, he'⟩, fun x hx => ?_⟩
  have hlink := (Contraction.representative?_eq_iff h' he').1 hx
  rw [candidate_eq, sameWork_linked hw, ← candidate_eq] at hlink
  rw [hw.separates.hasKind hc]
  exact hall x ((Contraction.representative?_eq_iff h he).2 hlink)

theorem sameWork_admits {motif : Motif} (hm : motif ∈ motifs) {p : Nat} {v : ElementId}
    (hv : (matcherOf motif).admits (contraction g).target p v = true) :
    (matcherOf motif).admits (contraction g').target p v = true := by
  simp only [Matcher.admits, Option.any_eq_true] at hv ⊢
  obtain ⟨n, hn, hv⟩ := hv
  refine ⟨n, hn, ?_⟩
  rcases test_of_motif hm hn with ht | ht
  · rw [ht] at hv ⊢
    exact sameWork_holds (c := .grouping) hw h h' (fun _ => Kind.isWork_of_isGrouping) hv
  · rw [ht] at hv ⊢
    exact sameWork_holds (c := .processing) hw h h' (fun _ => Kind.isWork_of_isProcessing) hv

theorem sameWork_edgesOut {motif : Motif} (hm : motif ∈ motifs) {p q : Nat} {v w : ElementId}
    {s : ScopeId} (hv : (matcherOf motif).admits (contraction g).target p v = true)
    (hq : (matcherOf motif).admits (contraction g).target q w = true)
    (hs : (s, w) ∈ (contraction g).target.edgesOut v) :
    (s, w) ∈ (contraction g').target.edgesOut v := by
  obtain ⟨hne, a, b, hav, hbw, hjoin⟩ := (Contraction.mem_edgesOut_whole h).1 hs
  have ha := works_of_admits hm rfl hv (Contraction.mem_members.2 hav)
  have hb := works_of_admits hm rfl hq (Contraction.mem_members.2 hbw)
  exact (Contraction.mem_edgesOut_whole h').2 ⟨hne, a, b,
    (sameWork_representative? hw h h' ha).trans hav,
    (sameWork_representative? hw h h' hb).trans hbw, (hw.joins s a b ha hb).2 hjoin⟩

theorem sameWork_vertices {motif : Motif} (hm : motif ∈ motifs) {p : Nat} {v : ElementId}
    (hadm : (matcherOf motif).admits (contraction g).target p v = true)
    (hv : v ∈ (contraction g).target.vertices) : v ∈ (contraction g').target.vertices := by
  have hself := Contraction.mem_vertices.1 hv
  have hwork := works_of_admits hm rfl hadm (Contraction.mem_members.2 hself)
  exact Contraction.mem_vertices.2 ((sameWork_representative? hw h h' hwork).trans hself)

/-- The shapes are seen alike. -/
theorem sameWork_sameSight {motif : Motif} (hm : motif ∈ motifs) :
    (matcherOf motif).SameSight (contraction g).target (contraction g').target := by
  have hadm : ∀ p v, (matcherOf motif).admits (contraction g').target p v = true ↔
      (matcherOf motif).admits (contraction g).target p v = true := fun p v =>
    ⟨sameWork_admits hw.symm h' h hm, sameWork_admits hw h h' hm⟩
  have hout : ∀ p q v w s, (matcherOf motif).admits (contraction g).target p v = true →
      (matcherOf motif).admits (contraction g).target q w = true →
      ((s, w) ∈ (contraction g').target.edgesOut v ↔
        (s, w) ∈ (contraction g).target.edgesOut v) := fun p q v w s hv hq =>
    ⟨sameWork_edgesOut hw.symm h' h hm ((hadm p v).2 hv) ((hadm q w).2 hq),
      sameWork_edgesOut hw h h' hm hv hq⟩
  refine ⟨fun p v => Bool.eq_iff_iff.2 (hadm p v), fun p v hv => ⟨?_, ?_⟩, hout, ?_, ?_⟩
  · exact sameWork_vertices hw.symm h' h hm ((hadm p v).2 hv)
  · exact sameWork_vertices hw h h' hm hv
  · intro p q v w s hv hq
    exact (Contraction.dual h' s v w).symm.trans
      ((hout p q v w s hv hq).trans (Contraction.dual h s v w))
  · intro e he p q v w s hv hq hs
    obtain ⟨-, a, b, -, -, sc, hsc, -⟩ := (Contraction.mem_edgesOut_whole h).1 hs
    obtain ⟨-, a', b', -, -, sc', hsc', -⟩ :=
      (Contraction.mem_edgesOut_whole h').1 ((hout p q v w s hv hq).2 hs)
    show (g'.scope? s).any e.test.admits = (g.scope? s).any e.test.admits
    rw [edge_test_of_motif hm he, hsc, hsc']
    rfl

end

end JobPartitioning
end Dataflow
