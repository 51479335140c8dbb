import Dataflow.Proofs.Contraction
import Dataflow.Proofs.Flow.Definition
import Dataflow.Proofs.Motif.SearchOrder
import Dataflow.Proofs.Motif.Sight
import Dataflow.Proofs.Success
import Mathlib

/-!
# Matches are embeddings

An embedding of a motif sends its vertices to distinct vertices of a target, within their
tests and with a scope of the target for every edge. The search of a matcher lists the
embeddings that send the anchor to a given vertex, each once as an assignment. So a vertex
has a match if an embedding sends the anchor to it, and the match holds what all of these
embeddings hold together, or one of them.

Results:

* `Target.sound_of_over`: what a graph, its views and their contractions have in common;
* `mem_assignments_iff`: the assignments of the search are the embeddings;
* `finds_of_validate`: the matches of a usable motif, in all of these targets.
-/
namespace Dataflow

open Dataflow.Graph

/-! ## Targets -/

/-- The edges of a target stand at both of their ends, which are vertices. -/
structure Target.Sound (t : Target) : Prop where
  dual : t.Dual
  ends : ∀ s v w, (s, w) ∈ t.edgesOut v → v ∈ t.vertices ∧ w ∈ t.vertices

/-- What of a graph a motif can be matched against. -/
inductive Target.Over (g : Graph) : Target → Prop where
  | graph : Over g g.target
  | view (a : Selection) : Over g (a.view g).target
  | contracted (a : Selection) (test : VertexTest) : Over g ((a.view g).contract test).target
  | uncontracted (a : Selection) : Over g (a.view g).uncontracted.target

variable {g : Graph} {t : Target}

theorem Graph.sound_target (h : g.Agrees) (hends : g.EndsLive) : g.target.Sound := by
  refine ⟨fun s v w => h.mem_edgesOut.trans h.mem_edgesIn.symm, fun s v w hs => ?_⟩
  obtain ⟨sc, hsc, ho, ht⟩ := h.mem_edgesOut.1 hs
  exact (hends v w ⟨s, sc, hsc, ho, ht⟩).imp mem_elements.2 mem_elements.2

theorem View.Sound.sound_target {v : View} (h : v.Sound) : v.target.Sound := by
  refine ⟨fun s a b => h.mem_edgesOut.trans h.mem_edgesIn.symm, fun s a b hs => ?_⟩
  obtain ⟨-, ha, hb, -⟩ := h.mem_edgesOut.1 hs
  exact ⟨ha, hb⟩

theorem View.Sound.sound_contract {v : View} (h : v.Sound) (test : VertexTest) :
    (v.contract test).target.Sound := by
  refine ⟨h.dual_contract test, fun s r r' hs => ?_⟩
  obtain ⟨-, a, b, -, ha, hb⟩ := h.mem_edgesOut_contract.1 hs
  exact ⟨View.name_mem_vertices ha, View.name_mem_vertices hb⟩

/-- To contract nothing is to contract what passes no test. -/
theorem View.contract_anyOf_nil (v : View) : v.contract (.anyOf []) = v.uncontracted := by
  have hnone : (v.topology.vertices.filter fun id => VertexTest.holds v.target id (.anyOf [])) = ∅ :=
    IdSet.ext_mem fun e => by simp [VertexTest.holds, VertexTest.holdsSome]
  have hforest : v.forest (.anyOf []) = Parents.singletons v.topology.vertices.toList := by
    rw [forest, hnone]
    rfl
  have hnames : (v.contract (.anyOf [])).names = Parents.singletons v.topology.vertices.toList := by
    simp only [names_contract, hforest, Parents.root_singletons]
    rfl
  exact congrArg (Contraction.mk v) hnames

theorem Target.sound_of_over (h : g.Agrees) (hends : g.EndsLive) (ht : Target.Over g t) :
    t.Sound := by
  cases ht with
  | graph => exact g.sound_target h hends
  | view a => exact (View.sound_of_endsLive h hends).sound_target
  | contracted a test => exact (View.sound_of_endsLive h hends).sound_contract test
  | uncontracted a =>
    rw [← View.contract_anyOf_nil]
    exact (View.sound_of_endsLive h hends).sound_contract _

/-! ## Embeddings -/

/-- The edge `s` of the target stands for the motif edge `e`. -/
def StandsFor (t : Target) (f : Nat → ElementId) (e : MotifEdge) (s : ScopeId) : Prop :=
  (s, f e.target) ∈ t.edgesOut (f e.origin) ∧
    ∃ sc, t.graph.scope? s = some sc ∧ e.test.admits sc = true

/-- `f` sends the vertices of the motif to distinct vertices of the target, each within its
test, and every edge of the motif has an edge that stands for it. -/
structure Embeds (m : Motif) (t : Target) (f : Nat → ElementId) : Prop where
  vertex : ∀ p < m.size, f p ∈ t.vertices
  injective : ∀ p < m.size, ∀ q < m.size, f p = f q → p = q
  passes : ∀ p (n : MotifNode), m.nodes[p]? = some n → n.test.holds t (f p) = true
  joined : ∀ e ∈ m.edges, ∃ s, StandsFor t f e s

/-- The match holds what the embeddings in `F` hold together. -/
structure Match.Collects (mt : Match) (m : Motif) (t : Target) (F : (Nat → ElementId) → Prop) :
    Prop where
  vertices : ∀ v, v ∈ mt.vertices ↔ ∃ f, F f ∧ ∃ p < m.size, f p = v
  captured : ∀ c v, v ∈ mt.captured c ↔ ∃ f, F f ∧ ∃ p, ∃ n : MotifNode, m.nodes[p]? = some n ∧
    n.capture = some c ∧ f p = v
  scopes : ∀ s, s ∈ mt.scopes ↔ ∃ f, F f ∧ ∃ e ∈ m.edges, StandsFor t f e s

theorem mem_scopesBetween_iff {f : Nat → ElementId} {e : MotifEdge} {s : ScopeId} :
    s ∈ t.scopesBetween (f e.origin) (f e.target) e.test ↔ StandsFor t f e s := by
  rw [Matcher.mem_scopesBetween, Option.any_eq_true]
  rfl

namespace Matcher

variable {m : Matcher} {f : Nat → ElementId}

theorem places_of_embeds (h : Embeds m.motif t f) : m.Places t f where
  injective := h.injective
  admits p hp := by
    rw [Matcher.admits, Option.any_eq_true]
    exact ⟨m.motif.nodes[p], List.getElem?_eq_getElem hp,
      h.passes p _ (List.getElem?_eq_getElem hp)⟩
  edges e he := by
    obtain ⟨s, hs⟩ := h.joined e he
    exact List.ne_nil_of_mem (mem_scopesBetween_iff.2 hs)

/-- The assignment that sends every motif vertex as `f` does. -/
def spread (m : Matcher) (f : Nat → ElementId) : Assignment :=
  (m.order.map fun p => (p, f p)).reverse

theorem mem_spread (h : m.Ready) {x : Nat × ElementId} :
    x ∈ m.spread f ↔ x.1 < m.motif.size ∧ f x.1 = x.2 := by
  obtain ⟨p, v⟩ := x
  simp only [spread, List.mem_reverse, List.mem_map, Prod.mk.injEq, h.mem_order]
  constructor
  · rintro ⟨p, hp, rfl, rfl⟩
    exact ⟨hp, rfl⟩
  · rintro ⟨hp, rfl⟩
    exact ⟨p, hp, rfl, rfl⟩

theorem lookup_spread (h : m.Ready) {p : Nat} (hp : p < m.motif.size) :
    (m.spread f).lookup p = some (f p) := by
  have hmem : p ∈ (m.spread f).map Prod.fst :=
    List.mem_map.2 ⟨(p, f p), (mem_spread h).2 ⟨hp, rfl⟩, rfl⟩
  obtain ⟨v, hv⟩ := exists_lookup hmem
  rw [hv, ((mem_spread h).1 (mem_of_lookup hv)).2]

/-! ## The assignments of the search -/

/-- An assignment of the search sends every motif vertex somewhere, and nothing else. -/
theorem eq_spread_of_mem_assignments (h : m.Ready) {v : ElementId} {a : Assignment}
    (ha : a ∈ m.assignments t v) : ∃ f, a = m.spread f ∧ f m.primary = v := by
  obtain ⟨rest, horder, -⟩ := h.order
  obtain ⟨hanchor, hkeys⟩ := map_fst_of_mem_assignments ha horder
  have hnodup : (a.map Prod.fst).Nodup := by
    rw [hkeys]
    exact List.nodup_reverse.2 h.order_nodup
  have hf : ∀ x ∈ a, (a.lookup x.1).getD 0 = x.2 := by
    rintro ⟨p, w⟩ hx
    obtain ⟨w', hw⟩ := exists_lookup (List.mem_map.2 ⟨(p, w), hx, rfl⟩)
    have heq := List.inj_on_of_nodup_map hnodup (mem_of_lookup hw) hx rfl
    simp only [hw, Option.getD_some]
    exact congrArg Prod.snd heq
  refine ⟨fun p => (a.lookup p).getD 0, ?_, hf (m.primary, v) hanchor⟩
  rw [spread, ← List.map_reverse, ← hkeys, List.map_map]
  refine (List.map_id a).symm.trans (List.map_congr_left fun x hx => ?_)
  exact Prod.ext rfl (hf x hx).symm

/-- The assignments around an anchor are the embeddings that send the anchor there. -/
theorem mem_assignments_iff (h : m.Ready) (ht : t.Sound) {v : ElementId} (hv : v ∈ t.vertices)
    (hadm : m.admits t m.primary v = true) {a : Assignment} : a ∈ m.assignments t v ↔
      ∃ f, (Embeds m.motif t f ∧ f m.primary = v) ∧ a = m.spread f := by
  constructor
  · intro ha
    obtain ⟨f, rfl, hf⟩ := eq_spread_of_mem_assignments h ha
    have hjoined : ∀ e ∈ m.motif.edges, ∃ s, StandsFor t f e s := fun e he => by
      obtain ⟨ho, htar⟩ := h.ends e he
      obtain ⟨s, hs⟩ := List.exists_mem_of_ne_nil _ (edgesHeld_of_mem_assignments ha e he _ _
        (lookup_spread h ho) (lookup_spread h htar))
      exact ⟨s, mem_scopesBetween_iff.1 hs⟩
    refine ⟨f, ⟨⟨fun p hp => ?_, fun p hp q hq hpq => ?_, fun p n hn => ?_, hjoined⟩, hf⟩, rfl⟩
    · by_cases hprim : p = m.primary
      · rw [hprim, hf]
        exact hv
      · obtain ⟨e, he, hend⟩ := h.exists_edge hp hprim
        obtain ⟨s, hs, -⟩ := hjoined e he
        have hends := ht.ends _ _ _ hs
        rcases hend with rfl | rfl
        · exact hends.1
        · exact hends.2
    · by_contra hne
      exact ne_of_lookup (nodup_of_mem_assignments ha) (lookup_spread h hp) (lookup_spread h hq)
        hne hpq
    · have hp : p < m.motif.size := (List.getElem?_eq_some_iff.1 hn).1
      have hadmits := admits_of_mem_assignments hadm ha (p, f p) ((mem_spread h).2 ⟨hp, rfl⟩)
      simpa [admits, hn] using hadmits
  · rintro ⟨f, ⟨hf, rfl⟩, rfl⟩
    obtain ⟨rest, horder, hrest⟩ := h.order
    exact (places_of_embeds hf).mem_assignments ht.dual h.primary_lt horder hrest

/-! ## The matches -/

theorem mem_vertices_spread (h : m.Ready) {x : ElementId} :
    x ∈ IdSet.ofList ((m.spread f).map Prod.snd) ↔ ∃ p < m.motif.size, f p = x := by
  simp only [IdSet.mem_ofList, List.mem_map, Prod.exists, mem_spread h]
  constructor
  · rintro ⟨p, _, ⟨hp, rfl⟩, rfl⟩
    exact ⟨p, hp, rfl⟩
  · rintro ⟨p, hp, rfl⟩
    exact ⟨p, f p, ⟨hp, rfl⟩, rfl⟩

theorem mem_capturedBy_spread (h : m.Ready) {c : Capture} {x : ElementId} :
    x ∈ m.capturedBy c (m.spread f) ↔ ∃ p, ∃ n : MotifNode, m.motif.nodes[p]? = some n ∧
      n.capture = some c ∧ f p = x := by
  simp only [capturedBy, IdSet.mem_ofList, List.mem_filterMap, Prod.exists, mem_spread h]
  constructor
  · rintro ⟨p, _, ⟨hp, rfl⟩, hx⟩
    split at hx
    · next hcap =>
      obtain ⟨n, hn, hnc⟩ := Option.bind_eq_some_iff.1 hcap
      exact ⟨p, n, hn, hnc, Option.some.inj hx⟩
    · cases hx
  · rintro ⟨p, n, hn, hcap, rfl⟩
    refine ⟨p, f p, ⟨(List.getElem?_eq_some_iff.1 hn).1, rfl⟩, if_pos ?_⟩
    rw [hn]
    exact hcap

theorem mem_scopesOf_spread (h : m.Ready) {s : ScopeId} :
    s ∈ m.scopesOf t (m.spread f) ↔ ∃ e ∈ m.motif.edges, StandsFor t f e s := by
  rw [mem_scopesOf]
  refine exists_congr fun e => and_congr_right fun he => ?_
  obtain ⟨ho, htar⟩ := h.ends e he
  simp only [lookup_spread h ho, lookup_spread h htar, Option.some.injEq, exists_and_left,
    exists_eq_left', mem_scopesBetween_iff]

/-- What is merged is what the merged embeddings hold. -/
theorem collects_merge (h : m.Ready) (v : ElementId) {as : List Assignment}
    {F : (Nat → ElementId) → Prop} (hF : ∀ a, a ∈ as ↔ ∃ f, F f ∧ a = m.spread f) :
    (m.merge t v as).Collects m.motif t F := by
  have hunion : ∀ (read : Assignment → IdSet) (x : Nat) (Q : (Nat → ElementId) → Prop),
      (∀ f, x ∈ read (m.spread f) ↔ Q f) → (x ∈ IdSet.unionOf as read ↔ ∃ f, F f ∧ Q f) := by
    intro read x Q hQ
    rw [IdSet.mem_unionOf]
    constructor
    · rintro ⟨a, ha, hx⟩
      obtain ⟨f, hf, rfl⟩ := (hF a).1 ha
      exact ⟨f, hf, (hQ f).1 hx⟩
    · rintro ⟨f, hf, hx⟩
      exact ⟨_, (hF _).2 ⟨f, hf, rfl⟩, (hQ f).2 hx⟩
  refine ⟨fun x => hunion _ x _ fun f => mem_vertices_spread h, fun c x => ?_,
    fun s => hunion _ s _ fun f => mem_scopesOf_spread h⟩
  cases c with
  | primary => exact hunion _ x _ fun f => mem_capturedBy_spread h
  | secondary => exact hunion _ x _ fun f => mem_capturedBy_spread h
  | included => exact hunion _ x _ fun f => mem_capturedBy_spread h

/-- A match is anchored where it was looked for, and merges all assignments or one. -/
theorem matchAt?_eq_some_iff {firstOnly : Bool} {v : ElementId} {mt : Match} :
    m.matchAt? t firstOnly v = some mt ↔ ∃ a rest, m.assignments t v = a :: rest ∧
      mt = m.merge t v (if firstOnly then [a] else a :: rest) := by
  unfold matchAt?
  cases m.assignments t v with
  | nil => simp
  | cons a rest =>
    simp only [Option.some.injEq, List.cons.injEq]
    constructor
    · rintro rfl
      exact ⟨a, rest, ⟨rfl, rfl⟩, rfl⟩
    · rintro ⟨_, _, ⟨rfl, rfl⟩, rfl⟩
      rfl

theorem mem_anchors {exclusions : IdSet} {v : ElementId} : v ∈ m.anchors t exclusions ↔
    v ∈ t.vertices ∧ (∀ e ∈ t.members v, e ∉ exclusions) ∧
      m.admits t m.primary v = true := by
  rw [anchors, List.mem_filter, Bool.and_eq_true, IdSet.disjoint_iff]
  rfl

/-- A match of the list belongs to one of the anchors. -/
theorem mem_allMatches {exclusions : IdSet} {firstOnly : Bool} {mt : Match} :
    mt ∈ m.allMatches t exclusions firstOnly ↔ mt.anchor ∈ m.anchors t exclusions ∧
      m.matchAt? t firstOnly mt.anchor = some mt := by
  rw [allMatches, List.mem_filterMap]
  constructor
  · rintro ⟨v, hv, hmt⟩
    obtain ⟨a, rest, -, rfl⟩ := matchAt?_eq_some_iff.1 hmt
    exact ⟨hv, hmt⟩
  · rintro ⟨hv, hmt⟩
    exact ⟨_, hv, hmt⟩

/-- The matches of the list stand in the order of their anchors. -/
theorem ascending_allMatches (m : Matcher) (t : Target) (exclusions : IdSet) (firstOnly : Bool) :
    ((m.allMatches t exclusions firstOnly).map Match.anchor).Pairwise (· < ·) := by
  refine List.pairwise_map.2 (List.Pairwise.filterMap _ ?_ (t.vertices.ascending.filter _))
  intro v w hvw mt hmt mt' hmt'
  obtain ⟨a, rest, -, rfl⟩ := matchAt?_eq_some_iff.1 hmt
  obtain ⟨a', rest', -, rfl⟩ := matchAt?_eq_some_iff.1 hmt'
  exact hvw

/-- What the list of matches has to be: one match, in ascending order, for each vertex that
holds nothing excluded and to which an embedding sends the anchor. -/
structure Finds (m : Matcher) (t : Target) (exclusions : IdSet) (firstOnly : Bool) : Prop where
  ascending : ((m.allMatches t exclusions firstOnly).map Match.anchor).Pairwise (· < ·)
  anchored : ∀ v, v ∈ (m.allMatches t exclusions firstOnly).map Match.anchor ↔
    v ∈ t.vertices ∧ (∀ e ∈ t.members v, e ∉ exclusions) ∧
      ∃ f, Embeds m.motif t f ∧ f m.primary = v
  /-- A match holds what these embeddings hold together. -/
  all : firstOnly = false → ∀ mt ∈ m.allMatches t exclusions firstOnly,
    mt.Collects m.motif t fun f => Embeds m.motif t f ∧ f m.primary = mt.anchor
  /-- On request it holds what one of them holds. -/
  one : firstOnly = true → ∀ mt ∈ m.allMatches t exclusions firstOnly,
    ∃ f, Embeds m.motif t f ∧ f m.primary = mt.anchor ∧ mt.Collects m.motif t fun f' => f' = f
  /-- The first match is the first of the list, if there is one. -/
  first : m.firstMatch? t exclusions firstOnly = (m.allMatches t exclusions firstOnly).head?

theorem Ready.finds (h : m.Ready) (ht : t.Sound) (exclusions : IdSet) (firstOnly : Bool) :
    m.Finds t exclusions firstOnly := by
  -- the anchor of an embedding passes the primary test, so it is one of the anchors
  have hadmits : ∀ f, Embeds m.motif t f → m.admits t m.primary (f m.primary) = true :=
    fun f hf => (places_of_embeds hf).admits _ h.primary_lt
  constructor
  case ascending =>
    exact ascending_allMatches m t exclusions firstOnly
  case anchored =>
    intro v
    rw [List.mem_map]
    constructor
    · rintro ⟨mt, hmt, rfl⟩
      obtain ⟨hv, hat⟩ := mem_allMatches.1 hmt
      obtain ⟨hvert, hfree, hadm⟩ := mem_anchors.1 hv
      obtain ⟨a, rest, ha, -⟩ := matchAt?_eq_some_iff.1 hat
      obtain ⟨f, hf, -⟩ := (mem_assignments_iff h ht hvert hadm).1 (ha ▸ List.mem_cons_self)
      exact ⟨hvert, hfree, f, hf⟩
    · rintro ⟨hvert, hfree, f, hf, rfl⟩
      have hadm := hadmits f hf
      have ha := (mem_assignments_iff h ht hvert hadm).2 ⟨f, ⟨hf, rfl⟩, rfl⟩
      obtain ⟨mt, hmt⟩ := exists_matchAt? ha firstOnly
      obtain ⟨a, rest, -, rfl⟩ := matchAt?_eq_some_iff.1 hmt
      exact ⟨m.merge t (f m.primary) _,
        mem_allMatches.2 ⟨mem_anchors.2 ⟨hvert, hfree, hadm⟩, hmt⟩, rfl⟩
  case all =>
    rintro rfl mt hmt
    obtain ⟨hv, hat⟩ := mem_allMatches.1 hmt
    obtain ⟨hvert, -, hadm⟩ := mem_anchors.1 hv
    obtain ⟨a, rest, ha, heq⟩ := matchAt?_eq_some_iff.1 hat
    rw [if_neg Bool.false_ne_true, ← ha] at heq
    rw [heq]
    exact collects_merge h _ fun a => mem_assignments_iff h ht hvert hadm
  case one =>
    rintro rfl mt hmt
    obtain ⟨hv, hat⟩ := mem_allMatches.1 hmt
    obtain ⟨hvert, -, hadm⟩ := mem_anchors.1 hv
    obtain ⟨a, rest, ha, heq⟩ := matchAt?_eq_some_iff.1 hat
    obtain ⟨f, hf, rfl⟩ := (mem_assignments_iff h ht hvert hadm).1 (ha ▸ List.mem_cons_self)
    refine ⟨f, hf.1, hf.2, ?_⟩
    rw [if_pos rfl] at heq
    rw [heq]
    exact collects_merge h _ fun a => by simp
  case first =>
    rw [firstMatch?, allMatches, List.head?_filterMap]

/-- **The matches of a usable motif are its embeddings**, in a graph, in every view of it and in
every contraction of a view. -/
theorem finds_of_validate {motif : Motif} {p : Nat} (hm : motif.validate = .ok p) (hg : g.Agrees)
    (hends : g.EndsLive) (ht : Target.Over g t) (exclusions : IdSet) (firstOnly : Bool) :
    ∃ m, Matcher.ofMotif motif = .ok m ∧ m.motif = motif ∧ m.primary = p ∧
      m.Finds t exclusions firstOnly := by
  have hof : Matcher.ofMotif motif = .ok ⟨motif, p, motif.searchOrder p⟩ := by
    rw [Matcher.ofMotif, hm]
    rfl
  have hready := (ready_of_ofMotif hof).2
  exact ⟨_, hof, rfl, rfl, hready.finds (Target.sound_of_over hg hends ht) exclusions firstOnly⟩

end Matcher

/-- A merge reads one operation twice. -/
def doubled : Definition where
  name := "doubled"
  stages :=
    [⟨"in", [], .source ⟨"hdfs", "in", none, true⟩⟩,
      ⟨"parse", ["in"], .each ⟨"parse", none, none, ["key"], .results⟩⟩,
      ⟨"both", ["parse", "parse"], .merge⟩,
      ⟨"out", ["both"], .sink ⟨"hdfs", "out", none, true⟩⟩]

/-- An operation that feeds a merge. -/
def feedsMerge : Motif where
  nodes := [⟨.kind .each, some .primary⟩, ⟨.kind .merge, some .secondary⟩]
  edges := [⟨0, 1, .any⟩]

/-- The two scopes between them are both in the match. -/
theorem finds_doubled : ∃ g t m, doubled.toGraph = .ok g ∧
    t = ((Selection.whole g).view g).uncontracted.target ∧ feedsMerge.validate = .ok 0 ∧
      g.Agrees ∧ g.EndsLive ∧ Target.Over g t ∧ Matcher.ofMotif feedsMerge = .ok m ∧
        m.Finds t (.singleton 2) false ∧
          (m.allMatches t (.singleton 2) false).map (fun mt => (mt.anchor, mt.scopes.toList)) =
            [(3, [2, 3])] := by
  have hany : (doubled.toGraph.toOption.any fun g => (Matcher.ofMotif feedsMerge).toOption.any
      fun m => decide ((m.allMatches ((Selection.whole g).view g).uncontracted.target
        (.singleton 2) false).map (fun mt => (mt.anchor, mt.scopes.toList)) =
          [(3, [2, 3])])) = true := by cbv
  obtain ⟨g, hd, hany⟩ := exists_ok_of_any hany
  obtain ⟨m, hm, hmatches⟩ := exists_ok_of_any hany
  have hvalid : feedsMerge.validate = .ok 0 := by cbv
  have hlayout := Definition.toGraph_layout hd
  obtain ⟨m', hm', -, -, hfinds⟩ := Matcher.finds_of_validate hvalid hlayout.agrees hlayout.ends
    (.uncontracted (Selection.whole g)) (.singleton 2) false
  cases hm.symm.trans hm'
  exact ⟨g, _, m, hd, rfl, hvalid, hlayout.agrees, hlayout.ends, .uncontracted _, hm, hfinds,
    of_decide_eq_true hmatches⟩

end Dataflow
