import Dataflow.Contraction
import Dataflow.Proofs.Motif.Matcher
import Dataflow.Proofs.UnionFind
import Dataflow.Proofs.View

/-!
# Groups of a contracted graph

Contracting a view by a vertex test merges what hangs together through the elements
that pass the test. A link is one step between two of them, in either direction along a
scope; the group of an element that passes is all that such steps reach from it, and
every other element is alone.

Results, for every sound view and again for the whole graph:

* `representative?_eq_iff`: two elements have one name if a chain of links joins them;
* `mem_members`, `mem_expand`: the elements behind vertices of the contracted graph;
* `holds_kind`: what a kind test asks of such a vertex;
* `mem_edgesOut`, `mem_edgesIn`: its edges, in terms of scopes.
-/
namespace Dataflow

open Dataflow.Graph Relation

variable {g : Graph}

namespace Graph

/-- A scope joins two elements of `p`, in either direction. -/
def Linked (g : Graph) (p : ElementId → Prop) (a b : ElementId) : Prop :=
  p a ∧ p b ∧ (g.Leads a b ∨ g.Leads b a)

theorem linked_symm {p : ElementId → Prop} {a b : ElementId} (h : g.Linked p a b) :
    g.Linked p b a :=
  ⟨h.2.1, h.1, h.2.2.symm⟩

theorem reflTransGen_linked_symm {p : ElementId → Prop} {a b : ElementId}
    (h : ReflTransGen (g.Linked p) a b) : ReflTransGen (g.Linked p) b a := by
  induction h with
  | refl => exact .refl
  | tail _ hbc ih => exact .head (linked_symm hbc) ih

/-- A chain of links stays in `p`, where it starts there. -/
theorem of_reflTransGen_linked {p : ElementId → Prop} {a b : ElementId} (ha : p a)
    (h : ReflTransGen (g.Linked p) a b) : p b := by
  induction h with
  | refl => exact ha
  | tail _ hbc _ => exact hbc.2.1

theorem eq_of_reflTransGen_linked {p : ElementId → Prop} {a b : ElementId} (ha : ¬ p a)
    (h : ReflTransGen (g.Linked p) a b) : b = a := by
  induction h using ReflTransGen.head_induction_on with
  | refl => rfl
  | head hab _ _ => exact absurd hab.1 ha

end Graph

namespace View

theorem mem_edgesOut_whole (h : g.Agrees) {a e : ElementId} {s : ScopeId} :
    (s, e) ∈ (whole g).edgesOut a ↔ g.contains a = true ∧ g.contains e = true ∧
      ∃ sc, g.scope? s = some sc ∧ sc.origin = a ∧ sc.target = e :=
  (sound_whole h).mem_edgesOut.trans joins_whole

/-- Asked of one element, a kind test looks at its kind. -/
theorem holds_kind_whole {c : KindClass} {e : ElementId} (he : g.contains e = true) :
    (VertexTest.kind c).holds (whole g).target e = g.hasKind c.admits e := by
  have hs : (whole g).shows e = true :=
    Bool.and_eq_true_iff.2 ⟨decide_eq_true (mem_elements.2 he), he⟩
  have hm : (whole g).target.members e = .singleton e := if_pos hs
  unfold VertexTest.holds
  rw [hm]
  show (true && (g.hasKind c.admits e && true)) = _
  simp

end View

namespace Contraction

variable {c : Contraction}

theorem mem_lift {r r' : ElementId} {s : ScopeId} {edges : List (ScopeId × ElementId)} :
    (s, r') ∈ c.lift r edges ↔
      ∃ b, (s, b) ∈ edges ∧ c.representative? b = some r' ∧ r' ≠ r := by
  simp only [lift, List.mem_filterMap]
  constructor
  · rintro ⟨⟨s', b⟩, hb, h⟩
    split at h
    · next r'' hr =>
      split at h
      · cases h
      · next hne => cases h; exact ⟨b, hb, hr, hne⟩
    · cases h
  · rintro ⟨b, hb, hr, hne⟩
    exact ⟨(s, b), hb, by simp only [hr, if_neg hne]⟩

theorem mem_lift_members {r r' : ElementId} {s : ScopeId}
    {edges : ElementId → List (ScopeId × ElementId)} :
    (s, r') ∈ c.lift r ((c.members r).toList.flatMap edges) ↔
      ∃ a ∈ c.members r, ∃ b, (s, b) ∈ edges a ∧ c.representative? b = some r' ∧ r' ≠ r := by
  rw [mem_lift]
  constructor
  · rintro ⟨b, hb, hr⟩
    obtain ⟨a, ha, hb⟩ := List.mem_flatMap.1 hb
    exact ⟨a, ha, b, hb, hr⟩
  · rintro ⟨a, ha, b, hb, hr⟩
    exact ⟨b, List.mem_flatMap.2 ⟨a, ha, hb⟩, hr⟩

/-- An edge of the contracted graph is a scope that leaves a member of the group. -/
theorem mem_edgesOut {r r' : ElementId} {s : ScopeId} : (s, r') ∈ c.edgesOut r ↔
    ∃ a ∈ c.members r, ∃ b, (s, b) ∈ c.view.edgesOut a ∧ c.representative? b = some r' ∧
      r' ≠ r :=
  mem_lift_members

theorem mem_edgesIn {r r' : ElementId} {s : ScopeId} : (s, r') ∈ c.edgesIn r ↔
    ∃ a ∈ c.members r, ∃ b, (s, b) ∈ c.view.edgesIn a ∧ c.representative? b = some r' ∧
      r' ≠ r :=
  mem_lift_members

/-! ## A view, contracted by a test -/

/-- The vertices of a contraction are the names that it gives. -/
theorem mem_topology_vertices {r : ElementId} :
    r ∈ c.topology.vertices ↔ ∃ e, (e, r) ∈ c.names := by
  simp [topology]

end Contraction

namespace View

variable {v : View} {test : VertexTest}

/-- The elements of the view that pass the test. -/
def Passes (v : View) (test : VertexTest) (e : ElementId) : Prop :=
  e ∈ v.topology.vertices ∧ test.holds v.target e = true

theorem mem_links {candidates : IdSet} {a b : ElementId} : (a, b) ∈ v.links candidates ↔
    a ∈ candidates ∧ b ∈ candidates ∧ ∃ s, (s, b) ∈ v.edgesOut a := by
  simp only [links, List.mem_flatMap, List.mem_filterMap]
  constructor
  · rintro ⟨a', ha, ⟨s, b'⟩, hs, h⟩
    split at h
    · next hb => cases h; exact ⟨ha, hb, s, hs⟩
    · cases h
  · rintro ⟨ha, hb, s, hs⟩
    exact ⟨a, ha, (s, b), hs, if_pos hb⟩

theorem paired_links (v : View) (candidates : IdSet) :
    Parents.Paired (v.links candidates) = v.Beside (· ∈ candidates) := by
  funext a b
  simp only [Parents.Paired, mem_links, Beside, Touches, exists_or]
  refine propext ⟨fun h => ?_, fun h => ?_⟩
  · rcases h with h | h
    · exact ⟨h.1, h.2.1, .inl h.2.2⟩
    · exact ⟨h.2.1, h.1, .inr h.2.2⟩
  · exact h.2.2.imp (fun hs => ⟨h.1, h.2.1, hs⟩) fun hs => ⟨h.2.1, h.1, hs⟩

theorem lookup_map_self {l : List Nat} {f : Nat → Nat} {a : Nat} :
    (l.map fun id => (id, f id)).lookup a = if a ∈ l then some (f a) else none := by
  induction l with
  | nil => rfl
  | cons b rest ih =>
    rw [List.map_cons, List.lookup_cons]
    by_cases hab : a = b
    · subst hab; simp
    · simp [hab, ih, beq_eq_false_iff_ne.2 hab]

/-- The forest that the unions along the links of the view leave. -/
def forest (v : View) (test : VertexTest) : Parents :=
  (Parents.singletons v.topology.vertices.toList).unionAll
    (v.links (v.topology.vertices.filter fun id => test.holds v.target id))

/-- The forest has merged what hangs together through elements that pass. -/
theorem exists_merges (v : View) (test : VertexTest) : ∃ pairs,
    (v.forest test).Merges pairs ∧ Parents.Paired pairs = v.Beside (v.Passes test) := by
  let candidates := v.topology.vertices.filter fun id => test.holds v.target id
  have hpass : (· ∈ candidates) = v.Passes test := funext fun e => propext IdSet.mem_filter
  exact ⟨_, Parents.merges_unionAll _ _, by rw [paired_links, hpass]⟩

/-- Two elements have one root if a chain joins them through elements that pass. -/
theorem root_forest_eq_iff {a b : ElementId} :
    (v.forest test).root a = (v.forest test).root b ↔
      ReflTransGen (v.Beside (v.Passes test)) a b := by
  obtain ⟨pairs, hmerges, hpaired⟩ := v.exists_merges test
  rw [hmerges.root_eq_iff, hpaired]

theorem chain_root_forest (a : ElementId) :
    ReflTransGen (v.Beside (v.Passes test)) a ((v.forest test).root a) := by
  obtain ⟨pairs, hmerges, hpaired⟩ := v.exists_merges test
  rw [← hpaired]
  exact hmerges.chained a

/-- The name of an element is the root of its group. -/
theorem names_contract : (v.contract test).names =
    v.topology.vertices.toList.map fun e => (e, (v.forest test).root e) := by
  obtain ⟨pairs, hmerges, -⟩ := v.exists_merges test
  exact hmerges.descends.roots_eq _

theorem representative?_contract (e : ElementId) : (v.contract test).representative? e =
    if e ∈ v.topology.vertices then some ((v.forest test).root e) else none := by
  rw [Contraction.representative?, names_contract, lookup_map_self]
  rfl

theorem mem_names {e r : ElementId} :
    (e, r) ∈ (v.contract test).names ↔ (v.contract test).representative? e = some r := by
  rw [names_contract, representative?_contract]
  simp only [List.mem_map, Prod.mk.injEq]
  constructor
  · rintro ⟨e', he, rfl, rfl⟩
    exact if_pos he
  · intro h
    split at h
    · next he => cases h; exact ⟨e, he, rfl, rfl⟩
    · cases h

/-- A name belongs to the group that it names. -/
theorem representative?_spec {a r : ElementId}
    (hr : (v.contract test).representative? a = some r) :
    a ∈ v.topology.vertices ∧ ReflTransGen (v.Beside (v.Passes test)) a r := by
  rw [representative?_contract] at hr
  split at hr
  · next ha => cases hr; exact ⟨ha, chain_root_forest a⟩
  · cases hr

/-- No element of a group is below its name. -/
theorem representative?_le {a r : ElementId}
    (hr : (v.contract test).representative? a = some r) : r ≤ a := by
  obtain ⟨pairs, hmerges, -⟩ := v.exists_merges test
  rw [representative?_contract] at hr
  split at hr
  · cases hr; exact hmerges.descends.root_le a
  · cases hr

theorem exists_representative (test : VertexTest) {a : ElementId}
    (ha : a ∈ v.topology.vertices) : ∃ r, (v.contract test).representative? a = some r :=
  ⟨_, (representative?_contract a).trans (if_pos ha)⟩

theorem mem_of_chain {a b : ElementId} (ha : a ∈ v.topology.vertices)
    (h : ReflTransGen (v.Beside (v.Passes test)) a b) : b ∈ v.topology.vertices := by
  induction h with
  | refl => exact ha
  | tail _ hbc _ => exact hbc.2.1.1

/-- Two elements have one name if a chain joins them, in any view. -/
theorem representative?_eq_iff_beside {a b r : ElementId}
    (hr : (v.contract test).representative? a = some r) :
    (v.contract test).representative? b = some r ↔
      ReflTransGen (v.Beside (v.Passes test)) a b := by
  have ha := (representative?_spec hr).1
  rw [representative?_contract, if_pos ha, Option.some_inj] at hr
  rw [representative?_contract, ← hr, ← root_forest_eq_iff]
  constructor
  · intro hb
    split at hb
    · exact (Option.some.inj hb).symm
    · cases hb
  · intro hab
    rw [if_pos (mem_of_chain ha (root_forest_eq_iff.1 hab)), hab]

/-- A name names itself, so it is a vertex. -/
theorem representative?_self {a r : ElementId}
    (hr : (v.contract test).representative? a = some r) :
    (v.contract test).representative? r = some r :=
  (representative?_eq_iff_beside hr).2 (representative?_spec hr).2

theorem Sound.representative?_spec (h : v.Sound) {a r : ElementId}
    (hr : (v.contract test).representative? a = some r) :
    a ∈ v.topology.vertices ∧ ReflTransGen (v.Linked (v.Passes test)) a r := by
  rw [← h.beside_eq]
  exact View.representative?_spec hr

/-- Two elements have one name if a chain of links joins them. -/
theorem Sound.representative?_eq_iff (h : v.Sound) {a b r : ElementId}
    (hr : (v.contract test).representative? a = some r) :
    (v.contract test).representative? b = some r ↔
      ReflTransGen (v.Linked (v.Passes test)) a b := by
  rw [← h.beside_eq]
  exact representative?_eq_iff_beside hr

end View

namespace Contraction

variable {v : View} {test : VertexTest}

/-- The vertices of the contracted view are the elements that name their group. -/
theorem mem_vertices {r : ElementId} :
    r ∈ (v.contract test).topology.vertices ↔ (v.contract test).representative? r = some r := by
  rw [mem_topology_vertices]
  exact ⟨fun ⟨_, he⟩ => View.representative?_self (View.mem_names.1 he),
    fun hr => ⟨r, View.mem_names.2 hr⟩⟩

/-- Behind a vertex stand the elements that it names. -/
theorem mem_members {r e : ElementId} :
    e ∈ (v.contract test).members r ↔ (v.contract test).representative? e = some r := by
  rw [← View.mem_names, members, IdSet.mem_ofList, List.mem_filterMap]
  constructor
  · rintro ⟨⟨e', r'⟩, he, h⟩
    dsimp only at h
    split at h
    · next hr => cases h; exact hr ▸ he
    · cases h
  · intro he
    exact ⟨(e, r), he, if_pos rfl⟩

theorem mem_expand {vertices : IdSet} {e : ElementId} :
    e ∈ (v.contract test).expand vertices ↔
      ∃ r ∈ vertices, (v.contract test).representative? e = some r := by
  simp only [expand, IdSet.mem_unionOf, mem_members]
  rfl

/-- Asked of a vertex, a kind test looks at the kinds of everything behind it. -/
theorem holds_kind {c : KindClass} {r : ElementId} :
    (VertexTest.kind c).holds (v.contract test).target r = true ↔
      (∃ e, (v.contract test).representative? e = some r) ∧
        ∀ e, (v.contract test).representative? e = some r →
          v.graph.hasKind c.admits e = true := by
  unfold VertexTest.holds
  show (!((v.contract test).members r).isEmpty &&
    ((v.contract test).members r).toList.all fun m => v.graph.hasKind c.admits m) = true ↔ _
  rw [Bool.and_eq_true, List.all_eq_true, Bool.not_eq_true', ← Bool.not_eq_true, IdSet.isEmpty_iff]
  refine and_congr ⟨fun hne => ?_, ?_⟩
    (forall_congr' fun e => imp_congr_left (mem_members (r := r) (e := e)))
  · by_cases hex : ∃ e, (v.contract test).representative? e = some r
    · exact hex
    · refine absurd (IdSet.ext_mem fun e => ?_) hne
      rw [mem_members]
      exact ⟨fun he => absurd ⟨e, he⟩ hex, fun he => absurd he IdSet.not_mem_empty⟩
  · rintro ⟨e, he⟩ hempty
    rw [← mem_members, hempty] at he
    exact IdSet.not_mem_empty he

end Contraction

namespace View

variable {v : View} {test : VertexTest}

theorem name_mem_vertices {a r : ElementId}
    (hr : (v.contract test).representative? a = some r) :
    r ∈ (v.contract test).topology.vertices :=
  Contraction.mem_vertices.2 (representative?_self hr)

/-- Two vertices are joined by a scope of the view between elements behind them. -/
theorem Sound.mem_edgesOut_contract (h : v.Sound) {r r' : ElementId} {s : ScopeId} :
    (s, r') ∈ (v.contract test).edgesOut r ↔ r' ≠ r ∧ ∃ a b, v.Joins s a b ∧
      (v.contract test).representative? a = some r ∧
        (v.contract test).representative? b = some r' := by
  rw [Contraction.mem_edgesOut]
  constructor
  · rintro ⟨a, ha, b, hb, hr', hne⟩
    exact ⟨hne, a, b, h.mem_edgesOut.1 hb, Contraction.mem_members.1 ha, hr'⟩
  · rintro ⟨hne, a, b, hs, hr, hr'⟩
    exact ⟨a, Contraction.mem_members.2 hr, b, h.mem_edgesOut.2 hs, hr', hne⟩

theorem Sound.mem_edgesIn_contract (h : v.Sound) {r r' : ElementId} {s : ScopeId} :
    (s, r') ∈ (v.contract test).edgesIn r ↔ r' ≠ r ∧ ∃ a b, v.Joins s b a ∧
      (v.contract test).representative? a = some r ∧
        (v.contract test).representative? b = some r' := by
  rw [Contraction.mem_edgesIn]
  constructor
  · rintro ⟨a, ha, b, hb, hr', hne⟩
    exact ⟨hne, a, b, h.mem_edgesIn.1 hb, Contraction.mem_members.1 ha, hr'⟩
  · rintro ⟨hne, a, b, hs, hr, hr'⟩
    exact ⟨a, Contraction.mem_members.2 hr, b, h.mem_edgesIn.2 hs, hr', hne⟩

/-- The two lists of edges of the contracted view agree. -/
theorem Sound.dual_contract (h : v.Sound) (test : VertexTest) :
    (v.contract test).target.Dual := by
  intro s r r'
  refine h.mem_edgesOut_contract.trans (Iff.trans ?_ h.mem_edgesIn_contract.symm)
  refine and_congr ne_comm ⟨?_, ?_⟩
  · rintro ⟨a, b, hs, ha, hb⟩
    exact ⟨b, a, hs, hb, ha⟩
  · rintro ⟨b, a, hs, hb, ha⟩
    exact ⟨a, b, hs, ha, hb⟩

end View

/-! ## The whole graph, contracted by a test -/

namespace Contraction

section Whole

variable {test : VertexTest}

/-- The live elements that pass the test. -/
def Candidate (g : Graph) (test : VertexTest) (e : ElementId) : Prop :=
  g.contains e = true ∧ test.holds (View.whole g).target e = true

theorem linked_whole (g : Graph) (test : VertexTest) :
    (View.whole g).Linked ((View.whole g).Passes test) = g.Linked (Candidate g test) := by
  have hpass : (View.whole g).Passes test = Candidate g test :=
    funext fun e => propext (and_congr_left' View.mem_vertices_whole)
  funext a b
  rw [hpass]
  refine propext (and_congr_right fun ha => and_congr_right fun hb => ?_)
  simp only [View.joins_whole, ha.1, hb.1, true_and, exists_or]
  rfl

/-- A name belongs to the group that it names. -/
theorem representative?_spec (h : g.Agrees) {a r : ElementId}
    (hr : ((View.whole g).contract test).representative? a = some r) :
    g.contains a = true ∧ ReflTransGen (g.Linked (Candidate g test)) a r := by
  have hspec := (View.sound_whole h).representative?_spec hr
  rw [linked_whole] at hspec
  exact hspec.imp_left View.mem_vertices_whole.1

theorem exists_representative (test : VertexTest) {a : ElementId}
    (ha : g.contains a = true) :
    ∃ r, ((View.whole g).contract test).representative? a = some r :=
  View.exists_representative test (View.mem_vertices_whole.2 ha)

/-- Two elements have one name if a chain of links joins them. -/
theorem representative?_eq_iff (h : g.Agrees) {a b r : ElementId}
    (hr : ((View.whole g).contract test).representative? a = some r) :
    ((View.whole g).contract test).representative? b = some r ↔
      ReflTransGen (g.Linked (Candidate g test)) a b := by
  rw [(View.sound_whole h).representative?_eq_iff hr, linked_whole]

/-- Asked of a vertex, a kind test looks at the kinds of everything behind it. -/
theorem holds_kind_whole {c : KindClass} {v : ElementId} :
    (VertexTest.kind c).holds ((View.whole g).contract test).target v = true ↔
      (∃ e, ((View.whole g).contract test).representative? e = some v) ∧
        ∀ e, ((View.whole g).contract test).representative? e = some v →
          g.hasKind c.admits e = true :=
  holds_kind

/-- Two vertices are joined by a scope between elements behind them. -/
theorem mem_edgesOut_whole (h : g.Agrees) {r r' : ElementId} {s : ScopeId} :
    (s, r') ∈ ((View.whole g).contract test).edgesOut r ↔ r' ≠ r ∧
      ∃ a b, ((View.whole g).contract test).representative? a = some r ∧
        ((View.whole g).contract test).representative? b = some r' ∧
        ∃ sc, g.scope? s = some sc ∧ sc.origin = a ∧ sc.target = b := by
  rw [(View.sound_whole h).mem_edgesOut_contract]
  refine and_congr_right fun _ => ⟨?_, ?_⟩
  · rintro ⟨a, b, hs, ha, hb⟩
    exact ⟨a, b, ha, hb, (View.joins_whole.1 hs).2.2⟩
  · rintro ⟨a, b, ha, hb, hsc⟩
    exact ⟨a, b, View.joins_whole.2
      ⟨(representative?_spec h ha).1, (representative?_spec h hb).1, hsc⟩, ha, hb⟩

theorem mem_edgesIn_whole (h : g.Agrees) {r r' : ElementId} {s : ScopeId} :
    (s, r') ∈ ((View.whole g).contract test).edgesIn r ↔ r' ≠ r ∧
      ∃ a b, ((View.whole g).contract test).representative? a = some r ∧
        ((View.whole g).contract test).representative? b = some r' ∧
        ∃ sc, g.scope? s = some sc ∧ sc.origin = b ∧ sc.target = a := by
  rw [(View.sound_whole h).mem_edgesIn_contract]
  refine and_congr_right fun _ => ⟨?_, ?_⟩
  · rintro ⟨a, b, hs, ha, hb⟩
    exact ⟨a, b, ha, hb, (View.joins_whole.1 hs).2.2⟩
  · rintro ⟨a, b, ha, hb, hsc⟩
    exact ⟨a, b, View.joins_whole.2
      ⟨(representative?_spec h hb).1, (representative?_spec h ha).1, hsc⟩, ha, hb⟩

/-- The two lists of edges of the contracted graph agree. -/
theorem dual (h : g.Agrees) : ((View.whole g).contract test).target.Dual :=
  (View.sound_whole h).dual_contract test

/-- A scope between two elements joins the vertices that they stand behind. -/
theorem scopesBetween_ne_nil (h : g.Agrees) {a b u w : ElementId} (hne : u ≠ w)
    (ha : ((View.whole g).contract test).representative? a = some u)
    (hb : ((View.whole g).contract test).representative? b = some w) (hab : g.Leads a b) :
    ((View.whole g).contract test).target.scopesBetween u w .any ≠ [] := by
  obtain ⟨s, sc, hsc, ho, ht⟩ := hab
  have hs : s ∈ ((View.whole g).contract test).target.scopesBetween u w .any := by
    refine Matcher.mem_scopesBetween.2
      ⟨(mem_edgesOut_whole h).2 ⟨hne.symm, a, b, ha, hb, sc, hsc, ho, ht⟩, ?_⟩
    show (g.scope? s).any ScopeTest.any.admits = true
    rw [hsc]
    rfl
  exact List.ne_nil_of_mem hs

end Whole

end Contraction
end Dataflow
