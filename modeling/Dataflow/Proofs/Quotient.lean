import Dataflow.Proofs.Contraction
import Dataflow.Proofs.Flow.Definition
import Dataflow.Proofs.Success
import Mathlib

/-!
# A contracted view is a quotient

The groups of a contracted view partition its elements, the edges between groups are the
scopes that cross from one into another, and a set of groups stands for all that was merged
into it. `IsQuotient` lists these facts; the groups themselves are described by chains of
scopes through elements that pass the test, whatever the order in which they are found.

Results:

* `isQuotient_contract`: contracting a view of live elements yields its quotient.
-/
namespace Dataflow

open Dataflow.Graph Relation

namespace Contraction

/-- What it means that `c` merges the adjacent elements of `v` that pass the test, and
nothing else. -/
structure IsQuotient (v : View) (test : VertexTest) (c : Contraction) : Prop where
  /-- The elements of the view have a name, and no others have. -/
  named : ∀ e, (∃ r, c.representative? e = some r) ↔ e ∈ v.topology.vertices
  /-- Two of them share it if a chain of scopes joins them through elements that pass. -/
  joined : ∀ a ∈ v.topology.vertices, ∀ b ∈ v.topology.vertices,
    (c.representative? a = c.representative? b ↔
      a = b ∨ TransGen (v.Linked (v.Passes test)) a b)
  /-- A group is named by its smallest element. -/
  least : ∀ a r, c.representative? a = some r →
    c.representative? r = some r ∧ ∀ b, c.representative? b = some r → r ≤ b
  /-- The vertices are the names. -/
  vertices : ∀ r, r ∈ c.topology.vertices ↔ ∃ e, c.representative? e = some r
  /-- Behind a vertex stand the elements that it names. -/
  members : ∀ r e, e ∈ c.members r ↔ c.representative? e = some r
  /-- Every element of the view stands behind one vertex. -/
  partition : ∀ e ∈ v.topology.vertices, ∃! r, r ∈ c.topology.vertices ∧ e ∈ c.members r
  /-- The scopes that leave a group, each with the name of the group that it enters. -/
  edgesOut : ∀ r s r', (s, r') ∈ c.edgesOut r ↔ ∃ a b, v.Joins s a b ∧
    a ∈ c.members r ∧ b ∉ c.members r ∧ c.representative? b = some r'
  edgesOut_once : ∀ r, ((c.edgesOut r).map Prod.fst).Nodup
  /-- The scopes that enter a group, each with the name of the group that it leaves. -/
  edgesIn : ∀ r s r', (s, r') ∈ c.edgesIn r ↔ ∃ a b, v.Joins s a b ∧
    b ∈ c.members r ∧ a ∉ c.members r ∧ c.representative? a = some r'
  edgesIn_once : ∀ r, ((c.edgesIn r).map Prod.fst).Nodup
  /-- Vertices stand for the elements merged into them and the scopes between these. -/
  selection : ∀ R : IdSet, (∀ r ∈ R, r ∈ c.topology.vertices) →
    (∀ e, e ∈ (c.selection R).elements ↔ ∃ r ∈ R, c.representative? e = some r) ∧
      ∀ s, s ∈ (c.selection R).scopes ↔ ∃ a b, v.Joins s a b ∧
        a ∈ (c.selection R).elements ∧ b ∈ (c.selection R).elements

theorem lift_sublist (c : Contraction) (r : ElementId) (edges : List (ScopeId × ElementId)) :
    ((c.lift r edges).map Prod.fst).Sublist (edges.map Prod.fst) := by
  induction edges with
  | nil => exact .slnil
  | cons e rest ih =>
    obtain ⟨s, b⟩ := e
    rw [lift, List.filterMap_cons]
    split
    · exact ih.cons s
    · next e' he =>
      dsimp only at he
      split at he
      · split at he
        · cases he
        · cases he
          exact ih.cons_cons s
      · cases he

end Contraction

namespace View

variable {v : View} {test : VertexTest}

/-- Each scope of the view stands once among the edges at the members of a group. -/
theorem nodup_flatMap_edges {group : IdSet} {edges : ElementId → List (ScopeId × ElementId)}
    (hnodup : ∀ a, ((edges a).map Prod.fst).Nodup)
    (hend : ∀ a a' s b b', (s, b) ∈ edges a → (s, b') ∈ edges a' → a = a') :
    ((group.toList.flatMap edges).map Prod.fst).Nodup := by
  rw [List.map_flatMap, List.nodup_flatMap]
  refine ⟨fun a _ => hnodup a, group.nodup_toList.imp fun {a a'} hne => ?_⟩
  intro s hs hs'
  obtain ⟨⟨_, b⟩, hb, rfl⟩ := List.mem_map.1 hs
  obtain ⟨⟨_, b'⟩, hb', heq⟩ := List.mem_map.1 hs'
  cases heq
  exact hne (hend a a' _ b b' hb hb')

theorem Sound.edgesOut_contract_nodup (h : v.Sound) (r : ElementId) :
    (((v.contract test).edgesOut r).map Prod.fst).Nodup := by
  refine (Contraction.lift_sublist _ _ _).nodup
    (nodup_flatMap_edges h.edgesOut_nodup fun a a' s b b' hb hb' => ?_)
  exact ((h.mem_edgesOut.1 hb).ends (h.mem_edgesOut.1 hb')).1

theorem Sound.edgesIn_contract_nodup (h : v.Sound) (r : ElementId) :
    (((v.contract test).edgesIn r).map Prod.fst).Nodup := by
  refine (Contraction.lift_sublist _ _ _).nodup
    (nodup_flatMap_edges h.edgesIn_nodup fun a a' s b b' hb hb' => ?_)
  exact ((h.mem_edgesIn.1 hb).ends (h.mem_edgesIn.1 hb')).2

/-- A name is the smallest of the elements that it names, itself one of them. -/
theorem representative?_least {a r : ElementId}
    (hr : (v.contract test).representative? a = some r) :
    (v.contract test).representative? r = some r ∧
      ∀ b, (v.contract test).representative? b = some r → r ≤ b :=
  ⟨representative?_self hr, fun _ hb => representative?_le hb⟩

/-- An element stands behind no vertex but its own. -/
theorem not_mem_members_iff {e r r' : ElementId}
    (he : (v.contract test).representative? e = some r') :
    e ∉ (v.contract test).members r ↔ r' ≠ r := by
  rw [Contraction.mem_members, he, Option.some_inj]

theorem Sound.mem_selection_scopes (h : v.Sound) {R : IdSet} {s : ScopeId} :
    s ∈ ((v.contract test).selection R).scopes ↔ ∃ a b, v.Joins s a b ∧
      a ∈ ((v.contract test).selection R).elements ∧
        b ∈ ((v.contract test).selection R).elements := by
  have hmask : ∀ e ∈ (v.contract test).expand R, e ∈ v.topology.vertices := fun e he => by
    obtain ⟨r, -, hr⟩ := Contraction.mem_expand.1 he
    exact (h.representative?_spec hr).1
  show s ∈ v.mask.scopes.filter (Contraction.isWithin v.graph _) ↔ _
  rw [IdSet.mem_filter, Contraction.isWithin, Option.any_eq_true]
  simp only [Bool.and_eq_true, decide_eq_true_eq]
  constructor
  · rintro ⟨hs, sc, hsc, ho, ht⟩
    exact ⟨_, _, ⟨hs, hmask _ ho, hmask _ ht, sc, hsc, rfl, rfl⟩, ho, ht⟩
  · rintro ⟨a, b, ⟨hs, -, -, sc, hsc, rfl, rfl⟩, ha, hb⟩
    exact ⟨hs, sc, hsc, ha, hb⟩

/-- **A contracted view is the quotient of the view.** -/
theorem isQuotient_contract (hg : v.graph.Agrees)
    (hlive : ∀ e ∈ v.mask.elements, v.graph.contains e = true) (test : VertexTest) :
    (v.contract test).IsQuotient v test := by
  have h := sound_of_live hg hlive
  constructor
  case named =>
    intro e
    exact ⟨fun ⟨_, hr⟩ => (h.representative?_spec hr).1, exists_representative test⟩
  case joined =>
    intro a ha b _
    obtain ⟨r, hr⟩ := exists_representative test ha
    rw [hr, eq_comm, h.representative?_eq_iff hr, reflTransGen_iff_eq_or_transGen, eq_comm]
  case least =>
    exact fun a r hr => representative?_least hr
  case vertices =>
    intro r
    rw [Contraction.mem_vertices]
    exact ⟨fun hr => ⟨r, hr⟩, fun ⟨_, hr⟩ => (representative?_least hr).1⟩
  case members =>
    exact fun r e => Contraction.mem_members
  case partition =>
    intro e he
    obtain ⟨r, hr⟩ := exists_representative test he
    refine ⟨r, ⟨name_mem_vertices hr, Contraction.mem_members.2 hr⟩, ?_⟩
    rintro r' ⟨-, hr'⟩
    exact Option.some.inj ((Contraction.mem_members.1 hr').symm.trans hr)
  case edgesOut =>
    intro r s r'
    rw [h.mem_edgesOut_contract]
    constructor
    · rintro ⟨hne, a, b, hs, ha, hb⟩
      exact ⟨a, b, hs, Contraction.mem_members.2 ha, (not_mem_members_iff hb).2 hne, hb⟩
    · rintro ⟨a, b, hs, ha, hnot, hb⟩
      exact ⟨(not_mem_members_iff hb).1 hnot, a, b, hs, Contraction.mem_members.1 ha, hb⟩
  case edgesOut_once =>
    exact h.edgesOut_contract_nodup
  case edgesIn =>
    intro r s r'
    rw [h.mem_edgesIn_contract]
    constructor
    · rintro ⟨hne, b, a, hs, hb, ha⟩
      exact ⟨a, b, hs, Contraction.mem_members.2 hb, (not_mem_members_iff ha).2 hne, ha⟩
    · rintro ⟨a, b, hs, hb, hnot, ha⟩
      exact ⟨(not_mem_members_iff ha).1 hnot, b, a, hs, Contraction.mem_members.1 hb, ha⟩
  case edgesIn_once =>
    exact h.edgesIn_contract_nodup
  case selection =>
    exact fun R _ => ⟨fun e => Contraction.mem_expand, fun s => h.mem_selection_scopes⟩

end View

/-- Two operations in a row, and a merge that reads both. -/
def tapered : Definition where
  name := "tapered"
  stages :=
    [⟨"in", [], .source ⟨"hdfs", "in", none, true⟩⟩,
      ⟨"parse", ["in"], .each ⟨"parse", none, none, ["key"], .results⟩⟩,
      ⟨"clean", ["parse"], .each ⟨"clean", none, none, ["key"], .results⟩⟩,
      ⟨"both", ["parse", "clean"], .merge⟩,
      ⟨"out", ["both"], .sink ⟨"hdfs", "out", none, true⟩⟩]

/-- Without its extents and with its operations merged, both inputs of the merge come from
one group. -/
theorem isQuotient_tapered : ∃ g v, tapered.toGraph = .ok g ∧
    v = ((Selection.whole g).withoutExtents g).view g ∧ v.graph.Agrees ∧
      (∀ e ∈ v.mask.elements, v.graph.contains e = true) ∧
        (v.contract (.kind .each)).IsQuotient v (.kind .each) ∧
          (v.contract (.kind .each)).edgesOut 3 = [(3, 5), (4, 5)] := by
  have hany : (tapered.toGraph.toOption.any fun g => decide
      (((((Selection.whole g).withoutExtents g).view g).contract (.kind .each)).edgesOut 3 =
        [(3, 5), (4, 5)])) = true := by cbv
  obtain ⟨g, hd, hedges⟩ := exists_ok_of_any hany
  have hg := (Definition.toGraph_layout hd).agrees
  have hlive : ∀ e ∈ ((Selection.whole g).withoutExtents g).elements, g.contains e = true :=
    fun e he => mem_elements.1 (IdSet.mem_filter.1 he).1
  exact ⟨g, _, hd, rfl, hg, hlive, View.isQuotient_contract hg hlive (.kind .each),
    of_decide_eq_true hedges⟩

end Dataflow
