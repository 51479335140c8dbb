import Dataflow.Proofs.Cursor.Splitting
import Dataflow.Proofs.Flow.Ways

/-!
# The ways to an element

In a graph where what leads to one element starts at one place, the part that leads to an
element has that place as its one root and the element as its one leaf. So it splits into
paths, and a cursor over them yields each of them and fails nowhere.

Results:

* `next_upTo`, `roots_upTo`, `leaves_upTo`: the part that leads to an element;
* `mem_predecessors_along`: what comes before an element on a path;
* `drain_upTo`: the ways to an element.
-/
namespace Dataflow

open Dataflow.Graph Relation

variable {g : Graph}

/-- A chain of scopes meets no element twice. -/
theorem Graph.Acyclic.nodup_of_isChain (hacyc : g.Acyclic) {l : List ElementId}
    (h : l.IsChain g.Leads) : l.Nodup := by
  obtain ⟨rank, hrank⟩ := hacyc
  have htrans : Trans (fun a b => rank a < rank b) (fun a b => rank a < rank b)
    (fun a b => rank a < rank b) := ⟨Nat.lt_trans⟩
  refine (List.isChain_iff_pairwise.1 (h.imp fun a b => hrank a b)).imp fun hlt heq => ?_
  exact Nat.ne_of_lt hlt (congrArg rank heq)

namespace Selection

theorem mem_scopes_induced (h : g.Agrees) {elements : IdSet} {s : ScopeId} :
    s ∈ (induced g elements).scopes ↔
      ∃ sc, g.scope? s = some sc ∧ sc.origin ∈ elements ∧ sc.target ∈ elements := by
  simp only [induced, IdSet.mem_ofList, List.mem_flatMap, List.mem_filterMap]
  constructor
  · rintro ⟨e, he, ⟨s', b⟩, hedge, hsome⟩
    split at hsome
    · next hb =>
      cases hsome
      obtain ⟨sc, hsc, rfl, rfl⟩ := h.mem_edgesOut.1 hedge
      exact ⟨sc, hsc, he, hb⟩
    · cases hsome
  · rintro ⟨sc, hsc, ho, ht⟩
    exact ⟨sc.origin, ho, (s, sc.target), h.mem_edgesOut.2 ⟨sc, hsc, rfl, rfl⟩, if_pos ht⟩

theorem mem_upTo (h : g.Agrees) {x e : ElementId} :
    e ∈ (upTo g x).elements ↔ ReflTransGen g.Leads e x := by
  show e ∈ (g.topology.ancestors x).insert x ↔ _
  rw [IdSet.mem_insert, h.mem_ancestors, reflTransGen_iff_eq_or_transGen, eq_comm]

/-- The part of the graph that leads to `x`. -/
def upToView (g : Graph) (x : ElementId) : View := (upTo g x).view g

theorem next_upTo (h : g.Agrees) (hends : g.EndsLive) {x a b : ElementId} :
    (upToView g x).topology.Next a b ↔ g.Leads a b ∧ ReflTransGen g.Leads b x := by
  have hmask : (upToView g x).mask = upTo g x := rfl
  simp only [Topology.Next, Topology.successors, IdSet.mem_ofList, List.mem_map]
  constructor
  · rintro ⟨⟨s, b'⟩, hedge, rfl⟩
    obtain ⟨-, hgraph, -, hb⟩ := View.mem_edgesOut.1 hedge
    exact ⟨⟨s, h.mem_edgesOut.1 hgraph⟩, (mem_upTo h).1 hb⟩
  · rintro ⟨⟨s, sc, hsc, rfl, rfl⟩, hb⟩
    have hl : g.Leads sc.origin sc.target := ⟨s, sc, hsc, rfl, rfl⟩
    have ha : sc.origin ∈ (upTo g x).elements := (mem_upTo h).2 (hb.head hl)
    refine ⟨(s, sc.target), View.mem_edgesOut.2
      ⟨View.shows_iff.2 ⟨ha, (hends _ _ hl).1⟩, h.mem_edgesOut.2 ⟨sc, hsc, rfl, rfl⟩, ?_, ?_⟩, rfl⟩
    · exact (mem_scopes_induced h).2 ⟨sc, hsc, ha, (mem_upTo h).2 hb⟩
    · exact (mem_upTo h).2 hb

theorem mem_vertices_upTo (h : g.Agrees) (hends : g.EndsLive) {x e : ElementId}
    (hx : g.contains x = true) :
    e ∈ (upToView g x).topology.vertices ↔ ReflTransGen g.Leads e x := by
  rw [View.mem_vertices, View.shows_iff]
  show e ∈ (upTo g x).elements ∧ g.contains e = true ↔ _
  rw [mem_upTo h]
  refine and_iff_left_of_imp fun he => ?_
  rcases he.cases_head with rfl | ⟨b, hb, -⟩
  · exact hx
  · exact (hends _ _ hb).1

theorem mem_predecessors_upTo (h : g.Agrees) (hends : g.EndsLive) {x a b : ElementId} :
    a ∈ (upToView g x).topology.predecessors b ↔ g.Leads a b ∧ ReflTransGen g.Leads b x := by
  simp only [Topology.predecessors, IdSet.mem_ofList, List.mem_map]
  constructor
  · rintro ⟨⟨s, a'⟩, hedge, rfl⟩
    obtain ⟨hb, hgraph, -, -⟩ := View.mem_edgesIn.1 hedge
    exact ⟨⟨s, h.mem_edgesIn.1 hgraph⟩, (mem_upTo h).1 (View.shows_iff.1 hb).1⟩
  · rintro ⟨⟨s, sc, hsc, rfl, rfl⟩, hb⟩
    have hl : g.Leads sc.origin sc.target := ⟨s, sc, hsc, rfl, rfl⟩
    have ha : sc.origin ∈ (upTo g x).elements := (mem_upTo h).2 (hb.head hl)
    have hb' : sc.target ∈ (upTo g x).elements := (mem_upTo h).2 hb
    exact ⟨(s, sc.origin), View.mem_edgesIn.2 ⟨View.shows_iff.2 ⟨hb', (hends _ _ hl).2⟩,
      h.mem_edgesIn.2 ⟨sc, hsc, rfl, rfl⟩, (mem_scopes_induced h).2 ⟨sc, hsc, ha, hb'⟩, ha⟩, rfl⟩

/-- Whatever leads to `x` leads on, `x` itself excepted. -/
theorem leaves_upTo (h : g.Ordered) {x : ElementId} (hx : g.contains x = true) :
    (upToView g x).topology.leaves = .singleton x := by
  refine IdSet.ext_mem fun e => ?_
  rw [IdSet.mem_singleton, Topology.mem_leaves, mem_vertices_upTo h.agrees h.ends hx]
  simp only [next_upTo h.agrees h.ends, not_and]
  constructor
  · rintro ⟨hex, hlast⟩
    rcases hex.cases_head with rfl | ⟨b, hb, hbx⟩
    · rfl
    · exact absurd hbx (hlast b hb)
  · rintro rfl
    obtain ⟨rank, hrank⟩ := h.acyclic
    exact ⟨.refl, fun b hb hbe => absurd (hrank e b hb) (Nat.not_lt_of_le (RankedBy.le hrank hbe))⟩

/-- Whatever leads to `x` is fed, the place where it all starts excepted. -/
theorem roots_upTo (h : g.Rooted) {x r : ElementId} (hx : g.contains x = true)
    (hr : g.Unfed r) (hrx : ReflTransGen g.Leads r x) :
    (upToView g x).topology.roots = .singleton r := by
  refine IdSet.ext_mem fun e => ?_
  rw [IdSet.mem_singleton, Topology.mem_roots, mem_vertices_upTo h.agrees h.ends hx]
  simp only [mem_predecessors_upTo h.agrees h.ends, not_and]
  constructor
  · rintro ⟨hex, hfirst⟩
    exact h.root_unique e r x (fun a ha => hfirst a ha hex) hr hex hrx
  · rintro rfl
    exact ⟨hrx, fun a ha => absurd ha (hr a)⟩

/-- What is on a path to `x` leads to `x`. -/
theorem leads_of_mem_paths_upTo (h : g.Ordered) {x r : ElementId} (hx : g.contains x = true)
    {l : List ElementId} (hl : l ∈ (upToView g x).topology.paths r x) :
    ∀ v ∈ l, ReflTransGen g.Leads v x :=
  Topology.mem_of_mem_paths (fun _ => (mem_vertices_upTo h.agrees h.ends hx).1)
    (fun _ _ hvw => ((next_upTo h.agrees h.ends).1 hvw).2) hl

/-- A chain of scopes to a live element is one of the paths to it. -/
theorem mem_paths_upTo (h : g.Ordered) {x r : ElementId} (hx : g.contains x = true)
    {l : List ElementId} (hchain : (r :: l).IsChain g.Leads)
    (hlast : (r :: l).getLast (List.cons_ne_nil _ l) = x) :
    r :: l ∈ (upToView g x).topology.paths r x := by
  have hnext : ∀ (l : List ElementId) (v : ElementId), (v :: l).IsChain g.Leads →
      (v :: l).getLast (List.cons_ne_nil v l) = x →
      (v :: l).IsChain (upToView g x).topology.Next ∧ ReflTransGen g.Leads v x := by
    intro l
    induction l with
    | nil =>
      intro v _ hv
      exact ⟨.singleton v, by rw [show v = x from hv]⟩
    | cons w rest ih =>
      intro v hvl hv
      obtain ⟨hvw, hwl⟩ := List.isChain_cons_cons.1 hvl
      rw [List.getLast_cons_cons] at hv
      obtain ⟨hchain, hwx⟩ := ih w hwl hv
      exact ⟨.cons_cons ((next_upTo h.agrees h.ends).2 ⟨hvw, hwx⟩) hchain, hwx.head hvw⟩
  obtain ⟨hchain', hfirst⟩ := hnext l r hchain hlast
  refine Topology.mem_paths_of_chain ((mem_vertices_upTo h.agrees h.ends hx).2 hfirst)
    ((mem_vertices_upTo h.agrees h.ends hx).2 .refl) hchain' hlast
    (h.acyclic.nodup_of_isChain hchain) fun y hy => ?_
  obtain ⟨i, hi, rfl⟩ := List.getElem_of_mem hy
  have hstep := List.isChain_iff_getElem.1 hchain i (by simpa using hi)
  exact (h.agrees.lt_size_of_leads hstep).2

end Selection

namespace PathCursor

/-! ## One path -/

/-- On a path, what comes before an element is the one before it. -/
theorem mem_predecessors_along (h : g.Agrees) (hends : g.EndsLive) {x : ElementId}
    {path : List ElementId} (hchain : path.IsChain g.Leads)
    (hup : ∀ v ∈ path, ReflTransGen g.Leads v x) {a b : ElementId} :
    a ∈ ((along g (.upTo g x) path).view g).topology.predecessors b ↔ (a, b) ∈ hops path := by
  simp only [Topology.predecessors, IdSet.mem_ofList, List.mem_map]
  constructor
  · rintro ⟨⟨s, a'⟩, hedge, rfl⟩
    obtain ⟨-, hgraph, hs, -⟩ := View.mem_edgesIn.1 hedge
    obtain ⟨⟨u, v⟩, hhop, hs⟩ := List.mem_flatMap.1 (IdSet.mem_ofList.1 hs)
    obtain ⟨⟨s', w⟩, hout, hsome⟩ := List.mem_filterMap.1 (List.mem_filter.1 hs).1
    dsimp only at hsome
    split at hsome
    · next hw =>
      cases hsome
      obtain ⟨sc, hsc, ho, ht⟩ := h.mem_edgesIn.1 hgraph
      obtain ⟨sc', hsc', ho', ht'⟩ := h.mem_edgesOut.1 hout
      rw [hsc] at hsc'
      cases hsc'
      rw [← ho, ho', ← ht, ht', hw]
      exact hhop
    · cases hsome
  · intro hhop
    obtain ⟨k, ha, hb⟩ := mem_hops.1 hhop
    have hamem := List.mem_of_getElem? ha
    have hbmem := List.mem_of_getElem? hb
    have hl : g.Leads a b := rel_of_mem_hops hchain hhop
    obtain ⟨s, sc, hsc, rfl, rfl⟩ := id hl
    have hlive := (hends _ _ hl).2
    refine ⟨(s, sc.origin), View.mem_edgesIn.2 ⟨View.shows_iff.2 ⟨IdSet.mem_ofList.2 hbmem, hlive⟩,
      h.mem_edgesIn.2 ⟨sc, hsc, rfl, rfl⟩, ?_, IdSet.mem_ofList.2 hamem⟩, rfl⟩
    refine IdSet.mem_ofList.2 (List.mem_flatMap.2 ⟨_, hhop, List.mem_filter.2 ⟨?_, ?_⟩⟩)
    · exact List.mem_filterMap.2 ⟨(s, sc.target), h.mem_edgesOut.2 ⟨sc, hsc, rfl, rfl⟩, if_pos rfl⟩
    · refine decide_eq_true ((Selection.mem_scopes_induced h).2 ⟨sc, hsc, ?_, ?_⟩)
      · exact (Selection.mem_upTo h).2 (hup _ hamem)
      · exact (Selection.mem_upTo h).2 (hup _ hbmem)

/-- The ways from `r` to an element, with the scopes along each. -/
def waysTo (g : Graph) (r x : ElementId) : List Selection :=
  ((Selection.upToView g x).topology.paths r x).map (along g (.upTo g x))

/-- The cursor over the part that leads to a live element yields the ways to it. -/
theorem drain_upTo (h : g.Rooted) {x r : ElementId} (hx : g.contains x = true)
    (hr : g.Unfed r) (hrx : ReflTransGen g.Leads r x) :
    (Cursor.drain (new (OnceCursor.new g (.upTo g x)) false)).1 = .ok (waysTo g r x) := by
  obtain ⟨l, hchain, hlast⟩ := List.exists_isChain_cons_of_relationReflTransGen hrx
  have hmem := Selection.mem_paths_upTo h.toOrdered hx hchain hlast
  have hdec : decompose g false (.upTo g x) = .ok (waysTo g r x, (r, x)) := by
    have hroots : ((Selection.upTo g x).view g).topology.roots = .singleton r :=
      Selection.roots_upTo h hx hr hrx
    have hleaves : ((Selection.upTo g x).view g).topology.leaves = .singleton x :=
      Selection.leaves_upTo h.toOrdered hx
    simp only [decompose, hroots, hleaves]
    rfl
  unfold waysTo at hdec ⊢
  cases hp : (Selection.upToView g x).topology.paths r x with
  | nil => rw [hp] at hmem; cases hmem
  | cons p rest =>
    rw [hp] at hdec
    rw [List.map_cons] at hdec ⊢
    exact congrArg Prod.fst (drain_once hdec)

end PathCursor
end Dataflow
