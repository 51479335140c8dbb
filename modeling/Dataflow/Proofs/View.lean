import Dataflow.Motif.Target
import Dataflow.Proofs.Flow.Basic
import Dataflow.Proofs.Topology.Reach
import Mathlib.Data.List.Nodup

/-!
# Edges of a view

A view shows a scope if the scope is selected and both of its ends are vertices. `Joins`
says so of one scope; everything that a traversal of the view sees is a statement about it,
provided that the view is `Sound`: the lists of its graph agree with the scopes, and no
scope that it selects with both ends hangs on an element that was removed. `Linked` is one
step between two elements of a class, in either direction along a scope that the view shows;
`Beside` reads such a step off the lists, whether or not they agree with the scopes.

Results:

* `sound_of_live`, `sound_of_endsLive`: views that select what is live, and all views of a
  graph whose scopes join live elements;
* `Sound.mem_edgesOut`, `Sound.mem_edgesIn`: the edges at an element, each scope once
  (`Sound.edgesOut_nodup`, `Sound.edgesIn_nodup`);
* `Sound.beside_eq`: in a sound view, the steps along the lists are those along the scopes.
-/
namespace Dataflow

open Dataflow.Graph Relation

namespace Graph

variable {g : Graph}

theorem mem_liveScopes {s : ScopeId} : s ∈ g.liveScopes ↔ ∃ sc, g.scope? s = some sc := by
  rw [liveScopes, IdSet.mem_below, containsScope, Option.isSome_iff_exists]
  constructor
  · exact And.right
  · rintro ⟨sc, hsc⟩
    exact ⟨lt_scopes_of_scope? hsc, sc, hsc⟩

theorem Agrees.edgesOut_nodup (h : g.Agrees) (e : ElementId) :
    ((g.edgesOut e).map Prod.fst).Nodup := by
  rw [edgesOut, List.map_filterMap]
  refine List.Nodup.filterMap (fun s s' b hb hb' => ?_) (h.outgoing_nodup e)
  simp only [Option.map_map, Option.mem_def, Option.map_eq_some_iff, Function.comp] at hb hb'
  obtain ⟨-, -, rfl⟩ := hb
  obtain ⟨-, -, rfl⟩ := hb'
  rfl

theorem Agrees.edgesIn_nodup (h : g.Agrees) (e : ElementId) :
    ((g.edgesIn e).map Prod.fst).Nodup := by
  rw [edgesIn, List.map_filterMap]
  refine List.Nodup.filterMap (fun s s' b hb hb' => ?_) (h.incoming_nodup e)
  simp only [Option.map_map, Option.mem_def, Option.map_eq_some_iff, Function.comp] at hb hb'
  obtain ⟨-, -, rfl⟩ := hb
  obtain ⟨-, -, rfl⟩ := hb'
  rfl

end Graph

namespace View

variable {v : View}

/-- The lists of the graph agree with its scopes, and a selected scope between selected
elements joins live ones. -/
structure Sound (v : View) : Prop where
  agrees : v.graph.Agrees
  ends : ∀ s sc, v.graph.scope? s = some sc → sc.origin ∈ v.mask.elements →
    sc.target ∈ v.mask.elements →
      v.graph.contains sc.origin = true ∧ v.graph.contains sc.target = true

/-- The view shows the scope `s`, which leads from `a` to `b`. -/
def Joins (v : View) (s : ScopeId) (a b : ElementId) : Prop :=
  s ∈ v.mask.scopes ∧ a ∈ v.topology.vertices ∧ b ∈ v.topology.vertices ∧
    ∃ sc, v.graph.scope? s = some sc ∧ sc.origin = a ∧ sc.target = b

/-- A scope of the view joins two elements of `p`, in either direction. -/
def Linked (v : View) (p : ElementId → Prop) (a b : ElementId) : Prop :=
  p a ∧ p b ∧ ∃ s, v.Joins s a b ∨ v.Joins s b a

theorem Joins.ends {s : ScopeId} {a b a' b' : ElementId} (h : v.Joins s a b)
    (h' : v.Joins s a' b') : a = a' ∧ b = b' := by
  obtain ⟨-, -, -, sc, hsc, rfl, rfl⟩ := h
  obtain ⟨-, -, -, sc', hsc', rfl, rfl⟩ := h'
  cases hsc.symm.trans hsc'
  exact ⟨rfl, rfl⟩

/-- An edge of the view leads from one of the two elements to the other. -/
def Touches (v : View) (a b : ElementId) : Prop :=
  ∃ s, (s, b) ∈ v.edgesOut a ∨ (s, a) ∈ v.edgesOut b

/-- An edge of the view leads from one element of `p` to another, in either direction. -/
def Beside (v : View) (p : ElementId → Prop) (a b : ElementId) : Prop :=
  p a ∧ p b ∧ v.Touches a b

/-! ## The edges at an element -/

theorem sound_of_live (h : v.graph.Agrees)
    (hlive : ∀ e ∈ v.mask.elements, v.graph.contains e = true) : v.Sound :=
  ⟨h, fun _ _ _ ho ht => ⟨hlive _ ho, hlive _ ht⟩⟩

theorem sound_of_endsLive (h : v.graph.Agrees) (hends : v.graph.EndsLive) : v.Sound :=
  ⟨h, fun s sc hsc _ _ => hends _ _ ⟨s, sc, hsc, rfl, rfl⟩⟩

theorem mem_edgesOut {a b : ElementId} {s : ScopeId} : (s, b) ∈ v.edgesOut a ↔
    v.shows a = true ∧ (s, b) ∈ v.graph.edgesOut a ∧ s ∈ v.mask.scopes ∧ b ∈ v.mask.elements := by
  unfold edgesOut
  split
  · next ha => simp [ha, keeps]
  · next ha => simp [ha]

theorem mem_edgesIn {a b : ElementId} {s : ScopeId} : (s, a) ∈ v.edgesIn b ↔
    v.shows b = true ∧ (s, a) ∈ v.graph.edgesIn b ∧ s ∈ v.mask.scopes ∧ a ∈ v.mask.elements := by
  unfold edgesIn
  split
  · next hb => simp [hb, keeps]
  · next hb => simp [hb]

theorem shows_iff {e : ElementId} :
    v.shows e = true ↔ e ∈ v.mask.elements ∧ v.graph.contains e = true := by
  simp [shows]

theorem mem_vertices {e : ElementId} : e ∈ v.topology.vertices ↔ v.shows e = true := by
  rw [shows_iff]
  exact IdSet.mem_filter

theorem mem_vertices_iff {e : ElementId} :
    e ∈ v.topology.vertices ↔ e ∈ v.mask.elements ∧ v.graph.contains e = true :=
  mem_vertices.trans shows_iff

theorem lt_bound_of_mem {a : ElementId} (h : a ∈ v.topology.vertices) : a < v.topology.bound :=
  lt_size_of_contains (mem_vertices_iff.1 h).2

theorem Sound.mem_edgesOut (h : v.Sound) {a b : ElementId} {s : ScopeId} :
    (s, b) ∈ v.edgesOut a ↔ v.Joins s a b := by
  rw [View.mem_edgesOut, ← mem_vertices, h.agrees.mem_edgesOut]
  constructor
  · rintro ⟨ha, ⟨sc, hsc, rfl, rfl⟩, hs, hb⟩
    have hends := h.ends s sc hsc (mem_vertices_iff.1 ha).1 hb
    exact ⟨hs, ha, mem_vertices_iff.2 ⟨hb, hends.2⟩, sc, hsc, rfl, rfl⟩
  · rintro ⟨hs, ha, hb, hsc⟩
    exact ⟨ha, hsc, hs, (mem_vertices_iff.1 hb).1⟩

theorem Sound.mem_edgesIn (h : v.Sound) {a b : ElementId} {s : ScopeId} :
    (s, a) ∈ v.edgesIn b ↔ v.Joins s a b := by
  rw [View.mem_edgesIn, ← mem_vertices, h.agrees.mem_edgesIn]
  constructor
  · rintro ⟨hb, ⟨sc, hsc, rfl, rfl⟩, hs, ha⟩
    have hends := h.ends s sc hsc ha (mem_vertices_iff.1 hb).1
    exact ⟨hs, mem_vertices_iff.2 ⟨ha, hends.1⟩, hb, sc, hsc, rfl, rfl⟩
  · rintro ⟨hs, ha, hb, hsc⟩
    exact ⟨hb, hsc, hs, (mem_vertices_iff.1 ha).1⟩

theorem Sound.edgesOut_nodup (h : v.Sound) (e : ElementId) :
    ((v.edgesOut e).map Prod.fst).Nodup := by
  unfold edgesOut
  split
  · exact (List.filter_sublist.map _).nodup (h.agrees.edgesOut_nodup e)
  · exact .nil

theorem Sound.edgesIn_nodup (h : v.Sound) (e : ElementId) :
    ((v.edgesIn e).map Prod.fst).Nodup := by
  unfold edgesIn
  split
  · exact (List.filter_sublist.map _).nodup (h.agrees.edgesIn_nodup e)
  · exact .nil

theorem Sound.touches_iff (h : v.Sound) {a b : ElementId} :
    v.Touches a b ↔ ∃ s, v.Joins s a b ∨ v.Joins s b a := by
  simp only [Touches, h.mem_edgesOut]

theorem Sound.beside_eq (h : v.Sound) (p : ElementId → Prop) : v.Beside p = v.Linked p := by
  funext a b
  simp only [Beside, Linked, h.touches_iff]

/-! ## The whole graph -/

section Whole

variable {g : Graph}

theorem sound_whole (h : g.Agrees) : (whole g).Sound :=
  sound_of_live h fun _ => mem_elements.1

theorem mem_vertices_whole {e : ElementId} :
    e ∈ (whole g).topology.vertices ↔ g.contains e = true :=
  mem_vertices_iff.trans ⟨And.right, fun he => ⟨mem_elements.2 he, he⟩⟩

theorem joins_whole {s : ScopeId} {a b : ElementId} : (whole g).Joins s a b ↔
    g.contains a = true ∧ g.contains b = true ∧
      ∃ sc, g.scope? s = some sc ∧ sc.origin = a ∧ sc.target = b := by
  unfold Joins
  rw [mem_vertices_whole, mem_vertices_whole]
  show s ∈ g.liveScopes ∧ _ ↔ _
  rw [mem_liveScopes]
  constructor
  · exact And.right
  · rintro ⟨ha, hb, sc, hsc, hends⟩
    exact ⟨⟨sc, hsc⟩, ha, hb, sc, hsc, hends⟩

end Whole

end View
end Dataflow
