import Dataflow.Cursor.Remainder
import Dataflow.Proofs.Cursor.Splitting
import Mathlib.Data.List.Dedup
import Mathlib.Data.List.Nodup

/-!
# What is left of a domain

The remainder is put together from three parts: what no part claims, what reconnects that along
paths of the domain, and the claimed ends of parallel scopes. What can be in it is said once
for all three, in `mem_of_compute`; that it leaves nothing behind, holds no extent and holds the
ends of its scopes is read off from there.

The last of the three takes an element for claimed if it is not left over. A scope of the domain
may lead out of the domain, and so the remainder may too: `Stray` says exactly when.

Results:

* `compute_eq_none_iff`, `mem_of_compute`: when there is a remainder, and what it is made of;
* `mem_compute`, `isExtent_of_compute`, `scopes_of_compute`: what it leaves behind, and what it
  does not hold;
* `outside_iff_of_compute`: what it holds from outside the domain.
-/
namespace Dataflow

open Dataflow.Graph Relation

/-- A list with a repetition has fewer members than entries. -/
theorem IdSet.size_ofList_lt_iff {l : List Nat} : (IdSet.ofList l).size < l.length ↔ ¬ l.Nodup := by
  have hperm : (IdSet.ofList l).toList.Perm l.dedup := by
    refine (List.perm_ext_iff_of_nodup (nodup_toList _) (List.nodup_dedup l)).2 fun x => ?_
    rw [← IdSet.mem_def, IdSet.mem_ofList, List.mem_dedup]
  have hsize : (IdSet.ofList l).size = l.dedup.length := hperm.length_eq
  rw [hsize]
  constructor
  · intro hlt hnodup
    rw [hnodup.dedup] at hlt
    omega
  · intro hrepeats
    have hle := (List.dedup_sublist l).length_le
    have hne : l.dedup.length ≠ l.length := by
      intro heq
      have hsame := (List.dedup_sublist l).eq_of_length heq
      exact hrepeats (hsame ▸ List.nodup_dedup l)
    omega

namespace Selection

@[simp] theorem mem_elements_union {a b : Selection} {e : ElementId} :
    e ∈ (a ∪ b).elements ↔ e ∈ a.elements ∨ e ∈ b.elements :=
  IdSet.mem_union

@[simp] theorem mem_scopes_union {a b : Selection} {s : ScopeId} :
    s ∈ (a ∪ b).scopes ↔ s ∈ a.scopes ∨ s ∈ b.scopes :=
  IdSet.mem_union

end Selection

namespace Remainder

variable {g : Graph} {domain mask left : Selection} {pairs : List (ElementId × ElementId)}
  {multiEdge : Bool}

/-! ## Links -/

/-- The scope joins the two elements, in either direction. -/
def Connects (g : Graph) (s : ScopeId) (a b : ElementId) : Prop :=
  ∃ sc, g.scope? s = some sc ∧
    ((sc.origin = a ∧ sc.target = b) ∨ (sc.origin = b ∧ sc.target = a))

theorem mem_links {elements scopes : IdSet} {l : Link} : l ∈ links g elements scopes ↔
    l.scope ∈ scopes ∧ Connects g l.scope l.claimed l.neighbour ∧
      l.claimed ∉ elements ∧ l.neighbour ∈ elements := by
  simp only [links, List.mem_filterMap, Option.bind_eq_some_iff]
  constructor
  · intro h
    obtain ⟨s, hs, sc, hsc, hlink⟩ := h
    split at hlink
    · next ho ht =>
      cases hlink
      exact ⟨hs, ⟨sc, hsc, .inl ⟨rfl, rfl⟩⟩, of_decide_eq_false ho, of_decide_eq_true ht⟩
    · next ho ht =>
      cases hlink
      exact ⟨hs, ⟨sc, hsc, .inr ⟨rfl, rfl⟩⟩, of_decide_eq_false ht, of_decide_eq_true ho⟩
    · cases hlink
  · intro h
    obtain ⟨claimed, s, neighbour⟩ := l
    obtain ⟨hs, ⟨sc, hsc, hends⟩, hc, hn⟩ := h
    refine ⟨s, hs, sc, hsc, ?_⟩
    rcases hends with ⟨rfl, rfl⟩ | ⟨rfl, rfl⟩ <;> simp [hc, hn]

theorem nodup_links (elements scopes : IdSet) : (links g elements scopes).Nodup := by
  refine List.Nodup.filterMap (fun s s' l hl hl' => ?_) (IdSet.nodup_toList scopes)
  -- a link names the scope it comes from
  have hs : l.scope = s := by
    obtain ⟨sc, -, hlink⟩ := Option.bind_eq_some_iff.1 hl
    split at hlink <;> cases hlink <;> rfl
  have hs' : l.scope = s' := by
    obtain ⟨sc, -, hlink⟩ := Option.bind_eq_some_iff.1 hl'
    split at hlink <;> cases hlink <;> rfl
  rw [← hs, hs']

/-- An element is added back if two of its links lead to the same neighbour. -/
theorem mem_parallelLinks {ls : List Link} (hls : ls.Nodup) {e : ElementId} :
    e ∈ (parallelLinks ls).elements ↔ ∃ l ∈ ls, ∃ l' ∈ ls, l ≠ l' ∧ l.claimed = e ∧
      l'.claimed = e ∧ l.neighbour = l'.neighbour := by
  have hmine : (ls.filter fun l => l.claimed == e).Nodup := hls.filter _
  have hfewer : (ls.filter fun l => l.claimed == e).length >
      (IdSet.ofList ((ls.filter fun l => l.claimed == e).map Link.neighbour)).size ↔
        ∃ l ∈ ls, ∃ l' ∈ ls, l ≠ l' ∧ l.claimed = e ∧ l'.claimed = e ∧
          l.neighbour = l'.neighbour := by
    rw [gt_iff_lt, ← List.length_map (f := Link.neighbour), IdSet.size_ofList_lt_iff,
      List.nodup_map_iff_inj_on hmine]
    simp only [List.mem_filter, beq_iff_eq]
    grind
  simp only [parallelLinks, IdSet.mem_filter, IdSet.mem_ofList, List.mem_map, decide_eq_true_eq]
  rw [hfewer]
  refine and_iff_right_of_imp fun h => ?_
  obtain ⟨l, hl, -, -, -, hc, -⟩ := h
  exact ⟨l, hl, hc⟩

theorem mem_scopes_parallelLinks {ls : List Link} {s : ScopeId} :
    s ∈ (parallelLinks ls).scopes ↔
      ∃ l ∈ ls, l.scope = s ∧ l.claimed ∈ (parallelLinks ls).elements := by
  simp only [parallelLinks, IdSet.mem_ofList, List.mem_filterMap]
  refine exists_congr fun l => and_congr_right fun _ => ?_
  split
  · next hc => simp [hc]
  · next hc => simp [hc]

/-! ## Paths of the domain -/

/-- What is added to reconnect the leftover lies in the domain. -/
theorem mem_reconnection {e : ElementId} (he : e ∈ (reconnection g domain left pairs).elements) :
    e ∈ domain.elements := by
  obtain ⟨trace, htrace, he⟩ := IdSet.mem_unionOf.1 he
  obtain ⟨⟨root, leaf⟩, -, hmem⟩ := List.mem_flatMap.1 htrace
  obtain ⟨path, hpath, rfl⟩ := List.mem_map.1 hmem
  refine Topology.mem_of_mem_paths (P := (· ∈ domain.elements)) (fun v hv => ?_)
    (fun v w hvw => ?_) hpath e (IdSet.mem_ofList.1 he)
  · exact (View.shows_iff.1 (View.mem_vertices.1 hv)).1
  · obtain ⟨⟨s, w'⟩, hedge, rfl⟩ := List.mem_map.1 (IdSet.mem_ofList.1 hvw)
    exact (View.mem_edgesOut.1 hedge).2.2.2

/-- So do the scopes, and their ends are added with them. -/
theorem mem_scopes_reconnection (hg : g.Agrees) {s : ScopeId}
    (hs : s ∈ (reconnection g domain left pairs).scopes) : s ∈ domain.scopes ∧
      ∃ sc, g.scope? s = some sc ∧ sc.origin ∈ (reconnection g domain left pairs).elements ∧
        sc.target ∈ (reconnection g domain left pairs).elements := by
  obtain ⟨part, hpart, hs⟩ := IdSet.mem_unionOf.1 hs
  obtain ⟨⟨root, leaf⟩, -, hmem⟩ := List.mem_flatMap.1 hpart
  obtain ⟨path, -, rfl⟩ := List.mem_map.1 hmem
  obtain ⟨⟨a, b⟩, hhop, hs⟩ := List.mem_flatMap.1 (IdSet.mem_ofList.1 hs)
  obtain ⟨⟨s', b'⟩, hedge, hsome⟩ := List.mem_filterMap.1 hs
  dsimp only at hsome
  split at hsome
  · next hb =>
    cases hsome
    obtain ⟨-, hout, hdomain, -⟩ := View.mem_edgesOut.1 hedge
    obtain ⟨sc, hsc, ho, ht⟩ := hg.mem_edgesOut.1 hout
    obtain ⟨k, ha, hb'⟩ := PathCursor.mem_hops.1 hhop
    have hadded : ∀ e ∈ path, e ∈ (reconnection g domain left pairs).elements := fun e he =>
      IdSet.mem_unionOf.2 ⟨_, hpart, IdSet.mem_ofList.2 he⟩
    refine ⟨hdomain, sc, hsc, ?_, ?_⟩
    · rw [ho]
      exact hadded a (List.mem_of_getElem? ha)
    · rw [ht, hb]
      exact hadded b (List.mem_of_getElem? hb')
  · cases hsome

/-! ## The remainder -/

/-- The elements that no part claims, extents aside, with the unclaimed scopes among them. -/
def base (g : Graph) (domain mask : Selection) : Selection :=
  leftover g (domain.withoutExtents g) mask

/-- The links between what is left over and what is not. -/
def openLinks (g : Graph) (domain mask : Selection) : List Link :=
  links g (base g domain mask).elements ((domain.withoutExtents g).scopes \ mask.scopes)

theorem mem_base {e : ElementId} : e ∈ (base g domain mask).elements ↔
    e ∈ domain.elements ∧ isExtent e = false ∧ e ∉ mask.elements := by
  show e ∈ (domain.elements.filter fun e => !isExtent e) \ mask.elements ↔ _
  simp [and_assoc]

theorem mem_scopes_base {s : ScopeId} (h : s ∈ (base g domain mask).scopes) : s ∈ domain.scopes ∧
    ∃ sc, g.scope? s = some sc ∧ sc.origin ∈ (base g domain mask).elements ∧
      sc.target ∈ (base g domain mask).elements := by
  obtain ⟨hs, hinside⟩ := IdSet.mem_filter.1 h
  obtain ⟨sc, hsc, hends⟩ := (Option.any_eq_true _ _).1 hinside
  rw [Bool.and_eq_true, decide_eq_true_eq, decide_eq_true_eq] at hends
  exact ⟨(IdSet.mem_filter.1 (IdSet.mem_sdiff.1 hs).1).1, sc, hsc, hends⟩

theorem mem_scopes_withoutExtents {s : ScopeId} {a b : ElementId} (h : Connects g s a b) :
    s ∈ (domain.withoutExtents g).scopes ↔
      s ∈ domain.scopes ∧ isExtent a = false ∧ isExtent b = false := by
  show s ∈ domain.scopes.filter (Selection.offExtents g) ↔ _
  obtain ⟨sc, hsc, hends⟩ := h
  rw [IdSet.mem_filter, Selection.offExtents, hsc]
  rcases hends with ⟨rfl, rfl⟩ | ⟨rfl, rfl⟩ <;> simp [and_comm]

theorem mem_openLinks {l : Link} : l ∈ openLinks g domain mask ↔
    Connects g l.scope l.claimed l.neighbour ∧ l.scope ∈ domain.scopes ∧ l.scope ∉ mask.scopes ∧
      isExtent l.claimed = false ∧ l.claimed ∉ (base g domain mask).elements ∧
        l.neighbour ∈ (base g domain mask).elements := by
  rw [openLinks, mem_links, IdSet.mem_sdiff]
  constructor
  · intro h
    obtain ⟨⟨hs, hunclaimed⟩, hconn, hc, hn⟩ := h
    obtain ⟨hdomain, hclaimed, -⟩ := (mem_scopes_withoutExtents hconn).1 hs
    exact ⟨hconn, hdomain, hunclaimed, hclaimed, hc, hn⟩
  · intro h
    obtain ⟨hconn, hdomain, hunclaimed, hclaimed, hc, hn⟩ := h
    have hs := (mem_scopes_withoutExtents hconn).2 ⟨hdomain, hclaimed, (mem_base.1 hn).2.1⟩
    exact ⟨⟨hs, hunclaimed⟩, hconn, hc, hn⟩

variable {r : Selection}

/-- There is no remainder exactly if the parts claim everything, extents aside. -/
theorem compute_eq_none_iff : compute g domain mask pairs multiEdge = none ↔
    ∀ e ∈ domain.elements, isExtent e = false → e ∈ mask.elements := by
  have hbase : (∀ e ∈ domain.elements, isExtent e = false → e ∈ mask.elements) ↔
      ∀ e, e ∉ (base g domain mask).elements := by
    refine forall_congr' fun e => ?_
    rw [mem_base]
    tauto
  have hempty : (base g domain mask).elements.isEmpty = true ↔
      ∀ e, e ∉ (base g domain mask).elements := by
    rw [IdSet.isEmpty_iff]
    constructor
    · intro h e he
      rw [h] at he
      exact IdSet.not_mem_empty he
    · intro h
      exact IdSet.ext_mem fun e => iff_of_false (h e) IdSet.not_mem_empty
  rw [hbase, ← hempty]
  unfold compute
  dsimp only
  change (if (base g domain mask).elements.isEmpty = true then _ else _) = none ↔ _
  split
  · next h => exact iff_of_true rfl h
  · next h =>
    refine iff_of_false (fun hnone => ?_) h
    split at hnone <;> cases hnone

theorem isSome_compute_iff : (compute g domain mask pairs multiEdge).isSome = true ↔
    ∃ e ∈ domain.elements, isExtent e = false ∧ e ∉ mask.elements := by
  rw [Option.isSome_iff_ne_none, Ne, compute_eq_none_iff]
  simp only [not_forall, exists_prop]

/-- The three parts of the remainder. -/
theorem mem_of_compute (h : compute g domain mask pairs multiEdge = some r) :
    (∀ e, e ∈ r.elements ↔ e ∈ (base g domain mask).elements ∨
      e ∈ (reconnection g (domain.withoutExtents g) (base g domain mask) pairs).elements ∨
      (multiEdge = true ∧ e ∈ (parallelLinks (openLinks g domain mask)).elements)) ∧
    ∀ s, s ∈ r.scopes ↔ s ∈ (base g domain mask).scopes ∨
      s ∈ (reconnection g (domain.withoutExtents g) (base g domain mask) pairs).scopes ∨
      (multiEdge = true ∧ s ∈ (parallelLinks (openLinks g domain mask)).scopes) := by
  unfold compute at h
  dsimp only at h
  split at h
  · cases h
  · cases multiEdge with
    | false =>
      cases h
      simp [base]
    | true =>
      cases h
      simp [base, openLinks, or_assoc]

/-- What is in the domain and was not claimed is in the remainder. -/
theorem mem_compute (g : Graph) {domain mask : Selection}
    (pairs : List (ElementId × ElementId)) (multiEdge : Bool) {e : ElementId}
    (he : e ∈ domain.elements) (hx : isExtent e = false) (hm : e ∉ mask.elements) :
    ∃ s, compute g domain mask pairs multiEdge = some s ∧ e ∈ s.elements := by
  cases hr : compute g domain mask pairs multiEdge with
  | none => exact absurd (compute_eq_none_iff.1 hr e he hx) hm
  | some r => exact ⟨r, rfl, ((mem_of_compute hr).1 e).2 (.inl (mem_base.2 ⟨he, hx, hm⟩))⟩

theorem isExtent_of_compute (h : compute g domain mask pairs multiEdge = some r) {e : ElementId}
    (he : e ∈ r.elements) : isExtent e = false := by
  obtain he | he | ⟨-, he⟩ := ((mem_of_compute h).1 e).1 he
  · exact (mem_base.1 he).2.1
  · have hinner := (IdSet.mem_filter.1 (mem_reconnection he)).2
    simpa using hinner
  · obtain ⟨l, hl, -, -, -, rfl, -⟩ := (mem_parallelLinks (nodup_links _ _)).1 he
    exact (mem_openLinks.1 hl).2.2.2.1

/-- The scopes of the remainder are scopes of the domain, and it holds both of their ends. -/
theorem scopes_of_compute (hg : g.Agrees) (h : compute g domain mask pairs multiEdge = some r)
    {s : ScopeId} (hs : s ∈ r.scopes) : s ∈ domain.scopes ∧
      ∃ sc, g.scope? s = some sc ∧ sc.origin ∈ r.elements ∧ sc.target ∈ r.elements := by
  obtain ⟨hmem, hscopes⟩ := mem_of_compute h
  obtain hs | hs | ⟨hmulti, hs⟩ := (hscopes s).1 hs
  · obtain ⟨hdomain, sc, hsc, ho, ht⟩ := mem_scopes_base hs
    exact ⟨hdomain, sc, hsc, (hmem _).2 (.inl ho), (hmem _).2 (.inl ht)⟩
  · obtain ⟨hdomain, sc, hsc, ho, ht⟩ := mem_scopes_reconnection hg hs
    exact ⟨(IdSet.mem_filter.1 hdomain).1, sc, hsc, (hmem _).2 (.inr (.inl ho)),
      (hmem _).2 (.inr (.inl ht))⟩
  · obtain ⟨l, hl, rfl, hclaimed⟩ := mem_scopes_parallelLinks.1 hs
    obtain ⟨⟨sc, hsc, hends⟩, hdomain, -, -, -, hn⟩ := mem_openLinks.1 hl
    replace hclaimed : l.claimed ∈ r.elements := (hmem _).2 (.inr (.inr ⟨hmulti, hclaimed⟩))
    replace hn : l.neighbour ∈ r.elements := (hmem _).2 (.inl hn)
    refine ⟨hdomain, sc, hsc, ?_⟩
    rcases hends with ⟨ho, ht⟩ | ⟨ho, ht⟩ <;> simp [ho, ht, hclaimed, hn]

/-- An inner element outside the domain, with two unclaimed scopes of the domain that join it to
one leftover element. -/
def Stray (g : Graph) (domain mask : Selection) (e : ElementId) : Prop :=
  e ∉ domain.elements ∧ isExtent e = false ∧
    ∃ x ∈ domain.elements, isExtent x = false ∧ x ∉ mask.elements ∧
      ∃ s ∈ domain.scopes, ∃ s' ∈ domain.scopes, s ≠ s' ∧ s ∉ mask.scopes ∧ s' ∉ mask.scopes ∧
        Connects g s e x ∧ Connects g s' e x

/-- What the remainder holds from outside the domain. -/
theorem outside_iff_of_compute (h : compute g domain mask pairs multiEdge = some r)
    {e : ElementId} :
    (e ∈ r.elements ∧ e ∉ domain.elements) ↔ multiEdge = true ∧ Stray g domain mask e := by
  rw [(mem_of_compute h).1 e, openLinks, mem_parallelLinks (nodup_links _ _), ← openLinks]
  constructor
  · intro h
    obtain ⟨he, hout⟩ := h
    obtain he | he | ⟨hmulti, l, hl, l', hl', hne, rfl, hsame, hneighbour⟩ := he
    · exact absurd (mem_base.1 he).1 hout
    · exact absurd (IdSet.mem_filter.1 (mem_reconnection he)).1 hout
    · obtain ⟨hconn, hs, hsm, hinner, -, hn⟩ := mem_openLinks.1 hl
      obtain ⟨hconn', hs', hsm', -⟩ := mem_openLinks.1 hl'
      obtain ⟨hx, hxinner, hxm⟩ := mem_base.1 hn
      rw [hsame, ← hneighbour] at hconn'
      refine ⟨hmulti, hout, hinner, l.neighbour, hx, hxinner, hxm, l.scope, hs, l'.scope, hs',
        fun heq => hne ?_, hsm, hsm', hconn, hconn'⟩
      obtain ⟨c, s, n⟩ := l
      obtain ⟨c', s', n'⟩ := l'
      cases hsame
      cases hneighbour
      cases heq
      rfl
  · intro h
    obtain ⟨hmulti, hout, hinner, x, hx, hxinner, hxm, s, hs, s', hs', hne, hsm, hsm', hconn,
      hconn'⟩ := h
    have hbase : e ∉ (base g domain mask).elements := fun he => hout (mem_base.1 he).1
    have hleft := mem_base (g := g).2 ⟨hx, hxinner, hxm⟩
    refine ⟨.inr (.inr ⟨hmulti, ⟨e, s, x⟩, ?_, ⟨e, s', x⟩, ?_, ?_, rfl, rfl, rfl⟩), hout⟩
    · exact mem_openLinks.2 ⟨hconn, hs, hsm, hinner, hbase, hleft⟩
    · exact mem_openLinks.2 ⟨hconn', hs', hsm', hinner, hbase, hleft⟩
    · intro heq
      cases heq
      exact hne rfl

end Remainder
end Dataflow
