import Dataflow.Proofs.Cursor.Nesting
import Dataflow.Proofs.Cursor.Remainder

/-!
# Nothing of a domain is lost

Draining a remainder cursor gives what the wrapped cursor gives, and then the remainder of the
domain, if there is one. Together they have every element of the domain, extents aside. They
have no other element, unless parallel links lead out of the domain: then the remainder has
their ends too, though no part claims them.

Results:

* `RemainderCursor.exists_of_yields`: the parts of a remainder cursor;
* `Nest.within_domain`: the parts of other cursors stay within their domain;
* `Nest.covers_of_drain`: the parts of a remainder cursor cover its domain.
-/
namespace Dataflow

open Dataflow.Graph Cursor Relation

/-! ## The parts of a remainder cursor -/

namespace Remainder

/-- What is claimed once the parts were given, starting from what was claimed before. -/
def claimed (mask : Selection) (parts : List Selection) : Selection := parts.foldl (· ∪ ·) mask

theorem mem_claimed {mask : Selection} {parts : List Selection} {e : ElementId} :
    e ∈ (claimed mask parts).elements ↔ e ∈ mask.elements ∨ ∃ part ∈ parts, e ∈ part.elements := by
  induction parts generalizing mask with
  | nil => simp [claimed]
  | cons part parts ih =>
    rw [claimed, List.foldl_cons, ← claimed, ih]
    simp [or_assoc]

theorem mem_scopes_claimed {mask : Selection} {parts : List Selection} {s : ScopeId} :
    s ∈ (claimed mask parts).scopes ↔ s ∈ mask.scopes ∨ ∃ part ∈ parts, s ∈ part.scopes := by
  induction parts generalizing mask with
  | nil => simp [claimed]
  | cons part parts ih =>
    rw [claimed, List.foldl_cons, ← claimed, ih]
    simp [or_assoc]

theorem mem_claimed_empty {parts : List Selection} {e : ElementId} :
    e ∈ (claimed .empty parts).elements ↔ ∃ part ∈ parts, e ∈ part.elements := by
  rw [mem_claimed]
  exact or_iff_right IdSet.not_mem_empty

theorem claimed_empty (parts : List Selection) : claimed .empty parts =
    ⟨.unionOf parts Selection.elements, .unionOf parts Selection.scopes⟩ := by
  have helements : (claimed .empty parts).elements = .unionOf parts Selection.elements :=
    IdSet.ext_mem fun e => by rw [mem_claimed_empty, IdSet.mem_unionOf]
  have hscopes : (claimed .empty parts).scopes = .unionOf parts Selection.scopes := by
    refine IdSet.ext_mem fun s => ?_
    rw [mem_scopes_claimed, IdSet.mem_unionOf]
    exact or_iff_right IdSet.not_mem_empty
  rw [← helements, ← hscopes]

end Remainder

namespace RemainderCursor

variable {σ : Type} [Cursor σ]

variable [Lawful σ]

theorem remainder_settle {c : RemainderCursor σ} (hc : c.computed = false) :
    c.asked.settle.remainder = Remainder.compute (graph c.inner) (domain c.inner) c.mask
      (pairs c.inner) c.multiEdge := by
  simp [settle, asked, hc]

omit [Lawful σ] in
/-- Once the remainder is taken, nothing comes any more. -/
theorem hasNext_of_taken {c : RemainderCursor σ} (h : (Cursor.hasNext c.inner).1 = false)
    (hcomputed : c.computed = true) (hnone : c.remainder = none) :
    hasNext c = (false, c.asked.settle) := by
  have hcomputed' : c.asked.computed = true := hcomputed
  rw [hasNext_of_settled h (if_pos hcomputed'), settle, if_pos hcomputed']
  simp [asked, hnone]

omit [Lawful σ] in
theorem eq_nil_of_yields {c c' : RemainderCursor σ} {parts : List Selection}
    (h : (Cursor.hasNext c.inner).1 = false) (hcomputed : c.computed = true)
    (hnone : c.remainder = none) (hy : Yields c parts c') : parts = [] := by
  have hspent := congrArg Prod.fst (hasNext_of_taken h hcomputed hnone)
  cases hy with
  | spent => rfl
  | more hmore =>
    replace hmore : (hasNext c).1 = true := hmore
    rw [hspent] at hmore
    cases hmore

/-- The parts are those of the wrapped cursor and the remainder, if there is one. -/
theorem exists_of_yields {c c' : RemainderCursor σ} {parts : List Selection}
    (h : Yields c parts c') (hc : c.computed = false) :
    ∃ wrapped d, Yields c.inner wrapped d ∧ parts = wrapped ++
      (Remainder.compute (graph c.inner) (domain c.inner) (Remainder.claimed c.mask wrapped)
        (pairs d) c.multiEdge).toList := by
  induction h with
  | @spent c hspent =>
    replace hspent : (hasNext c).1 = false := hspent
    obtain h | ⟨h, ref, hb⟩ | ⟨h, hb⟩ := c.call_cases
    · simp [hasNext_of_more h] at hspent
    · simp [hasNext_of_blocked h hb] at hspent
    · have hnone : c.asked.settle.remainder = none := by simpa [hasNext_of_settled h hb] using hspent
      refine ⟨[], _, .spent h, ?_⟩
      rw [remainder_settle hc] at hnone
      simp [Remainder.claimed, hnone]
  | @more c c' s parts hmore hs hrest ih =>
    rw [Lawful.next_hasNext] at hs hrest ih
    replace hs : (next c).1 = .ok s := hs
    change Yields (next c).2 parts c' at hrest
    obtain h | ⟨h, ref, hb⟩ | ⟨h, hb⟩ := c.call_cases
    · cases hs' : (Cursor.next c.inner).1 with
      | error e => simp [next_of_error h hs'] at hs
      | ok s' =>
        have hstate : (Cursor.next c).2 =
            { c with inner := (Cursor.next c.inner).2, mask := c.mask ∪ s' } :=
          congrArg Prod.snd (next_of_ok h hs')
        rw [next_of_ok h hs'] at hs
        cases hs
        rw [hstate] at ih
        obtain ⟨wrapped, d, hy, rfl⟩ := ih hc
        refine ⟨s :: wrapped, d, .more h ?_ ?_, ?_⟩
        · rwa [Lawful.next_hasNext]
        · rwa [Lawful.next_hasNext]
        · simp [Remainder.claimed]
    · simp [next_of_blocked h hb] at hs
    · rw [next_of_settled h hb] at hs hrest
      have hspent : (Cursor.hasNext c.asked.settle.inner).1 = false := by
        rwa [hasNext_inner_settle]
      obtain rfl := eq_nil_of_yields (c := { c.asked.settle with remainder := none }) hspent
        computed_settle rfl hrest
      have hsome : c.asked.settle.remainder = some s := by
        cases hr : c.asked.settle.remainder with
        | none => simp [hr] at hs
        | some r => simpa [hr] using hs
      refine ⟨[], _, .spent h, ?_⟩
      rw [remainder_settle hc] at hsome
      simp [Remainder.claimed, hsome]

end RemainderCursor

/-! ## Parts stay within the domain -/

theorem OnceCursor.within (c : OnceCursor) : Within (· ∈ c.domain.elements) c := by
  refine within_of (P := fun c' : OnceCursor => c'.domain = c.domain) (fun _ h => h)
    (fun c' h => ?_) (fun c' s h hs e he => ?_) rfl
  · exact (Lawful.domain_next c').trans h
  · cases hy : c'.yielded with
    | true => simp [Cursor.next, hy] at hs
    | false =>
      simp only [Cursor.next, hy, Bool.false_eq_true, if_false, Except.ok.injEq] at hs
      rwa [← h, hs]

namespace MotifCursor

/-- What is given is the part of the view behind some vertices. -/
theorem eq_of_next {c : MotifCursor} {s : Selection} (h : c.next.1 = .ok s) :
    ∃ vertices, s = c.contraction.selection vertices := by
  unfold next at h
  dsimp only at h
  split at h
  · cases h
  · next m _ =>
    split at h
    · cases h
    · cases h
      refine ⟨m.vertices, ?_⟩
      rw [← c.contraction_advance]
      rfl

theorem within {c : MotifCursor} (h : ∃ v test, c.contraction = View.contract v test) :
    Within (· ∈ c.contraction.view.mask.elements) c := by
  obtain ⟨v, test, hc⟩ := h
  rw [show c.contraction.view = v from congrArg Contraction.view hc]
  refine within_of (P := fun c : MotifCursor => c.contraction = View.contract v test)
    (fun c hc => c.contraction_advance.trans hc) (fun c hc => c.contraction_next.trans hc)
    (fun c s hc hs e he => ?_) hc
  obtain ⟨vertices, rfl⟩ := eq_of_next hs
  rw [hc] at he
  obtain ⟨r, -, he⟩ := IdSet.mem_unionOf.1 he
  exact (View.mem_vertices_iff.1 (Contraction.mem_view_of_mem_members he)).1

end MotifCursor

namespace PathCursor

/-- The paths of a selection stay within it. -/
theorem mem_of_decompose {g : Graph} {longest : Bool} {s : Selection} {queue : List Selection}
    {pair : ElementId × ElementId} (h : decompose g longest s = .ok (queue, pair))
    {part : Selection} (hpart : part ∈ queue) {e : ElementId} (he : e ∈ part.elements) :
    e ∈ s.elements := by
  obtain ⟨-, -, rfl⟩ := decompose_eq_ok h
  obtain ⟨path, hpath, rfl⟩ := List.mem_map.1 hpart
  have hmem : path ∈ (s.view g).topology.paths pair.1 pair.2 := by
    unfold listed at hpath
    split at hpath
    · exact List.mem_reverse.1 hpath
    · exact hpath
  refine Topology.mem_of_mem_paths (P := (· ∈ s.elements)) (fun v hv => ?_) (fun v w hvw => ?_) hmem
    e (mem_elements_along.1 he)
  · exact (View.mem_vertices_iff.1 hv).1
  · obtain ⟨sc, hsc⟩ := View.next_iff.1 hvw
    exact (View.mem_edgesOut.1 hsc).2.2.2

variable {σ : Type} [Cursor σ] [Lawful σ] {p : ElementId → Prop}

theorem within {c : PathCursor σ} (h : Within p c.inner)
    (hqueue : ∀ s ∈ c.queue, ∀ e ∈ s.elements, p e) : Within p c := by
  have hrefill : ∀ c c' : PathCursor σ, Refill c c' →
      (Within p c.inner ∧ ∀ s ∈ c.queue, ∀ e ∈ s.elements, p e) →
        Within p c'.inner ∧ ∀ s ∈ c'.queue, ∀ e ∈ s.elements, p e := by
    intro c c' hstep hc
    cases hstep with
    | ask => exact ⟨hc.1.hasNext, hc.2⟩
    | drop => exact ⟨hc.1.next, hc.2⟩
    | split _ hs hd =>
      exact ⟨hc.1.next, fun part hpart e he => hc.1.of_next hs e (mem_of_decompose hd hpart he)⟩
  have hfilled : ∀ c : PathCursor σ, (Within p c.inner ∧ ∀ s ∈ c.queue, ∀ e ∈ s.elements, p e) →
      Within p c.filled.inner ∧ ∀ s ∈ c.filled.queue, ∀ e ∈ s.elements, p e :=
    fun c hc => fill_preserves hrefill _ hc
  refine within_of (P := fun c : PathCursor σ => Within p c.inner ∧
    ∀ s ∈ c.queue, ∀ e ∈ s.elements, p e) (fun c hc => ?_) (fun c hc => ?_) (fun c s hc hs => ?_)
    ⟨h, hqueue⟩
  · obtain ⟨inner, longest, queue, pairs⟩ := c
    cases queue with
    | nil => exact ⟨hc.1.hasNext, hc.2⟩
    | cons s queue => exact hc
  · show Within p (next c).2.inner ∧ ∀ s ∈ (next c).2.queue, _
    rw [next_snd]
    exact ⟨(hfilled c hc).1, fun s hs => (hfilled c hc).2 s (List.mem_of_mem_tail hs)⟩
  · refine (hfilled c hc).2 s ?_
    replace hs : (next c).1 = .ok s := hs
    rw [next_fst] at hs
    cases hfill : (c.fill (capacity c.inner + 1)).1 with
    | error e => simp [hfill, Except.bind] at hs
    | ok _ =>
      cases hq : c.filled.queue with
      | nil => simp [hfill, hq, Except.bind] at hs
      | cons first rest =>
        have hfirst : first = s := by simpa [hfill, hq, Except.bind] using hs
        simp [hfirst]

end PathCursor

namespace RemainderCursor

variable {σ : Type} [Cursor σ] [Lawful σ] {p : ElementId → Prop}

/-- What the wrapped cursor still gives, and the remainder that is to be taken, have `p`. -/
structure Keeps (g : Graph) (domain : Selection) (multiEdge : Bool) (p : ElementId → Prop)
    (c : RemainderCursor σ) : Prop where
  inner : Within p c.inner
  remainder : ∀ r, c.remainder = some r → ∀ e ∈ r.elements, p e
  graph : Cursor.graph c.inner = g
  domain : Cursor.domain c.inner = domain
  multiEdge : c.multiEdge = multiEdge

variable {g : Graph} {domain : Selection} {multiEdge : Bool} {c : RemainderCursor σ}

theorem Keeps.asked (h : c.Keeps g domain multiEdge p) : c.asked.Keeps g domain multiEdge p where
  inner := h.inner.hasNext
  remainder := h.remainder
  graph := (Lawful.graph_hasNext c.inner).trans h.graph
  domain := (Lawful.domain_hasNext c.inner).trans h.domain
  multiEdge := h.multiEdge

omit [Lawful σ] in
theorem Keeps.settle (h : c.Keeps g domain multiEdge p)
    (hcompute : ∀ mask pairs r, Remainder.compute g domain mask pairs multiEdge = some r →
      ∀ e ∈ r.elements, p e) : c.settle.Keeps g domain multiEdge p := by
  unfold RemainderCursor.settle
  split
  · exact h
  · refine ⟨h.inner, fun r hr => ?_, h.graph, h.domain, h.multiEdge⟩
    dsimp only at hr
    rw [h.graph, h.domain, h.multiEdge] at hr
    exact hcompute _ _ r hr

theorem Keeps.next (h : c.Keeps g domain multiEdge p) {mask : Selection} :
    ({ c with inner := (Cursor.next c.inner).2, mask } : RemainderCursor σ).Keeps
      g domain multiEdge p where
  inner := h.inner.next
  remainder := h.remainder
  graph := (Lawful.graph_next c.inner).trans h.graph
  domain := (Lawful.domain_next c.inner).trans h.domain
  multiEdge := h.multiEdge

theorem within (h : c.Keeps g domain multiEdge p)
    (hcompute : ∀ mask pairs r, Remainder.compute g domain mask pairs multiEdge = some r →
      ∀ e ∈ r.elements, p e) : Within p c := by
  refine within_of (P := Keeps g domain multiEdge p) (fun c hc => ?_) (fun c hc => ?_)
    (fun c s hc hs => ?_) h
  · show Keeps _ _ _ _ (hasNext c).2
    obtain h | h := c.hasNext_snd_cases
    · rw [h]
      exact hc.asked
    · rw [h]
      exact hc.asked.settle hcompute
  · show Keeps _ _ _ _ (RemainderCursor.next c).2
    obtain ⟨e, -, hnext⟩ | ⟨s, -, hnext⟩ | ⟨-, ref, hnext⟩ | ⟨-, hnext⟩ := c.next_cases
    · rw [hnext]
      exact hc.next
    · rw [hnext]
      exact hc.next
    · rw [hnext]
      exact hc.asked
    · rw [hnext]
      obtain ⟨hinner, -, hgraph, hdomain, hmulti⟩ := hc.asked.settle hcompute
      exact ⟨hinner, fun r hr => (by cases hr), hgraph, hdomain, hmulti⟩
  · replace hs : (RemainderCursor.next c).1 = .ok s := hs
    obtain ⟨e, -, hnext⟩ | ⟨s', hs', hnext⟩ | ⟨-, ref, hnext⟩ | ⟨-, hnext⟩ := c.next_cases
    · simp [hnext] at hs
    · rw [hnext] at hs
      cases hs
      exact hc.inner.of_next hs'
    · simp [hnext] at hs
    · rw [hnext] at hs
      cases hr : c.asked.settle.remainder with
      | none => simp [hr] at hs
      | some r =>
        obtain rfl : r = s := by simpa [hr] using hs
        exact (hc.asked.settle hcompute).remainder r hr

end RemainderCursor

/-! ## What the parts cover -/

/-- Every scope of the selection that joins two inner elements has both of them in it. -/
def Selection.Closed (g : Graph) (a : Selection) : Prop :=
  ∀ s ∈ a.scopes, ∀ x y, Remainder.Connects g s x y → isExtent x = false → isExtent y = false →
    x ∈ a.elements

theorem Selection.Closed.not_stray {g : Graph} {domain mask : Selection} (h : domain.Closed g)
    (e : ElementId) : ¬ Remainder.Stray g domain mask e := by
  intro hstray
  obtain ⟨hout, hinner, x, -, hx, -, s, hs, -, -, -, -, -, hconn, -⟩ := hstray
  exact hout (h s hs e x hconn hinner hx)

namespace Remainder

section Parts

variable {g : Graph} {domain : Selection} {multiEdge : Bool} {wrapped : List Selection}
  {pairs : List (ElementId × ElementId)} {rest : Option Selection}
  (hrest : compute g domain (claimed .empty wrapped) pairs multiEdge = rest)
include hrest

/-- An inner element of the domain is in a part, or else it is in the remainder. -/
theorem exists_part_of_compute {e : ElementId} (he : e ∈ domain.elements)
    (hx : isExtent e = false) : ∃ part ∈ wrapped ++ rest.toList, e ∈ part.elements := by
  by_cases hclaimed : e ∈ (claimed .empty wrapped).elements
  · obtain ⟨part, hpart, hep⟩ := mem_claimed_empty.1 hclaimed
    exact ⟨part, List.mem_append_left _ hpart, hep⟩
  · obtain ⟨r, hr, her⟩ := mem_compute g pairs multiEdge he hx hclaimed
    exact ⟨r, List.mem_append_right _ (Option.mem_toList.2 (hrest.symm.trans hr)), her⟩

/-- Where the parts stay within the domain, only what parallel links lead to can be outside. -/
theorem union_iff_of_compute
    (hwithin : ∀ part ∈ wrapped, ∀ e ∈ part.elements, e ∈ domain.elements) :
    (∀ e, isExtent e = false → ((∃ part ∈ wrapped ++ rest.toList, e ∈ part.elements) ↔
      e ∈ domain.elements)) ↔
    ∀ e, ¬ (multiEdge = true ∧ Stray g domain (claimed .empty wrapped) e) := by
  constructor
  · intro hunion e hstray
    obtain ⟨-, -, hx, x, hxd, hxi, hxm, -⟩ := id hstray
    -- what the links lead to is left over, so there is a remainder
    obtain ⟨r, hr, -⟩ := mem_compute g pairs multiEdge hxd hxi hxm
    obtain ⟨her, hout⟩ := (outside_iff_of_compute hr).2 hstray
    have hpart : r ∈ wrapped ++ rest.toList :=
      List.mem_append_right _ (Option.mem_toList.2 (hrest.symm.trans hr))
    exact hout ((hunion e hx).1 ⟨r, hpart, her⟩)
  · intro hnone e hx
    refine ⟨fun h => ?_, fun he => exists_part_of_compute hrest he hx⟩
    obtain ⟨part, hpart, hep⟩ := h
    rcases List.mem_append.1 hpart with hpart | hpart
    · exact hwithin part hpart e hep
    · by_contra hout
      have hr : rest = some part := Option.mem_toList.1 hpart
      exact hnone e ((outside_iff_of_compute (hrest.trans hr)).1 ⟨hep, hout⟩)

end Parts

end Remainder

namespace Nest

/-- No remainder cursor of the nest can add parallel links that lead out of its domain. -/
def Contained : Nest → Prop
  | once _ _ => True
  | motif _ _ => True
  | paths inner _ => inner.Contained
  | remainder inner multiEdge =>
    inner.Contained ∧ (multiEdge = true → (domain inner.start).Closed (graph inner.start))

/-- What the cursor of a nest gives stays within its domain. -/
theorem within_domain : (n : Nest) → n.Contained → Within (· ∈ (domain n.start).elements) n.start
  | once g s, _ => OnceCursor.within (.new g s)
  | motif c h, _ => by
    obtain ⟨ms, hms⟩ := h.awaits
    exact MotifCursor.within hms.contracts
  | paths inner _, h => PathCursor.within (inner.within_domain h) (by intro s hs; cases hs)
  | remainder inner multiEdge, h => by
    refine RemainderCursor.within (c := RemainderCursor.new inner.start multiEdge)
      ⟨inner.within_domain h.1, fun r hr => (by cases hr), rfl, rfl, rfl⟩ fun mask pairs r hr e he => ?_
    show e ∈ (domain inner.start).elements
    by_contra hout
    obtain ⟨hmulti, hstray⟩ := (Remainder.outside_iff_of_compute hr).1 ⟨he, hout⟩
    exact (h.2 hmulti).not_stray e hstray

/-- What it means that the parts `wrapped` of a nest and the remainder `rest` cover the domain. -/
structure Covers (n : Nest) (multiEdge : Bool) (wrapped : List Selection)
    (rest : Option Selection) : Prop where
  /-- There is a remainder exactly if some inner element of the domain is in no part. -/
  present : rest.isSome = true ↔ ∃ e ∈ (domain n.start).elements, isExtent e = false ∧
    ∀ part ∈ wrapped, e ∉ part.elements
  /-- It has all of those, -/
  keeps : ∀ r ∈ rest, ∀ e ∈ (domain n.start).elements, isExtent e = false →
    (∀ part ∈ wrapped, e ∉ part.elements) → e ∈ r.elements
  /-- but no extent. -/
  inner : ∀ r ∈ rest, ∀ e ∈ r.elements, isExtent e = false
  /-- Its scopes are scopes of the domain, and it has their ends. -/
  scopes : ∀ r ∈ rest, ∀ s ∈ r.scopes, s ∈ (domain n.start).scopes ∧
    ∃ sc, (graph n.start).scope? s = some sc ∧ sc.origin ∈ r.elements ∧ sc.target ∈ r.elements
  /-- Together with it the parts have every inner element of the domain. -/
  covers : ∀ e ∈ (domain n.start).elements, isExtent e = false →
    ∃ part ∈ wrapped ++ rest.toList, e ∈ part.elements
  /-- It has an element from outside the domain exactly if parallel links lead there. -/
  outside : ∀ r ∈ rest, ∀ e, (e ∈ r.elements ∧ e ∉ (domain n.start).elements) ↔
    multiEdge = true ∧
      Remainder.Stray (graph n.start) (domain n.start) (Remainder.claimed .empty wrapped) e
  /-- Without such links, and with none among the parts, the parts have no other inner element. -/
  union : n.Contained →
    ((∀ e, isExtent e = false → ((∃ part ∈ wrapped ++ rest.toList, e ∈ part.elements) ↔
      e ∈ (domain n.start).elements)) ↔
    ∀ e, ¬ (multiEdge = true ∧
      Remainder.Stray (graph n.start) (domain n.start) (Remainder.claimed .empty wrapped) e))

theorem covers_of_compute {n : Nest} {multiEdge : Bool} (hg : (graph n.start).Agrees)
    {wrapped : List Selection} {pairs : List (ElementId × ElementId)} {rest : Option Selection}
    (hrest : Remainder.compute (graph n.start) (domain n.start) (Remainder.claimed .empty wrapped)
      pairs multiEdge = rest)
    (hwithin : n.Contained → ∀ part ∈ wrapped, ∀ e ∈ part.elements,
      e ∈ (domain n.start).elements) : n.Covers multiEdge wrapped rest := by
  constructor
  case present =>
    rw [← hrest, Remainder.isSome_compute_iff]
    simp only [Remainder.mem_claimed_empty, not_exists, not_and]
  case keeps =>
    intro r hr e he hx hnone
    have hunclaimed : e ∉ (Remainder.claimed .empty wrapped).elements := by
      simpa only [Remainder.mem_claimed_empty, not_exists, not_and] using hnone
    obtain ⟨r', hr', her⟩ :=
      Remainder.mem_compute (graph n.start) pairs multiEdge he hx hunclaimed
    cases (hrest.symm.trans hr').symm.trans hr
    exact her
  case inner =>
    intro r hr e he
    exact Remainder.isExtent_of_compute (hrest.trans hr) he
  case scopes =>
    intro r hr s hs
    exact Remainder.scopes_of_compute hg (hrest.trans hr) hs
  case covers =>
    intro e he hx
    exact Remainder.exists_part_of_compute hrest he hx
  case outside =>
    intro r hr e
    exact Remainder.outside_iff_of_compute (hrest.trans hr)
  case union =>
    intro hcontained
    exact Remainder.union_iff_of_compute hrest (hwithin hcontained)

/-- **A remainder cursor loses nothing.** When it gives its last part, the parts of the wrapped
cursor and the remainder cover the domain; what they have from outside of it are the ends of
parallel links, if they were asked for. -/
theorem covers_of_drain (n : Nest) (multiEdge : Bool) (hg : (graph n.start).Agrees)
    {parts : List Selection} (h : (drain (remainder n multiEdge).start).1 = .ok parts) :
    ∃ wrapped rest, (drain n.start).1 = .ok wrapped ∧ parts = wrapped ++ rest.toList ∧
      n.Covers multiEdge wrapped rest := by
  have hy := (drain_eq_ok_iff (remainder n multiEdge).measured.endsWithin).1 (Prod.ext h rfl)
  obtain ⟨wrapped, d, hwrapped, rfl⟩ := RemainderCursor.exists_of_yields
    (c := RemainderCursor.new n.start multiEdge) hy rfl
  have hdrain : drain n.start = (.ok wrapped, d) :=
    (drain_eq_ok_iff n.measured.endsWithin).2 hwrapped
  refine ⟨wrapped, _, congrArg Prod.fst hdrain, rfl, covers_of_compute hg rfl fun hcontained => ?_⟩
  exact (n.within_domain hcontained).of_yields hwrapped

end Nest

/-- Two operations feed the merge. What neither match has is before and behind them, so the
remainder has all that lies between. -/
theorem covers_braided : ∃ g c, ∃ h : MotifCursor.Fresh c, braided.toGraph = .ok g ∧
    (graph (Nest.motif c h).start).Agrees ∧ ∃ parts wrapped rest,
      (drain (Nest.remainder (.motif c h) true).start).1 = .ok parts ∧
        (drain (Nest.motif c h).start).1 = .ok wrapped ∧ parts = wrapped ++ rest.toList ∧
          (Nest.motif c h).Covers true wrapped rest ∧
            parts.map (fun part => part.elements.toList) =
              [[4, 6], [5, 6], [2, 3, 4, 5, 6, 7]] := by
  have hany : (braided.toGraph.toOption.any fun g =>
      (MotifCursor.new (.whole g) none feedsMerge false).toOption.any fun c =>
        (drain (RemainderCursor.new c true)).1.toOption.any fun parts =>
          decide (parts.map (fun part => part.elements.toList) =
            [[4, 6], [5, 6], [2, 3, 4, 5, 6, 7]])) = true := by cbv
  obtain ⟨g, hd, hany⟩ := exists_ok_of_any hany
  obtain ⟨c, hc, hany⟩ := exists_ok_of_any hany
  obtain ⟨parts, hparts, hany⟩ := exists_ok_of_any hany
  have hfresh : c.Fresh := ⟨.whole g, none, feedsMerge, false, hc⟩
  have hg : (graph (Nest.motif c hfresh).start).Agrees := by
    obtain ⟨m, -, rfl⟩ := map_eq_ok.1 hc
    exact (Definition.toGraph_layout hd).agrees
  obtain ⟨wrapped, rest, hwrapped, heq, hcovers⟩ :=
    Nest.covers_of_drain (.motif c hfresh) true hg hparts
  exact ⟨g, c, hfresh, hd, hg, parts, wrapped, rest, hparts, hwrapped, heq, hcovers,
    of_decide_eq_true hany⟩

/-- A merge that reads a pipe twice. -/
def tethered : Graph :=
  let g := ((empty "tethered").addElement ⟨"outside", .pipe⟩).2
  (((g.addElement ⟨"inside", .merge⟩).2.addScope 2 3 0).2.addScope 2 3 1).2

/-- The merge, with both scopes that lead to it. -/
def tetheredPart : Selection := ⟨.singleton 3, .ofList [0, 1]⟩

/-- Looks in that part for operations that feed a merge. -/
def unmatched : MotifCursor where
  contraction := (tetheredPart.view tethered).uncontracted
  matcher := ⟨feedsMerge, 0, feedsMerge.searchOrder 0⟩
  firstOnly := true
  exclusions := ∅
  pending := none
  last := none

theorem fresh_unmatched : unmatched.Fresh :=
  ⟨tetheredPart.view tethered, none, feedsMerge, true, rfl⟩

/-- Nothing matches, and the remainder has the pipe, which is not in the domain. -/
theorem tethered_overreaches : tethered.Agrees ∧
    (∀ e ∈ tetheredPart.elements, tethered.contains e = true) ∧
      (∀ s ∈ tetheredPart.scopes, tethered.containsScope s = true) ∧
        domain (Nest.motif unmatched fresh_unmatched).start = tetheredPart ∧
          ∃ parts, (drain (Nest.remainder (.motif unmatched fresh_unmatched) true).start).1 =
            .ok parts ∧ isExtent 2 = false ∧ 2 ∉ tetheredPart.elements ∧
              ∃ part ∈ parts, 2 ∈ part.elements := by
  have hany : ((drain (Nest.remainder (.motif unmatched fresh_unmatched) true).start).1.toOption.any
      fun parts => parts.any fun part => decide (2 ∈ part.elements)) = true := by cbv
  obtain ⟨parts, hparts, hany⟩ := exists_ok_of_any hany
  obtain ⟨part, hpart, hmem⟩ := List.any_eq_true.1 hany
  refine ⟨?_, by decide, by decide, rfl, parts, hparts, rfl, by decide, part, hpart,
    of_decide_eq_true hmem⟩
  refine agrees_addScope (agrees_addScope ?_ ?_ ?_) ?_ ?_
  · exact agrees_addElement (agrees_addElement (agrees_empty _) _) _
  all_goals decide

end Dataflow
