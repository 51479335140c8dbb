import Dataflow.Motif.Matcher

/-!
# What an assignment satisfies

The search grows assignments one motif vertex at a time and checks each vertex when
it is added. Every complete assignment therefore passes every vertex test, and the
scopes of a match join vertices that pass the tests at the ends of a motif edge.

Results:

* `assignments_induction`: what holds of a complete assignment as it grew;
* `admits_of_mem_assignments`: every assigned vertex passes its test;
* `matchAt?_eq_some`: a full match is the union of its assignments;
* `mem_scopes_of_firstMatch?`: where the scopes of a match come from;
* `Places.exists_firstMatch?`: a motif that occurs is found;
* `edgesHeld_of_mem_assignments`: a complete assignment has a scope for every edge.
-/
namespace Dataflow

/-- The edges that enter a vertex are those that leave the others. -/
def Target.Dual (t : Target) : Prop := ∀ s v w, (s, w) ∈ t.edgesOut v ↔ (s, v) ∈ t.edgesIn w

namespace Matcher

variable {m : Matcher} {t : Target}

theorem extensions_nil (a : Assignment) : m.extensions t [] a = [a] := rfl

/-- An assignment is grown by a candidate that fits. -/
theorem mem_extensions_cons {p : Nat} {rest : List Nat} {a b : Assignment} :
    b ∈ m.extensions t (p :: rest) a ↔
      ∃ v ∈ m.candidates t a p, m.fits t a p v = true ∧ b ∈ m.extensions t rest ((p, v) :: a) := by
  simp only [extensions, List.mem_flatMap, List.mem_filter, and_assoc]

theorem admits_of_fits {a : Assignment} {p : Nat} {v : ElementId} (h : m.fits t a p v = true) :
    m.admits t p v = true := by
  simp only [fits, Bool.and_eq_true] at h
  exact h.1.2

theorem extensions_induction {P : Assignment → Prop} {l : List Nat} {a b : Assignment} (ha : P a)
    (hstep : ∀ c p v, P c → m.fits t c p v = true → P ((p, v) :: c))
    (hb : b ∈ m.extensions t l a) : P b := by
  induction l generalizing a with
  | nil =>
    rw [List.mem_singleton.1 hb]
    exact ha
  | cons p rest ih =>
    obtain ⟨v, -, hfit, hb⟩ := mem_extensions_cons.1 hb
    exact ih (hstep a p v ha hfit) hb

/-- The search starts with the anchor and grows what it has by one motif vertex after the other. -/
theorem mem_assignments {anchor : ElementId} {a : Assignment} : a ∈ m.assignments t anchor ↔
    m.edgesHold t [] m.primary anchor = true ∧
      a ∈ m.extensions t m.order.tail [(m.primary, anchor)] := by
  unfold assignments
  split
  · next h => exact (and_iff_right h).symm
  · next h => exact iff_of_false List.not_mem_nil fun ha => h ha.1

/-- What holds of the anchor alone, and stays as candidates that fit are added, holds of every
complete assignment. -/
theorem assignments_induction {P : Assignment → Prop} {anchor : ElementId} {a : Assignment}
    (ha : a ∈ m.assignments t anchor)
    (hanchor : m.edgesHold t [] m.primary anchor = true → P [(m.primary, anchor)])
    (hstep : ∀ c p v, P c → m.fits t c p v = true → P ((p, v) :: c)) : P a := by
  obtain ⟨hedges, ha⟩ := mem_assignments.1 ha
  exact extensions_induction (hanchor hedges) hstep ha

/-- Every assigned vertex passes its test. -/
theorem admits_of_mem_assignments {anchor : ElementId} {a : Assignment}
    (hanchor : m.admits t m.primary anchor = true) (ha : a ∈ m.assignments t anchor) :
    ∀ x ∈ a, m.admits t x.1 x.2 = true := by
  refine assignments_induction (P := fun a => ∀ x ∈ a, m.admits t x.1 x.2 = true) ha
    (fun _ x hx => ?_) fun c p v hc hfit x hx => ?_
  · rw [List.mem_singleton.1 hx]
    exact hanchor
  · rcases List.mem_cons.1 hx with rfl | hx
    · exact admits_of_fits hfit
    · exact hc x hx

theorem mem_of_lookup {a : Assignment} {p : Nat} {v : ElementId} (h : a.lookup p = some v) :
    (p, v) ∈ a := by
  obtain ⟨before, after, rfl, -⟩ := List.lookup_eq_some_iff.1 h
  exact List.mem_append_right _ List.mem_cons_self

theorem mem_scopesOf {a : Assignment} {s : ScopeId} :
    s ∈ m.scopesOf t a ↔ ∃ e ∈ m.motif.edges, ∃ v w, a.lookup e.origin = some v ∧
      a.lookup e.target = some w ∧ s ∈ t.scopesBetween v w e.test := by
  simp only [scopesOf, IdSet.mem_ofList, List.mem_flatMap]
  constructor
  · rintro ⟨e, he, hs⟩
    split at hs
    · next v w hv hw => exact ⟨e, he, v, w, hv, hw, hs⟩
    · cases hs
  · rintro ⟨e, he, v, w, hv, hw, hs⟩
    exact ⟨e, he, by simp only [hv, hw]; exact hs⟩

theorem mem_scopesBetween {v w : ElementId} {test : ScopeTest} {s : ScopeId} :
    s ∈ t.scopesBetween v w test ↔
      (s, w) ∈ t.edgesOut v ∧ (t.graph.scope? s).any test.admits = true := by
  simp only [Target.scopesBetween, List.mem_filterMap]
  constructor
  · rintro ⟨⟨s', w'⟩, he, h⟩
    split at h
    · next hw =>
      obtain ⟨rfl, hs⟩ := hw
      cases h
      exact ⟨he, hs⟩
    · cases h
  · rintro ⟨he, hs⟩
    exact ⟨(s, w), he, if_pos ⟨rfl, hs⟩⟩

/-- A full match holds what all assignments around its anchor hold. -/
theorem matchAt?_eq_some {anchor : ElementId} {mt : Match}
    (h : m.matchAt? t false anchor = some mt) :
    (∃ a, a ∈ m.assignments t anchor) ∧ mt = m.merge t anchor (m.assignments t anchor) := by
  unfold matchAt? at h
  split at h
  · cases h
  · next a rest ha =>
    cases h
    refine ⟨⟨a, ?_⟩, ?_⟩
    · rw [ha]
      exact List.mem_cons_self
    · rw [ha]
      rfl

/-- Where there is an assignment there is a match. -/
theorem exists_matchAt? {anchor : ElementId} {a : Assignment} (h : a ∈ m.assignments t anchor)
    (firstOnly : Bool) : ∃ mt, m.matchAt? t firstOnly anchor = some mt := by
  unfold matchAt?
  split
  · next hnil => rw [hnil] at h; cases h
  · exact ⟨_, rfl⟩

/-- A match comes from assignments around an anchor that passes the primary test. -/
theorem firstMatch?_eq_some {exclusions : IdSet} {mt : Match}
    (h : m.firstMatch? t exclusions true = some mt) :
    ∃ anchor a, m.admits t m.primary anchor = true ∧ a ∈ m.assignments t anchor ∧
      mt = m.merge t anchor [a] := by
  obtain ⟨anchor, hanchor, hmatch⟩ := List.exists_of_findSome?_eq_some h
  simp only [anchors, List.mem_filter, Bool.and_eq_true] at hanchor
  unfold matchAt? at hmatch
  split at hmatch
  · cases hmatch
  · next a rest ha =>
    cases hmatch
    exact ⟨anchor, a, hanchor.2.2, by rw [ha]; exact List.mem_cons_self, rfl⟩

/-- A scope of a match joins vertices that pass the tests at the ends of an edge. -/
theorem mem_scopes_of_firstMatch? {exclusions : IdSet} {mt : Match} {s : ScopeId}
    (h : m.firstMatch? t exclusions true = some mt) (hs : s ∈ mt.scopes) :
    ∃ e ∈ m.motif.edges, ∃ v w, m.admits t e.origin v = true ∧ m.admits t e.target w = true ∧
      (s, w) ∈ t.edgesOut v := by
  obtain ⟨anchor, a, hanchor, ha, rfl⟩ := firstMatch?_eq_some h
  obtain ⟨b, hb, hs⟩ := IdSet.mem_unionOf.1 hs
  rw [List.mem_singleton.1 hb] at hs
  obtain ⟨e, he, v, w, hv, hw, hs⟩ := mem_scopesOf.1 hs
  have hadm := admits_of_mem_assignments hanchor ha
  exact ⟨e, he, v, w, hadm _ (mem_of_lookup hv), hadm _ (mem_of_lookup hw),
    (mem_scopesBetween.1 hs).1⟩

/-! ## A motif that occurs is found -/

/-- `f` puts the motif into the target: its vertices stay apart and pass their tests, and
every edge has a counterpart. -/
structure Places (m : Matcher) (t : Target) (f : Nat → ElementId) : Prop where
  injective : ∀ p < m.motif.size, ∀ q < m.motif.size, f p = f q → p = q
  admits : ∀ p < m.motif.size, m.admits t p (f p) = true
  edges : ∀ e ∈ m.motif.edges, t.scopesBetween (f e.origin) (f e.target) e.test ≠ []

/-- The listed motif vertices are new, and each is next to one before it. -/
def chained (m : Motif) : (assigned todo : List Nat) → Bool
  | _, [] => true
  | assigned, p :: rest =>
    decide (p < m.size) && !assigned.contains p && (m.neighbours p).any assigned.contains &&
      chained m (p :: assigned) rest

variable {f : Nat → ElementId}

theorem lookup_eq {a : Assignment} (ha : ∀ x ∈ a, x.2 = f x.1) {p : Nat} {v : ElementId}
    (h : a.lookup p = some v) : v = f p :=
  ha _ (mem_of_lookup h)

theorem exists_lookup {a : Assignment} {p : Nat} (h : p ∈ a.map Prod.fst) :
    ∃ v, a.lookup p = some v := by
  obtain ⟨x, hx, rfl⟩ := List.mem_map.1 h
  exact Option.isSome_iff_exists.1 (List.lookup_isSome_iff.2 ⟨x, hx, beq_self_eq_true _⟩)

theorem Places.mem_successors (h : m.Places t f) {e : MotifEdge} (he : e ∈ m.motif.edges) :
    f e.target ∈ t.successors (f e.origin) := by
  obtain ⟨s, hs⟩ := List.exists_mem_of_ne_nil _ (h.edges e he)
  exact IdSet.mem_ofList.2 (List.mem_map.2 ⟨_, (mem_scopesBetween.1 hs).1, rfl⟩)

theorem Places.mem_predecessors (h : m.Places t f) (hdual : t.Dual) {e : MotifEdge}
    (he : e ∈ m.motif.edges) : f e.origin ∈ t.predecessors (f e.target) := by
  obtain ⟨s, hs⟩ := List.exists_mem_of_ne_nil _ (h.edges e he)
  exact IdSet.mem_ofList.2
    (List.mem_map.2 ⟨_, (hdual _ _ _).1 (mem_scopesBetween.1 hs).1, rfl⟩)

/-- Next to what is assigned as `f` says, `f p` is a candidate for `p`. -/
theorem Places.mem_candidates (h : m.Places t f) (hdual : t.Dual) {a : Assignment}
    (ha : ∀ x ∈ a, x.2 = f x.1) {p : Nat}
    (hp : ∃ q ∈ m.motif.neighbours p, q ∈ a.map Prod.fst) : f p ∈ m.candidates t a p := by
  obtain ⟨q, hq, hqa⟩ := hp
  obtain ⟨e, he, rfl⟩ := List.mem_map.1 hq
  obtain ⟨hmem, hinc⟩ := List.mem_filter.1 he
  obtain ⟨v, hv⟩ := exists_lookup hqa
  unfold candidates
  generalize hF : List.findSome? _ (m.motif.incident p) = found
  cases found with
  | some l =>
    obtain ⟨e', he', hl⟩ := List.exists_of_findSome?_eq_some hF
    have hmem' := (List.mem_filter.1 he').1
    split at hl
    · next o ho =>
      split at ho
      · next ht =>
        cases hl
        rw [lookup_eq ha ho, ← ht]
        exact h.mem_successors hmem'
      · cases ho
    · split at hl
      · next w hw =>
        split at hw
        · next ho =>
          cases hl
          rw [lookup_eq ha hw, ← ho]
          exact h.mem_predecessors hdual hmem'
        · cases hw
      · cases hl
  | none =>
    -- the edge to the assigned neighbour would have been taken
    have hnone := List.findSome?_eq_none_iff.1 hF e he
    simp only [Bool.or_eq_true, beq_iff_eq] at hinc
    unfold Motif.otherEnd at hv
    by_cases ho : e.origin = p
    · rw [if_pos ho] at hv
      simp only [if_pos ho, hv] at hnone
      split at hnone <;> cases hnone
    · rw [if_neg ho] at hv
      simp only [if_pos (hinc.resolve_left ho), hv] at hnone
      cases hnone

theorem Places.fits (h : m.Places t f) {a : Assignment} (ha : ∀ x ∈ a, x.2 = f x.1)
    (hsize : ∀ x ∈ a, x.1 < m.motif.size) {p : Nat} (hp : p < m.motif.size)
    (hnew : p ∉ a.map Prod.fst) : m.fits t a p (f p) = true := by
  have happ : a.any (fun sent => sent.2 == f p) = false := by
    rw [← Bool.not_eq_true, List.any_eq_true]
    rintro ⟨x, hx, heq⟩
    have hxp := h.injective x.1 (hsize x hx) p hp ((ha x hx).symm.trans (beq_iff_eq.1 heq))
    exact hnew (List.mem_map.2 ⟨x, hx, hxp⟩)
  have hedge : m.edgesHold t a p (f p) = true := by
    have hsent : ∀ x ∈ (p, f p) :: a, x.2 = f x.1 := by simpa using ha
    simp only [edgesHold, List.all_eq_true]
    intro e he
    split
    · next v w hv hw =>
      rw [lookup_eq hsent hv, lookup_eq hsent hw]
      simpa using h.edges e (List.mem_filter.1 he).1
    · rfl
  unfold Matcher.fits
  rw [happ, h.admits p hp, hedge]
  rfl

/-- The search grows the assignment that sends every listed motif vertex as `f` does. -/
theorem Places.mem_extensions (h : m.Places t f) (hdual : t.Dual) {l : List Nat}
    {a : Assignment} (ha : ∀ x ∈ a, x.2 = f x.1) (hsize : ∀ x ∈ a, x.1 < m.motif.size)
    (hl : chained m.motif (a.map Prod.fst) l = true) :
    (l.map fun p => (p, f p)).reverse ++ a ∈ m.extensions t l a := by
  induction l generalizing a with
  | nil => exact List.mem_singleton.2 rfl
  | cons p rest ih =>
    simp only [chained, Bool.and_eq_true, decide_eq_true_eq, Bool.not_eq_true',
      List.contains_eq_mem, decide_eq_false_iff_not, List.any_eq_true] at hl
    obtain ⟨⟨⟨hp, hnew⟩, hnext⟩, hrest⟩ := hl
    have hb := ih (a := (p, f p) :: a) (by simpa using ha)
      (by simpa using ⟨hp, fun q v hq => hsize (q, v) hq⟩) hrest
    rw [List.map_cons, List.reverse_cons, List.append_assoc]
    exact mem_extensions_cons.2
      ⟨f p, h.mem_candidates hdual ha hnext, h.fits ha hsize hp hnew, hb⟩

/-- Around the anchor, the search completes the assignment that sends everything as `f`
does. -/
theorem Places.mem_assignments (h : m.Places t f) (hdual : t.Dual) {rest : List Nat}
    (hp : m.primary < m.motif.size) (horder : m.order = m.primary :: rest)
    (hrest : chained m.motif [m.primary] rest = true) :
    (m.order.map fun p => (p, f p)).reverse ∈ m.assignments t (f m.primary) := by
  have hfits := h.fits (a := []) (by simp) (by simp) hp (by simp)
  simp only [Matcher.fits, Bool.and_eq_true] at hfits
  have hmem := h.mem_extensions hdual (l := rest) (a := [(m.primary, f m.primary)])
    (by simp) (by simpa using hp) hrest
  rw [assignments, if_pos hfits.2, horder, List.map_cons, List.reverse_cons]
  exact hmem

/-- A motif that occurs around some anchor has a match. -/
theorem Places.exists_firstMatch? (h : m.Places t f) (hdual : t.Dual) {rest : List Nat}
    (hp : m.primary < m.motif.size) (horder : m.order = m.primary :: rest)
    (hrest : chained m.motif [m.primary] rest = true) (hv : f m.primary ∈ t.vertices)
    (firstOnly : Bool) : ∃ mt, m.firstMatch? t ∅ firstOnly = some mt := by
  have hanchor : f m.primary ∈ m.anchors t ∅ := by
    refine List.mem_filter.2 ⟨hv, ?_⟩
    rw [h.admits _ hp, Bool.and_true]
    exact IdSet.disjoint_iff.2 fun _ _ => IdSet.not_mem_empty
  have hmem := h.mem_assignments hdual hp horder hrest
  have hmatch := Option.isSome_iff_exists.2 (exists_matchAt? hmem firstOnly)
  exact Option.isSome_iff_exists.1 (List.findSome?_isSome_iff.2 ⟨_, hanchor, hmatch⟩)

/-! ## The scopes of an assignment -/

theorem lookup_cons {a : Assignment} {p q : Nat} {v : ElementId} :
    List.lookup q ((p, v) :: a) = if q = p then some v else a.lookup q := by
  rw [List.lookup_cons]
  by_cases h : q = p
  · simp [h]
  · simp [h, beq_eq_false_iff_ne.2 h]

/-- Every motif edge between assigned vertices has a counterpart. -/
def EdgesHeld (m : Matcher) (t : Target) (a : Assignment) : Prop :=
  ∀ e ∈ m.motif.edges, ∀ v w, a.lookup e.origin = some v → a.lookup e.target = some w →
    t.scopesBetween v w e.test ≠ []

theorem edgesHeld_cons {a : Assignment} (ha : m.EdgesHeld t a) {p : Nat} {v : ElementId}
    (h : m.edgesHold t a p v = true) : m.EdgesHeld t ((p, v) :: a) := by
  intro e he x y hx hy
  by_cases hp : e.origin = p ∨ e.target = p
  · simp only [edgesHold, List.all_eq_true] at h
    have hinc : e ∈ m.motif.incident p := List.mem_filter.2 ⟨he, by simpa using hp⟩
    simpa [hx, hy] using h e hinc
  · rw [lookup_cons, if_neg fun ho => hp (.inl ho)] at hx
    rw [lookup_cons, if_neg fun ht => hp (.inr ht)] at hy
    exact ha e he x y hx hy

theorem edgesHeld_of_mem_assignments {anchor : ElementId} {a : Assignment}
    (ha : a ∈ m.assignments t anchor) : m.EdgesHeld t a := by
  refine assignments_induction ha (fun h => ?_) fun c p v hc hfit => ?_
  · exact edgesHeld_cons (fun _ _ _ _ hx _ => by cases hx) h
  · simp only [Matcher.fits, Bool.and_eq_true] at hfit
    exact edgesHeld_cons hc hfit.2

/-! ## The motif vertices of an assignment -/

theorem exists_eq_append_of_mem_extensions {l : List Nat} {a b : Assignment}
    (hb : b ∈ m.extensions t l a) : ∃ c, b = c ++ a ∧ c.map Prod.fst = l.reverse := by
  induction l generalizing a with
  | nil => exact ⟨[], List.mem_singleton.1 hb, rfl⟩
  | cons p rest ih =>
    obtain ⟨v, -, -, hb⟩ := mem_extensions_cons.1 hb
    obtain ⟨c, rfl, hc⟩ := ih hb
    exact ⟨c ++ [(p, v)], by simp, by simp [hc]⟩

/-- A complete assignment has the anchor, and has the motif vertices in the order of the search. -/
theorem map_fst_of_mem_assignments {anchor : ElementId} {a : Assignment}
    (ha : a ∈ m.assignments t anchor) {rest : List Nat} (horder : m.order = m.primary :: rest) :
    (m.primary, anchor) ∈ a ∧ a.map Prod.fst = m.order.reverse := by
  obtain ⟨c, rfl, hc⟩ := exists_eq_append_of_mem_extensions (mem_assignments.1 ha).2
  refine ⟨List.mem_append_right c List.mem_cons_self, ?_⟩
  rw [horder, List.tail_cons] at hc
  rw [horder, List.map_append, hc, List.reverse_cons]
  rfl

theorem exists_lookup_of_mem_assignments {anchor : ElementId} {a : Assignment}
    (ha : a ∈ m.assignments t anchor) {rest : List Nat} (horder : m.order = m.primary :: rest)
    {p : Nat} (hp : p ∈ m.order) : ∃ v, a.lookup p = some v := by
  refine exists_lookup ?_
  rw [(map_fst_of_mem_assignments ha horder).2]
  exact List.mem_reverse.2 hp

end Matcher
end Dataflow
