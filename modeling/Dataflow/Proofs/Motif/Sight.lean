import Mathlib.Data.List.Nodup
import Dataflow.Proofs.Motif.Matcher

/-!
# What a matcher sees of a target

A matcher looks at the vertices that pass one of its tests and at the edges between
them. Two targets that show it the same there are the same to it: the search grows the
same assignments, in the same order, and finds the same first match.

Results:

* `SameSight.extensions`: the assignments grow alike, as long as they are admitted;
* `SameSight.firstMatch?`: the first match is the same;
* `nodup_of_mem_assignments`: an assignment keeps the motif vertices apart.
-/
namespace Dataflow
namespace Matcher

variable {m : Matcher} {t t' : Target}

/-- The targets agree on the vertices that the matcher admits and on the edges between
those. -/
structure SameSight (m : Matcher) (t t' : Target) : Prop where
  admits : ∀ p v, m.admits t' p v = m.admits t p v
  vertices : ∀ p v, m.admits t p v = true → (v ∈ t'.vertices ↔ v ∈ t.vertices)
  edgesOut : ∀ p q v w s, m.admits t p v = true → m.admits t q w = true →
    ((s, w) ∈ t'.edgesOut v ↔ (s, w) ∈ t.edgesOut v)
  edgesIn : ∀ p q v w s, m.admits t p v = true → m.admits t q w = true →
    ((s, v) ∈ t'.edgesIn w ↔ (s, v) ∈ t.edgesIn w)
  scopes : ∀ e ∈ m.motif.edges, ∀ p q v w s, m.admits t p v = true → m.admits t q w = true →
    (s, w) ∈ t.edgesOut v → (t'.graph.scope? s).any e.test.admits =
      (t.graph.scope? s).any e.test.admits

/-- Every assigned vertex passes its test. -/
def Admitted (m : Matcher) (t : Target) (a : Assignment) : Prop :=
  ∀ x ∈ a, m.admits t x.1 x.2 = true

theorem Admitted.of_lookup {a : Assignment} (ha : m.Admitted t a) {p : Nat} {v : ElementId}
    (h : a.lookup p = some v) : m.admits t p v = true :=
  ha _ (mem_of_lookup h)

theorem Admitted.cons {a : Assignment} (ha : m.Admitted t a) {p : Nat} {v : ElementId}
    (hv : m.admits t p v = true) : m.Admitted t ((p, v) :: a) := by
  intro x hx
  rcases List.mem_cons.1 hx with rfl | hx
  · exact hv
  · exact ha x hx

namespace SameSight

variable (h : m.SameSight t t')
include h

theorem mem_scopesBetween {e : MotifEdge} (he : e ∈ m.motif.edges) {p q : Nat} {v w : ElementId}
    (hv : m.admits t p v = true) (hw : m.admits t q w = true) {s : ScopeId} :
    s ∈ t'.scopesBetween v w e.test ↔ s ∈ t.scopesBetween v w e.test := by
  rw [Matcher.mem_scopesBetween, Matcher.mem_scopesBetween, h.edgesOut p q v w s hv hw]
  refine and_congr_right fun hs => ?_
  rw [h.scopes e he p q v w s hv hw hs]

theorem isEmpty_scopesBetween {e : MotifEdge} (he : e ∈ m.motif.edges) {p q : Nat}
    {v w : ElementId} (hv : m.admits t p v = true) (hw : m.admits t q w = true) :
    (t'.scopesBetween v w e.test).isEmpty = (t.scopesBetween v w e.test).isEmpty := by
  rw [Bool.eq_iff_iff, List.isEmpty_iff, List.isEmpty_iff, List.eq_nil_iff_forall_not_mem,
    List.eq_nil_iff_forall_not_mem]
  exact forall_congr' fun s => not_congr (h.mem_scopesBetween he hv hw)

theorem scopesOf {a : Assignment} (ha : m.Admitted t a) : m.scopesOf t' a = m.scopesOf t a := by
  apply IdSet.ext_mem
  intro s
  rw [mem_scopesOf, mem_scopesOf]
  refine exists_congr fun e => and_congr_right fun he => exists_congr fun v => exists_congr fun w =>
    and_congr_right fun hv => and_congr_right fun hw => ?_
  exact h.mem_scopesBetween he (ha.of_lookup hv) (ha.of_lookup hw)

theorem edgesHold {a : Assignment} (ha : m.Admitted t a) {p : Nat} {v : ElementId}
    (hv : m.admits t p v = true) : m.edgesHold t' a p v = m.edgesHold t a p v := by
  have hsent := ha.cons hv
  rw [Bool.eq_iff_iff]
  simp only [Matcher.edgesHold, List.all_eq_true]
  refine forall_congr' fun e => imp_congr_right fun he => ?_
  split
  · next x y hx hy =>
    rw [h.isEmpty_scopesBetween (List.mem_filter.1 he).1 (hsent.of_lookup hx) (hsent.of_lookup hy)]
  · rfl

theorem fits {a : Assignment} (ha : m.Admitted t a) (p : Nat) (v : ElementId) :
    m.fits t' a p v = m.fits t a p v := by
  unfold Matcher.fits
  rw [h.admits]
  cases hv : m.admits t p v with
  | false => simp
  | true => rw [h.edgesHold ha hv]

/-- Neighbours may differ, but not those that fit. -/
theorem filter_candidates {a : Assignment} (ha : m.Admitted t a) (p : Nat) :
    (m.candidates t' a p).filter (m.fits t' a p) = (m.candidates t a p).filter (m.fits t a p) := by
  have hfits : m.fits t' a p = m.fits t a p := funext (h.fits ha p)
  have hsucc : ∀ q o, m.admits t q o = true → (t'.successors o).toList.filter (m.fits t a p) =
      (t.successors o).toList.filter (m.fits t a p) := by
    intro q o ho
    refine congrArg IdSet.toList (IdSet.ext_mem fun v => ?_ :
      (t'.successors o).filter (m.fits t a p) = (t.successors o).filter (m.fits t a p))
    rw [IdSet.mem_filter, IdSet.mem_filter]
    refine and_congr_left fun hv => ?_
    simp only [Topology.successors, IdSet.mem_ofList, List.mem_map, Prod.exists, exists_eq_right]
    exact exists_congr fun s => h.edgesOut q p o v s ho (admits_of_fits hv)
  have hpred : ∀ q o, m.admits t q o = true → (t'.predecessors o).toList.filter (m.fits t a p) =
      (t.predecessors o).toList.filter (m.fits t a p) := by
    intro q o ho
    refine congrArg IdSet.toList (IdSet.ext_mem fun v => ?_ :
      (t'.predecessors o).filter (m.fits t a p) = (t.predecessors o).filter (m.fits t a p))
    rw [IdSet.mem_filter, IdSet.mem_filter]
    refine and_congr_left fun hv => ?_
    simp only [Topology.predecessors, IdSet.mem_ofList, List.mem_map, Prod.exists, exists_eq_right]
    exact exists_congr fun s => h.edgesIn p q v o s (admits_of_fits hv) ho
  rw [hfits]
  unfold candidates
  -- the edge that gives the candidates is chosen by the assignment alone
  induction m.motif.incident p with
  | nil => rfl
  | cons e rest ih =>
    rw [List.findSome?_cons, List.findSome?_cons]
    cases horigin : (if e.target = p then a.lookup e.origin else none) with
    | some o =>
      have ho : a.lookup e.origin = some o := by
        split at horigin
        · exact horigin
        · cases horigin
      exact hsucc _ _ (ha.of_lookup ho)
    | none =>
      cases htarget : (if e.origin = p then a.lookup e.target else none) with
      | some w =>
        have hw : a.lookup e.target = some w := by
          split at htarget
          · exact htarget
          · cases htarget
        exact hpred _ _ (ha.of_lookup hw)
      | none => exact ih

theorem extensions {l : List Nat} {a : Assignment} (ha : m.Admitted t a) :
    m.extensions t' l a = m.extensions t l a := by
  induction l generalizing a with
  | nil => rfl
  | cons p rest ih =>
    simp only [Matcher.extensions, h.filter_candidates ha p]
    refine List.flatMap_congr fun v hv => ?_
    exact ih (ha.cons (admits_of_fits (List.mem_filter.1 hv).2))

theorem matchAt? {anchor : ElementId} (hanchor : m.admits t m.primary anchor = true)
    (firstOnly : Bool) : m.matchAt? t' firstOnly anchor = m.matchAt? t firstOnly anchor := by
  have hsole : m.Admitted t [(m.primary, anchor)] := by
    intro x hx
    rw [List.mem_singleton.1 hx]
    exact hanchor
  have hassign : m.assignments t' anchor = m.assignments t anchor := by
    unfold assignments
    rw [h.edgesHold (fun x hx => absurd hx List.not_mem_nil) hanchor, h.extensions hsole]
  have hmerge : ∀ as : List Assignment, (∀ a ∈ as, a ∈ m.assignments t anchor) →
      m.merge t' anchor as = m.merge t anchor as := by
    intro as has
    have hscopes : IdSet.unionOf as (m.scopesOf t') = IdSet.unionOf as (m.scopesOf t) := by
      apply IdSet.ext_mem
      intro s
      rw [IdSet.mem_unionOf, IdSet.mem_unionOf]
      refine exists_congr fun a => and_congr_right fun ha => ?_
      rw [h.scopesOf (admits_of_mem_assignments hanchor (has a ha))]
    simp only [merge, hscopes]
  unfold Matcher.matchAt?
  rw [hassign]
  cases hl : m.assignments t anchor with
  | nil => rfl
  | cons a rest =>
    refine congrArg some (hmerge _ fun b hb => ?_)
    rw [hl]
    cases firstOnly with
    | false => exact hb
    | true => exact List.mem_cons.2 (.inl (List.mem_singleton.1 hb))

theorem anchors : m.anchors t' ∅ = m.anchors t ∅ := by
  have hdisjoint : ∀ s : IdSet, s.disjoint ∅ = true := fun s =>
    IdSet.disjoint_iff.2 fun _ _ => IdSet.not_mem_empty
  refine congrArg IdSet.toList (IdSet.ext_mem fun v => ?_ :
    t'.vertices.filter (fun v => (t'.members v).disjoint ∅ && m.admits t' m.primary v) =
      t.vertices.filter fun v => (t.members v).disjoint ∅ && m.admits t m.primary v)
  rw [IdSet.mem_filter, IdSet.mem_filter, hdisjoint, hdisjoint, h.admits]
  exact and_congr_left fun hv => h.vertices _ _ hv

theorem firstMatch? (firstOnly : Bool) :
    m.firstMatch? t' ∅ firstOnly = m.firstMatch? t ∅ firstOnly := by
  have hadm : ∀ v ∈ m.anchors t ∅, m.admits t m.primary v = true := fun v hv => by
    have hv' := (List.mem_filter.1 hv).2
    rw [Bool.and_eq_true] at hv'
    exact hv'.2
  unfold Matcher.firstMatch?
  rw [h.anchors]
  generalize m.anchors t ∅ = l at hadm
  induction l with
  | nil => rfl
  | cons v rest ih =>
    rw [List.findSome?_cons, List.findSome?_cons, h.matchAt? (hadm v List.mem_cons_self),
      ih fun w hw => hadm w (List.mem_cons_of_mem v hw)]

end SameSight

/-! ## An assignment keeps vertices apart -/

theorem nodup_of_mem_assignments {anchor : ElementId} {a : Assignment}
    (ha : a ∈ m.assignments t anchor) : (a.map Prod.snd).Nodup := by
  refine assignments_induction (P := fun a => (a.map Prod.snd).Nodup) ha
    (fun _ => List.nodup_singleton anchor) fun c p v hc hfit => ?_
  simp only [Matcher.fits, Bool.and_eq_true, Bool.not_eq_true', List.any_eq_false,
    beq_iff_eq] at hfit
  refine List.nodup_cons.2 ⟨fun hv => ?_, hc⟩
  obtain ⟨x, hx, hxv⟩ := List.mem_map.1 hv
  exact hfit.1.1 x hx hxv

/-- Distinct motif vertices are sent to distinct vertices. -/
theorem ne_of_lookup {a : Assignment} (ha : (a.map Prod.snd).Nodup) {p q : Nat}
    {v w : ElementId} (hp : a.lookup p = some v) (hq : a.lookup q = some w) (hne : p ≠ q) :
    v ≠ w := by
  intro hvw
  have heq := List.inj_on_of_nodup_map ha (mem_of_lookup hp) (mem_of_lookup hq) hvw
  exact hne (congrArg Prod.fst heq)

end Matcher
end Dataflow
