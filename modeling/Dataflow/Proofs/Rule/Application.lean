import Dataflow.Proofs.Kinds
import Dataflow.Proofs.Success
import Dataflow.Rule.Fixpoint

/-!
# One application of a rule

Every rule searches the graph and changes what it finds. A rule whose search fails
fails, one that finds nothing reports no change, and both leave the graph as it is.
`Graph.changeAt` says this once, and each rule is put into its form, so that what
follows about a rule is about its search and about the one change that it makes.

Results:

* `Graph.changeAt_eq_true`, `changeAt_eq_false`, `changeAt_eq_error`: how a rule ends;
* `Graph.changeAt_induction`: what the graph and its change share, the rule keeps;
* `SplitInsertion.apply_eq` and so on: the search and the change of each rule.
-/
namespace Dataflow

variable {g g' : Graph}

namespace Graph

variable {α : Type} {found : Except PlanError (Option α)} {change : α → Graph} {e : PlanError}

/-- The outcome of a rule that has searched the graph: what is found is changed. -/
def changeAt (g : Graph) (found : Except PlanError (Option α)) (change : α → Graph) :
    Outcome Bool :=
  match found with
  | .error e => (.error e, g)
  | .ok none => (.ok false, g)
  | .ok (some a) => (.ok true, change a)

theorem changeAt_eq_true : g.changeAt found change = (.ok true, g') ↔
    ∃ a, found = .ok (some a) ∧ change a = g' := by
  rcases found with _ | _ | a <;> simp [changeAt]

theorem changeAt_eq_false : g.changeAt found change = (.ok false, g') ↔
    found = .ok none ∧ g = g' := by
  rcases found with _ | _ | a <;> simp [changeAt]

theorem changeAt_eq_error : g.changeAt found change = (.error e, g') ↔
    found = .error e ∧ g = g' := by
  rcases found with _ | _ | a <;> simp [changeAt]

theorem fst_changeAt_eq_error : (g.changeAt found change).1 = .error e ↔ found = .error e := by
  rcases found with _ | _ | a <;> simp [changeAt]

/-- What holds of the graph, and of every change to it, holds whatever the search finds. -/
theorem changeAt_induction {P : Graph → Prop} (hg : P g)
    (hchange : ∀ a, found = .ok (some a) → P (change a)) : P (g.changeAt found change).2 := by
  rcases found with _ | _ | a
  · exact hg
  · exact hg
  · exact hchange a rfl

/-- Where every change makes another graph, the graph is left alone exactly if no change is
reported. -/
theorem changeAt_unchanged_iff (hne : ∀ a, found = .ok (some a) → change a ≠ g) :
    (g.changeAt found change).2 = g ↔ (g.changeAt found change).1 ≠ .ok true := by
  rcases found with _ | _ | a
  · simp [changeAt]
  · simp [changeAt]
  · simp [changeAt, hne a rfl]

end Graph

open Dataflow.Graph

/-! ## The boundaries that rules insert -/

namespace SplitInsertion

variable {order l ids : List ElementId} {id : ElementId} {e : PlanError}

theorem isPoint_eq_true : isPoint g order id = .ok true ↔
    isSplit g id = true ∧ followsBoundary g id = false ∧ reconverges g order id = .ok true := by
  unfold isPoint
  cases isSplit g id <;> cases followsBoundary g id <;> simp

theorem isPoint_eq_error (h : isPoint g order id = .error e) :
    isSplit g id = true ∧ followsBoundary g id = false ∧ reconverges g order id = .error e := by
  unfold isPoint at h
  split at h
  · next hexposed =>
    rw [Bool.and_eq_true, Bool.not_eq_true'] at hexposed
    exact ⟨hexposed.1, hexposed.2, h⟩
  · cases h

/-- What is listed are the points among the elements, in their order, once each element has
been asked about. -/
theorem pointsAmong_eq_ok (h : pointsAmong g order l = .ok ids) :
    (∀ id ∈ l, ∃ b, isPoint g order id = .ok b) ∧ ids.Sublist l ∧
      ∀ id, id ∈ ids ↔ id ∈ l ∧ isPoint g order id = .ok true := by
  induction l generalizing ids with
  | nil => cases h; simp
  | cons x rest ih =>
    obtain ⟨here, hhere, h⟩ := bind_eq_ok.1 h
    obtain ⟨points, hpoints, h⟩ := bind_eq_ok.1 h
    obtain ⟨hall, hsub, hmem⟩ := ih hpoints
    refine ⟨List.forall_mem_cons.2 ⟨⟨here, hhere⟩, hall⟩, ?_⟩
    cases here with
    | true =>
      cases h
      refine ⟨hsub.cons_cons x, fun id => ?_⟩
      rw [if_pos rfl, List.mem_cons, List.mem_cons, hmem, or_and_right]
      exact or_congr_left ⟨fun heq => ⟨heq, heq ▸ hhere⟩, And.left⟩
    | false =>
      cases h
      refine ⟨hsub.cons x, fun id => ?_⟩
      rw [if_neg Bool.false_ne_true, List.mem_cons, hmem, or_and_right]
      exact (or_iff_right fun ⟨heq, hid⟩ => by rw [heq, hhere] at hid; cases hid).symm

theorem pointsAmong_eq_error (h : pointsAmong g order l = .error e) :
    ∃ id ∈ l, isPoint g order id = .error e := by
  induction l with
  | nil => cases h
  | cons x rest ih =>
    rcases bind_eq_error.1 h with h | ⟨here, -, h⟩
    · exact ⟨x, List.mem_cons_self, h⟩
    · rcases bind_eq_error.1 h with h | ⟨points, -, h⟩
      · obtain ⟨id, hid, he⟩ := ih h
        exact ⟨id, List.mem_cons_of_mem x hid, he⟩
      · cases h

theorem splitPoints_eq_ok (h : splitPoints g = .ok ids) :
    ∃ order, g.topology.order = .ok order ∧ (∀ id ∈ order, ∃ b, isPoint g order id = .ok b) ∧
      ids.Sublist order ∧ ∀ id, id ∈ ids ↔ id ∈ order ∧ isPoint g order id = .ok true := by
  unfold splitPoints at h
  split at h
  · cases h
  · next order horder => exact ⟨order, horder, pointsAmong_eq_ok h⟩

/-- The split that gets a boundary next. -/
def firstPoint (g : Graph) : Except PlanError (Option ElementId) :=
  (splitPoints g).map List.head?

theorem firstPoint_eq_none : firstPoint g = .ok none ↔ splitPoints g = .ok [] := by
  rw [firstPoint, map_eq_ok]
  simp

theorem firstPoint_eq_some :
    firstPoint g = .ok (some id) ↔ ∃ rest, splitPoints g = .ok (id :: rest) := by
  rw [firstPoint, map_eq_ok]
  constructor
  · rintro ⟨ids, hids, hhead⟩
    obtain ⟨rest, rfl⟩ := List.head?_eq_some_iff.1 hhead
    exact ⟨rest, hids⟩
  · rintro ⟨rest, hids⟩
    exact ⟨_, hids, rfl⟩

theorem isSplit_of_firstPoint (h : firstPoint g = .ok (some id)) :
    isSplit g id = true := by
  obtain ⟨rest, hids⟩ := firstPoint_eq_some.1 h
  obtain ⟨order, -, -, -, hmem⟩ := splitPoints_eq_ok hids
  exact (isPoint_eq_true.1 ((hmem id).1 List.mem_cons_self).2).1

theorem apply_eq (scheme : String) (g : Graph) :
    apply scheme g = g.changeAt (firstPoint g) (g.boundaryAfter scheme) := by
  rw [apply, firstPoint]
  rcases splitPoints g with _ | _ | ⟨id, rest⟩ <;> rfl

end SplitInsertion

namespace JobPartitioning

theorem apply_eq (scheme : String) (g : Graph) :
    apply scheme g = g.changeAt (findCut g) (g.cutScopes scheme) := by
  rw [apply]
  rcases findCut g with _ | _ | cut <;> rfl

/-- No cut that is found is empty. -/
theorem ne_nil_of_findCut {cut : IdSet} (h : findCut g = .ok (some cut)) :
    cut.toList ≠ [] := by
  unfold findCut at h
  generalize motifs = l at h
  induction l with
  | nil => cases h
  | cons motif rest ih =>
    unfold cutAmong at h
    split at h
    · cases h
    split at h
    · exact ih h
    split at h
    · cases h
    split at h
    · exact ih h
    · next cut' hsome =>
      split at h <;> cases h
      obtain ⟨s, hs⟩ := List.exists_mem_of_ne_nil _ hsome
      exact List.ne_nil_of_mem (IdSet.mem_ofList.2 hs)

end JobPartitioning

theorem JoinIsolation.apply_eq (scheme : String) (g : Graph) :
    apply scheme g = g.changeAt (incompatibleInput g) (g.boundaryOn scheme) := by
  rw [apply]
  rcases incompatibleInput g with _ | _ | s <;> rfl

namespace SourceNormalization

variable {scheme : String} {rules : TapRules} {cut : IdSet}

theorem apply_eq (scheme : String) (rules : TapRules) (g : Graph) :
    apply scheme rules g = g.changeAt (findCut scheme rules g) (g.cutScopes scheme) := by
  rw [apply]
  rcases findCut scheme rules g with _ | _ | cut <;> rfl

/-- What is cut for a grouping leaves some of its feeds, and there is something to cut. -/
theorem exists_cutWhere {G : ElementId} (h : cutFor scheme rules g G = .ok (some cut)) :
    ∃ fs select, feeds g G = .ok fs ∧ cutWhere g fs select = cut ∧ cut.isEmpty = false := by
  obtain ⟨fs, hfs, h⟩ := bind_eq_ok.1 h
  split at h
  · cases h
  · dsimp only at h
    split at h
    · split at h
      · cases h
      · next hsome => cases h; exact ⟨fs, _, hfs, rfl, by simpa using hsome⟩
    · next hsome => cases h; exact ⟨fs, _, hfs, rfl, by simpa using hsome⟩

/-- The search for a cut ends with what is found for some grouping, unless nothing is cut. -/
theorem exists_cutFor {found : Except PlanError (Option IdSet)}
    (h : findCut scheme rules g = found) (hfound : found ≠ .ok none) :
    ∃ G, g.hasKind Kind.isGrouping G = true ∧ cutFor scheme rules g G = found := by
  have hall : ∀ l, cutAmong scheme rules g l = found →
      ∃ G ∈ l, cutFor scheme rules g G = found := by
    intro l hl
    induction l with
    | nil => exact absurd hl.symm hfound
    | cons G rest ih =>
      unfold cutAmong at hl
      split at hl
      · obtain ⟨G', hG', h'⟩ := ih hl
        exact ⟨G', List.mem_cons_of_mem G hG', h'⟩
      · exact ⟨G, List.mem_cons_self, hl⟩
  obtain ⟨G, hG, h⟩ := hall _ h
  exact ⟨G, (List.mem_filter.1 hG).2, h⟩

theorem ne_nil_of_findCut (h : findCut scheme rules g = .ok (some cut)) : cut.toList ≠ [] := by
  obtain ⟨G, -, h⟩ := exists_cutFor h (by simp)
  obtain ⟨fs, select, -, -, hsome⟩ := exists_cutWhere h
  intro hnil
  rw [IdSet.isEmpty, hnil] at hsome
  cases hsome

end SourceNormalization

/-! ## The elements that rules remove -/

namespace PassThrough

/-- What is spliced out is a pipe that one scope enters. -/
theorem isPipe_of_removable {id : ElementId} (h : removable g = .ok (some id)) :
    g.hasKind Kind.isPipe id = true ∧ ∃ i, g.arrivals id = [i] := by
  unfold removable at h
  split at h
  · cases h
  · next id' neighbour hfound =>
    split at h
    · cases h
      obtain ⟨p, hp, hsome⟩ := List.exists_of_findSome?_eq_some hfound
      obtain ⟨_, -, heq⟩ := Option.map_eq_some_iff.1 hsome
      cases heq
      have hmem := (List.mem_filter.1 hp).2
      simp only [Bool.and_eq_true, beq_iff_eq, incoming, List.length_mergeSort] at hmem
      refine ⟨hasKind_imp (fun k hk => ?_) hmem.1, List.length_eq_one_iff.1 hmem.2⟩
      cases k <;> first | rfl | exact absurd hk Bool.false_ne_true
    · cases h

/-- The pipe that is found can always be spliced out. -/
theorem apply_eq (g : Graph) :
    apply g = g.changeAt (removable g) fun id => (g.removePassThrough id).2 := by
  rw [apply]
  rcases hid : removable g with _ | _ | id
  · rfl
  · rfl
  · obtain ⟨-, i, hi⟩ := isPipe_of_removable hid
    simp [changeAt, removePassThrough, hi]

end PassThrough

namespace BoundaryCollapse

variable {rules : TapRules}

/-- What collapses is a boundary before a tap which can stand in for it. -/
theorem canReplace_of_collapsible {b t : ElementId}
    (h : collapsible rules g = .ok (some (b, t))) :
    g.hasKind Kind.isBoundary b = true ∧ t ∈ g.successors b ∧ canReplace rules g b t = true := by
  unfold collapsible at h
  split at h
  · cases h
  · next b' t' hfound =>
    split at h
    · next hlive =>
      cases h
      obtain ⟨x, hx, hsome⟩ := List.exists_of_findSome?_eq_some hfound
      obtain ⟨y, hy, heq⟩ := Option.map_eq_some_iff.1 hsome
      cases heq
      refine ⟨(List.mem_filter.1 hx).2, List.mem_of_find?_eq_some hy, ?_⟩
      simpa [hlive] using List.find?_some hy
    · cases h

theorem apply_eq (rules : TapRules) (g : Graph) :
    apply rules g = g.changeAt (collapsible rules g) fun bt => g.replaceElement bt.1 bt.2 := by
  rw [apply]
  rcases collapsible rules g with _ | _ | bt <;> rfl

end BoundaryCollapse
end Dataflow
