import Dataflow.UnionFind
import Mathlib.Logic.Relation
import Mathlib.Order.Nat

/-!
# What a union-find merges

Parents are never above their children, in every forest that unions and searches make. So a
climb ends at a root, and what a search rewrites on its way changes no root. A union changes
the roots of one group only, and `Merges` collects what a row of unions has done.

Results:

* `Descends.root_find`, `Descends.union`: the roots after a search and after a union;
* `merges_unionAll`: a row of unions merges its pairs and nothing else;
* `Merges.root_eq_iff`: two ids share a root if pairs chain them up;
* `Descends.root_le`: a root is not above the ids of its group;
* `Descends.roots_eq`: the roots that one search after the other finds are those of the forest.
-/
namespace Dataflow

open Relation

namespace Parents

variable {ps : Parents} {a b id p x : Nat}

/-- No parent is above its child. -/
def Descends (ps : Parents) : Prop := ∀ id p, ps.lookup id = some p → p ≤ id

/-- `id` has no parent but itself. -/
def IsRoot (ps : Parents) (id : Nat) : Prop := ∀ p, ps.lookup id = some p → p = id

theorem lookup_set : (ps.set id p).lookup x = if x = id then some p else ps.lookup x := by
  induction ps with
  | nil =>
    by_cases hx : x = id
    · subst hx; simp [set]
    · simp [set, hx, beq_eq_false_iff_ne.2 hx]
  | cons pair rest ih =>
    obtain ⟨c, q⟩ := pair
    unfold set
    split
    · next hc =>
      subst hc
      by_cases hx : x = c
      · subst hx; simp
      · simp [List.lookup_cons, hx, beq_eq_false_iff_ne.2 hx]
    · next hc =>
      rw [List.lookup_cons, List.lookup_cons, ih]
      by_cases hx : x = c
      · subst hx; simp [hc]
      · simp [beq_eq_false_iff_ne.2 hx]

theorem lookup_singletons {ids : List Nat} (h : (singletons ids).lookup id = some p) :
    p = id := by
  induction ids with
  | nil => cases h
  | cons c rest ih =>
    rw [singletons, List.map_cons, List.lookup_cons] at h
    split at h
    · next hc =>
      cases h
      exact (beq_iff_eq.1 hc).symm
    · exact ih h

theorem Descends.set (h : ps.Descends) (hp : p ≤ id) : (ps.set id p).Descends := by
  intro x q hx
  rw [lookup_set] at hx
  split at hx
  · next he =>
    cases hx
    exact he ▸ hp
  · exact h x q hx

/-! ## Climbing to the root -/

theorem climb_of_isRoot (hroot : ps.IsRoot id) (n : Nat) : ps.climb n id = id := by
  cases n with
  | zero => rfl
  | succ n =>
    unfold climb
    split
    · rfl
    · next p hp => exact if_pos (hroot p hp)

theorem climb_succ_of_lookup (hp : ps.lookup id = some p) (hne : p ≠ id) (n : Nat) :
    ps.climb (n + 1) id = ps.climb n p := by
  rw [climb, hp]
  exact if_neg hne

/-- An id that is no root has a smaller parent. -/
theorem Descends.exists_parent (h : ps.Descends) (hroot : ¬ ps.IsRoot id) :
    ∃ p, ps.lookup id = some p ∧ p < id := by
  simp only [IsRoot, not_forall] at hroot
  obtain ⟨p, hp, hne⟩ := hroot
  exact ⟨p, hp, Nat.lt_of_le_of_ne (h id p hp) hne⟩

/-- More steps than there are smaller ids lead no further. -/
theorem Descends.climb_of_le (h : ps.Descends) {n : Nat} (hn : id ≤ n) :
    ps.climb n id = ps.root id := by
  unfold root
  induction id using Nat.strongRecOn generalizing n with
  | ind id ih =>
    by_cases hroot : ps.IsRoot id
    · rw [climb_of_isRoot hroot, climb_of_isRoot hroot]
    · obtain ⟨p, hp, hlt⟩ := h.exists_parent hroot
      obtain ⟨n, rfl⟩ : ∃ k, n = k + 1 := ⟨n - 1, by omega⟩
      obtain ⟨i, rfl⟩ : ∃ k, id = k + 1 := ⟨id - 1, by omega⟩
      rw [climb_succ_of_lookup hp hlt.ne, climb_succ_of_lookup hp hlt.ne,
        ih p hlt (n := n) (by omega), ih p hlt (n := i) (by omega)]

theorem root_of_isRoot (hroot : ps.IsRoot id) : ps.root id = id := climb_of_isRoot hroot id

/-- An id and its parent have one root. -/
theorem Descends.root_of_lookup (h : ps.Descends) (hp : ps.lookup id = some p) :
    ps.root id = ps.root p := by
  by_cases hne : p = id
  · rw [hne]
  · have hlt : p < id := Nat.lt_of_le_of_ne (h id p hp) hne
    rw [← h.climb_of_le (Nat.le_succ id), climb_succ_of_lookup hp hne, h.climb_of_le hlt.le]

/-- What holds of the roots, and of an id if it holds of its parent, holds of all ids. -/
theorem Descends.induct (h : ps.Descends) {P : Nat → Prop}
    (hroot : ∀ id, ps.IsRoot id → P id)
    (hparent : ∀ id p, ps.lookup id = some p → p < id → P p → P id) (id : Nat) : P id := by
  induction id using Nat.strongRecOn with
  | ind id ih =>
    by_cases hr : ps.IsRoot id
    · exact hroot id hr
    · obtain ⟨p, hp, hlt⟩ := h.exists_parent hr
      exact hparent id p hp hlt (ih p hlt)

theorem Descends.isRoot_root (h : ps.Descends) (id : Nat) : ps.IsRoot (ps.root id) := by
  induction id using h.induct with
  | hroot id hr => rwa [root_of_isRoot hr]
  | hparent id p hp _ ih => rwa [h.root_of_lookup hp]

theorem Descends.root_le (h : ps.Descends) (id : Nat) : ps.root id ≤ id := by
  induction id using h.induct with
  | hroot id hr => exact (root_of_isRoot hr).le
  | hparent id p hp hlt ih =>
    rw [h.root_of_lookup hp]
    exact ih.trans hlt.le

/-! ## One parent changed -/

/-- To hang an id directly below its root changes no root. -/
theorem Descends.root_set_root (h : ps.Descends) (id x : Nat) :
    (ps.set id (ps.root id)).root x = ps.root x := by
  have h' := h.set (h.root_le id)
  have hisRoot : ∀ r, ps.IsRoot r → (ps.set id (ps.root id)).IsRoot r := by
    intro r hr p hp
    rw [lookup_set] at hp
    split at hp
    · next he =>
      cases hp
      rw [← he, root_of_isRoot hr]
    · exact hr p hp
  induction x using h.induct with
  | hroot x hr => rw [root_of_isRoot hr, root_of_isRoot (hisRoot x hr)]
  | hparent x p hp hlt ih =>
    by_cases hx : x = id
    · subst hx
      rw [h'.root_of_lookup (by rw [lookup_set, if_pos rfl]),
        root_of_isRoot (hisRoot _ (h.isRoot_root x))]
    · rw [h'.root_of_lookup (by rw [lookup_set, if_neg hx]; exact hp), ih, h.root_of_lookup hp]

/-- To hang a root below another one moves its group there. -/
theorem Descends.root_set_of_isRoot (h : ps.Descends) {low high : Nat}
    (hlow : ps.IsRoot low) (hhigh : ps.IsRoot high) (hlt : low < high) (x : Nat) :
    (ps.set high low).root x = if ps.root x = high then low else ps.root x := by
  have h' := h.set (p := low) hlt.le
  have hisRoot : ∀ r, ps.IsRoot r → r ≠ high → (ps.set high low).IsRoot r := by
    intro r hr hne p hp
    rw [lookup_set, if_neg hne] at hp
    exact hr p hp
  induction x using h.induct with
  | hroot x hr =>
    rw [root_of_isRoot hr]
    split
    · next hx =>
      rw [hx, h'.root_of_lookup (by rw [lookup_set, if_pos rfl]),
        root_of_isRoot (hisRoot low hlow hlt.ne)]
    · next hx => exact root_of_isRoot (hisRoot x hr hx)
  | hparent x p hp hxp ih =>
    have hx : x ≠ high := by
      rintro rfl
      exact hxp.ne (hhigh p hp)
    rw [h'.root_of_lookup (by rw [lookup_set, if_neg hx]; exact hp), ih, h.root_of_lookup hp]

/-! ## Searches and unions -/

theorem Descends.compress (h : ps.Descends) (n : Nat) (id : Nat) :
    (Parents.compress (ps.root id) n id ps).Descends ∧
      ∀ x, (Parents.compress (ps.root id) n id ps).root x = ps.root x := by
  induction n generalizing ps id with
  | zero => exact ⟨h, fun _ => rfl⟩
  | succ n ih =>
    unfold Parents.compress
    split
    · exact ⟨h, fun _ => rfl⟩
    · next hne =>
      have hroot : ¬ ps.IsRoot id := fun hr => hne (root_of_isRoot hr).symm
      obtain ⟨p, hp, -⟩ := h.exists_parent hroot
      have hset := h.set (h.root_le id)
      have hsame := h.root_set_root id
      have hpr : (ps.set id (ps.root id)).root p = ps.root id := by
        rw [hsame, h.root_of_lookup hp]
      obtain ⟨hd, hr⟩ := ih hset p
      rw [hpr] at hd hr
      rw [hp, Option.getD_some]
      exact ⟨hd, fun x => (hr x).trans (hsame x)⟩

theorem Descends.find (h : ps.Descends) (id : Nat) : (ps.find id).2.Descends :=
  (h.compress id id).1

/-- A search changes no root. -/
theorem Descends.root_find (h : ps.Descends) (id x : Nat) :
    (ps.find id).2.root x = ps.root x :=
  (h.compress id id).2 x

/-- A union hangs the larger of the two roots below the smaller. -/
theorem Descends.union (h : ps.Descends) (a b : Nat) :
    (ps.union a b).Descends ∧ ∀ x, (ps.union a b).root x =
      if ps.root x = max (ps.root a) (ps.root b) then min (ps.root a) (ps.root b)
      else ps.root x := by
  let ps₁ := (ps.find a).2
  let ps₂ := (ps₁.find b).2
  have h₁ : ps₁.Descends := h.find a
  have h₂ : ps₂.Descends := h₁.find b
  have hsame : ∀ x, ps₂.root x = ps.root x := fun x => (h₁.root_find b x).trans (h.root_find a x)
  have hb : ps₁.root b = ps.root b := h.root_find a b
  have hunion : ps.union a b = if ps.root a = ps.root b then ps₂
      else if ps.root a < ps.root b then ps₂.set (ps.root b) (ps.root a)
      else ps₂.set (ps.root a) (ps.root b) := by
    rw [← hb]
    rfl
  have hisRoot : ∀ x, ps₂.IsRoot (ps.root x) := fun x => hsame x ▸ h₂.isRoot_root x
  rw [hunion]
  split
  · next heq =>
    refine ⟨h₂, fun x => ?_⟩
    rw [hsame, heq, Nat.max_self, Nat.min_self]
    split
    · assumption
    · rfl
  · next hne =>
    split
    · next hlt =>
      refine ⟨h₂.set hlt.le, fun x => ?_⟩
      rw [h₂.root_set_of_isRoot (hisRoot a) (hisRoot b) hlt, hsame, Nat.max_eq_right hlt.le,
        Nat.min_eq_left hlt.le]
    · next hnlt =>
      have hlt : ps.root b < ps.root a := by omega
      refine ⟨h₂.set hlt.le, fun x => ?_⟩
      rw [h₂.root_set_of_isRoot (hisRoot b) (hisRoot a) hlt, hsame, Nat.max_eq_left hlt.le,
        Nat.min_eq_right hlt.le]

/-- The searches of `roots` shorten ways, and find the roots all the same. -/
theorem Descends.roots_eq (h : ps.Descends) (ids : List Nat) :
    ps.roots ids = ids.map fun id => (id, ps.root id) := by
  induction ids generalizing ps with
  | nil => rfl
  | cons id rest ih =>
    show (id, ps.root id) :: (ps.find id).2.roots rest = _
    rw [ih (h.find id), List.map_cons]
    simp only [h.root_find]

/-! ## A row of unions -/

/-- One of the pairs joins the two ids, in either direction. -/
def Paired (pairs : List (Nat × Nat)) (a b : Nat) : Prop :=
  (a, b) ∈ pairs ∨ (b, a) ∈ pairs

theorem chain_paired_symm {pairs : List (Nat × Nat)}
    (h : ReflTransGen (Paired pairs) a b) : ReflTransGen (Paired pairs) b a := by
  induction h with
  | refl => exact .refl
  | tail _ hbc ih => exact .head hbc.symm ih

/-- The forest has merged the ids of the pairs, and only these. -/
structure Merges (ps : Parents) (pairs : List (Nat × Nat)) : Prop where
  descends : ps.Descends
  /-- The root of an id is chained up with it. -/
  chained : ∀ x, ReflTransGen (Paired pairs) x (ps.root x)
  joined : ∀ a b, (a, b) ∈ pairs → ps.root a = ps.root b

variable {pairs : List (Nat × Nat)}

theorem root_singletons (ids : List Nat) (x : Nat) : (singletons ids).root x = x :=
  root_of_isRoot fun _ h => lookup_singletons h

theorem merges_singletons (ids : List Nat) : Merges (singletons ids) [] where
  descends _ _ h := (lookup_singletons h).le
  chained x := by rw [root_singletons]
  joined _ _ h := absurd h List.not_mem_nil

theorem Merges.union (h : Merges ps pairs) (a b : Nat) :
    Merges (ps.union a b) (pairs ++ [(a, b)]) := by
  obtain ⟨hd, hroot⟩ := h.descends.union a b
  have hold : ∀ x, ReflTransGen (Paired (pairs ++ [(a, b)])) x (ps.root x) := fun x =>
    ReflTransGen.mono (fun _ _ hxy => hxy.imp (List.mem_append_left _) (List.mem_append_left _))
      _ _ (h.chained x)
  have hab : ReflTransGen (Paired (pairs ++ [(a, b)])) (ps.root a) (ps.root b) :=
    (chain_paired_symm (hold a)).trans
      (.head (.inl (List.mem_append_right _ List.mem_cons_self)) (hold b))
  refine ⟨hd, fun x => ?_, fun c d hcd => ?_⟩
  · rw [hroot]
    split
    · next hx =>
      refine (hold x).trans ?_
      rw [hx]
      rcases Nat.le_total (ps.root a) (ps.root b) with hle | hle
      · rw [Nat.max_eq_right hle, Nat.min_eq_left hle]
        exact chain_paired_symm hab
      · rw [Nat.max_eq_left hle, Nat.min_eq_right hle]
        exact hab
    · exact hold x
  · rw [hroot, hroot]
    rcases List.mem_append.1 hcd with hold | hnew
    · rw [h.joined c d hold]
    · cases List.mem_singleton.1 hnew
      -- one of the two roots is the larger one and moves, the other is where it moves to
      split <;> split <;> omega

theorem Merges.unionAll (h : Merges ps pairs) (more : List (Nat × Nat)) :
    Merges (ps.unionAll more) (pairs ++ more) := by
  induction more generalizing ps pairs with
  | nil => rwa [List.append_nil]
  | cons pair rest ih =>
    have hrest := ih (h.union pair.1 pair.2)
    rwa [List.append_assoc, List.singleton_append] at hrest

/-- The unions of a row merge its pairs and nothing else. -/
theorem merges_unionAll (ids : List Nat) (pairs : List (Nat × Nat)) :
    Merges ((singletons ids).unionAll pairs) pairs :=
  (merges_singletons ids).unionAll pairs

/-- Two ids share a root if pairs chain them up. -/
theorem Merges.root_eq_iff (h : Merges ps pairs) :
    ps.root a = ps.root b ↔ ReflTransGen (Paired pairs) a b := by
  constructor
  · intro hab
    have ha := h.chained a
    rw [hab] at ha
    exact ha.trans (chain_paired_symm (h.chained b))
  · intro hab
    induction hab with
    | refl => rfl
    | tail _ hbc ih => exact ih.trans (hbc.elim (h.joined _ _) fun hcb => (h.joined _ _ hcb).symm)

end Parents
end Dataflow
