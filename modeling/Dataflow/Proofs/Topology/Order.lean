import Dataflow.Topology.Order

/-!
# The topological order is one, and is found where there is one

`place` moves vertices from a waiting list to a placed one. `Fed l` is what it
keeps of the placed list: whatever feeds a vertex stands before it.

Results:

* `fed_of_order`, `perm_of_order`: an order that is found lists the vertices once,
  and everything that feeds a vertex before it;
* `Fed.idxOf_lt`: along every edge the place in such a list goes up;
* `stuck_spec`: what keeps the stuck vertices from being placed, where there is no order;
* `order_of_rank`: if some rank goes up along every edge and every edge starts at a
  vertex, an order is found.
-/
namespace Dataflow
namespace Topology

variable {t : Topology}

/-- Whatever feeds a listed vertex is listed before it. -/
def Fed (t : Topology) (l : List ElementId) : Prop :=
  ∀ before v after, l = before ++ v :: after → ∀ e ∈ t.edgesIn v, e.2 ∈ before

theorem fed_nil : t.Fed [] := by
  intro before v after h
  cases before <;> cases h

theorem Fed.snoc {l : List ElementId} {v : ElementId} (h : t.Fed l)
    (hv : ∀ e ∈ t.edgesIn v, e.2 ∈ l) : t.Fed (l ++ [v]) := by
  intro before w after heq e he
  rcases List.eq_nil_or_concat after with rfl | ⟨rest, x, rfl⟩
  · obtain ⟨rfl, hw⟩ := List.append_inj' heq rfl
    cases hw
    exact hv e he
  · rw [List.concat_eq_append, ← List.cons_append, ← List.append_assoc] at heq
    obtain ⟨rfl, -⟩ := List.append_inj' heq rfl
    exact h before w rest rfl e he

/-- What feeds a listed vertex has a smaller place in the list. -/
theorem Fed.idxOf_lt {l : List ElementId} (h : t.Fed l) {v : ElementId} (hv : v ∈ l)
    {e : ScopeId × ElementId} (he : e ∈ t.edgesIn v) : l.idxOf e.2 < l.idxOf v := by
  obtain ⟨before, after, rfl, hnew⟩ := List.eq_append_cons_of_mem hv
  have hb := h before v after rfl e he
  rw [List.idxOf_append, if_pos hb, List.idxOf_append, if_neg hnew, List.idxOf_cons_self]
  exact Nat.lt_of_lt_of_le (List.idxOf_lt_length_of_mem hb) (Nat.le_add_left _ _)

theorem Fed.mem {l : List ElementId} (h : t.Fed l) {v : ElementId} (hv : v ∈ l)
    {e : ScopeId × ElementId} (he : e ∈ t.edgesIn v) : e.2 ∈ l := by
  obtain ⟨before, after, rfl⟩ := List.append_of_mem hv
  exact List.mem_append_left _ (h before v after rfl e he)

theorem ready_iff {placed : List ElementId} {v : ElementId} :
    t.ready placed v = true ↔ ∀ e ∈ t.edgesIn v, e.2 ∈ placed := by
  simp [ready]

/-! ## What placing keeps -/

theorem place_spec (n : Nat) {placed : List ElementId} (waiting : List ElementId)
    (h : t.Fed placed) :
    t.Fed (t.place n placed waiting).1 ∧
      ((t.place n placed waiting).1 ++ (t.place n placed waiting).2).Perm (placed ++ waiting) := by
  induction n generalizing placed waiting with
  | zero => exact ⟨h, .refl _⟩
  | succ n ih =>
    unfold place
    split
    · exact ⟨h, .refl _⟩
    · next v hv =>
      have hready := ready_iff.1 (List.find?_some hv)
      have hmem := List.mem_of_find?_eq_some hv
      obtain ⟨hfed, hperm⟩ := ih (waiting.erase v) (h.snoc hready)
      refine ⟨hfed, hperm.trans ?_⟩
      rw [List.append_assoc]
      exact (List.perm_cons_erase hmem).symm.append_left placed

theorem order_eq {l : List ElementId} (h : t.order = .ok l) :
    t.place t.vertices.size [] t.vertices.toList = (l, []) := by
  unfold order at h
  split at h
  · next placed hp => cases h; exact hp
  · cases h

theorem order_eq_error {e : CycleError} (h : t.order = .error e) :
    ∃ placed stuck, t.place t.vertices.size [] t.vertices.toList = (placed, stuck) ∧
      stuck ≠ [] ∧ e.stuck = .ofList stuck := by
  unfold order at h
  split at h
  · cases h
  · next placed stuck hne hp => cases h; exact ⟨placed, stuck, hp, hne, rfl⟩

theorem fed_of_order {l : List ElementId} (h : t.order = .ok l) : t.Fed l := by
  have hs := place_spec (t := t) t.vertices.size t.vertices.toList fed_nil
  rw [order_eq h] at hs
  exact hs.1

theorem perm_of_order {l : List ElementId} (h : t.order = .ok l) : l.Perm t.vertices.toList := by
  have hs := place_spec (t := t) t.vertices.size t.vertices.toList fed_nil
  rw [order_eq h] at hs
  simpa using hs.2

theorem mem_order {l : List ElementId} (h : t.order = .ok l) {v : ElementId} :
    v ∈ l ↔ v ∈ t.vertices :=
  (perm_of_order h).mem_iff

theorem nodup_of_order {l : List ElementId} (h : t.order = .ok l) : l.Nodup :=
  (perm_of_order h).nodup_iff.2 (IdSet.nodup_toList t.vertices)

theorem pairwise_idxOf {l : List ElementId} (h : t.order = .ok l) :
    l.Pairwise fun a b => l.idxOf a < l.idxOf b := by
  have hnodup := nodup_of_order h
  refine List.pairwise_iff_getElem.2 fun i j hi hj hij => ?_
  rwa [hnodup.idxOf_getElem, hnodup.idxOf_getElem]

/-! ## When placing does not stall -/

/-- A waiting list that is not empty has a member of least rank. -/
theorem exists_least (rank : ElementId → Nat) {l : List ElementId} (h : l ≠ []) :
    ∃ v ∈ l, ∀ w ∈ l, rank v ≤ rank w := by
  induction l with
  | nil => exact absurd rfl h
  | cons x rest ih =>
    by_cases hr : rest = []
    · subst hr
      exact ⟨x, List.mem_cons_self, by simp⟩
    · obtain ⟨v, hv, hle⟩ := ih hr
      by_cases hx : rank x ≤ rank v
      · refine ⟨x, List.mem_cons_self, fun w hw => ?_⟩
        rcases List.mem_cons.1 hw with rfl | hw
        · exact Nat.le_refl _
        · exact Nat.le_trans hx (hle w hw)
      · refine ⟨v, List.mem_cons_of_mem x hv, fun w hw => ?_⟩
        rcases List.mem_cons.1 hw with rfl | hw
        · exact Nat.le_of_lt (Nat.lt_of_not_le hx)
        · exact hle w hw

/-- With enough budget, placing ends where nothing that waits is ready. -/
theorem place_stalled (n : Nat) (placed : List ElementId) {waiting : List ElementId}
    (hn : waiting.length ≤ n) :
    ∀ v ∈ (t.place n placed waiting).2, t.ready (t.place n placed waiting).1 v = false := by
  induction n generalizing placed waiting with
  | zero =>
    rw [List.length_eq_zero_iff.1 (Nat.le_zero.1 hn)]
    simp [place]
  | succ n ih =>
    unfold place
    split
    · next hnone =>
      intro v hv
      exact Bool.not_eq_true _ ▸ List.find?_eq_none.1 hnone v hv
    · next v hv =>
      refine ih (placed ++ [v]) ?_
      rw [List.length_erase_of_mem (List.mem_of_find?_eq_some hv)]
      omega

/-- Where no order is found, something is stuck, and whatever is stuck is fed by
something stuck or by no vertex. -/
theorem stuck_spec {e : CycleError} (h : t.order = .error e) :
    (∃ v, v ∈ e.stuck) ∧ ∀ v ∈ e.stuck, v ∈ t.vertices ∧
      ∃ x ∈ t.edgesIn v, x.2 ∈ e.stuck ∨ x.2 ∉ t.vertices := by
  have hperm := (place_spec (t := t) t.vertices.size t.vertices.toList fed_nil).2
  have hstall := place_stalled (t := t) t.vertices.size [] (Nat.le_refl t.vertices.toList.length)
  obtain ⟨placed, stuck, hp, hne, hstuck⟩ := order_eq_error h
  rw [hp] at hperm hstall
  rw [hstuck]
  refine ⟨?_, fun v hv => ?_⟩
  · obtain ⟨v, hv⟩ := List.exists_mem_of_ne_nil stuck hne
    exact ⟨v, IdSet.mem_ofList.2 hv⟩
  · have hwait := IdSet.mem_ofList.1 hv
    have hready := hstall v hwait
    rw [← Bool.not_eq_true, ready_iff] at hready
    simp only [Classical.not_forall] at hready
    obtain ⟨x, hx, hplaced⟩ := hready
    refine ⟨hperm.mem_iff.1 (List.mem_append_right _ hwait), x, hx, ?_⟩
    by_cases hvert : x.2 ∈ t.vertices
    · have hmem : x.2 ∈ placed ++ stuck := hperm.mem_iff.2 hvert
      rcases List.mem_append.1 hmem with hmem | hmem
      · exact absurd hmem hplaced
      · exact .inl (IdSet.mem_ofList.2 hmem)
    · exact .inr hvert

theorem order_of_rank (rank : ElementId → Nat)
    (hrank : ∀ v ∈ t.vertices, ∀ e ∈ t.edgesIn v, e.2 ∈ t.vertices ∧ rank e.2 < rank v) :
    ∃ l, t.order = .ok l := by
  cases ho : t.order with
  | ok l => exact ⟨l, rfl⟩
  | error e =>
    obtain ⟨⟨v₀, hv₀⟩, hstuck⟩ := stuck_spec ho
    obtain ⟨v, hv, hleast⟩ := exists_least rank (List.ne_nil_of_mem hv₀)
    obtain ⟨hvert, x, hx, hor⟩ := hstuck v hv
    obtain ⟨hmem, hlt⟩ := hrank v hvert x hx
    rcases hor with h | h
    · exact absurd hlt (Nat.not_lt_of_le (hleast x.2 h))
    · exact absurd hmem h

end Topology
end Dataflow
