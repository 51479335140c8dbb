import Mathlib.Data.List.Nodup
import Mathlib.Logic.Relation
import Dataflow.Proofs.Motif.SearchOrder

/-!
# Which motifs are usable

A motif is usable if it has a vertex, every edge has both ends, one vertex is the anchor and
every vertex hangs together with it, whichever way the edges point. Otherwise it has one or
more of five faults, and the check reports the first of them in a fixed order. The walk of a
usable motif lists every vertex once, starts at the anchor and goes on next to what it has
listed; it stops by itself, whatever steps it is given.

Results:

* `mem_searchOrder`: the walk lists what is joined to where it starts;
* `validate_cases`, `validate_eq_ok_iff`, `validate_eq_error_iff`: what either outcome of the
  check means;
* `unfolds_searchOrder`: the search order of a usable motif;
* `validates`: the check is exact, and what it lets through can be searched.
-/
namespace Dataflow
namespace Motif

open Relation

variable {m : Motif} {p v : Nat}

/-! ## What it means to be usable -/

/-- An edge has its ends at `a` and `b`, in this direction or the other. -/
def Adjoins (m : Motif) (a b : Nat) : Prop :=
  ∃ e ∈ m.edges, (e.origin = a ∧ e.target = b) ∨ (e.origin = b ∧ e.target = a)

/-- Edges lead from `a` to `b`, each taken in either direction. -/
def Joined (m : Motif) : Nat → Nat → Prop := ReflTransGen m.Adjoins

/-- The vertex carries the primary capture. -/
def IsPrimary (m : Motif) (v : Nat) : Prop :=
  ∃ node, m.nodes[v]? = some node ∧ node.capture = some .primary

/-- Both ends of the edge are vertices. -/
def InRange (m : Motif) (e : MotifEdge) : Prop := e.origin < m.size ∧ e.target < m.size

/-- The motif has `p` as its anchor and hangs together with it. -/
structure Usable (m : Motif) (p : Nat) : Prop where
  nonempty : m.nodes ≠ []
  ends : ∀ e ∈ m.edges, m.InRange e
  primary : ∀ v, m.IsPrimary v ↔ v = p
  joined : ∀ v < m.size, m.Joined p v

/-- What can be wrong, each fault by itself. -/
inductive Fault (m : Motif) : MotifError → Prop
  | empty : m.nodes = [] → Fault m .empty
  /-- `e` is the first edge with an end that is no vertex. -/
  | danglingEdge {before after : List MotifEdge} {e : MotifEdge} :
      m.edges = before ++ e :: after → (∀ d ∈ before, m.InRange d) → ¬ m.InRange e →
      Fault m (.danglingEdge (max e.origin e.target))
  | noPrimary : (∀ v, ¬ m.IsPrimary v) → Fault m .noPrimary
  /-- `ps` lists the vertices that carry the primary capture. -/
  | multiplePrimary {ps : List Nat} : ps.Nodup → (∀ v, v ∈ ps ↔ m.IsPrimary v) →
      1 < ps.length → Fault m (.multiplePrimary ps.length)
  /-- `v` is the smallest vertex that is not joined to the anchor. -/
  | disconnected {p v : Nat} : m.IsPrimary p → v < m.size → ¬ m.Joined p v →
      (∀ w < v, m.Joined p w) → Fault m (.disconnected v)

end Motif

/-- The order in which faults are looked for. -/
def MotifError.rank : MotifError → Nat
  | empty => 0
  | danglingEdge _ => 1
  | noPrimary => 2
  | multiplePrimary _ => 3
  | disconnected _ => 4

theorem MotifError.rank_le (e : MotifError) : e.rank ≤ 4 := by
  cases e <;> simp [rank]

namespace Motif

variable {m : Motif} {p v : Nat}

/-! ## The parts of the check -/

theorem IsPrimary.lt_size (h : m.IsPrimary v) : v < m.size := by
  obtain ⟨node, hnode, -⟩ := h
  exact (List.getElem?_eq_some_iff.1 hnode).1

theorem mem_primaries : v ∈ m.primaries ↔ m.IsPrimary v := by
  rw [primaries, List.mem_filter, List.mem_range, beq_iff_eq, Option.bind_eq_some_iff]
  exact ⟨fun h => h.2, fun h => ⟨h.lt_size, h⟩⟩

theorem nodup_primaries (m : Motif) : m.primaries.Nodup := List.nodup_range.filter _

theorem dangling_eq_false {e : MotifEdge} : m.dangling e = false ↔ m.InRange e := by
  simp [dangling, InRange]

theorem find?_dangling_eq_none : m.edges.find? m.dangling = none ↔ ∀ e ∈ m.edges, m.InRange e := by
  simp only [List.find?_eq_none, Bool.not_eq_true, dangling_eq_false]

theorem find?_dangling_eq_some {e : MotifEdge} : m.edges.find? m.dangling = some e ↔
    ¬ m.InRange e ∧ ∃ before after, m.edges = before ++ e :: after ∧
      ∀ d ∈ before, m.InRange d := by
  rw [List.find?_eq_some_iff_append, ← dangling_eq_false, Bool.not_eq_false]
  simp only [Bool.not_eq_true', dangling_eq_false]

theorem mem_searchOrder (hends : ∀ e ∈ m.edges, m.InRange e) (hp : p < m.size) :
    v ∈ m.searchOrder p ↔ m.Joined p v := by
  have hstep : (fun a b => b ∈ m.neighbours a) = m.Adjoins := by
    funext a b
    exact propext mem_neighbours
  rw [searchOrder, mem_explore (lt_size_of_mem_neighbours hends) hp, hstep, Joined]

theorem find?_searchOrder_eq_some (hends : ∀ e ∈ m.edges, m.InRange e) (hp : p < m.size) :
    ((List.range m.size).find? fun v => !(m.searchOrder p).contains v) = some v ↔
      v < m.size ∧ ¬ m.Joined p v ∧ ∀ w < v, m.Joined p w := by
  simp only [List.find?_range_eq_some, List.mem_range, Bool.not_eq_true', Bool.not_eq_false',
    List.contains_eq_mem, decide_eq_false_iff_not, decide_eq_true_eq, mem_searchOrder hends hp]
  tauto

theorem find?_searchOrder_eq_none (hends : ∀ e ∈ m.edges, m.InRange e) (hp : p < m.size) :
    ((List.range m.size).find? fun v => !(m.searchOrder p).contains v) = none ↔
      ∀ v < m.size, m.Joined p v := by
  simp only [List.find?_eq_none, List.mem_range, Bool.not_eq_true', List.contains_eq_mem,
    decide_eq_false_iff_not, not_not, mem_searchOrder hends hp]

/-! ## The first fault -/

/-- The fault applies, and none that is looked for earlier does. -/
structure FirstFault (m : Motif) (e : MotifError) : Prop where
  fault : m.Fault e
  first : ∀ e', m.Fault e' → e.rank ≤ e'.rank

theorem fault_danglingEdge_iff : m.Fault (.danglingEdge v) ↔
    ∃ e, m.edges.find? m.dangling = some e ∧ max e.origin e.target = v := by
  simp only [find?_dangling_eq_some]
  constructor
  · rintro ⟨⟩
    next before after e hedges hbefore he => exact ⟨e, ⟨he, before, after, hedges, hbefore⟩, rfl⟩
  · rintro ⟨e, ⟨he, before, after, hedges, hbefore⟩, rfl⟩
    exact .danglingEdge hedges hbefore he

theorem fault_noPrimary_iff : m.Fault .noPrimary ↔ m.primaries = [] := by
  simp only [List.eq_nil_iff_forall_not_mem, mem_primaries]
  exact ⟨fun | .noPrimary h => h, .noPrimary⟩

theorem fault_multiplePrimary_iff {n : Nat} : m.Fault (.multiplePrimary n) ↔
    1 < m.primaries.length ∧ m.primaries.length = n := by
  constructor
  · rintro ⟨⟩
    next ps hnodup hmem hlen =>
      have hperm : m.primaries.Perm ps :=
        (List.perm_ext_iff_of_nodup m.nodup_primaries hnodup).2 fun v => by
          rw [mem_primaries, hmem]
      exact ⟨hperm.length_eq ▸ hlen, hperm.length_eq⟩
  · rintro ⟨hlen, rfl⟩
    exact .multiplePrimary m.nodup_primaries (fun v => mem_primaries) hlen

theorem firstFault_of_fault {e : MotifError} (h : m.Fault e) (hempty : 0 < e.rank → m.nodes ≠ [])
    (hends : 1 < e.rank → ∀ e ∈ m.edges, m.InRange e) (hsome : 2 < e.rank → m.primaries ≠ [])
    (hone : 3 < e.rank → m.primaries.length ≤ 1) : m.FirstFault e := by
  refine ⟨h, fun e' he' => Nat.not_lt.1 fun hlt => ?_⟩
  cases he' with
  | empty hnil => exact hempty hlt hnil
  | danglingEdge hedges _ hout => exact hout (hends hlt _ (hedges ▸ by simp))
  | noPrimary hno => exact hsome hlt (fault_noPrimary_iff.1 (.noPrimary hno))
  | multiplePrimary hnodup hmem hlen =>
    have hmany := fault_multiplePrimary_iff.1 (.multiplePrimary hnodup hmem hlen)
    exact Nat.not_le.2 hmany.1 (hone hlt)
  | disconnected => exact Nat.not_lt.2 e.rank_le hlt

/-- Two anchors are one fault too many. -/
theorem FirstFault.primary_unique {e : MotifError} (h : m.FirstFault e) (hrank : 3 < e.rank)
    {p q : Nat} (hp : m.IsPrimary p) (hq : m.IsPrimary q) : p = q := by
  by_contra hne
  have hsub : [p, q] ⊆ m.primaries := by simp [mem_primaries, hp, hq]
  have hlen : 2 ≤ m.primaries.length :=
    List.Nodup.length_le_of_subset (by simpa using hne) hsub
  exact Nat.not_le.2 hrank (h.first _ (fault_multiplePrimary_iff.2 ⟨hlen, rfl⟩))

theorem FirstFault.unique {e e' : MotifError} (h : m.FirstFault e) (h' : m.FirstFault e') :
    e = e' := by
  have hrank := Nat.le_antisymm (h.first e' h'.fault) (h'.first e h.fault)
  cases e <;> cases e' <;> first | rfl | cases hrank
  case multiplePrimary.multiplePrimary =>
    obtain ⟨-, rfl⟩ := fault_multiplePrimary_iff.1 h.fault
    obtain ⟨-, rfl⟩ := fault_multiplePrimary_iff.1 h'.fault
    rfl
  case danglingEdge.danglingEdge =>
    obtain ⟨e, he, rfl⟩ := fault_danglingEdge_iff.1 h.fault
    obtain ⟨e', he', rfl⟩ := fault_danglingEdge_iff.1 h'.fault
    cases he.symm.trans he'
    rfl
  case disconnected.disconnected v w =>
    obtain ⟨⟩ := h.fault
    next p hp hv hlost hbefore =>
    obtain ⟨⟩ := h'.fault
    next q hq hw hlost' hbefore' =>
    obtain rfl := h.primary_unique (Nat.le_refl 4) hp hq
    -- of two smallest ones neither is before the other
    rcases Nat.lt_trichotomy v w with hlt | rfl | hlt
    · exact absurd (hbefore' v hlt) hlost
    · rfl
    · exact absurd (hbefore w hlt) hlost'

theorem Usable.not_fault {e : MotifError} (h : m.Usable p) : ¬ m.Fault e := by
  intro he
  cases he with
  | empty hnil => exact h.nonempty hnil
  | danglingEdge hedges _ hout => exact hout (h.ends _ (hedges ▸ by simp))
  | noPrimary hno => exact hno p ((h.primary p).2 rfl)
  | @multiplePrimary ps hnodup hmem hlen =>
    have hsub : ps ⊆ [p] := fun v hv => List.mem_singleton.2 ((h.primary v).1 ((hmem v).1 hv))
    exact Nat.not_le.2 hlen (hnodup.length_le_of_subset hsub)
  | disconnected hq hv hlost _ =>
    obtain rfl := (h.primary _).1 hq
    exact hlost (h.joined _ hv)

/-! ## The check -/

/-- With one anchor the check asks whether everything hangs together with it. -/
theorem validate_cases_of_primary (hnil : m.nodes ≠ []) (hends : ∀ e ∈ m.edges, m.InRange e)
    (hps : m.primaries = [p]) : (m.validate = .ok p ∧ m.Usable p) ∨
      ∃ v, m.validate = .error (.disconnected v) ∧ m.FirstFault (.disconnected v) := by
  have hne : m.nodes.isEmpty = false := by simpa using hnil
  have hfind := find?_dangling_eq_none.2 hends
  have hprimary : ∀ v, m.IsPrimary v ↔ v = p := fun v => by
    rw [← mem_primaries, hps, List.mem_singleton]
  have hp : p < m.size := ((hprimary p).2 rfl).lt_size
  cases hmiss : (List.range m.size).find? fun v => !(m.searchOrder p).contains v with
  | some v =>
    have hv : m.validate = .error (.disconnected v) := by
      simp only [validate, hne, hfind, hps, hmiss]
      rfl
    obtain ⟨hlt, hlost, hbefore⟩ := (find?_searchOrder_eq_some hends hp).1 hmiss
    have hfault : m.Fault (.disconnected v) := .disconnected ((hprimary p).2 rfl) hlt hlost hbefore
    exact .inr ⟨v, hv, firstFault_of_fault hfault (fun _ => hnil) (fun _ => hends)
      (fun _ => by simp [hps]) (fun _ => by simp [hps])⟩
  | none =>
    have hv : m.validate = .ok p := by
      simp only [validate, hne, hfind, hps, hmiss]
      rfl
    exact .inl ⟨hv, hnil, hends, hprimary, (find?_searchOrder_eq_none hends hp).1 hmiss⟩

/-- The check comes to one of two ends. -/
theorem validate_cases (m : Motif) : (∃ p, m.validate = .ok p ∧ m.Usable p) ∨
    ∃ e, m.validate = .error e ∧ m.FirstFault e := by
  by_cases hnil : m.nodes = []
  · exact .inr ⟨.empty, by simp [validate, hnil], .empty hnil, fun _ _ => Nat.zero_le _⟩
  have hne : m.nodes.isEmpty = false := by simpa using hnil
  cases hfind : m.edges.find? m.dangling with
  | some e =>
    have hv : m.validate = .error (.danglingEdge (max e.origin e.target)) := by
      simp [validate, hne, hfind]
    exact .inr ⟨_, hv, firstFault_of_fault (fault_danglingEdge_iff.2 ⟨e, hfind, rfl⟩)
      (fun _ => hnil) (by simp [MotifError.rank]) (by simp [MotifError.rank])
      (by simp [MotifError.rank])⟩
  | none =>
    have hends := find?_dangling_eq_none.1 hfind
    rcases hps : m.primaries with _ | ⟨p, _ | ⟨q, rest⟩⟩
    · have hv : m.validate = .error .noPrimary := by simp [validate, hne, hfind, hps]
      exact .inr ⟨_, hv, firstFault_of_fault (fault_noPrimary_iff.2 hps) (fun _ => hnil)
        (fun _ => hends) (by simp [MotifError.rank]) (by simp [MotifError.rank])⟩
    · rcases validate_cases_of_primary hnil hends hps with hok | ⟨v, hv, hfirst⟩
      · exact .inl ⟨p, hok⟩
      · exact .inr ⟨_, hv, hfirst⟩
    · have hv : m.validate = .error (.multiplePrimary m.primaries.length) := by
        simp [validate, hne, hfind, hps]
      exact .inr ⟨_, hv, firstFault_of_fault
        (fault_multiplePrimary_iff.2 ⟨by simp [hps], rfl⟩) (fun _ => hnil) (fun _ => hends)
        (fun _ => by simp [hps]) (by simp [MotifError.rank])⟩

theorem validate_eq_ok_iff : m.validate = .ok p ↔ m.Usable p := by
  constructor
  · intro h
    obtain ⟨q, hq, husable⟩ | ⟨e, he, -⟩ := m.validate_cases
    · cases h.symm.trans hq
      exact husable
    · cases h.symm.trans he
  · intro h
    obtain ⟨q, hq, husable⟩ | ⟨e, -, hfault⟩ := m.validate_cases
    · rw [hq, (h.primary q).1 ((husable.primary q).2 rfl)]
    · exact absurd hfault.fault h.not_fault

theorem validate_eq_error_iff {e : MotifError} : m.validate = .error e ↔ m.FirstFault e := by
  constructor
  · intro h
    obtain ⟨q, hq, -⟩ | ⟨e', he', hfault⟩ := m.validate_cases
    · cases h.symm.trans hq
    · cases h.symm.trans he'
      exact hfault
  · intro h
    obtain ⟨q, -, husable⟩ | ⟨e', he', hfault⟩ := m.validate_cases
    · exact absurd h.fault husable.not_fault
    · rw [he', h.unique hfault]

/-! ## The search order -/

/-- The order lists every vertex once, from `p` on, each later one next to an earlier one. -/
structure Unfolds (m : Motif) (p : Nat) (order : List Nat) : Prop where
  perm : order.Perm (List.range m.size)
  head : order.head? = some p
  linked : ∀ before v after, order = before ++ v :: after → before ≠ [] →
    ∃ u ∈ before, m.Adjoins u v

theorem exists_adjoins_of_chained {a before after : List Nat}
    (h : Matcher.chained m a (before ++ v :: after) = true) :
    ∃ u ∈ before.reverse ++ a, m.Adjoins u v := by
  obtain ⟨-, -, ⟨u, hnext, hu⟩, -⟩ := chained_cons_iff.1 (chained_append.1 h).2
  exact ⟨u, hu, mem_neighbours.1 (neighbours_symm hnext)⟩

theorem unfolds_searchOrder (h : m.validate = .ok p) : m.Unfolds p (m.searchOrder p) := by
  have hmatcher : Matcher.ofMotif m = .ok ⟨m, p, m.searchOrder p⟩ := by
    rw [Matcher.ofMotif, h]
    rfl
  obtain ⟨-, hready⟩ := Matcher.ready_of_ofMotif hmatcher
  obtain ⟨rest, horder, hchain⟩ := hready.order
  simp only at horder hchain
  refine ⟨?_, by rw [horder]; rfl, fun before v after heq hne => ?_⟩
  · refine (List.perm_ext_iff_of_nodup hready.order_nodup List.nodup_range).2 fun v => ?_
    rw [hready.mem_order, List.mem_range]
  · obtain ⟨u, before, rfl⟩ := List.exists_cons_of_ne_nil hne
    rw [horder, List.cons_append] at heq
    obtain ⟨rfl, rfl⟩ := List.cons.inj heq
    obtain ⟨u, hu, hadjoins⟩ := exists_adjoins_of_chained hchain
    exact ⟨u, by simpa [or_comm] using hu, hadjoins⟩

/-- What the check of a motif says about it. -/
structure Validates (m : Motif) : Prop where
  accepted : ∀ p, m.validate = .ok p ↔ m.Usable p
  refused : ∀ e, m.validate = .error e ↔ m.FirstFault e
  order : ∀ p, m.validate = .ok p → m.Unfolds p (m.searchOrder p)
  /-- The walk has come to its end: more steps list no more. -/
  complete : ∀ p, m.validate = .ok p → ∀ budget, m.size ≤ budget →
    explore m.neighbours budget [p] [p] = m.searchOrder p

/-- **The check of a motif is exact, and what it lets through can be searched.** -/
theorem validates (m : Motif) : m.Validates where
  accepted _ := validate_eq_ok_iff
  refused _ := validate_eq_error_iff
  order _ := unfolds_searchOrder
  complete p h budget hbudget := by
    have husable := validate_eq_ok_iff.1 h
    have hlt := lt_size_of_mem_neighbours husable.ends
    have hp : p < m.size := ((husable.primary p).2 rfl).lt_size
    -- both budgets reach beyond the number of vertices
    have hmore : ∀ more, explore m.neighbours (m.size + more) [p] [p] =
        explore m.neighbours m.size [p] [p] := fun more =>
      explore_add_budget hlt m.size more [p] [p] (List.nodup_singleton p) (by simpa using hp)
        (by simp only [List.length_singleton]; omega)
    obtain ⟨more, rfl⟩ := Nat.exists_eq_add_of_le hbudget
    rw [searchOrder, hmore, hmore]

/-- An edge from a vertex to itself and two side by side do no harm; without the one that leads to
it, the first vertex is lost. -/
example :
    let nodes := [⟨.any, none⟩, ⟨.any, some .primary⟩, ⟨.any, some .included⟩]
    let edges : List MotifEdge := [⟨1, 1, .any⟩, ⟨2, 1, .streamed⟩, ⟨1, 2, .accumulated⟩]
    validate ⟨nodes, edges ++ [⟨0, 2, .any⟩]⟩ = .ok 1 ∧
      searchOrder ⟨nodes, edges ++ [⟨0, 2, .any⟩]⟩ 1 = [1, 2, 0] ∧
      validate ⟨nodes, edges⟩ = .error (.disconnected 0) := by
  decide

end Motif
end Dataflow
