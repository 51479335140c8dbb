import Dataflow.Proofs.Flow.Failures
import Dataflow.Proofs.Flow.Splits

/-!
# Split insertion finds the splits whose branches meet, and comes to an end

The search counts routes. Here a route is the list of its scopes, so that two routes may
run along the same elements, and the count is the length of the list of all routes: more
than one route is counted if and only if there are two different ones. The search keeps its
counts in machine words, so it fails on a graph with too many routes; `Fits` says that there
are few enough. A boundary behind a split leaves the split one scope and ends every route that
came through it. So the split is done with, no other element becomes a split that was none, and
there is no more to count.

Results:

* `length_routeList`, `mem_routeList`, `nodup_routeList`: the count is that of the routes;
* `one_lt_routes_iff`: two routes are counted where two different ones are;
* `lists_splitPoints`, `overflow_of_splitPoints`: what the search lists, in which order, and how
  it fails;
* `fits_of_length_scopes`: less than 64 scopes are few enough;
* `parts_of_ordered`: how split insertion ends on every graph without cycles.
-/
namespace Dataflow
namespace SplitInsertion

open Dataflow.Graph Relation

variable {g g' : Graph} {scheme : String} {x v : ElementId} {n : Nat}

/-! ## Routes as lists of scopes -/

/-- The scopes of the list lead from `x` to `v`, the last one stands first. None of the
elements in between is a tap. -/
inductive Route (g : Graph) (x : ElementId) : List ScopeId → ElementId → Prop
  | start : Route g x [] x
  | step {l : List ScopeId} {s : ScopeId} {sc : Scope} : Route g x l sc.origin →
      (sc.origin = x ∨ g.hasKind Kind.isTap sc.origin = false) → g.scope? s = some sc →
      Route g x (s :: l) sc.target

/-- The routes from `x` to `v` with less than `n` scopes. -/
def routeList (g : Graph) (x : ElementId) : Nat → ElementId → List (List ScopeId)
  | 0, _ => []
  | n + 1, v =>
    if v = x then [[]]
    else (g.edgesIn v).flatMap fun (s, u) =>
      if u ≠ x ∧ g.hasKind Kind.isTap u = true then [] else (routeList g x n u).map (s :: ·)

theorem length_routeList (g : Graph) (x : ElementId) (n : Nat) (v : ElementId) :
    (routeList g x n v).length = routes g x n v := by
  induction n generalizing v with
  | zero => rfl
  | succ n ih =>
    simp only [routeList, routes]
    split
    · rfl
    · rw [List.length_flatMap, inputs, List.map_map]
      refine congrArg List.sum (List.map_congr_left fun i _ => ?_)
      simp only [Function.comp_apply, passed]
      split <;> simp [ih]

/-- A rank goes up with every scope of a route. -/
theorem Route.rank_le {rank : ElementId → Nat} (hrank : g.RankedBy rank) {l : List ScopeId}
    (h : Route g x l v) : rank x + l.length ≤ rank v := by
  induction h with
  | start => simp
  | step _ _ hs ih =>
    have := hrank _ _ ⟨_, _, hs, rfl, rfl⟩
    simp only [List.length_cons]
    omega

theorem mem_routeList (h : g.Agrees) (hacyc : g.Acyclic) {l : List ScopeId} :
    l ∈ routeList g x n v ↔ Route g x l v ∧ l.length < n := by
  obtain ⟨rank, hrank⟩ := hacyc
  induction n generalizing v l with
  | zero => simp [routeList]
  | succ n ih =>
    simp only [routeList]
    split
    · next hv =>
      subst hv
      rw [List.mem_singleton]
      constructor
      · rintro rfl
        exact ⟨.start, by simp⟩
      · rintro ⟨hl, -⟩
        have := hl.rank_le hrank
        exact List.eq_nil_of_length_eq_zero (by omega)
    · next hv =>
      rw [List.mem_flatMap]
      constructor
      · rintro ⟨⟨s, u⟩, hedge, hl⟩
        obtain ⟨sc, hsc, rfl, rfl⟩ := h.mem_edgesIn.1 hedge
        split at hl
        · cases hl
        · next hpass =>
          obtain ⟨rest, hrest, rfl⟩ := List.mem_map.1 hl
          obtain ⟨hroute, hlt⟩ := ih.1 hrest
          refine ⟨.step hroute ?_ hsc, by simpa using hlt⟩
          by_cases hx : sc.origin = x
          · exact .inl hx
          · exact .inr (by simpa [hx] using hpass)
      · rintro ⟨hroute, hlt⟩
        cases hroute with
        | start => exact absurd rfl hv
        | @step l s sc hroute hpass hsc =>
          refine ⟨(s, sc.origin), h.mem_edgesIn.2 ⟨sc, hsc, rfl, rfl⟩, ?_⟩
          have hnot : ¬ (sc.origin ≠ x ∧ g.hasKind Kind.isTap sc.origin = true) := by
            rcases hpass with hx | htap
            · simp [hx]
            · simp [htap]
          rw [if_neg hnot]
          exact List.mem_map.2 ⟨l, ih.2 ⟨hroute, by simpa using hlt⟩, rfl⟩

theorem nodup_routeList (h : g.Agrees) (x : ElementId) (n : Nat) (v : ElementId) :
    (routeList g x n v).Nodup := by
  induction n generalizing v with
  | zero => exact List.nodup_nil
  | succ n ih =>
    simp only [routeList]
    split
    · simp
    · refine List.nodup_flatMap.2 ⟨fun i _ => ?_, ?_⟩
      · split
        · exact List.nodup_nil
        · exact (ih i.2).map fun l l' hl => (List.cons.inj hl).2
      · -- routes whose last scopes differ are different
        rw [h.edgesIn_eq, List.pairwise_map]
        refine (h.incoming_nodup v).imp fun {s t} hst => ?_
        intro l hs ht
        dsimp only at hs ht
        split at hs
        · cases hs
        · split at ht
          · cases ht
          · obtain ⟨l1, -, rfl⟩ := List.mem_map.1 hs
            obtain ⟨l2, -, heq⟩ := List.mem_map.1 ht
            exact hst (List.cons.inj heq).1.symm

/-- Two routes are counted if and only if two different ones lead there. -/
theorem one_lt_routes_iff (h : g.Agrees) (hacyc : g.Acyclic) : (∃ n, 1 < routes g x n v) ↔
    ∃ l l', l ≠ l' ∧ Route g x l v ∧ Route g x l' v := by
  constructor
  · rintro ⟨n, hn⟩
    rw [← length_routeList] at hn
    have hnodup := nodup_routeList h x n v
    have hmem := fun l => (mem_routeList (x := x) (v := v) (n := n) h hacyc (l := l)).1
    generalize routeList g x n v = all at hn hnodup hmem
    match all, hn, hnodup, hmem with
    | l :: l' :: rest, _, hnodup, hmem =>
      have hne : l ≠ l' := fun heq => (List.nodup_cons.1 hnodup).1 (heq ▸ List.mem_cons_self)
      exact ⟨l, l', hne, (hmem l (by simp)).1, (hmem l' (by simp)).1⟩
  · rintro ⟨l, l', hne, hl, hl'⟩
    refine ⟨l.length + l'.length + 1, ?_⟩
    rw [← length_routeList]
    have hpair : [l, l'].Nodup := by simpa using hne
    refine hpair.length_le_of_subset fun k hk => (mem_routeList h hacyc).2 ?_
    rcases List.mem_cons.1 hk with rfl | hk
    · exact ⟨hl, by omega⟩
    · rw [List.mem_singleton.1 hk]
      exact ⟨hl', by omega⟩

/-! ## What is listed -/

/-- A processing element with two outgoing scopes or more that is not fed by boundaries and
groupings alone. -/
structure Exposed (g : Graph) (x : ElementId) : Prop where
  processing : g.hasKind Kind.isProcessing x = true
  splits : 2 ≤ (g.outgoing x).length
  exposed : ¬ ((∃ a, g.Leads a x) ∧ ∀ a, g.Leads a x →
    g.hasKind Kind.isBoundary a = true ∨ g.hasKind Kind.isGrouping a = true)

/-- Two different routes lead from the element to one grouping. -/
structure Reunites (g : Graph) (x : ElementId) : Prop extends Exposed g x where
  meet : ∃ v, g.hasKind Kind.isGrouping v = true ∧
    ∃ l l', l ≠ l' ∧ Route g x l v ∧ Route g x l' v

/-- Machine words can count the routes from every exposed split: to no element are there
`2 ^ 64` of them. -/
def Fits (g : Graph) : Prop :=
  ∀ x, Exposed g x → ∀ v, ∀ all : List (List ScopeId), all.Nodup → (∀ l ∈ all, Route g x l v) →
    all.length < UInt64.size

theorem exposed_iff (h : g.Agrees) :
    Exposed g x ↔ isSplit g x = true ∧ followsBoundary g x = false := by
  rw [← Bool.not_eq_true (followsBoundary g x), followsBoundary_iff h, isSplit,
    Bool.and_eq_true, decide_eq_true_eq]
  exact ⟨fun he => ⟨⟨he.processing, he.splits⟩, he.exposed⟩, fun he => ⟨he.1.1, he.1.2, he.2⟩⟩

theorem point_iff (h : g.Ordered) : Point g x ↔ Reunites g x := by
  constructor
  · intro hp
    obtain ⟨n, v, -, hgroup, hlt⟩ := hp.meet
    exact ⟨(exposed_iff h.agrees).2 ⟨hp.split, hp.exposed⟩, v, hgroup,
      (one_lt_routes_iff h.agrees h.acyclic).1 ⟨n, hlt⟩⟩
  · intro hr
    obtain ⟨v, hgroup, hroutes⟩ := hr.meet
    obtain ⟨n, hlt⟩ := (one_lt_routes_iff h.agrees h.acyclic).2 hroutes
    obtain ⟨hsplit, hexposed⟩ := (exposed_iff h.agrees).1 hr.toExposed
    refine ⟨hsplit, hexposed, n, v, ?_, hgroup, hlt⟩
    rintro rfl
    have hnot := hasKind_eq_false (fun _ => Kind.isProcessing_of_isGrouping) hgroup
    rw [hr.processing] at hnot
    cases hnot

/-- The list of the routes is one of those that a word can count, and none is longer. -/
theorem fits_iff (h : g.Ordered) :
    Fits g ↔ ∀ x, Exposed g x → ∀ n v, routes g x n v < UInt64.size := by
  obtain ⟨rank, hrank⟩ := h.acyclic
  refine forall_congr' fun x => imp_congr_right fun _ => ⟨fun hfits n v => ?_, fun hlt v all hnodup
    hall => ?_⟩
  · rw [← length_routeList]
    exact hfits v _ (nodup_routeList h.agrees x n v) fun l hl =>
      ((mem_routeList h.agrees h.acyclic).1 hl).1
  · have hsub : ∀ l ∈ all, l ∈ routeList g x (rank v + 1) v := fun l hl =>
      (mem_routeList h.agrees h.acyclic).2 ⟨hall l hl, by
        have := (hall l hl).rank_le hrank
        omega⟩
    have hle := hnodup.length_le_of_subset hsub
    rw [length_routeList] at hle
    exact Nat.lt_of_le_of_lt hle (hlt (rank v + 1) v)

/-- The rank of what a scope leaves goes down along the list of a route. -/
theorem Route.pairwise_rank {rank : ElementId → Nat} (hrank : g.RankedBy rank) {l : List ScopeId}
    (h : Route g x l v) :
    (∀ s ∈ l, ((g.scope? s).elim 0 fun sc => rank sc.origin) < rank v) ∧
      l.Pairwise fun s t => ((g.scope? t).elim 0 fun sc => rank sc.origin) <
        (g.scope? s).elim 0 fun sc => rank sc.origin := by
  induction h with
  | start => simp
  | @step l s sc _ _ hsc ih =>
    have hup := hrank _ _ ⟨_, _, hsc, rfl, rfl⟩
    have hs : ((g.scope? s).elim 0 fun sc => rank sc.origin) = rank sc.origin := by rw [hsc]; rfl
    refine ⟨List.forall_mem_cons.2 ⟨hs ▸ hup, fun t ht => (ih.1 t ht).trans hup⟩, ?_⟩
    exact List.pairwise_cons.2 ⟨fun t ht => hs ▸ ih.1 t ht, ih.2⟩

theorem Route.lt_scopes {l : List ScopeId} (h : Route g x l v) {s : ScopeId} (hs : s ∈ l) :
    s < g.scopes.length := by
  induction h with
  | start => cases hs
  | step _ _ hsc ih =>
    rcases List.mem_cons.1 hs with rfl | hs
    · exact lt_scopes_of_scope? hsc
    · exact ih hs

/-- A route is known by the set of its scopes, so there are not more routes than sets. -/
theorem length_routes_le (hacyc : g.Acyclic) {all : List (List ScopeId)} (hnodup : all.Nodup)
    (hall : ∀ l ∈ all, Route g x l v) : all.length ≤ 2 ^ g.scopes.length := by
  obtain ⟨rank, hrank⟩ := hacyc
  have hinj : ∀ l ∈ all, ∀ l' ∈ all, l.toFinset = l'.toFinset → l = l' := by
    intro l hl l' hl' heq
    have hp := ((hall l hl).pairwise_rank hrank).2
    have hp' := ((hall l' hl').pairwise_rank hrank).2
    have hnd : ∀ {k : List ScopeId}, k.Pairwise (fun s t =>
        ((g.scope? t).elim 0 fun sc => rank sc.origin) <
          (g.scope? s).elim 0 fun sc => rank sc.origin) → k.Nodup := fun hk =>
      hk.imp fun hlt heq => by rw [heq] at hlt; exact Nat.lt_irrefl _ hlt
    have hperm : l.Perm l' := List.perm_of_nodup_nodup_toFinset_eq (hnd hp) (hnd hp') heq
    exact hperm.eq_of_pairwise (fun a b _ _ hab hba => absurd hab (Nat.lt_asymm hba)) hp hp'
  have hsets : (all.map List.toFinset).Nodup := hnodup.map_on hinj
  have hsub : (all.map List.toFinset).toFinset ⊆ (Finset.range g.scopes.length).powerset := by
    intro set hset
    obtain ⟨l, hl, rfl⟩ := List.mem_map.1 (List.mem_toFinset.1 hset)
    refine Finset.mem_powerset.2 fun s hs => Finset.mem_range.2 ?_
    exact (hall l hl).lt_scopes (List.mem_toFinset.1 hs)
  have hcard := Finset.card_le_card hsub
  rwa [List.toFinset_card_of_nodup hsets, List.length_map, Finset.card_powerset,
    Finset.card_range] at hcard

/-- Less than 64 scopes never need more than a word. -/
theorem fits_of_length_scopes (h : g.Ordered) (hlt : g.scopes.length < 64) : Fits g :=
  fun _ _ _ _ hnodup hall => Nat.lt_of_le_of_lt (length_routes_le h.acyclic hnodup hall)
    (Nat.pow_lt_pow_right (by decide) hlt)

/-- The list holds the splits whose branches meet, each of them once, and what leads to one
of them stands before it. -/
structure Lists (g : Graph) (ids : List ElementId) : Prop where
  mem_iff : ∀ x, x ∈ ids ↔ Reunites g x
  nodup : ids.Nodup
  sorted : ids.Pairwise fun a b => ¬ ReflTransGen g.Leads b a

/-- A search that comes to its end has found the splits whose branches meet. -/
theorem lists_splitPoints (h : g.Ordered) {order ids : List ElementId}
    (horder : g.topology.order = .ok order) (hids : splitPoints g = .ok ids) :
    ids.Sublist order ∧ Lists g ids := by
  obtain ⟨order', horder', -, hsub, -⟩ := splitPoints_eq_ok hids
  cases horder.symm.trans horder'
  have hnodup := Topology.nodup_of_order horder
  refine ⟨hsub, fun x => ?_, hnodup.sublist hsub, ?_⟩
  · rw [mem_splitPoints h.agrees h.ends hids, point_iff h]
  · -- in the order every element stands before all that it leads to
    have hrank : g.RankedBy order.idxOf := fun a b hl =>
      h.agrees.idxOf_lt_of_leads horder hl (h.ends a b hl).2
    refine ((Topology.pairwise_idxOf horder).sublist hsub).imp fun {a b} hlt hba => ?_
    exact absurd hlt (Nat.not_lt_of_le (RankedBy.le hrank hba))

/-- A search that fails has counted past a word. -/
theorem overflow_of_splitPoints (h : g.Ordered) {e : PlanError} (he : splitPoints g = .error e) :
    e = .dead .overflow ∧ ¬ Fits g := by
  obtain ⟨order, horder⟩ := h.exists_order
  obtain ⟨rfl, x, hsplit, hexposed, n, v, hlarge⟩ :=
    splitPoints_eq_error h.agrees h.ends horder he
  refine ⟨rfl, fun hfits => ?_⟩
  have hlt := (fits_iff h).1 hfits x ((exposed_iff h.agrees).2 ⟨hsplit, hexposed⟩) n v
  exact Nat.not_lt_of_le hlarge hlt

theorem exists_splitPoints (h : g.Ordered) (hfits : Fits g) : ∃ ids, splitPoints g = .ok ids := by
  cases hids : splitPoints g with
  | ok ids => exact ⟨ids, rfl⟩
  | error e => exact absurd hfits (overflow_of_splitPoints h hids).2

/-! ## What a boundary does -/

/-- A split with a boundary behind it has one outgoing scope. -/
theorem isSplit_boundaryAfter_self (h : g.Agrees) {o : ElementId} (ho : o < g.size) :
    isSplit (g.boundaryAfter scheme o) o = false := by
  have h' := h.agrees_boundaryAfter scheme ho
  have hone : ((g.boundaryAfter scheme o).outgoing o).length ≤ [g.scopes.length].length := by
    refine (h'.outgoing_nodup o).length_le_of_subset fun s hs => ?_
    obtain ⟨sc', hsc', hto⟩ := (h'.outgoing_iff o s).1 hs
    rcases (agrees_recount h g.nextBoundaryNumber).insertAfter_cases hsc' with
      ⟨rfl, -⟩ | ⟨sc, hsc, rfl⟩
    · exact List.mem_singleton.2 rfl
    · rw [Scope.origin_rerouted] at hto
      split at hto
      · exact absurd hto.symm (Nat.ne_of_lt ho)
      · next hne => exact absurd hto hne
  simp only [List.length_singleton] at hone
  simp only [isSplit, Bool.and_eq_false_iff, decide_eq_false_iff_not]
  exact .inr (Nat.not_lt_of_le hone)

/-- A boundary ends routes, so it leaves no more of them to count. -/
theorem fits_boundaryAfter (h : g.Ordered) (hfits : Fits g) {o : ElementId}
    (ho : g.contains o = true) : Fits (g.boundaryAfter scheme o) := by
  have hlt := lt_size_of_contains ho
  have h' := h.boundaryAfter scheme ho
  rw [fits_iff h'] 
  rw [fits_iff h] at hfits
  intro x hx n v
  obtain ⟨hsplit, hexposed⟩ := (exposed_iff h'.agrees).1 hx
  have hxo : x ≠ o := by
    rintro rfl
    rw [isSplit_boundaryAfter_self h.agrees hlt] at hsplit
    cases hsplit
  obtain ⟨hxlt, -⟩ := (grows_boundaryAfter g scheme o).of_hasKind hx.processing fun _ => rfl
  have hold : Exposed g x := by
    refine (exposed_iff h.agrees).2 ⟨?_, ?_⟩
    · rw [← isSplit_boundaryAfter h.agrees scheme hlt hxo hxlt]
      exact hsplit
    · rw [← Bool.not_eq_true]
      intro hf
      rw [followsBoundary_boundaryAfter h.agrees scheme hlt hxlt hf] at hexposed
      cases hexposed
  by_cases hv : v = g.size
  · rw [hv]
    exact Nat.lt_of_le_of_lt
      (routes_boundaryAfter_new_le h.agrees scheme hlt (Nat.ne_of_lt hxlt) n) (hfits x hold n o)
  · exact Nat.lt_of_le_of_lt
      (routes_boundaryAfter_le h.agrees scheme hlt (Nat.ne_of_lt hxlt) n hv) (hfits x hold n v)

/-- One change: the split that gets a boundary is done with, no other split appears, and
there is no more to count. -/
theorem reunites_of_apply (h : g.Ordered) (happly : apply scheme g = (.ok true, g')) :
    g'.Ordered ∧ (Fits g → Fits g') ∧ (∀ x, Reunites g' x → Reunites g x) ∧
      ∃ o, Reunites g o ∧ ¬ Reunites g' o := by
  rw [apply_eq, changeAt_eq_true] at happly
  obtain ⟨o, hfirst, rfl⟩ := happly
  obtain ⟨rest, hids⟩ := firstPoint_eq_some.1 hfirst
  have ho := (mem_splitPoints h.agrees h.ends hids).1 List.mem_cons_self
  have hlive := contains_of_hasKind ho.isProcessing
  have hlt := lt_size_of_contains hlive
  have h' := h.boundaryAfter scheme hlive
  have hdone : ¬ Reunites (g.boundaryAfter scheme o) o := by
    intro hr
    have hsplit := ((point_iff h').2 hr).split
    rw [isSplit_boundaryAfter_self h.agrees hlt] at hsplit
    cases hsplit
  refine ⟨h', fun hfits => fits_boundaryAfter h hfits hlive, fun x hx => ?_, o,
    (point_iff h).1 ho, hdone⟩
  have hxo : x ≠ o := by
    rintro rfl
    exact hdone hx
  exact (point_iff h).1 (((point_iff h').2 hx).of_boundaryAfter h.agrees scheme hlt hxo)

/-- Between two searches that come to their ends, a change has left fewer splits. -/
theorem fewer_of_apply (h : g.Ordered) (happly : apply scheme g = (.ok true, g'))
    {ids ids' : List ElementId} (hids : splitPoints g = .ok ids)
    (hids' : splitPoints g' = .ok ids') :
    (∀ x ∈ ids', x ∈ ids) ∧ (∃ x ∈ ids, x ∉ ids') ∧ ids'.length < ids.length := by
  obtain ⟨h', -, hback, o, ho, hdone⟩ := reunites_of_apply h happly
  obtain ⟨order, horder⟩ := h.exists_order
  obtain ⟨order', horder'⟩ := h'.exists_order
  have hlist := (lists_splitPoints h horder hids).2
  have hlist' := (lists_splitPoints h' horder' hids').2
  have hsub : ∀ x ∈ ids', x ∈ ids := fun x hx =>
    (hlist.mem_iff x).2 (hback x ((hlist'.mem_iff x).1 hx))
  have hmem : o ∈ ids := (hlist.mem_iff o).2 ho
  have hnew : o ∉ ids' := fun hmem => hdone ((hlist'.mem_iff o).1 hmem)
  refine ⟨hsub, ⟨o, hmem, hnew⟩, ?_⟩
  refine (List.nodup_cons.2 ⟨hnew, hlist'.nodup⟩).length_le_of_subset fun x hx => ?_
  rcases List.mem_cons.1 hx with rfl | hx
  · exact hmem
  · exact hsub x hx

/-- The number of splits that the search lists. -/
def pointCount (g : Graph) : Nat := ((splitPoints g).toOption.getD []).length

theorem pointCount_of_apply (h : g.Ordered) (hfits : Fits g)
    (happly : apply scheme g = (.ok true, g')) : pointCount g' < pointCount g := by
  obtain ⟨h', hfits', -⟩ := reunites_of_apply h happly
  obtain ⟨ids, hids⟩ := exists_splitPoints h hfits
  obtain ⟨ids', hids'⟩ := exists_splitPoints h' (hfits' hfits)
  simp only [pointCount, hids, hids']
  exact (fewer_of_apply h happly hids hids').2.2

/-- **Split insertion on a graph without cycles.** A search that comes to its end lists the
splits whose branches meet, in topological order, and a change leaves some of them and adds
none. The search fails on nothing but a count past a machine word, for which some exposed
split must have `2 ^ 64` routes to an element. Where no split has, each search comes to its
end, and with a limit above the number of splits so does split insertion, and then there
are none. -/
theorem parts_of_ordered (h : g.Ordered) (scheme : String) :
    ∃ order, g.topology.order = .ok order ∧
      (∀ ids, splitPoints g = .ok ids → ids.Sublist order ∧ Lists g ids) ∧
      (∀ e, splitPoints g = .error e → e = .dead .overflow ∧ ¬ Fits g) ∧
      (∀ g' ids ids', apply scheme g = (.ok true, g') → splitPoints g = .ok ids →
        splitPoints g' = .ok ids' → (∀ x ∈ ids', x ∈ ids) ∧ ∃ x ∈ ids, x ∉ ids') ∧
      (Fits g → ∃ ids, splitPoints g = .ok ids ∧
        (∀ g', apply scheme g = (.ok true, g') → Fits g' ∧ ∃ ids', splitPoints g' = .ok ids') ∧
        ∀ limit, ids.length < limit → ∃ n g', (Rule.splitInsertion scheme).fixpoint limit g =
          (.ok n, g') ∧ n ≤ ids.length ∧ splitPoints g' = .ok [] ∧ ∀ x, ¬ Reunites g' x) := by
  obtain ⟨order, horder⟩ := h.exists_order
  refine ⟨order, horder, fun ids hids => lists_splitPoints h horder hids,
    fun e he => overflow_of_splitPoints h he, fun g' ids ids' happly hids hids' => ?_,
    fun hfits => ?_⟩
  · obtain ⟨hsub, hless, -⟩ := fewer_of_apply h happly hids hids'
    exact ⟨hsub, hless⟩
  · obtain ⟨ids, hids⟩ := exists_splitPoints h hfits
    have hcount : pointCount g = ids.length := by simp [pointCount, hids, Except.toOption]
    refine ⟨ids, hids, fun g' happly => ?_, fun limit hlimit => ?_⟩
    · obtain ⟨h', hfits', -⟩ := reunites_of_apply h happly
      exact ⟨hfits' hfits, exists_splitPoints h' (hfits' hfits)⟩
    · obtain ⟨n, g', hrun, hn, ⟨h', -⟩, hsettled⟩ := Rule.fixpoint_of_decreasing
        (r := .splitInsertion scheme) (P := fun a => a.Ordered ∧ Fits a) (m := pointCount)
        (fun a b ha happly => by
          obtain ⟨hb, hfits', -⟩ := reunites_of_apply ha.1 happly
          exact ⟨⟨hb, hfits' ha.2⟩, pointCount_of_apply ha.1 ha.2 happly⟩)
        (fun a e ha he => by
          rw [Rule.apply, apply_eq, fst_changeAt_eq_error, firstPoint, map_eq_error] at he
          exact (overflow_of_splitPoints ha.1 he).2 ha.2) ⟨h, hfits⟩ (hcount ▸ hlimit)
      have hnone : splitPoints g' = .ok [] := by
        simp only [Rule.apply, apply] at hsettled
        split at hsettled
        · cases hsettled
        · assumption
        · cases hsettled
      obtain ⟨order', horder'⟩ := h'.exists_order
      have hlist' := (lists_splitPoints h' horder' hnone).2
      exact ⟨n, g', hrun, hcount ▸ hn, hnone,
        fun x hx => List.not_mem_nil ((hlist'.mem_iff x).2 hx)⟩

/-- A grouping reads one stage twice. -/
def paired : Definition where
  name := "paired"
  stages :=
    [⟨"in", [], .source ⟨"hdfs", "in", none, true⟩⟩,
      ⟨"parse", ["in"], .each ⟨"parse", none, none, ["key"], .results⟩⟩,
      ⟨"pairs", ["parse", "parse"], .coGroup ⟨["key"], .inner, some ["left", "right"]⟩⟩,
      ⟨"out", ["pairs"], .sink ⟨"hdfs", "out", none, true⟩⟩]

/-- The stage is a split, and one change does away with it. -/
theorem parts_paired : ∃ g g' n g'', paired.toGraph = .ok g ∧ g.Ordered ∧ Fits g ∧
    splitPoints g = .ok [3] ∧ Reunites g 3 ∧ apply "sequence" g = (.ok true, g') ∧
      splitPoints g' = .ok [] ∧ (Rule.splitInsertion "sequence").fixpoint 2 g = (.ok n, g'') ∧
        n ≤ 1 ∧ ∀ x, ¬ Reunites g'' x := by
  have hany : (paired.toGraph.toOption.any fun g =>
      (PlannerConfig.verify .byScheme g).toOption.any fun _ =>
        (splitPoints g).toOption.any fun ids => decide (ids = [3] ∧
          (apply "sequence" g).1 = .ok true ∧ g.scopes.length < 64)) = true := by cbv
  obtain ⟨g, hd, hany⟩ := exists_ok_of_any hany
  obtain ⟨w, hw, hany⟩ := exists_ok_of_any hany
  obtain ⟨ids, hids, hany⟩ := exists_ok_of_any hany
  obtain ⟨rfl, happly, hfew⟩ := of_decide_eq_true hany
  have h := (PlannerConfig.shaped_of_verify hd hw).ordered
  have hfits := fits_of_length_scopes h hfew
  obtain ⟨order, -, hlist, -, hstep, hrun⟩ := parts_of_ordered h "sequence"
  obtain ⟨ids, hids', hnext, hrun⟩ := hrun hfits
  cases hids.symm.trans hids'
  obtain ⟨-, ids', hids'⟩ := hnext _ (Prod.ext happly rfl)
  obtain ⟨hsub, x, hx, hnew⟩ := hstep _ _ _ (Prod.ext happly rfl) hids hids'
  have hnil : ids' = [] := by
    refine List.eq_nil_iff_forall_not_mem.2 fun y hy => hnew ?_
    rwa [List.mem_singleton.1 hx, ← List.mem_singleton.1 (hsub y hy)]
  obtain ⟨n, g'', hfix, hn, -, hnone⟩ := hrun 2 (by simp)
  exact ⟨g, _, n, g'', hd, h, hfits, hids, ((hlist _ hids).2.mem_iff 3).1 (by simp),
    Prod.ext happly rfl, hnil ▸ hids', hfix, hn, hnone⟩

end SplitInsertion
end Dataflow
