import Dataflow.Proofs.Resolution.Marking

/-!
# Field resolution finds the fields that fit

`Labels g f` says that `f` fits everywhere: where the inputs of an element carry the fields
that `f` has for what feeds them, the element puts out those that `f` has for it. `Orders g l`
says that `l` has every live element once, after whatever feeds it. Evaluation along any such
list works out what fits, one element at a time. It fails at an element only if nothing fits
there, and then nothing fits the graph.

Results:

* `Orders.evaluate_of_labels`, `Orders.labels_of_evaluate`: evaluation along any order;
* `Labels.unique`: no two assignments fit an acyclic graph;
* `resolveFields_of_labels`: if some fields fit, they are what is resolved;
* `exists_labels_of_resolveFields`: fields that are resolved fit;
* `Resolved.inputContracts_eq`: what is then on the inputs of an element.
-/
namespace Dataflow
namespace Graph

open Resolution

variable {g g' : Graph} {f f' : ElementId → Fields} {l : List ElementId}

/-- `f` has for every element the fields that it puts out, if each of its inputs carries
those that `f` has for what feeds it. -/
def Labels (g : Graph) (f : ElementId → Fields) : Prop :=
  ∀ e x, g.element? e = some x →
    outputFields x.name x.kind ((g.inputs e).map f) = .ok (f e)

/-- Every scope carries the fields that `f` has for its origin, and so does the tap of every
boundary. -/
structure Resolved (g : Graph) (f : ElementId → Fields) : Prop where
  labels : g.Labels f
  scopes : ∀ s sc, g.scope? s = some sc → sc.fields = some (f sc.origin)
  taps : ∀ b t, g.kind? b = some (.boundary t) → t.fields = f b

/-- The fields that the inputs of `e` carry, each with its position. -/
def inputContracts (g : Graph) (e : ElementId) : List (Nat × Option Fields) :=
  (g.incoming e).map fun s => (g.ordinalOf s, (g.scope? s).bind Scope.fields)

theorem Resolved.inputContracts_eq (h : g.Resolved f) (ha : g.Agrees) (e : ElementId) :
    g.inputContracts e = ((g.slots e).map (Prod.map id f)).map (Prod.map id some) := by
  rw [inputContracts, ha.slots_eq_map, List.map_map, List.map_map]
  refine List.map_congr_left fun s hs => ?_
  obtain ⟨sc, hsc, -⟩ := ha.mem_incoming.1 hs
  simp only [Function.comp_apply, Prod.map, id, hsc, Option.bind_some, Option.elim_some,
    h.scopes s sc hsc]

/-- Boundaries put out what they receive first. -/
theorem Resolved.tap_eq_first (h : g.Resolved f) {b : ElementId} {t : Tap}
    (ht : g.kind? b = some (.boundary t)) :
    t.fields = ((g.inputs b).map f).headD .unknown := by
  obtain ⟨x, hx, hkind⟩ := Option.map_eq_some_iff.1 ht
  have hfit := h.labels b x hx
  rw [hkind] at hfit
  rw [h.taps b t ht]
  exact (Except.ok.inj hfit).symm

theorem Relabels.labels (h : g.Relabels g') (ha : g.Agrees) : g'.Labels f ↔ g.Labels f := by
  constructor
  · intro hf e x hx
    obtain ⟨x', hx', hn, hk⟩ := h.element_to e x hx
    rw [← outputFields_alike hk, ← hn, ← h.inputs ha]
    exact hf e x' hx'
  · intro hf e x' hx'
    obtain ⟨x, hx, hn, hk⟩ := h.element_from e x' hx'
    rw [outputFields_alike hk, hn, h.inputs ha]
    exact hf e x hx

/-! ## Evaluation along an order -/

/-- A topological order: every live element once, after whatever feeds it. -/
structure Orders (g : Graph) (l : List ElementId) : Prop where
  perm : l.Perm g.elements.toList
  fed : g.topology.Fed l

theorem orders_of_order (h : g.topology.order = .ok l) : g.Orders l :=
  ⟨Topology.perm_of_order h, Topology.fed_of_order h⟩

theorem Orders.mem_iff (h : g.Orders l) {e : ElementId} : e ∈ l ↔ g.contains e = true :=
  h.perm.mem_iff.trans mem_elements

theorem Orders.nodup (h : g.Orders l) : l.Nodup :=
  h.perm.nodup_iff.2 (IdSet.nodup_toList _)

/-- What feeds the last element of a list that is fed stands before it. -/
theorem mem_of_fed_snoc {v : ElementId} (h : g.topology.Fed (l ++ [v])) {a : ElementId}
    (ha : a ∈ g.inputs v) : a ∈ l := by
  obtain ⟨i, hi, rfl⟩ := List.mem_map.1 ha
  exact h l v [] rfl i hi

theorem mem_inputs_of_fed (h : g.topology.Fed l) {e a : ElementId} (he : e ∈ l)
    (ha : a ∈ g.inputs e) : a ∈ l := by
  obtain ⟨i, hi, rfl⟩ := List.mem_map.1 ha
  exact h.mem he hi

theorem fed_of_snoc {v : ElementId} (h : g.topology.Fed (l ++ [v])) : g.topology.Fed l := by
  rintro before w after rfl
  exact h before w (after ++ [v]) (by simp)

/-- If some fields fit, evaluation along a list that is fed finds them. -/
theorem evaluate_of_labels (hf : g.Labels f) (hfed : g.topology.Fed l)
    (hlive : ∀ e ∈ l, g.contains e = true) : (evaluate g l fun _ => none).1 = .ok () ∧
      ∀ e ∈ l, (evaluate g l fun _ => none).2 e = some (f e) := by
  induction l using List.reverseRecOn with
  | nil => exact ⟨rfl, by simp⟩
  | append_singleton l v ih =>
    obtain ⟨hok, hd⟩ := ih (fed_of_snoc hfed) fun e he => hlive e (List.mem_append_left _ he)
    obtain ⟨x, hx⟩ := contains_iff.1 (hlive v (by simp))
    have hin : ((g.inputs v).map fun a => ((evaluate g l fun _ => none).2 a).getD .unknown) =
        (g.inputs v).map f :=
      List.map_congr_left fun a ha => by rw [hd a (mem_of_fed_snoc hfed ha), Option.getD_some]
    rw [evaluate_concat_of_ok hok, evaluate_singleton hx, hin, hf v x hx]
    refine ⟨rfl, fun e he => ?_⟩
    dsimp only
    by_cases hev : e = v
    · rw [hev, Function.update_self]
    · rw [Function.update_of_ne hev]
      exact hd e (by simpa [hev] using he)

/-- What evaluation along a list that is fed finds fits every element of it. -/
theorem fits_of_evaluate (hfed : g.topology.Fed l) (hnodup : l.Nodup)
    (hlive : ∀ e ∈ l, g.contains e = true) (hok : (evaluate g l fun _ => none).1 = .ok ())
    {e : ElementId} (he : e ∈ l) {x : Element} (hx : g.element? e = some x) :
    ∃ out, (evaluate g l fun _ => none).2 e = some out ∧ outputFields x.name x.kind
      ((g.inputs e).map fun a => ((evaluate g l fun _ => none).2 a).getD .unknown) = .ok out := by
  induction l using List.reverseRecOn generalizing e x with
  | nil => cases he
  | append_singleton l v ih =>
    obtain ⟨hl, -, hdisj⟩ := List.nodup_append.1 hnodup
    have hv : v ∉ l := fun hv => hdisj v hv v (by simp) rfl
    have hokl := ok_of_evaluate_concat hok
    obtain ⟨y, hy⟩ := contains_iff.1 (hlive v (by simp))
    have ih := fun {e x} => ih (fed_of_snoc hfed) hl
      (fun e he => hlive e (List.mem_append_left _ he)) hokl (e := e) (x := x)
    rw [evaluate_concat_of_ok hokl, evaluate_singleton hy] at hok ⊢
    generalize (evaluate g l fun _ => none).2 = d at ih hok ⊢
    cases hout : outputFields y.name y.kind ((g.inputs v).map fun a => (d a).getD .unknown) with
    | error err => rw [hout] at hok; cases hok
    | ok out =>
      -- the last output changes no input of what is listed, that of `v` included
      have hsame : ∀ w, (∀ a ∈ g.inputs w, a ∈ l) →
          ((g.inputs w).map fun a => (Function.update d v (some out) a).getD .unknown) =
            (g.inputs w).map fun a => (d a).getD .unknown := by
        intro w hw
        refine List.map_congr_left fun a ha => ?_
        rw [Function.update_of_ne]
        rintro rfl
        exact hv (hw a ha)
      dsimp only
      rcases List.mem_append.1 he with hel | hev
      · have hne : e ≠ v := by rintro rfl; exact hv hel
        rw [hsame e fun a ha => mem_inputs_of_fed (fed_of_snoc hfed) hel ha,
          Function.update_of_ne hne]
        exact ih hel hx
      · obtain rfl := List.mem_singleton.1 hev
        rw [hy] at hx
        cases hx
        rw [hsame e fun a ha => mem_of_fed_snoc hfed ha, Function.update_self]
        exact ⟨out, rfl, hout⟩

theorem Orders.evaluate_of_labels (h : g.Orders l) (hf : g.Labels f) :
    (evaluate g l fun _ => none).1 = .ok () ∧
      ∀ e, g.contains e = true → (evaluate g l fun _ => none).2 e = some (f e) := by
  obtain ⟨hok, hd⟩ := Graph.evaluate_of_labels hf h.fed fun e he => h.mem_iff.1 he
  exact ⟨hok, fun e he => hd e (h.mem_iff.2 he)⟩

theorem Orders.labels_of_evaluate (h : g.Orders l)
    (hok : (evaluate g l fun _ => none).1 = .ok ()) :
    g.Labels fun e => ((evaluate g l fun _ => none).2 e).getD .unknown := by
  intro e x hx
  have he : e ∈ l := h.mem_iff.2 (contains_iff.2 ⟨x, hx⟩)
  obtain ⟨out, hd, hout⟩ := fits_of_evaluate h.fed h.nodup (fun e he => h.mem_iff.1 he) hok he hx
  simp only [hout, hd, Option.getD_some]

/-- No two assignments fit where there is an order. -/
theorem Labels.unique (h : g.Ordered) (hf : g.Labels f) (hf' : g.Labels f') {e : ElementId}
    (he : g.contains e = true) : f' e = f e := by
  obtain ⟨l, hl⟩ := h.exists_order
  have hd := ((orders_of_order hl).evaluate_of_labels hf).2 e he
  rw [((orders_of_order hl).evaluate_of_labels hf').2 e he] at hd
  exact Option.some.inj hd

/-! ## Resolution -/

/-- Marks of elements that are not live are not seen. -/
theorem marked_congr (hends : g.EndsLive) {d d' : ElementId → Option Fields}
    (h : ∀ e, g.contains e = true → d' e = d e) : g.marked d' = g.marked d := by
  refine ext_places rfl (fun e => ?_) (by simp) (fun s => ?_) rfl
  · rw [getElem?_nodes_marked, getElem?_nodes_marked]
    cases hn : g.nodes[e]? with
    | none => rfl
    | some n =>
      cases hx : n.element with
      | none => rw [Option.map_some, Option.map_some, Node.marked, Node.marked, hx]; rfl
      | some x => rw [h e (contains_iff.2 ⟨x, by simp [element?, hn, hx]⟩)]
  · rw [scope?_marked, scope?_marked]
    cases hsc : g.scope? s with
    | none => rfl
    | some sc =>
      have hlive := (hends _ _ ⟨s, sc, hsc, rfl, rfl⟩).1
      rw [Option.map_some, Option.map_some, Scope.marked, Scope.marked, h _ hlive]

theorem Labels.resolved (hf : g.Labels f) (ha : g.Agrees) :
    (g.marked fun e => some (f e)).Resolved f where
  labels := ((relabels_marked g _).labels ha).2 hf
  scopes s sc' hsc' := by
    rw [scope?_marked] at hsc'
    obtain ⟨sc, -, rfl⟩ := Option.map_eq_some_iff.1 hsc'
    rfl
  taps b t ht := by
    rw [kind?, element?_marked] at ht
    obtain ⟨x', hx', hk'⟩ := Option.map_eq_some_iff.1 ht
    obtain ⟨x, -, rfl⟩ := Option.map_eq_some_iff.1 hx'
    obtain ⟨t₀, -, rfl⟩ := Element.boundary_of_marked hk'
    rfl

/-- If some fields fit, they are what is resolved. -/
theorem resolveFields_of_labels (h : g.Ordered) (hf : g.Labels f) :
    g.resolveFields = (.ok (), g.marked fun e => some (f e)) := by
  obtain ⟨l, hl⟩ := h.exists_order
  obtain ⟨hok, hd⟩ := (orders_of_order hl).evaluate_of_labels hf
  rw [resolveFields_eq h.agrees hl, hok, marked_congr h.ends hd]
  rfl

/-- Fields that are resolved fit. -/
theorem exists_labels_of_resolveFields (h : g.Ordered) (hok : g.resolveFields.1 = .ok ()) :
    ∃ f, g.Labels f := by
  obtain ⟨l, hl⟩ := h.exists_order
  refine ⟨_, (orders_of_order hl).labels_of_evaluate ?_⟩
  rw [resolveFields_eq h.agrees hl] at hok
  generalize (evaluate g l fun _ => none).1 = result at hok ⊢
  cases result with
  | error err => cases hok
  | ok _ => rfl

end Graph
end Dataflow
