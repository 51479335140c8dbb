import Dataflow.Proofs.Resolution.Labelling

/-!
# Field resolution is determined by the graph past its fields

On a graph without cycles resolution succeeds exactly if evaluation does, along one
topological order or any other, and its result is then the one assignment that fits,
marked on the scopes and the boundary taps. What was marked there before plays no part:
two graphs that are the same past these marks are resolved to the same one.

Results:

* `topology_eq_of_bare`, `marked_eq_of_bare`: what graphs that differ in such marks share;
* `resolveFields_eq_of_bare`: they are resolved alike;
* `resolves_uniquely`: resolution as a whole.
-/
namespace Dataflow
namespace Graph

open Resolution

variable {g h : Graph}

/-- The graph with unknown fields on every scope and on the tap of every boundary. Two graphs
with the same bare graph differ in these fields at most. -/
def bare (g : Graph) : Graph := g.marked fun _ => some .unknown

/-! ## Graphs that differ in resolved fields -/

theorem relabels_of_bare (heq : h.bare = g.bare) : g.Relabels h := by
  have hg : g.Relabels g.bare := relabels_marked g _
  have hh : h.Relabels h.bare := relabels_marked h _
  rw [heq] at hh
  exact hg.trans hh.symm

theorem topology_eq_of_bare (heq : h.bare = g.bare) : h.topology = g.topology := by
  have htop : h.bare.topology = g.bare.topology := by rw [heq]
  rwa [bare, bare, topology_marked, topology_marked] at htop

/-- Marks on everything make up for all that they differ in. -/
theorem marked_eq_of_bare (heq : h.bare = g.bare) (f : ElementId → Fields) :
    h.marked (fun e => some (f e)) = g.marked fun e => some (f e) := by
  have hover : ∀ a : Graph, a.bare.marked (fun e => some (f e)) = a.marked fun e => some (f e) :=
    fun a => marked_marked fun e he => by cases he
  rw [← hover h, heq, hover g]

/-- Marks on some make up for what the scopes differ in. -/
theorem scope?_marked_of_bare (heq : h.bare = g.bare) (d : ElementId → Option Fields)
    (s : ScopeId) : (h.marked d).scope? s = (g.marked d).scope? s := by
  have hover : ∀ a : Graph, (a.bare.scope? s).map (Scope.marked d) = (a.marked d).scope? s := by
    intro a
    rw [bare, scope?_marked, scope?_marked, Option.map_map]
    rfl
  rw [← hover h, heq, hover g]

theorem resolveFields_eq_of_bare (hg : g.Ordered) (heq : h.bare = g.bare)
    (hok : g.resolveFields.1 = .ok ()) : h.resolveFields = g.resolveFields := by
  have hrel := relabels_of_bare heq
  have hh : h.Ordered := by
    refine ⟨hrel.agrees hg.agrees, fun a b hl => ?_, ?_⟩
    · obtain ⟨ha, hb⟩ := hg.ends a b (hrel.leads hl)
      exact ⟨hrel.contains.2 ha, hrel.contains.2 hb⟩
    · obtain ⟨rank, hrank⟩ := hg.acyclic
      exact ⟨rank, fun a b hl => hrank a b (hrel.leads hl)⟩
  obtain ⟨f, hf⟩ := exists_labels_of_resolveFields hg hok
  rw [resolveFields_of_labels hg hf,
    resolveFields_of_labels hh ((hrel.labels hg.agrees).2 hf), marked_eq_of_bare heq]

/-- Resolution ends alike on both, with the same fields on the scopes where it got to. -/
theorem resolveFields_alike_of_bare (ha : g.Agrees) (heq : h.bare = g.bare) :
    h.resolveFields.1 = g.resolveFields.1 ∧
      ∀ l, g.topology.order = .ok l →
        ∀ s, h.resolveFields.2.scope? s = g.resolveFields.2.scope? s := by
  have hrel := relabels_of_bare heq
  have htop := topology_eq_of_bare heq
  cases hl : g.topology.order with
  | error e =>
    rw [resolveFields, resolveFields, htop, hl]
    exact ⟨rfl, fun l hl' => by cases hl'⟩
  | ok l =>
    rw [resolveFields_eq ha hl, resolveFields_eq (hrel.agrees ha) (htop ▸ hl),
      evaluate_of_relabels hrel ha]
    exact ⟨rfl, fun _ _ s => scope?_marked_of_bare heq _ s⟩

/-! ## Resolution as a whole -/

/-- Take a graph whose adjacency lists agree with its scopes, with scopes between live elements
alone. The inputs of an element are the origins of the scopes that enter it, by ordinal and then
by id. Without cycles the graph has a topological order, and resolution succeeds exactly if
evaluation along whichever order does. Then one assignment of outputs fits the graph, and no
other does on its live elements; every order evaluates to it. The graph has changed in that every
scope carries what its origin puts out, and every boundary tap what its boundary does, which is
what its first input carries. With a cycle resolution fails and changes nothing. What was
resolved before makes no difference to how resolution ends or to the fields that it ends with,
and resolving twice is resolving once. -/
theorem resolves_uniquely (ha : g.Agrees) (hends : g.EndsLive) :
    (∀ e, (g.incoming e).Pairwise g.Precedes ∧
      (∀ s, s ∈ g.incoming e ↔ ∃ sc, g.scope? s = some sc ∧ sc.target = e) ∧
      g.inputs e = (g.incoming e).map fun s => (g.scope? s).elim 0 Scope.origin) ∧
    (g.Acyclic → (∃ l, g.Orders l) ∧
      (∀ l, g.Orders l →
        (g.resolveFields.1 = .ok () ↔ (evaluate g l fun _ => none).1 = .ok ())) ∧
      ∀ g', g.resolveFields = (.ok (), g') → ∃ f, g.Labels f ∧
        (∀ f', g.Labels f' → ∀ e, g.contains e = true → f' e = f e) ∧
        (∀ l e, g.Orders l → g.contains e = true →
          (evaluate g l fun _ => none).2 e = some (f e)) ∧
        g' = g.marked (fun e => some (f e)) ∧
        (∀ s sc, g'.scope? s = some sc → sc.fields = some (f sc.origin)) ∧
        ∀ b t, g'.kind? b = some (.boundary t) →
          t.fields = ((g.inputs b).map f).headD .unknown) ∧
    (¬ g.Acyclic → ∃ e, g.resolveFields = (.error (.cycle e), g)) ∧
    (∀ h : Graph, h.bare = g.bare → h.resolveFields.1 = g.resolveFields.1 ∧
      (g.Acyclic → ∀ s, h.resolveFields.2.scope? s = g.resolveFields.2.scope? s) ∧
      (g.resolveFields.1 = .ok () → h.resolveFields = g.resolveFields)) ∧
    g.resolveFields.2.resolveFields = g.resolveFields := by
  refine ⟨fun e => ⟨ha.incoming_sorted e, fun s => ha.mem_incoming, ha.inputs_eq e⟩,
    fun hacyc => ?_, fun hcyc => ?_, fun h heq => ?_, resolveFields_twice ha⟩
  · have hg : g.Ordered := ⟨ha, hends, hacyc⟩
    obtain ⟨l₀, hl₀⟩ := hg.exists_order
    refine ⟨⟨l₀, orders_of_order hl₀⟩, fun l hl => ⟨fun hok => ?_, fun hok => ?_⟩,
      fun g' hrun => ?_⟩
    · obtain ⟨f, hf⟩ := exists_labels_of_resolveFields hg hok
      exact (hl.evaluate_of_labels hf).1
    · rw [resolveFields_of_labels hg (hl.labels_of_evaluate hok)]
    · obtain ⟨f, hf⟩ := exists_labels_of_resolveFields hg (by rw [hrun])
      rw [resolveFields_of_labels hg hf] at hrun
      cases hrun
      have hres := hf.resolved ha
      refine ⟨f, hf, fun f' hf' e he => hf.unique hg hf' he,
        fun l e hl he => (hl.evaluate_of_labels hf).2 e he, rfl, hres.scopes, fun b t ht => ?_⟩
      rw [hres.tap_eq_first ht, inputs_marked]
  · cases hl : g.topology.order with
    | ok l => exact absurd (acyclic_of_order ha hends hl) hcyc
    | error e => exact ⟨e, by rw [resolveFields, hl]⟩
  · obtain ⟨hsame, hscopes⟩ := resolveFields_alike_of_bare ha heq
    refine ⟨hsame, fun hacyc => ?_, fun hok => ?_⟩
    · obtain ⟨l, hl⟩ := order_of_acyclic ha hends hacyc
      exact hscopes l hl
    · cases hl : g.topology.order with
      | error e => rw [resolveFields, hl] at hok; cases hok
      | ok l => exact resolveFields_eq_of_bare ⟨ha, hends, acyclic_of_order ha hends hl⟩ heq hok

/-- A source with one field, and a boundary that it is written to. -/
def tapped : Graph :=
  let g := ((empty "tapped").addElement ⟨"in", .source ⟨"file", "in", .known ["id"], true⟩⟩).2
  let g := (g.addElement ⟨"out", .boundary (.temporary "file" "out")⟩).2
  (((g.addScope 0 2 0).2.addScope 2 3 0).2.addScope 3 1 0).2

theorem ordered_tapped : tapped.Ordered := by
  have hleads : ∀ a b, tapped.Leads a b →
      (a = 0 ∧ b = 2) ∨ (a = 2 ∧ b = 3) ∨ (a = 3 ∧ b = 1) := by
    rintro a b ⟨s, sc, hs, rfl, rfl⟩
    match s, hs with
    | 0, hs => cases hs; exact .inl ⟨rfl, rfl⟩
    | 1, hs => cases hs; exact .inr (.inl ⟨rfl, rfl⟩)
    | 2, hs => cases hs; exact .inr (.inr ⟨rfl, rfl⟩)
    | _ + 3, hs => cases hs
  refine ⟨?_, fun a b hl => ?_, fun e => if e = 1 then 4 else e, fun a b hl => ?_⟩
  · refine agrees_addScope (agrees_addScope (agrees_addScope ?_ ?_ ?_) ?_ ?_) ?_ ?_
    · exact agrees_addElement (agrees_addElement (agrees_empty _) _) _
    all_goals decide
  all_goals rcases hleads a b hl with ⟨rfl, rfl⟩ | ⟨rfl, rfl⟩ | ⟨rfl, rfl⟩ <;> decide

/-- The scope behind the source and the tap of the boundary get the field, also where they
carried another one. -/
theorem tapped_resolves : ∃ g', tapped.resolveFields = (.ok (), g') ∧
    (g'.scope? 1).bind Scope.fields = some (.known ["id"]) ∧
    g'.kind? 3 = some (.boundary ⟨"file", "out", .known ["id"], true⟩) ∧
    (tapped.marked fun _ => some (.known ["stale"])).resolveFields = (.ok (), g') ∧
    g'.resolveFields = (.ok (), g') := by
  obtain ⟨-, -, -, hstale, htwice⟩ :=
    resolves_uniquely ordered_tapped.agrees ordered_tapped.ends
  have hrun : tapped.resolveFields.1 = .ok () := by decide +kernel
  refine ⟨tapped.resolveFields.2, Prod.ext hrun rfl, by decide +kernel, by decide +kernel, ?_, ?_⟩
  · rw [(hstale _ (marked_marked fun _ h => by cases h)).2.2 hrun]
    exact Prod.ext hrun rfl
  · rw [htwice]
    exact Prod.ext hrun rfl

end Graph
end Dataflow
