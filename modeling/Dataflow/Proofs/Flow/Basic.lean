import Mathlib.Data.List.Induction
import Dataflow.Proofs.Graph.Inputs
import Dataflow.Proofs.Topology.Order

/-!
# What a graph computes

An interpretation gives every source a value and every element that does work a
function from the values it receives, in the order of its inputs, to the one value
that it puts on everything that leaves it. Boundaries, sinks and pipes with one
input pass on what they receive.

`valueOf` evaluates a graph along its topological order. It is the only assignment
of values that fits the interpretation at every live element (`Realizes`), so what a
graph computes can be reasoned about without its order.

Results:

* `realizes_valueOf`: evaluation fits the interpretation wherever there is an order;
* `Realizes.unique`: on an acyclic graph nothing else does.
-/
namespace Dataflow

/-- What the elements of a pipeline compute, over values of type `V`. -/
structure Interpretation (V : Type _) where
  /-- The value that a source reads. -/
  source : ElementId → V
  /-- What an element makes of the values it receives. -/
  work : ElementId → List V → V
  /-- What `head` puts out, and what stands in for an input that is not there. -/
  idle : V

namespace Interpretation

variable {V : Type _} (I : Interpretation V)

/-- What an element of kind `k` puts out when it receives `vs`. -/
def emit (k : Kind) (id : ElementId) (vs : List V) : V :=
  match k, vs with
  | .source _, _ => I.source id
  | .extent _, _ => I.idle
  | .sink _, vs | .boundary _, vs => vs.headD I.idle
  | .pipe, [v] => v
  | _, vs => I.work id vs

/-- What the element at `id` puts out when it receives `vs`. -/
def emitAt (g : Graph) (id : ElementId) (vs : List V) : V :=
  (g.kind? id).elim I.idle fun k => I.emit k id vs

/-- Lets the element at `id` put out its value. -/
def fire (g : Graph) (val : ElementId → V) (id : ElementId) : ElementId → V := fun e =>
  if e = id then I.emitAt g id ((g.inputs id).map val) else val e

/-- The values after the listed elements have put out theirs, one after the other. -/
def evaluate (g : Graph) (order : List ElementId) : ElementId → V :=
  order.foldl (I.fire g) fun _ => I.idle

/-- What each element puts out. -/
def valueOf (g : Graph) : ElementId → V :=
  match g.topology.order with
  | .ok order => I.evaluate g order
  | .error _ => fun _ => I.idle

/-- What an element receives, by input position. -/
def received (g : Graph) (id : ElementId) : List V := (g.inputs id).map (I.valueOf g)

/-- `val` fits the interpretation at every live element. -/
def Realizes (g : Graph) (val : ElementId → V) : Prop :=
  ∀ e, g.contains e = true → val e = I.emitAt g e ((g.inputs e).map val)

end Interpretation

namespace Graph

variable {g : Graph}

/-- The rank goes up along every scope. -/
def RankedBy (g : Graph) (rank : ElementId → Nat) : Prop := ∀ a b, g.Leads a b → rank a < rank b

/-- No chain of scopes leads back to its start. -/
def Acyclic (g : Graph) : Prop := ∃ rank, g.RankedBy rank

/-- No scope leads to or from an element that was removed. -/
def EndsLive (g : Graph) : Prop :=
  ∀ a b, g.Leads a b → g.contains a = true ∧ g.contains b = true

/-- A graph with a topological order: its adjacency lists agree with its scopes, its scopes
join live elements, and no chain of scopes leads back to its start. -/
structure Ordered (g : Graph) : Prop where
  agrees : g.Agrees
  ends : g.EndsLive
  acyclic : g.Acyclic

theorem mem_elements {e : ElementId} : e ∈ g.elements ↔ g.contains e = true := by
  rw [elements, IdSet.mem_below]
  exact ⟨And.right, fun h => ⟨lt_size_of_contains h, h⟩⟩

theorem mem_innerElements {e : ElementId} :
    e ∈ g.innerElements ↔ g.contains e = true ∧ isExtent e = false := by
  rw [innerElements, IdSet.mem_filter, mem_elements, Bool.not_eq_true']

theorem mem_order_iff {l : List ElementId} (h : g.topology.order = .ok l) {e : ElementId} :
    e ∈ l ↔ g.contains e = true :=
  (Topology.mem_order h).trans mem_elements

/-- Whatever feeds a live element stands before it in the order. -/
theorem Agrees.idxOf_lt_of_leads (h : g.Agrees) {l : List ElementId}
    (hl : g.topology.order = .ok l) {a b : ElementId} (hab : g.Leads a b)
    (hb : g.contains b = true) : l.idxOf a < l.idxOf b := by
  obtain ⟨s, sc, hs, ho, ht⟩ := hab
  have he : (s, a) ∈ g.topology.edgesIn b := h.mem_edgesIn.2 ⟨sc, hs, ho, ht⟩
  exact (Topology.fed_of_order hl).idxOf_lt ((mem_order_iff hl).2 hb) he

/-- Where there is an order, whatever feeds a live element is live. -/
theorem Agrees.contains_of_leads (h : g.Agrees) {l : List ElementId}
    (hl : g.topology.order = .ok l) {a b : ElementId} (hab : g.Leads a b)
    (hb : g.contains b = true) : g.contains a = true := by
  obtain ⟨s, sc, hs, ho, ht⟩ := hab
  have he : (s, a) ∈ g.topology.edgesIn b := h.mem_edgesIn.2 ⟨sc, hs, ho, ht⟩
  exact (mem_order_iff hl).1 ((Topology.fed_of_order hl).mem ((mem_order_iff hl).2 hb) he)

theorem acyclic_of_order (h : g.Agrees) (hends : g.EndsLive) {l : List ElementId}
    (hl : g.topology.order = .ok l) : g.Acyclic :=
  ⟨l.idxOf, fun a b hab => h.idxOf_lt_of_leads hl hab (hends a b hab).2⟩

theorem order_of_acyclic (h : g.Agrees) (hends : g.EndsLive) (hacyc : g.Acyclic) :
    ∃ l, g.topology.order = .ok l := by
  obtain ⟨rank, hrank⟩ := hacyc
  refine Topology.order_of_rank rank fun v _ e he => ?_
  obtain ⟨sc, hsc, ho, ht⟩ := h.mem_edgesIn.1 he
  have hlead : g.Leads e.2 v := ⟨e.1, sc, hsc, ho, ht⟩
  exact ⟨mem_elements.2 (hends _ _ hlead).1, hrank _ _ hlead⟩

theorem Ordered.exists_order (h : g.Ordered) : ∃ l, g.topology.order = .ok l :=
  order_of_acyclic h.agrees h.ends h.acyclic

theorem Acyclic.not_leads_self (h : g.Acyclic) (a : ElementId) : ¬ g.Leads a a := by
  obtain ⟨rank, hrank⟩ := h
  exact fun ha => Nat.lt_irrefl _ (hrank a a ha)

end Graph

namespace Interpretation

variable {V : Type _} {I : Interpretation V} {g : Graph}

/-! ## Evaluation realizes -/

theorem evaluate_concat (l : List ElementId) (v : ElementId) :
    I.evaluate g (l ++ [v]) = I.fire g (I.evaluate g l) v := by
  simp [evaluate]

theorem evaluate_fits {l : List ElementId} (hfed : g.topology.Fed l) (hnodup : l.Nodup) :
    ∀ e ∈ l, I.evaluate g l e = I.emitAt g e ((g.inputs e).map (I.evaluate g l)) := by
  induction l using List.reverseRecOn with
  | nil => simp
  | append_singleton l v ih =>
    have hpre : g.topology.Fed l := by
      rintro before w after rfl
      exact hfed before w (after ++ [v]) (by simp)
    obtain ⟨hl, -, hdisj⟩ := List.nodup_append.1 hnodup
    have hv : v ∉ l := fun hv => hdisj v hv v (by simp) rfl
    -- firing `v` changes no input of what is listed, `v` itself included
    have hsame : ∀ e, (∀ a ∈ g.inputs e, a ∈ l) →
        (g.inputs e).map (I.fire g (I.evaluate g l) v) = (g.inputs e).map (I.evaluate g l) := by
      intro e hin
      refine List.map_congr_left fun a ha => if_neg ?_
      rintro rfl
      exact hv (hin a ha)
    have hin : ∀ e, (∀ i ∈ g.topology.edgesIn e, i.2 ∈ l) → ∀ a ∈ g.inputs e, a ∈ l := by
      intro e he a ha
      obtain ⟨i, hi, rfl⟩ := List.mem_map.1 ha
      exact he i hi
    intro e he
    rw [evaluate_concat]
    rcases List.mem_append.1 he with hel | hev
    · have hne : e ≠ v := by rintro rfl; exact hv hel
      rw [hsame e (hin e fun i hi => hpre.mem hel hi), ← ih hpre hl e hel]
      exact if_neg hne
    · rw [List.mem_singleton.1 hev, hsame v (hin v (hfed l v [] rfl))]
      exact if_pos rfl

/-- Evaluation fits the interpretation at every live element. -/
theorem realizes_valueOf {l : List ElementId} (hl : g.topology.order = .ok l) :
    I.Realizes g (I.valueOf g) := by
  intro e he
  simp only [valueOf, hl]
  exact evaluate_fits (Topology.fed_of_order hl) (Topology.nodup_of_order hl) e
    ((Graph.mem_order_iff hl).2 he)

/-- Two assignments that fit an acyclic graph agree on its live elements. -/
theorem Realizes.unique (h : g.Agrees) (hends : g.EndsLive) (hacyc : g.Acyclic)
    {val val' : ElementId → V} (hval : I.Realizes g val) (hval' : I.Realizes g val')
    {e : ElementId} (he : g.contains e = true) : val e = val' e := by
  obtain ⟨rank, hrank⟩ := hacyc
  induction hn : rank e using Nat.strongRecOn generalizing e with
  | ind n ih =>
    rw [hval e he, hval' e he]
    congr 1
    refine List.map_congr_left fun a ha => ?_
    have hlead := h.mem_inputs.1 ha
    exact ih (rank a) (hn ▸ hrank a e hlead) (hends a e hlead).1 rfl

/-- What is received does not depend on how the values were found. -/
theorem received_eq (h : g.Agrees) (hends : g.EndsLive) (hacyc : g.Acyclic)
    {val : ElementId → V} (hval : I.Realizes g val) (e : ElementId) :
    I.received g e = (g.inputs e).map val := by
  obtain ⟨l, hl⟩ := Graph.order_of_acyclic h hends hacyc
  refine List.map_congr_left fun a ha => ?_
  exact (realizes_valueOf hl).unique h hends hacyc hval (hends a e (h.mem_inputs.1 ha)).1

end Interpretation
end Dataflow
