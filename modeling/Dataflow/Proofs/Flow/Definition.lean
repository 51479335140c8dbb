import Dataflow.Proofs.Definition.Stages
import Dataflow.Proofs.Flow.Shape

/-!
# The graph of a definition

The element of stage `i` stands at the id `2 + i`, and the scopes are the wires in
their order. Every shape that planning relies on follows from the checks of the
definition, but for acyclicity, which the definition does not promise.

Results:

* `toGraph_layout`: what stands where in the graph of a definition;
* `shaped_toGraph`: the graph is well-shaped if it has a topological order.
-/
namespace Dataflow

/-- The scope that a wire becomes. -/
def Wire.scope (w : Wire) : Scope := ⟨w.origin, w.target, w.ordinal, none⟩

namespace Definition

variable {d : Definition} {g : Graph}

/-! ## Stages and their elements -/

/-- The element of a stage whose checks succeed. -/
def Makes (s : StageDef) (x : Element) : Prop :=
  x.name = s.name ∧ s.checkArity = .ok () ∧ s.elementKind = .ok x.kind

theorem makes_iff {s : StageDef} {x : Element} : Makes s x ↔ s.Fits ∧ s.element = x := by
  rw [Makes, StageDef.checkArity_eq_ok_iff, StageDef.elementKind_eq_ok_iff]
  constructor
  · rintro ⟨hname, harity, hrole, hnames, hkind⟩
    refine ⟨⟨harity, hrole, hnames⟩, ?_⟩
    rw [StageDef.element, hkind, ← hname]
  · rintro ⟨hfits, rfl⟩
    exact ⟨rfl, hfits.arity, hfits.role, hfits.names, rfl⟩

theorem length_elementsOf {taken : List String} {l : List StageDef} {es : List Element}
    (h : elementsOf taken l = .ok es) : es.length = l.length := by
  obtain ⟨-, rfl⟩ := elementsOf_eq_ok_iff.1 h
  exact List.length_map StageDef.element

theorem makes_of_elementsOf {taken : List String} {l : List StageDef} {es : List Element}
    (h : elementsOf taken l = .ok es) {i : Nat} {s : StageDef} (hs : l[i]? = some s) :
    ∃ x, es[i]? = some x ∧ Makes s x := by
  obtain ⟨hpass, rfl⟩ := elementsOf_eq_ok_iff.1 h
  refine ⟨s.element, ?_, makes_iff.2 ⟨hpass.fits s (List.mem_of_getElem? hs), rfl⟩⟩
  rw [List.getElem?_map, hs]
  rfl

/-! ## The kind of a stage -/

theorem Makes.kind_eq {s : StageDef} {x : Element} (h : Makes s x) : x.kind = s.kind.written := by
  obtain ⟨-, rfl⟩ := makes_iff.1 h
  rfl

theorem Makes.isExtent {s : StageDef} {x : Element} (h : Makes s x) : x.kind.isExtent = false := by
  rw [h.kind_eq]
  cases s.kind <;> rfl

theorem Makes.isBoundary {s : StageDef} {x : Element} (h : Makes s x) :
    x.kind.isBoundary = false := by
  rw [h.kind_eq]
  cases s.kind <;> rfl

/-- A source has no inputs. -/
theorem Makes.of_source {s : StageDef} {x : Element} (h : Makes s x) {t : TapDef}
    (hs : s.kind = .source t) : x.kind.isSource = true ∧ s.inputs = [] := by
  have harity := (makes_iff.1 h).1.arity
  rw [StageDef.ArityFits, hs] at harity
  rw [h.kind_eq, hs]
  exact ⟨rfl, harity⟩

/-- A sink has one input. -/
theorem Makes.of_sink {s : StageDef} {x : Element} (h : Makes s x) {t : TapDef}
    (hs : s.kind = .sink t) : x.kind.isSink = true ∧ s.inputs.length = 1 := by
  have harity := (makes_iff.1 h).1.arity
  rw [StageDef.ArityFits, hs] at harity
  rw [h.kind_eq, hs]
  exact ⟨rfl, harity⟩

/-- Only a sink makes a sink. -/
theorem Makes.sink_of {s : StageDef} {x : Element} (h : Makes s x) (hx : x.kind.isSink = true) :
    ∃ t, s.kind = .sink t := by
  rw [h.kind_eq] at hx
  cases hk : s.kind with
  | sink t => exact ⟨t, rfl⟩
  | _ =>
    rw [hk] at hx
    exact absurd hx Bool.false_ne_true

/-- A tap is where its stage says. -/
theorem Makes.tap_of {s : StageDef} {x : Element} (h : Makes s x) {t : Tap}
    (hx : x.kind.tap? = some t) : ∃ u, (s.kind = .source u ∨ s.kind = .sink u) ∧
      u.scheme = t.scheme ∧ u.identifier = t.identifier := by
  rw [h.kind_eq] at hx
  cases hk : s.kind with
  | source u =>
    rw [hk] at hx
    cases hx
    exact ⟨u, .inl rfl, rfl, rfl⟩
  | sink u =>
    rw [hk] at hx
    cases hx
    exact ⟨u, .inr rfl, rfl, rfl⟩
  | _ =>
    rw [hk] at hx
    cases hx

/-! ## The wires -/

/-- A wire of the stage `s` at place `i`. -/
inductive WireAt (d : Definition) (i : Nat) (s : StageDef) (w : Wire) : Prop
  /-- From `head` to a source. -/
  | source (t : TapDef) (hs : s.kind = .source t) (hw : w = ⟨Graph.head, firstId + i, 0⟩)
  /-- From a sink to `tail`. -/
  | sink (t : TapDef) (hs : s.kind = .sink t) (hw : w = ⟨firstId + i, Graph.tail, 0⟩)
  /-- From another stage. -/
  | input (j k : Nat) (hj : j < d.stages.length) (hk : k < s.inputs.length)
    (hw : w = ⟨firstId + j, firstId + i, k⟩)

theorem idOf?_eq_some {name : String} {e : ElementId} (h : d.idOf? name = some e) :
    ∃ j < d.stages.length, e = firstId + j := by
  obtain ⟨j, hj, rfl⟩ := Option.map_eq_some_iff.1 h
  exact ⟨j, (List.findIdx?_eq_some_iff_findIdx_eq.1 hj).1, rfl⟩

/-- The wires of the inputs of a stage, by position. -/
theorem inputWires {s : StageDef} {id : ElementId} {ws : List Wire}
    (h : s.inputs.zipIdx.mapM (d.inputWire s.name id) = .ok ws) {n : Nat} {w : Wire}
    (hw : ws[n]? = some w) :
    ∃ j < d.stages.length, n < s.inputs.length ∧ w = ⟨firstId + j, id, n⟩ := by
  obtain ⟨⟨name, k⟩, hk, hwire⟩ := getElem?_of_mapM_result h hw
  rw [List.getElem?_zipIdx] at hk
  obtain ⟨name', hname, heq⟩ := Option.map_eq_some_iff.1 hk
  cases heq
  simp only [inputWire] at hwire
  split at hwire
  · next e he =>
    obtain ⟨j, hj, rfl⟩ := idOf?_eq_some he
    cases hwire
    exact ⟨j, hj, (List.getElem?_eq_some_iff.1 hname).1, by rw [Nat.zero_add]⟩
  · cases hwire

theorem wireAt_of_wiresOf {s : StageDef} {i : Nat} {ws : List Wire}
    (h : d.wiresOf (firstId + i) s = .ok ws) {w : Wire} (hw : w ∈ ws) : WireAt d i s w := by
  obtain ⟨inputs, hin, h⟩ := bind_eq_ok.1 h
  cases h
  rcases List.mem_append.1 hw with hw | hw
  · unfold extentWire at hw
    split at hw
    · next t ht => exact .source t ht (List.mem_singleton.1 hw)
    · next t ht => exact .sink t ht (List.mem_singleton.1 hw)
    · cases hw
  · obtain ⟨n, hn⟩ := List.mem_iff_getElem?.1 hw
    obtain ⟨j, hj, hlt, hwn⟩ := inputWires hin hn
    exact .input j n hj hlt hwn

/-- The wires compete for no input position, `tail` aside. -/
def Apart (v w : Wire) : Prop :=
  v.target = w.target → v.target ≠ Graph.tail → v.ordinal ≠ w.ordinal

theorem firstId_add_ne_tail (i : Nat) : firstId + i ≠ Graph.tail := by
  intro h
  have : firstId ≤ Graph.tail := h ▸ Nat.le_add_right _ _
  exact absurd this (by decide)

theorem apart_wiresOf {s : StageDef} {x : Element} (hm : Makes s x) {i : Nat} {ws : List Wire}
    (h : d.wiresOf (firstId + i) s = .ok ws) : ws.Pairwise Apart := by
  obtain ⟨inputs, hin, h⟩ := bind_eq_ok.1 h
  cases h
  refine List.pairwise_append.2 ⟨?_, ?_, fun v hv w hw htar hne => ?_⟩
  · unfold extentWire
    split
    · exact List.pairwise_singleton _ _
    · exact List.pairwise_singleton _ _
    · exact .nil
  · -- the inputs of a stage are numbered
    refine List.pairwise_iff_getElem.2 fun a b ha hb hab _ _ => ?_
    obtain ⟨_, -, -, hva⟩ := inputWires hin (List.getElem?_eq_getElem ha)
    obtain ⟨_, -, -, hvb⟩ := inputWires hin (List.getElem?_eq_getElem hb)
    rw [hva, hvb]
    exact Nat.ne_of_lt hab
  · unfold extentWire at hv
    split at hv
    · next t ht =>
      have hnil := (hm.of_source ht).2
      rw [hnil] at hin
      cases hin
      cases hw
    · rw [List.mem_singleton.1 hv] at hne
      exact absurd rfl hne
    · cases hv

/-- The wires of a stage end at the stage or at `tail`. -/
theorem WireAt.target {i : Nat} {s : StageDef} {w : Wire} (h : WireAt d i s w) :
    w.target = firstId + i ∨ w.target = Graph.tail := by
  cases h with
  | source t hs hw => rw [hw]; exact .inl rfl
  | sink t hs hw => rw [hw]; exact .inr rfl
  | input j k hj hk hw => rw [hw]; exact .inl rfl

theorem wires_eq {ws : List Wire} (h : d.wires = .ok ws) :
    ∃ perStage : List (List Wire), ws = perStage.flatten ∧
      ∀ i l, perStage[i]? = some l →
        ∃ s, d.stages[i]? = some s ∧ d.wiresOf (firstId + i) s = .ok l := by
  obtain ⟨perStage, hper, h⟩ := bind_eq_ok.1 h
  cases h
  refine ⟨perStage, rfl, fun i l hl => ?_⟩
  obtain ⟨⟨s, k⟩, hk, hw⟩ := getElem?_of_mapM_result hper hl
  rw [List.getElem?_zipIdx] at hk
  obtain ⟨s', hs', heq⟩ := Option.map_eq_some_iff.1 hk
  cases heq
  rw [Nat.zero_add] at hw
  exact ⟨s, hs', hw⟩

theorem wireAt_of_mem {ws : List Wire} (h : d.wires = .ok ws) {w : Wire} (hw : w ∈ ws) :
    ∃ i s, d.stages[i]? = some s ∧ WireAt d i s w := by
  obtain ⟨perStage, rfl, hper⟩ := wires_eq h
  obtain ⟨l, hl, hwl⟩ := List.mem_flatten.1 hw
  obtain ⟨i, hi⟩ := List.mem_iff_getElem?.1 hl
  obtain ⟨s, hs, hws⟩ := hper i l hi
  exact ⟨i, s, hs, wireAt_of_wiresOf hws hwl⟩

theorem apart_wires {ws : List Wire} (h : d.wires = .ok ws)
    (hm : ∀ (i : Nat) s, d.stages[i]? = some s → ∃ x, Makes s x) : ws.Pairwise Apart := by
  obtain ⟨perStage, rfl, hper⟩ := wires_eq h
  refine List.pairwise_flatten.2 ⟨fun l hl => ?_, ?_⟩
  · obtain ⟨i, hi⟩ := List.mem_iff_getElem?.1 hl
    obtain ⟨s, hs, hws⟩ := hper i l hi
    obtain ⟨x, hx⟩ := hm i s hs
    exact apart_wiresOf hx hws
  · refine List.pairwise_iff_getElem.2 fun a b ha hb hab v hv w hw htar hne => ?_
    obtain ⟨s, -, hs⟩ := hper a _ (List.getElem?_eq_getElem ha)
    obtain ⟨s', -, hs'⟩ := hper b _ (List.getElem?_eq_getElem hb)
    rcases (wireAt_of_wiresOf hs hv).target with hta | hta
    · rcases (wireAt_of_wiresOf hs' hw).target with htb | htb
      · rw [hta, htb] at htar
        exact absurd (Nat.add_left_cancel htar) (Nat.ne_of_lt hab)
      · exact absurd (htar.trans htb) hne
    · exact absurd hta hne

/-- A stage with an input has a wire to it. -/
theorem exists_input_wire {ws : List Wire} (h : d.wires = .ok ws) {i : Nat} {s : StageDef}
    (hs : d.stages[i]? = some s) (hin : 0 < s.inputs.length) :
    ∃ w ∈ ws, w.target = firstId + i := by
  obtain ⟨perStage, hper, h⟩ := bind_eq_ok.1 h
  cases h
  have hz : d.stages.zipIdx[i]? = some (s, i) := by
    rw [List.getElem?_zipIdx, hs, Nat.zero_add]; rfl
  obtain ⟨l, hl, hws⟩ := getElem?_of_mapM hper hz
  obtain ⟨inputs, hinputs, hws⟩ := bind_eq_ok.1 hws
  cases hws
  have hlen : 0 < inputs.length := by
    rw [length_of_mapM hinputs, List.length_zipIdx]; exact hin
  have hget := List.getElem?_eq_getElem hlen
  obtain ⟨j, -, -, hw⟩ := inputWires hinputs hget
  refine ⟨inputs[0], List.mem_flatten.2 ⟨_, List.mem_of_getElem? hl, ?_⟩, by rw [hw]⟩
  exact List.mem_append_right _ (List.mem_of_getElem? hget)

end Definition

namespace Graph

/-! ## Building the arenas -/

/-- Elements added one after the other stand behind what was there. -/
theorem addElements_spec (es : List Element) (g : Graph) (h : g.Agrees) :
    let g' := es.foldl (fun g e => (g.addElement e).2) g
    g'.nodes = g.nodes ++ es.map (fun x => ⟨some x, [], []⟩) ∧ g'.scopes = g.scopes ∧
      g'.Agrees := by
  induction es generalizing g with
  | nil => exact ⟨by simp, rfl, h⟩
  | cons x rest ih =>
    obtain ⟨hn, hs, ha⟩ := ih (g.addElement x).2 (agrees_addElement h x)
    refine ⟨?_, hs, ha⟩
    rw [List.foldl_cons, hn]
    simp [addElement]

/-- Scopes added one after the other stand behind what was there. -/
theorem addWires_spec (ws : List Wire) (g : Graph) (h : g.Agrees)
    (hws : ∀ w ∈ ws, w.origin < g.size ∧ w.target < g.size) :
    let g' := ws.foldl (fun g w => (g.addScope w.origin w.target w.ordinal).2) g
    g'.size = g.size ∧ (∀ e, g'.element? e = g.element? e) ∧
      g'.scopes = g.scopes ++ ws.map (fun w => some w.scope) ∧ g'.Agrees := by
  induction ws generalizing g with
  | nil => exact ⟨rfl, fun _ => rfl, by simp, h⟩
  | cons w rest ih =>
    obtain ⟨ho, ht⟩ := hws w List.mem_cons_self
    obtain ⟨hsz, he, hs, ha⟩ := ih (g.addScope w.origin w.target w.ordinal).2
      (agrees_addScope h ho ht) (fun v hv => by
        rw [size_addScope]; exact hws v (List.mem_cons_of_mem w hv))
    refine ⟨hsz.trans size_addScope, fun e => (he e).trans (element?_addScope e), ?_, ha⟩
    rw [List.foldl_cons, hs]
    simp [addScope, Wire.scope]

end Graph

namespace Definition

variable {d : Definition} {g : Graph}

/-- What stands where in the graph of a definition. -/
structure Layout (d : Definition) (g : Graph) : Prop where
  agrees : g.Agrees
  size : g.size = firstId + d.stages.length
  head : g.element? Graph.head = some ⟨"head", .extent .head⟩
  tail : g.element? Graph.tail = some ⟨"tail", .extent .tail⟩
  stage : ∀ (i : Nat) s, d.stages[i]? = some s →
    ∃ x, g.element? (firstId + i) = some x ∧ Makes s x
  wire : ∀ n sc, g.scope? n = some sc →
    ∃ i s w, d.stages[i]? = some s ∧ WireAt d i s w ∧ sc = w.scope
  apart : ∀ m sc n tc, g.scope? m = some sc → g.scope? n = some tc → sc.target = tc.target →
    sc.target ≠ Graph.tail → sc.ordinal = tc.ordinal → m = n
  fed : ∀ (i : Nat) s, d.stages[i]? = some s → 0 < s.inputs.length →
    ∃ n sc, g.scope? n = some sc ∧ sc.target = firstId + i

theorem WireAt.ends {i : Nat} {s : StageDef} {w : Wire} (h : WireAt d i s w)
    (hs : d.stages[i]? = some s) :
    w.origin < firstId + d.stages.length ∧ w.target < firstId + d.stages.length := by
  have hi := Nat.add_lt_add_left (List.getElem?_eq_some_iff.1 hs).1 firstId
  have hext : ∀ e < firstId, e < firstId + d.stages.length := fun e he =>
    Nat.lt_of_lt_of_le he (Nat.le_add_right _ _)
  cases h with
  | source t _ hw => rw [hw]; exact ⟨hext Graph.head (by decide), hi⟩
  | sink t _ hw => rw [hw]; exact ⟨hi, hext Graph.tail (by decide)⟩
  | input j k hj _ hw => rw [hw]; exact ⟨Nat.add_lt_add_left hj _, hi⟩

/-- A graph is the extents with the elements of the stages, and then the wires, added to it. -/
theorem toGraph_eq_ok (h : d.toGraph = .ok g) : d.stages ≠ [] ∧
    ∃ es ws, elementsOf [] d.stages = .ok es ∧ d.wires = .ok ws ∧
      g = ws.foldl (fun g w => (g.addScope w.origin w.target w.ordinal).2)
        (es.foldl (fun g e => (g.addElement e).2) (Graph.empty d.name)) := by
  unfold toGraph at h
  split at h
  · cases h
  · next hne =>
    obtain ⟨es, hes, h⟩ := bind_eq_ok.1 h
    obtain ⟨ws, hws, h⟩ := bind_eq_ok.1 h
    cases h
    exact ⟨fun hnil => hne (List.isEmpty_iff.2 hnil), es, ws, hes, hws, rfl⟩

/-- The arenas of the graph: the extents and the elements of the stages, and the wires. -/
theorem toGraph_arenas (h : d.toGraph = .ok g) :
    ∃ es ws, elementsOf [] d.stages = .ok es ∧ d.wires = .ok ws ∧ g.Agrees ∧
      g.size = firstId + d.stages.length ∧
      (∀ e < firstId, g.element? e = (Graph.empty d.name).element? e) ∧
      (∀ i, g.element? (firstId + i) = es[i]?) ∧ ∀ n, g.scope? n = (ws[n]?).map Wire.scope := by
  obtain ⟨-, es, ws, hes, hws, rfl⟩ := toGraph_eq_ok h
  obtain ⟨hn, hs0, ha0⟩ := Graph.addElements_spec es _ (Graph.agrees_empty d.name)
  generalize es.foldl (fun g e => (g.addElement e).2) (Graph.empty d.name) = g0 at hn hs0 ha0
  have hsize : g0.size = firstId + d.stages.length := by
    rw [Graph.size, hn, List.length_append, List.length_map, length_elementsOf hes]
    rfl
  have hends : ∀ w ∈ ws, w.origin < g0.size ∧ w.target < g0.size := by
    intro w hw
    obtain ⟨i, s, hs, hat⟩ := wireAt_of_mem hws hw
    rw [hsize]
    exact hat.ends hs
  obtain ⟨hsz, he, hs, ha⟩ := Graph.addWires_spec ws g0 ha0 hends
  generalize ws.foldl (fun g w => (g.addScope w.origin w.target w.ordinal).2) g0 = g'
    at hsz he hs ha
  have hlen : (Graph.empty d.name).nodes.length = firstId := rfl
  refine ⟨es, ws, hes, hws, ha, hsz.trans hsize, fun e hlt => ?_, fun i => ?_, fun n => ?_⟩
  · rw [he, Graph.element?, hn, List.getElem?_append_left (by rw [hlen]; exact hlt)]
    rfl
  · rw [he, Graph.element?, hn,
      List.getElem?_append_right (by rw [hlen]; exact Nat.le_add_right _ _), hlen,
      Nat.add_sub_cancel_left, List.getElem?_map]
    cases es[i]? <;> rfl
  · rw [Graph.scope?, hs, hs0]
    simp only [Graph.empty, List.nil_append, List.getElem?_map]
    cases ws[n]? <;> rfl

theorem name_toGraph (h : d.toGraph = .ok g) : g.name = d.name := by
  have helements : ∀ (es : List Element) (g : Graph),
      (es.foldl (fun g x => (g.addElement x).2) g).name = g.name := by
    intro es
    induction es with
    | nil => exact fun g => rfl
    | cons x rest ih => exact fun g => ih _
  have hwires : ∀ (ws : List Wire) (g : Graph),
      (ws.foldl (fun g w => (g.addScope w.origin w.target w.ordinal).2) g).name = g.name := by
    intro ws
    induction ws with
    | nil => exact fun g => rfl
    | cons w rest ih => exact fun g => ih _
  obtain ⟨-, es, ws, -, -, rfl⟩ := toGraph_eq_ok h
  rw [hwires, helements]
  rfl

theorem toGraph_layout (h : d.toGraph = .ok g) : Layout d g := by
  obtain ⟨es, ws, hes, hws, ha, hsize, hext, helt, hscope⟩ := toGraph_arenas h
  have hmakes : ∀ (i : Nat) s, d.stages[i]? = some s → ∃ x, es[i]? = some x ∧ Makes s x :=
    fun i s => makes_of_elementsOf hes
  have happart := apart_wires hws fun i s hs => by
    obtain ⟨x, -, hx⟩ := hmakes i s hs
    exact ⟨x, hx⟩
  refine ⟨ha, hsize, hext _ (by decide), hext _ (by decide), ?_, ?_, ?_, ?_⟩
  · intro i s hsi
    obtain ⟨x, hx, hm⟩ := hmakes i s hsi
    exact ⟨x, by rw [helt, hx], hm⟩
  · intro n sc hsc
    rw [hscope] at hsc
    obtain ⟨w, hw, rfl⟩ := Option.map_eq_some_iff.1 hsc
    obtain ⟨i, s, hsi, hat⟩ := wireAt_of_mem hws (List.mem_of_getElem? hw)
    exact ⟨i, s, w, hsi, hat, rfl⟩
  · intro m sc n tc hm hn htar hne hord
    rw [hscope] at hm hn
    obtain ⟨v, hv, rfl⟩ := Option.map_eq_some_iff.1 hm
    obtain ⟨w, hw, rfl⟩ := Option.map_eq_some_iff.1 hn
    obtain ⟨hmlt, rfl⟩ := List.getElem?_eq_some_iff.1 hv
    obtain ⟨hnlt, rfl⟩ := List.getElem?_eq_some_iff.1 hw
    rcases Nat.lt_trichotomy m n with hlt | heq | hlt
    · exact absurd hord (List.pairwise_iff_getElem.1 happart m n hmlt hnlt hlt htar hne)
    · exact heq
    · exact absurd hord.symm
        (List.pairwise_iff_getElem.1 happart n m hnlt hmlt hlt htar.symm fun h =>
          hne (htar.trans h))
  · intro i s hsi hin
    obtain ⟨w, hw, ht⟩ := exists_input_wire hws hsi hin
    obtain ⟨n, hn⟩ := List.mem_iff_getElem?.1 hw
    exact ⟨n, w.scope, by rw [hscope, hn]; rfl, ht⟩

/-! ## The shape of the graph -/

/-- An id is that of an extent, or of a stage, or beyond the graph. -/
theorem Layout.cases (h : Layout d g) {e : ElementId} {x : Element} (hx : g.element? e = some x) :
    (e = Graph.head ∧ x.kind = .extent .head) ∨ (e = Graph.tail ∧ x.kind = .extent .tail) ∨
      ∃ i s, e = firstId + i ∧ d.stages[i]? = some s ∧ Makes s x := by
  match e with
  | 0 =>
    rw [show (0 : ElementId) = Graph.head from rfl, h.head] at hx
    cases hx
    exact .inl ⟨rfl, rfl⟩
  | 1 =>
    rw [show (1 : ElementId) = Graph.tail from rfl, h.tail] at hx
    cases hx
    exact .inr (.inl ⟨rfl, rfl⟩)
  | e + 2 =>
    have hlt := Graph.lt_size_of_contains (Graph.contains_iff.2 ⟨x, hx⟩)
    rw [h.size, Nat.add_comm] at hlt
    have he : e < d.stages.length := Nat.lt_of_add_lt_add_left hlt
    obtain ⟨y, hy, hm⟩ := h.stage e _ (List.getElem?_eq_getElem he)
    have heq : e + 2 = firstId + e := Nat.add_comm _ _
    rw [heq, hy] at hx; cases hx
    exact .inr (.inr ⟨e, _, heq, List.getElem?_eq_getElem he, hm⟩)

theorem firstId_add_not_extent (i : Nat) : Graph.isExtent (firstId + i) = false := by
  have hh : firstId + i ≠ Graph.head := fun h =>
    absurd (h ▸ Nat.le_add_right firstId i : firstId ≤ Graph.head) (by decide)
  simp [Graph.isExtent, hh, firstId_add_ne_tail]

/-- What leads where in the graph of a definition. -/
theorem Layout.leads (h : Layout d g) {a b : ElementId} (hl : g.Leads a b) :
    ∃ i s w, d.stages[i]? = some s ∧ WireAt d i s w ∧ w.origin = a ∧ w.target = b := by
  obtain ⟨n, sc, hsc, rfl, rfl⟩ := hl
  obtain ⟨i, s, w, hs, hat, rfl⟩ := h.wire n sc hsc
  exact ⟨i, s, w, hs, hat, rfl, rfl⟩

theorem Layout.contains_stage (h : Layout d g) {i : Nat} (hi : i < d.stages.length) :
    g.contains (firstId + i) = true := by
  obtain ⟨x, hx, -⟩ := h.stage i _ (List.getElem?_eq_getElem hi)
  exact Graph.contains_iff.2 ⟨x, hx⟩

theorem Layout.ends (h : Layout d g) : g.EndsLive := by
  intro a b hl
  obtain ⟨i, s, w, hs, hat, rfl, rfl⟩ := h.leads hl
  have hi := h.contains_stage (List.getElem?_eq_some_iff.1 hs).1
  cases hat with
  | source t _ hw => rw [hw]; exact ⟨Graph.contains_iff.2 ⟨_, h.head⟩, hi⟩
  | sink t _ hw => rw [hw]; exact ⟨hi, Graph.contains_iff.2 ⟨_, h.tail⟩⟩
  | input j k hj _ hw => rw [hw]; exact ⟨h.contains_stage hj, hi⟩

/-- `head` feeds sources alone. -/
theorem Layout.head_first (h : Layout d g) {a : ElementId} (ha : g.Leads Graph.head a) :
    g.hasKind Kind.isSource a = true := by
  obtain ⟨i, s, w, hs, hat, ho, rfl⟩ := h.leads ha
  cases hat with
  | source t ht hw =>
    obtain ⟨x, hx, hm⟩ := h.stage i s hs
    rw [hw]
    exact Graph.hasKind_iff.2 ⟨x, hx, (hm.of_source ht).1⟩
  | sink t _ hw =>
    rw [hw] at ho
    have := firstId_add_not_extent i
    rw [show firstId + i = Graph.head from ho] at this
    cases this
  | input j k _ _ hw =>
    rw [hw] at ho
    have := firstId_add_not_extent j
    rw [show firstId + j = Graph.head from ho] at this
    cases this

/-- Sinks alone feed `tail`. -/
theorem Layout.tail_fed (h : Layout d g) {a : ElementId} (ha : g.Leads a Graph.tail) :
    g.hasKind Kind.isSink a = true := by
  obtain ⟨i, s, w, hs, hat, rfl, ht⟩ := h.leads ha
  cases hat with
  | source t _ hw => rw [hw] at ht; exact absurd ht (firstId_add_ne_tail i)
  | sink t hk hw =>
    obtain ⟨x, hx, hm⟩ := h.stage i s hs
    rw [hw]
    exact Graph.hasKind_iff.2 ⟨x, hx, (hm.of_sink hk).1⟩
  | input j k _ _ hw => rw [hw] at ht; exact absurd ht (firstId_add_ne_tail i)

theorem Layout.tail_last (h : Layout d g) (a : ElementId) : ¬ g.Leads Graph.tail a := by
  intro ha
  obtain ⟨i, s, w, -, hat, ho, -⟩ := h.leads ha
  cases hat with
  | source t _ hw => rw [hw] at ho; exact absurd ho (by decide : Graph.head ≠ Graph.tail)
  | sink t _ hw => rw [hw] at ho; exact absurd ho (firstId_add_ne_tail i)
  | input j k _ _ hw => rw [hw] at ho; exact absurd ho (firstId_add_ne_tail j)

/-- Where a stage has one input, all that enters it has the first position. -/
theorem Layout.ordinal_eq_zero (h : Layout d g) {i : Nat} {s : StageDef}
    (hs : d.stages[i]? = some s) (hone : s.inputs.length = 1) {n : ScopeId} {sc : Scope}
    (hsc : g.scope? n = some sc) (htar : sc.target = firstId + i) : sc.ordinal = 0 := by
  obtain ⟨i', s', w, hs', hat, rfl⟩ := h.wire n sc hsc
  cases hat with
  | source _ _ hw => rw [hw]; rfl
  | sink _ _ hw => rw [hw]; rfl
  | input j k _ hk hw =>
    rw [hw] at htar
    have heq : i' = i := Nat.add_left_cancel htar
    subst heq
    rw [hs] at hs'; cases hs'
    rw [hone] at hk
    rw [hw]
    exact Nat.lt_one_iff.1 hk

/-- A sink stage has one input, and nothing else enters it. -/
theorem Layout.sole (h : Layout d g) {e : ElementId} (he : g.hasKind Kind.passesOn e = true) :
    ∃ s, g.SoleInput e s := by
  obtain ⟨x, hx, hk⟩ := Graph.hasKind_iff.1 he
  rcases h.cases hx with ⟨-, hk'⟩ | ⟨-, hk'⟩ | ⟨i, s, rfl, hs, hm⟩
  · rw [hk'] at hk; cases hk
  · rw [hk'] at hk; cases hk
  · have hsink : x.kind.isSink = true := by
      simpa [Kind.passesOn, hm.isBoundary] using hk
    obtain ⟨t, ht⟩ := hm.sink_of hsink
    have hone := (hm.of_sink ht).2
    obtain ⟨n, sc, hsc, htar⟩ := h.fed i s hs (by rw [hone]; exact Nat.one_pos)
    refine ⟨n, ⟨sc, hsc, htar⟩, fun m tc htc htar' => ?_⟩
    have hm := h.ordinal_eq_zero hs hone htc htar'
    have hn := h.ordinal_eq_zero hs hone hsc htar
    exact h.apart m tc n sc htc hsc (htar'.trans htar.symm)
      (fun heq => firstId_add_ne_tail i (htar'.symm.trans heq)) (hm.trans hn.symm)

/-- The graph of a definition is well-shaped if it has a topological order. -/
theorem shaped_toGraph (hd : d.toGraph = .ok g) {l : List ElementId}
    (hl : g.topology.order = .ok l) : g.Shaped := by
  have h := toGraph_layout hd
  refine ⟨h.agrees, h.ends, Graph.acyclic_of_order h.agrees h.ends hl,
    Graph.contains_iff.2 ⟨_, h.tail⟩, fun e x hx => ?_, h.apart, fun _ => h.head_first,
    fun _ => h.tail_fed, h.tail_last, fun _ => h.sole⟩
  rcases h.cases hx with ⟨rfl, hk⟩ | ⟨rfl, hk⟩ | ⟨i, s, rfl, -, hm⟩
  · rw [hk]; exact ⟨fun _ => rfl, fun _ => rfl⟩
  · rw [hk]; exact ⟨fun _ => rfl, fun _ => rfl⟩
  · rw [hm.isExtent, firstId_add_not_extent]

end Definition
end Dataflow
