import Mathlib
import Dataflow.Proofs.Flow.Definition
import Dataflow.Proofs.Graph.Sessions

/-!
# Which definitions are accepted, and what becomes of them

A definition has a graph exactly if it is well-formed. The graph has one element for each stage
and one scope for each place where a stage reads another, besides those that tie the sources
and sinks to the extents, and nothing else. A definition that is not well-formed is refused for
its first stage that is wrong in itself; only if there is none, for the first input that names
no stage.

Results:

* `mem_wires_iff`, `nodup_wires`: the scopes to be added, each once;
* `builds_of_toGraph`: the graph of a definition holds what the definition asks for;
* `toGraph_exact`: which definitions are accepted, their graphs, and why others are refused.
-/
namespace Dataflow

namespace Definition

variable {d : Definition} {g : Graph} {e : DefinitionError}

/-! ## Well-formed definitions -/

def names (d : Definition) : List String := d.stages.map StageDef.name

structure WellFormed (d : Definition) : Prop where
  nonempty : d.stages ≠ []
  distinct : d.names.Nodup
  fits : ∀ s ∈ d.stages, s.Fits
  known : ∀ s ∈ d.stages, ∀ input ∈ s.inputs, input ∈ d.names

/-- A scope that the stage `s` at place `i` asks for. -/
inductive AsksAt (d : Definition) (i : Nat) (s : StageDef) : Wire → Prop
  /-- From `head` to a source. -/
  | source {t : TapDef} (hk : s.kind = .source t) : AsksAt d i s ⟨Graph.head, firstId + i, 0⟩
  /-- From a sink to `tail`. -/
  | sink {t : TapDef} (hk : s.kind = .sink t) : AsksAt d i s ⟨firstId + i, Graph.tail, 0⟩
  /-- From the stage that the input at position `k` names. -/
  | input {j k : Nat} {o : StageDef} (ho : d.stages[j]? = some o)
    (hk : s.inputs[k]? = some o.name) : AsksAt d i s ⟨firstId + j, firstId + i, k⟩

def Asks (d : Definition) (w : Wire) : Prop :=
  ∃ (i : Nat) (s : StageDef), d.stages[i]? = some s ∧ d.AsksAt i s w

/-- The graph holds what the definition asks for, and nothing else. -/
structure Builds (d : Definition) (g : Graph) : Prop where
  consistent : g.Consistent
  name : g.name = d.name
  live : ∀ id, g.contains id = true ↔ id < firstId + d.stages.length
  head : g.element? Graph.head = some ⟨"head", .extent .head⟩
  tail : g.element? Graph.tail = some ⟨"tail", .extent .tail⟩
  /-- Each stage stands at its place, under its name and as its kind says. -/
  stage : ∀ (i : Nat) s, d.stages[i]? = some s → g.element? (firstId + i) = some s.element
  /-- Each scope that is asked for is there once. -/
  scope : ∀ w, d.Asks w → ∃! n, g.scope? n = some w.scope
  only : ∀ n sc, g.scope? n = some sc → ∃ w, d.Asks w ∧ sc = w.scope

/-- Why a definition is refused. -/
inductive Reports (d : Definition) : DefinitionError → Prop
  | empty (h : d.stages = []) : Reports d (.empty d.name)
  /-- The first stage with a fault, all stages before it being right. -/
  | stage {before after : List StageDef} {s : StageDef} (hsplit : d.stages = before ++ s :: after)
    (hbefore : Passing [] before) {e : DefinitionError}
    (h : s.Fault (before.map StageDef.name) e) : Reports d e
  /-- No stage has a fault: the first input of all that names no stage. -/
  | input (hpass : Passing [] d.stages) {before after : List StageDef} {s : StageDef}
    (hsplit : d.stages = before ++ s :: after)
    (hbefore : ∀ s' ∈ before, ∀ input ∈ s'.inputs, input ∈ d.names)
    {known rest : List String} {input : String} (hinputs : s.inputs = known ++ input :: rest)
    (hknown : ∀ input ∈ known, input ∈ d.names) (h : input ∉ d.names) :
    Reports d (.unknownInput s.name input)

/-! ## Where the stages stand -/

theorem idOf?_eq_none_iff {name : String} : d.idOf? name = none ↔ name ∉ d.names := by
  simp [idOf?, names, List.findIdx?_eq_none_iff]

theorem idOf?_eq_some_iff (h : d.names.Nodup) {name : String} {id : ElementId} :
    d.idOf? name = some id ↔ ∃ (j : Nat) (o : StageDef), d.stages[j]? = some o ∧ o.name = name ∧
      firstId + j = id := by
  unfold idOf?
  rw [Option.map_eq_some_iff]
  constructor
  · rintro ⟨j, hj, rfl⟩
    obtain ⟨hlt, hname, -⟩ := List.findIdx?_eq_some_iff_getElem.1 hj
    exact ⟨j, _, List.getElem?_eq_getElem hlt, eq_of_beq hname, rfl⟩
  · rintro ⟨j, o, ho, rfl, rfl⟩
    obtain ⟨hlt, rfl⟩ := List.getElem?_eq_some_iff.1 ho
    refine ⟨j, List.findIdx?_eq_some_iff_getElem.2 ⟨hlt, beq_self_eq_true _, fun k hk => ?_⟩, rfl⟩
    -- no stage before it has the name
    have hne := List.pairwise_iff_getElem.1 (List.pairwise_map.1 h) k j (Nat.lt_trans hk hlt) hlt hk
    simpa using hne

/-! ## Inputs that name a stage, and others -/

theorem inputWire_eq_error_iff {stage : String} {id : ElementId} {input : String} {k : Nat} :
    d.inputWire stage id (input, k) = .error e ↔
      input ∉ d.names ∧ .unknownInput stage input = e := by
  unfold inputWire
  rw [← idOf?_eq_none_iff]
  split
  · next origin h => simp [h]
  · next h => simp [h]

theorem exists_inputWire_iff {stage : String} {id : ElementId} {input : String} {k : Nat} :
    (∃ w, d.inputWire stage id (input, k) = .ok w) ↔ input ∈ d.names := by
  rw [← not_iff_not, ← idOf?_eq_none_iff]
  unfold inputWire
  split
  · next origin h => simp [h]
  · next h => simp [h]

theorem inputWire_eq_ok_iff (h : d.names.Nodup) {stage : String} {id : ElementId} {input : String}
    {k : Nat} {w : Wire} : d.inputWire stage id (input, k) = .ok w ↔
      ∃ (j : Nat) (o : StageDef), d.stages[j]? = some o ∧ o.name = input ∧
        ⟨firstId + j, id, k⟩ = w := by
  have hid : d.inputWire stage id (input, k) = .ok w ↔
      ∃ origin, d.idOf? input = some origin ∧ ⟨origin, id, k⟩ = w := by
    unfold inputWire
    split
    · next origin h => simp [h]
    · next h => simp [h]
  rw [hid]
  constructor
  · rintro ⟨origin, ho, rfl⟩
    obtain ⟨j, o, hj, hname, rfl⟩ := (idOf?_eq_some_iff h).1 ho
    exact ⟨j, o, hj, hname, rfl⟩
  · rintro ⟨j, o, hj, hname, rfl⟩
    exact ⟨_, (idOf?_eq_some_iff h).2 ⟨j, o, hj, hname, rfl⟩, rfl⟩

/-- A stage with the inputs that all name a stage. -/
theorem exists_wiresOf_iff {s : StageDef} {id : ElementId} :
    (∃ ws, d.wiresOf id s = .ok ws) ↔ ∀ input ∈ s.inputs, input ∈ d.names := by
  rw [← exists_mapM_zipIdx_iff (f := d.inputWire s.name id) fun _ _ => exists_inputWire_iff]
  constructor
  · rintro ⟨ws, h⟩
    obtain ⟨inputs, hin, -⟩ := bind_eq_ok.1 h
    exact ⟨inputs, hin⟩
  · rintro ⟨inputs, hin⟩
    exact ⟨_, bind_eq_ok.2 ⟨inputs, hin, rfl⟩⟩

/-- The first input of a stage that names no stage. -/
def Misses (d : Definition) (s : StageDef) (e : DefinitionError) : Prop :=
  ∃ known input rest, s.inputs = known ++ input :: rest ∧ (∀ x ∈ known, x ∈ d.names) ∧
    input ∉ d.names ∧ .unknownInput s.name input = e

theorem wiresOf_eq_error_iff {s : StageDef} {id : ElementId} :
    d.wiresOf id s = .error e ↔ d.Misses s e := by
  rw [Misses, ← mapM_zipIdx_eq_error_iff (f := d.inputWire s.name id)
    (fun _ _ => exists_inputWire_iff) fun _ _ _ => inputWire_eq_error_iff]
  rw [wiresOf, bind_eq_error]
  exact or_iff_left fun ⟨_, _, h⟩ => by cases h

theorem exists_wires_iff :
    (∃ ws, d.wires = .ok ws) ↔ ∀ s ∈ d.stages, ∀ input ∈ s.inputs, input ∈ d.names := by
  rw [← exists_mapM_zipIdx_iff (f := fun x => d.wiresOf (firstId + x.2) x.1)
    fun _ _ => exists_wiresOf_iff]
  constructor
  · rintro ⟨ws, h⟩
    obtain ⟨perStage, hper, -⟩ := bind_eq_ok.1 h
    exact ⟨perStage, hper⟩
  · rintro ⟨perStage, hper⟩
    exact ⟨_, bind_eq_ok.2 ⟨perStage, hper, rfl⟩⟩

theorem wires_eq_error_iff : d.wires = .error e ↔ ∃ before s after,
    d.stages = before ++ s :: after ∧ (∀ x ∈ before, ∀ input ∈ x.inputs, input ∈ d.names) ∧
      d.Misses s e := by
  rw [← mapM_zipIdx_eq_error_iff (f := fun x => d.wiresOf (firstId + x.2) x.1)
    (fun _ _ => exists_wiresOf_iff) fun _ _ _ => wiresOf_eq_error_iff]
  rw [wires, bind_eq_error]
  exact or_iff_left fun ⟨_, _, h⟩ => by cases h

/-! ## The scopes that are added -/

theorem mem_extentWire_iff {i : Nat} {kind : StageKind} {w : Wire} :
    w ∈ extentWire (firstId + i) kind ↔
      ((∃ t, kind = .source t) ∧ w = ⟨Graph.head, firstId + i, 0⟩) ∨
        ((∃ t, kind = .sink t) ∧ w = ⟨firstId + i, Graph.tail, 0⟩) := by
  cases kind <;> simp [extentWire]

theorem mem_wiresOf_iff (hd : d.names.Nodup) {s : StageDef} {i : Nat} {ws : List Wire}
    (h : d.wiresOf (firstId + i) s = .ok ws) {w : Wire} : w ∈ ws ↔ d.AsksAt i s w := by
  obtain ⟨inputs, hin, h⟩ := bind_eq_ok.1 h
  cases h
  rw [List.mem_append, mem_extentWire_iff]
  constructor
  · rintro ((⟨⟨t, hk⟩, rfl⟩ | ⟨⟨t, hk⟩, rfl⟩) | hw)
    · exact .source hk
    · exact .sink hk
    · obtain ⟨n, hn⟩ := List.mem_iff_getElem?.1 hw
      obtain ⟨⟨name, k⟩, hk, hwire⟩ := getElem?_of_mapM_result hin hn
      obtain ⟨j, o, ho, rfl, rfl⟩ := (inputWire_eq_ok_iff hd).1 hwire
      exact .input ho (List.mk_mem_zipIdx_iff_getElem?.1 (List.mem_of_getElem? hk))
  · intro hw
    cases hw with
    | source hk => exact .inl (.inl ⟨⟨_, hk⟩, rfl⟩)
    | sink hk => exact .inl (.inr ⟨⟨_, hk⟩, rfl⟩)
    | input ho hk =>
      obtain ⟨n, hn⟩ := List.mem_iff_getElem?.1 (List.mk_mem_zipIdx_iff_getElem?.2 hk)
      obtain ⟨b, hb, hwire⟩ := getElem?_of_mapM hin hn
      cases hwire.symm.trans ((inputWire_eq_ok_iff hd).2 ⟨_, _, ho, rfl, rfl⟩)
      exact .inr (List.mem_of_getElem? hb)

theorem mem_wires_iff (hd : d.names.Nodup) {ws : List Wire} (h : d.wires = .ok ws) {w : Wire} :
    w ∈ ws ↔ d.Asks w := by
  obtain ⟨perStage, hper, h⟩ := bind_eq_ok.1 h
  cases h
  rw [List.mem_flatten]
  constructor
  · rintro ⟨l, hl, hw⟩
    obtain ⟨n, hn⟩ := List.mem_iff_getElem?.1 hl
    obtain ⟨⟨s, i⟩, hs, hws⟩ := getElem?_of_mapM_result hper hn
    exact ⟨i, s, List.mk_mem_zipIdx_iff_getElem?.1 (List.mem_of_getElem? hs),
      (mem_wiresOf_iff hd hws).1 hw⟩
  · rintro ⟨i, s, hs, hw⟩
    obtain ⟨n, hn⟩ := List.mem_iff_getElem?.1 (List.mk_mem_zipIdx_iff_getElem?.2 hs)
    obtain ⟨l, hl, hws⟩ := getElem?_of_mapM hper hn
    exact ⟨l, List.mem_of_getElem? hl, (mem_wiresOf_iff hd hws).2 hw⟩

theorem firstId_add_ne_head (i : Nat) : firstId + i ≠ Graph.head := by
  intro h
  have hle : firstId ≤ Graph.head := h ▸ Nat.le_add_right _ _
  exact absurd hle (by decide)

/-- The element of the stage that asked for a wire. -/
def owner (w : Wire) : ElementId := if w.target = Graph.tail then w.origin else w.target

theorem AsksAt.owner {i : Nat} {s : StageDef} {w : Wire} (h : d.AsksAt i s w) :
    Definition.owner w = firstId + i := by
  cases h with
  | source _ => exact if_neg (firstId_add_ne_tail i)
  | sink _ => exact if_pos rfl
  | input _ _ => exact if_neg (firstId_add_ne_tail i)

theorem nodup_wiresOf {s : StageDef} {i : Nat} {ws : List Wire}
    (h : d.wiresOf (firstId + i) s = .ok ws) : ws.Nodup := by
  obtain ⟨inputs, hin, h⟩ := bind_eq_ok.1 h
  cases h
  refine List.nodup_append.2 ⟨?_, ?_, ?_⟩
  · cases s.kind <;> simp [extentWire]
  · -- the inputs of a stage are numbered
    refine List.pairwise_iff_getElem.2 fun a b ha hb hab heq => ?_
    obtain ⟨_, -, -, hva⟩ := inputWires hin (List.getElem?_eq_getElem ha)
    obtain ⟨_, -, -, hvb⟩ := inputWires hin (List.getElem?_eq_getElem hb)
    rw [hva, hvb] at heq
    exact Nat.ne_of_lt hab (congrArg Wire.ordinal heq)
  · rintro v hv w hw rfl
    obtain ⟨n, hn⟩ := List.mem_iff_getElem?.1 hw
    obtain ⟨j, -, -, rfl⟩ := inputWires hin hn
    rcases mem_extentWire_iff.1 hv with ⟨-, heq⟩ | ⟨-, heq⟩
    · exact firstId_add_ne_head j (congrArg Wire.origin heq)
    · exact firstId_add_ne_tail i (congrArg Wire.target heq)

theorem nodup_wires (hd : d.names.Nodup) {ws : List Wire} (h : d.wires = .ok ws) : ws.Nodup := by
  obtain ⟨perStage, rfl, hper⟩ := wires_eq h
  refine List.pairwise_flatten.2 ⟨fun l hl => ?_, ?_⟩
  · obtain ⟨n, hn⟩ := List.mem_iff_getElem?.1 hl
    obtain ⟨s, -, hs⟩ := hper n l hn
    exact nodup_wiresOf hs
  · refine List.pairwise_iff_getElem.2 fun a b ha hb hab v hv w hw heq => ?_
    obtain ⟨s, -, hs⟩ := hper a _ (List.getElem?_eq_getElem ha)
    obtain ⟨s', -, hs'⟩ := hper b _ (List.getElem?_eq_getElem hb)
    have hva := ((mem_wiresOf_iff hd hs).1 hv).owner
    have hwb := ((mem_wiresOf_iff hd hs').1 hw).owner
    rw [heq, hwb] at hva
    exact Nat.ne_of_lt hab (Nat.add_left_cancel hva).symm

/-! ## The graph -/

theorem WellFormed.passing (h : d.WellFormed) : Passing [] d.stages :=
  ⟨fun _ _ => List.not_mem_nil, h.distinct, h.fits⟩

theorem exists_toGraph_iff : (∃ g, d.toGraph = .ok g) ↔ d.WellFormed := by
  constructor
  · rintro ⟨g, h⟩
    obtain ⟨hne, es, ws, hes, hws, -⟩ := toGraph_eq_ok h
    have hpass := (elementsOf_eq_ok_iff.1 hes).1
    exact ⟨hne, hpass.distinct, hpass.fits, exists_wires_iff.1 ⟨ws, hws⟩⟩
  · intro h
    obtain ⟨ws, hws⟩ := exists_wires_iff.2 h.known
    have hes := elementsOf_eq_ok_iff.2 ⟨h.passing, rfl⟩
    unfold toGraph
    rw [if_neg fun hnil => h.nonempty (List.isEmpty_iff.1 hnil)]
    exact ⟨_, bind_eq_ok.2 ⟨_, hes, bind_eq_ok.2 ⟨ws, hws, rfl⟩⟩⟩

theorem toGraph_eq_error_iff : d.toGraph = .error e ↔ d.Reports e := by
  unfold toGraph
  split
  · next hnil =>
    have hstages := List.isEmpty_iff.1 hnil
    have hsplit : ∀ before (s : StageDef) after, d.stages ≠ before ++ s :: after :=
      fun before s after h => List.append_ne_nil_of_right_ne_nil before
        (List.cons_ne_nil s after) (h.symm.trans hstages)
    constructor
    · intro h
      cases h
      exact .empty hstages
    · intro h
      cases h with
      | empty _ => rfl
      | stage hs _ _ => exact absurd hs (hsplit _ _ _)
      | input _ hs _ _ _ _ => exact absurd hs (hsplit _ _ _)
  · next hne =>
    constructor
    · intro h
      rcases bind_eq_error.1 h with h | ⟨es, hes, h⟩
      · obtain ⟨before, s, after, hsplit, hpass, hfault⟩ := elementsOf_eq_error_iff.1 h
        rw [List.append_nil] at hfault
        exact .stage hsplit hpass hfault
      rcases bind_eq_error.1 h with h | ⟨ws, -, h⟩
      · obtain ⟨before, s, after, hsplit, hbefore, hmisses⟩ := wires_eq_error_iff.1 h
        obtain ⟨known, input, rest, hinputs, hknown, hmiss, rfl⟩ := hmisses
        exact .input (elementsOf_eq_ok_iff.1 hes).1 hsplit hbefore hinputs hknown hmiss
      · cases h
    · intro h
      cases h with
      | empty hnil => exact absurd (List.isEmpty_iff.2 hnil) hne
      | stage hsplit hbefore h =>
        refine bind_eq_error.2 (.inl (elementsOf_eq_error_iff.2 ⟨_, _, _, hsplit, hbefore, ?_⟩))
        rwa [List.append_nil]
      | input hpass hsplit hbefore hinputs hknown h =>
        refine bind_eq_error.2 (.inr ⟨_, elementsOf_eq_ok_iff.2 ⟨hpass, rfl⟩,
          bind_eq_error.2 (.inl (wires_eq_error_iff.2 ?_))⟩)
        exact ⟨_, _, _, hsplit, hbefore, _, _, _, hinputs, hknown, h, rfl⟩

theorem builds_of_toGraph (h : d.toGraph = .ok g) : d.Builds g := by
  have hlayout := toGraph_layout h
  have hwf := exists_toGraph_iff.1 ⟨g, h⟩
  obtain ⟨es, ws, hes, hws, -, -, -, helt, hscope⟩ := toGraph_arenas h
  obtain ⟨-, rfl⟩ := elementsOf_eq_ok_iff.1 hes
  have hnodup := nodup_wires hwf.distinct hws
  constructor
  case consistent =>
    refine Graph.Intact.consistent ⟨hlayout.agrees, fun s sc hsc => ?_,
      Graph.contains_iff.2 ⟨_, hlayout.head⟩, Graph.contains_iff.2 ⟨_, hlayout.tail⟩⟩
    exact hlayout.ends _ _ ⟨s, sc, hsc, rfl, rfl⟩
  case name => exact name_toGraph h
  case live =>
    intro id
    rw [← hlayout.size]
    refine ⟨Graph.lt_size_of_contains, fun hlt => ?_⟩
    match id with
    | 0 => exact Graph.contains_iff.2 ⟨_, hlayout.head⟩
    | 1 => exact Graph.contains_iff.2 ⟨_, hlayout.tail⟩
    | i + 2 =>
      rw [hlayout.size, Nat.add_comm] at hlt
      rw [Nat.add_comm]
      exact hlayout.contains_stage (Nat.lt_of_add_lt_add_left hlt)
  case head => exact hlayout.head
  case tail => exact hlayout.tail
  case stage =>
    intro i s hs
    rw [helt, List.getElem?_map, hs]
    rfl
  case scope =>
    intro w hw
    obtain ⟨n, hn⟩ := List.mem_iff_getElem?.1 ((mem_wires_iff hwf.distinct hws).2 hw)
    refine ⟨n, (hscope n).trans (by rw [hn]; rfl), fun m hm => ?_⟩
    obtain ⟨w', hw', heq⟩ := Option.map_eq_some_iff.1 ((hscope m).symm.trans hm)
    have hsame : w' = w := by
      cases w
      cases w'
      cases heq
      rfl
    have hlt := (List.getElem?_eq_some_iff.1 hw').1
    exact (List.getElem?_inj hlt hnodup).1 (by rw [hw', hn, hsame])
  case only =>
    intro n sc hsc
    rw [hscope] at hsc
    obtain ⟨w, hw, rfl⟩ := Option.map_eq_some_iff.1 hsc
    exact ⟨w, (mem_wires_iff hwf.distinct hws).1 (List.mem_of_getElem? hw), rfl⟩

/-- **A definition has a graph exactly if it is well-formed**, and then the graph holds what the
definition asks for and nothing else; otherwise the first of its stages that is wrong is reported,
or, if none is, the first input that names no stage. -/
theorem toGraph_exact (d : Definition) : ((∃ g, d.toGraph = .ok g) ↔ d.WellFormed) ∧
    (∀ g, d.toGraph = .ok g → d.Builds g) ∧ ∀ e, d.toGraph = .error e ↔ d.Reports e :=
  ⟨exists_toGraph_iff, fun _ => builds_of_toGraph, fun _ => toGraph_eq_error_iff⟩

/-- A merge reads stages that are listed behind it, one of them twice, a sink, and itself. -/
def knotted : Definition where
  name := "knotted"
  stages :=
    [⟨"all", ["in", "all", "out", "in"], .merge⟩,
      ⟨"out", ["all"], .sink ⟨"hdfs", "out", none, true⟩⟩,
      ⟨"in", [], .source ⟨"hdfs", "in", some ["key"], true⟩⟩]

/-- The first stage reads a stage that is not there, and the second one may not read at all. -/
def misled : Definition where
  name := "misled"
  stages := [⟨"copy", ["nowhere"], .pipe⟩, ⟨"in", ["copy"], .source ⟨"hdfs", "in", none, true⟩⟩]

/-- The first of them has a graph, and the second is refused for its second stage. -/
theorem toGraph_knotted : (∃ g, knotted.toGraph = .ok g ∧ knotted.WellFormed ∧ knotted.Builds g ∧
    g.scopes.map (Option.map fun sc => (sc.origin, sc.target, sc.ordinal)) =
      [some (4, 2, 0), some (2, 2, 1), some (3, 2, 2), some (4, 2, 3), some (3, 1, 0),
        some (2, 3, 0), some (0, 4, 0)]) ∧
    misled.toGraph = .error (.sourceWithInputs "in") ∧
      misled.Reports (.sourceWithInputs "in") := by
  have hany : (knotted.toGraph.toOption.any fun g => decide
      (g.scopes.map (Option.map fun sc => (sc.origin, sc.target, sc.ordinal)) =
        [some (4, 2, 0), some (2, 2, 1), some (3, 2, 2), some (4, 2, 3), some (3, 1, 0),
          some (2, 3, 0), some (0, 4, 0)])) = true := by cbv
  obtain ⟨g, hd, hscopes⟩ := exists_ok_of_any hany
  have hrefused : misled.toGraph = .error (.sourceWithInputs "in") := by cbv
  obtain ⟨hiff, hbuilds, -⟩ := toGraph_exact knotted
  exact ⟨⟨g, hd, hiff.1 ⟨g, hd⟩, hbuilds g hd, of_decide_eq_true hscopes⟩, hrefused,
    ((toGraph_exact misled).2.2 _).1 hrefused⟩

end Definition
end Dataflow
