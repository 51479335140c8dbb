import Dataflow.Proofs.Flow.Relabelling

/-!
# Field resolution evaluates, and marks what it evaluates

Resolution writes the output of an element on the scopes that leave it, and reads the
inputs of the next one from the scopes that enter that. What it reads is what was put
out before: so it is an evaluation of the elements one after the other, which needs no
graph to write to, and what is written is a mark on every scope and boundary that says
what its element put out. Everything else stays as it is, also where an element fails.

Results:

* `label_marked`: writing one output is marking it;
* `resolveEach_marked`, `resolveFields_eq`: resolution is evaluation, and the marks;
* `evaluate_of_relabels`: evaluation does not look at the marks;
* `resolveFields_twice`: resolving again changes nothing.
-/
namespace Dataflow

open Resolution

/-- The scope with the fields that `d` has for its origin. -/
def Scope.marked (d : ElementId → Option Fields) (sc : Scope) : Scope :=
  { sc with fields := d sc.origin }

/-- The element with such fields on its tap, if it is a boundary and there are any. -/
def Element.marked (out : Option Fields) (x : Element) : Element :=
  match out with
  | some f => if x.kind.isBoundary then { x with kind := x.kind.withTapFields f } else x
  | none => x

def Node.marked (out : Option Fields) (n : Node) : Node :=
  { n with element := n.element.map (Element.marked out) }

/-- Boundaries put out what they receive, whatever their taps say. -/
theorem Resolution.outputFields_alike {k k' : Kind} (h : k.Alike k') (name : String)
    (fs : List Fields) : outputFields name k' fs = outputFields name k fs :=
  h.congr (f := fun k => outputFields name k fs) fun _ _ => rfl

namespace Element

variable {x : Element} {o o' : Option Fields}

@[simp] theorem marked_none (x : Element) : x.marked none = x := rfl

theorem marked_of_not_boundary (h : x.kind.isBoundary = false) : x.marked o = x := by
  cases o with
  | none => rfl
  | some f => simp [marked, h]

theorem marked_of_boundary {f : Fields} (h : x.kind.isBoundary = true) :
    x.marked (some f) = { x with kind := x.kind.withTapFields f } := if_pos h

@[simp] theorem name_marked : (x.marked o).name = x.name := by
  cases o with
  | none => rfl
  | some f => unfold marked; dsimp only; split <;> rfl

theorem alike_marked (x : Element) (o : Option Fields) : x.kind.Alike (x.marked o).kind := by
  by_cases hb : x.kind.isBoundary = true
  · obtain ⟨t, ht⟩ := Kind.isBoundary_iff.1 hb
    refine .inr ⟨hb, ?_⟩
    cases o with
    | none => exact hb
    | some f => rw [marked_of_boundary hb, ht]; rfl
  · rw [marked_of_not_boundary (by simpa using hb)]
    exact .inl rfl

/-- The tap of a boundary has the fields of the mark, or those it had where there is none. -/
theorem boundary_of_marked {t : Tap} (h : (x.marked o).kind = .boundary t) :
    ∃ t₀, x.kind = .boundary t₀ ∧ t = { t₀ with fields := o.getD t₀.fields } := by
  have hb : x.kind.isBoundary = true := by
    by_contra hb
    rw [marked_of_not_boundary (by simpa using hb)] at h
    exact hb (by rw [h]; rfl)
  obtain ⟨t₀, ht₀⟩ := Kind.isBoundary_iff.1 hb
  refine ⟨t₀, ht₀, ?_⟩
  cases o with
  | none => rw [marked_none, ht₀] at h; cases h; rfl
  | some f => rw [marked_of_boundary hb, ht₀] at h; cases h; rfl

/-- A later mark replaces an earlier one. -/
theorem marked_marked {f : Fields} : (x.marked o).marked (some f) = x.marked (some f) := by
  by_cases hb : x.kind.isBoundary = true
  · obtain ⟨t, ht⟩ := Kind.isBoundary_iff.1 hb
    cases o with
    | none => rfl
    | some f' =>
      have hb' : ({ x with kind := x.kind.withTapFields f' } : Element).kind.isBoundary = true := by
        rw [ht]; rfl
      rw [marked_of_boundary hb, marked_of_boundary hb', marked_of_boundary hb, ht]
      rfl
  · rw [marked_of_not_boundary (o := o) (by simpa using hb)]

end Element

namespace Node

variable {n : Node} {o : Option Fields}

theorem marked_eq_self (h : ∀ x, n.element = some x → x.marked o = x) : n.marked o = n := by
  obtain ⟨_ | x, outgoing, incoming⟩ := n
  · rfl
  · simp [marked, h x rfl]

theorem marked_marked {f : Fields} : (n.marked o).marked (some f) = n.marked (some f) := by
  obtain ⟨_ | x, outgoing, incoming⟩ := n
  · rfl
  · simp [marked, Element.marked_marked]

end Node

namespace Graph

variable {g : Graph} {d : ElementId → Option Fields} {e : ElementId}

/-- The graph with the fields that `d` has for each element on the scopes that leave it, and
on its tap where it is a boundary. -/
def marked (g : Graph) (d : ElementId → Option Fields) : Graph :=
  { g with
    nodes := g.nodes.mapIdx fun e => Node.marked (d e)
    scopes := g.scopes.map (Option.map (Scope.marked d)) }

/-! ## What marks leave alone -/

theorem getElem?_nodes_marked (e : ElementId) :
    (g.marked d).nodes[e]? = g.nodes[e]?.map (Node.marked (d e)) :=
  List.getElem?_mapIdx

@[simp] theorem size_marked : (g.marked d).size = g.size := List.length_mapIdx

@[simp] theorem length_scopes_marked : (g.marked d).scopes.length = g.scopes.length :=
  List.length_map _

theorem element?_marked (e : ElementId) :
    (g.marked d).element? e = (g.element? e).map (Element.marked (d e)) := by
  simp only [element?, getElem?_nodes_marked]
  cases g.nodes[e]? <;> rfl

theorem scope?_marked (s : ScopeId) :
    (g.marked d).scope? s = (g.scope? s).map (Scope.marked d) := by
  simp only [scope?, marked, List.getElem?_map]
  cases g.scopes[s]? <;> rfl

@[simp] theorem outgoing_marked (e : ElementId) : (g.marked d).outgoing e = g.outgoing e := by
  simp only [outgoing, getElem?_nodes_marked]
  cases g.nodes[e]? <;> rfl

@[simp] theorem arrivals_marked (e : ElementId) : (g.marked d).arrivals e = g.arrivals e := by
  simp only [arrivals, getElem?_nodes_marked]
  cases g.nodes[e]? <;> rfl

theorem relabels_marked (g : Graph) (d : ElementId → Option Fields) :
    Relabels g (g.marked d) where
  size := size_marked
  outgoing := outgoing_marked
  arrivals := arrivals_marked
  scope_to s sc hs := ⟨sc.marked d, by rw [scope?_marked, hs]; rfl, rfl, rfl, rfl⟩
  scope_from s sc' hs := by
    rw [scope?_marked] at hs
    obtain ⟨sc, hsc, rfl⟩ := Option.map_eq_some_iff.1 hs
    exact ⟨sc, hsc, rfl, rfl, rfl⟩
  element_to e x hx :=
    ⟨x.marked (d e), by rw [element?_marked, hx]; rfl, Element.name_marked, x.alike_marked _⟩
  element_from e x' hx := by
    rw [element?_marked] at hx
    obtain ⟨x, hx', rfl⟩ := Option.map_eq_some_iff.1 hx
    exact ⟨x, hx', Element.name_marked, x.alike_marked _⟩

@[simp] theorem ordinalOf_marked (s : ScopeId) : (g.marked d).ordinalOf s = g.ordinalOf s := by
  rw [ordinalOf, scope?_marked, ordinalOf]
  cases g.scope? s <;> rfl

@[simp] theorem incoming_marked (e : ElementId) : (g.marked d).incoming e = g.incoming e := by
  simp only [incoming, arrivals_marked, ordinalOf_marked]

@[simp] theorem contains_marked (e : ElementId) : (g.marked d).contains e = g.contains e := by
  rw [contains, element?_marked, Option.isSome_map, contains]

/-- A traversal sees the live elements and, at each, the edges. -/
theorem topology_congr {g' : Graph} (hsize : g'.size = g.size)
    (hcontains : ∀ e, g'.contains e = g.contains e) (hout : ∀ e, g'.edgesOut e = g.edgesOut e)
    (hin : ∀ e, g'.edgesIn e = g.edgesIn e) : g'.topology = g.topology := by
  unfold topology
  congr 1
  · have hlength : g'.nodes.length = g.nodes.length := hsize
    rw [elements, elements, hlength]
    congr 1
    exact funext hcontains
  · exact funext hout
  · exact funext hin

/-- Marks are not seen by a traversal. -/
@[simp] theorem topology_marked : (g.marked d).topology = g.topology := by
  have hedges : ∀ {p : Scope → ElementId} (hp : ∀ sc, p (Scope.marked d sc) = p sc)
      (l : List ScopeId), (l.filterMap fun s => ((g.marked d).scope? s).map fun sc => (s, p sc)) =
        l.filterMap fun s => (g.scope? s).map fun sc => (s, p sc) := by
    intro p hp l
    congr 1
    funext s
    rw [scope?_marked]
    cases g.scope? s <;> simp [hp]
  refine topology_congr size_marked (fun e => contains_marked e) (fun e => ?_) fun e => ?_
  · rw [edgesOut, outgoing_marked, hedges fun _ => rfl]
    rfl
  · rw [edgesIn, incoming_marked, hedges fun _ => rfl]
    rfl

@[simp] theorem inputs_marked (e : ElementId) : (g.marked d).inputs e = g.inputs e :=
  congrArg (fun t : Topology => (t.edgesIn e).map Prod.snd) topology_marked

/-! ## Graphs that differ in marks -/

theorem ext_places {g g' : Graph} (hname : g'.name = g.name)
    (hnodes : ∀ e : ElementId, g'.nodes[e]? = g.nodes[e]?)
    (hlength : g'.scopes.length = g.scopes.length) (hscopes : ∀ s, g'.scope? s = g.scope? s)
    (hcount : g'.boundaryCount = g.boundaryCount) : g' = g := by
  obtain ⟨name, nodes, scopes, count⟩ := g
  obtain ⟨name', nodes', scopes', count'⟩ := g'
  cases hname
  cases hcount
  congr 1
  · exact List.ext_getElem? hnodes
  · refine List.ext_getElem hlength fun s h h' => ?_
    have hs := hscopes s
    simp only [scope?] at hs
    rwa [List.getElem?_eq_getElem h, List.getElem?_eq_getElem h', Option.join_some,
      Option.join_some] at hs

/-- Later marks replace earlier ones where there are any. -/
theorem marked_marked {d' : ElementId → Option Fields} (h : ∀ e, d' e = none → d e = none) :
    (g.marked d).marked d' = g.marked d' := by
  refine ext_places rfl (fun e => ?_) (by simp) (fun s => ?_) rfl
  · simp only [getElem?_nodes_marked, Option.map_map]
    congr 1
    funext n
    cases hd : d' e with
    | none => rw [Function.comp_apply, h e hd, Node.marked_eq_self fun x _ => rfl]
    | some f => exact Node.marked_marked
  · simp only [scope?_marked, Option.map_map]
    rfl

/-- Clearing leaves no marks on scopes and does not touch those on taps. -/
theorem clearFields_eq (g : Graph) : g.clearFields = g.marked fun _ => none := by
  refine ext_places rfl (fun e => ?_) (by simp [clearFields]) (fun s => ?_) rfl
  · rw [getElem?_nodes_marked]
    show g.nodes[e]? = _
    cases g.nodes[e]? with
    | none => rfl
    | some n => exact congrArg some (Node.marked_eq_self fun x _ => rfl).symm
  · rw [scope?_marked]
    simp only [scope?, clearFields, List.getElem?_map]
    cases g.scopes[s]? <;> rfl

/-! ## One output -/

theorem scope?_setFields_foldl (l : List ScopeId) (out : Fields) (g : Graph) (s : ScopeId) :
    (l.foldl (fun g s => g.setFields s out) g).scope? s =
      (g.scope? s).map fun sc => if s ∈ l then { sc with fields := some out } else sc := by
  induction l generalizing g with
  | nil => simp
  | cons i rest ih =>
    rw [List.foldl_cons, ih, scope?_setFields, Option.map_map]
    congr 1
    funext sc
    by_cases hi : s = i
    · subst hi; by_cases hr : s ∈ rest <;> simp [hr]
    · simp [hi]

theorem setFields_foldl_keeps (l : List ScopeId) (out : Fields) (g : Graph) :
    (l.foldl (fun g s => g.setFields s out) g).nodes = g.nodes ∧
      (l.foldl (fun g s => g.setFields s out) g).scopes.length = g.scopes.length ∧
      (l.foldl (fun g s => g.setFields s out) g).name = g.name ∧
      (l.foldl (fun g s => g.setFields s out) g).boundaryCount = g.boundaryCount := by
  induction l generalizing g with
  | nil => exact ⟨rfl, rfl, rfl, rfl⟩
  | cons i rest ih =>
    obtain ⟨hn, hl, hname, hc⟩ := ih (g.setFields i out)
    exact ⟨hn, hl.trans (List.length_modify _ _ _), hname, hc⟩

/-- The scopes that leave the element carry its output afterwards. -/
theorem Agrees.scope?_label (ha : g.Agrees) (e : ElementId) (out : Fields) (s : ScopeId) :
    (label g e out).scope? s = (g.scope? s).map fun sc =>
      if sc.origin = e then { sc with fields := some out } else sc := by
  have hfold : (label g e out).scope? s = (g.scope? s).map fun sc =>
      if s ∈ g.outgoing e then { sc with fields := some out } else sc := by
    unfold label
    by_cases hb : g.hasKind Kind.isBoundary e = true
    · simp only [hb, if_true]
      rw [scope?_setFields_foldl, (relabels_setTapFields g out hb).outgoing]
      rfl
    · simp only [hb, Bool.false_eq_true, if_false]
      exact scope?_setFields_foldl _ _ _ _
  rw [hfold]
  cases hsc : g.scope? s with
  | none => rfl
  | some sc =>
    have hmem : s ∈ g.outgoing e ↔ sc.origin = e := by
      rw [ha.outgoing_iff]
      constructor
      · rintro ⟨sc', hsc', ho⟩
        rw [hsc] at hsc'; cases hsc'
        exact ho
      · exact fun ho => ⟨sc, hsc, ho⟩
    simp only [Option.map_some, hmem]

/-- Its own tap is all that an element writes on among the elements. -/
theorem nodes_label (g : Graph) (e : ElementId) (out : Fields) :
    (label g e out).nodes = g.nodes.modify e (Node.marked (some out)) := by
  unfold label
  by_cases hb : g.hasKind Kind.isBoundary e = true
  · simp only [hb, if_true]
    rw [(setFields_foldl_keeps _ _ _).1]
    obtain ⟨x, hx, hk⟩ := hasKind_iff.1 hb
    obtain ⟨n, hn, hnx⟩ := Option.bind_eq_some_iff.1 hx
    refine List.ext_getElem? fun i => ?_
    simp only [setTapFields, modifyNode, List.getElem?_modify]
    by_cases hi : e = i
    · subst hi
      simp [hn, hnx, Node.marked, Element.marked_of_boundary hk]
    · simp [hi]
  · simp only [hb, Bool.false_eq_true, if_false]
    rw [(setFields_foldl_keeps _ _ _).1]
    refine List.ext_getElem? fun i => ?_
    rw [List.getElem?_modify]
    by_cases hi : e = i
    · subst hi
      cases hn : g.nodes[e]? with
      | none => rfl
      | some n =>
        have hsame : n.marked (some out) = n := Node.marked_eq_self fun x hx => by
          refine Element.marked_of_not_boundary (by_contra fun hk => hb ?_)
          exact hasKind_iff.2 ⟨x, by simp [element?, hn, hx], by simpa using hk⟩
        simp [hsame]
    · simp [hi]

theorem label_keeps (g : Graph) (e : ElementId) (out : Fields) :
    (label g e out).scopes.length = g.scopes.length ∧ (label g e out).name = g.name ∧
      (label g e out).boundaryCount = g.boundaryCount := by
  unfold label
  by_cases hb : g.hasKind Kind.isBoundary e = true
  · simp only [hb, if_true]
    exact (setFields_foldl_keeps _ _ _).2
  · simp only [hb, Bool.false_eq_true, if_false]
    exact (setFields_foldl_keeps _ _ _).2

/-- Writing the output of an element on a marked graph is marking it. -/
theorem label_marked (ha : g.Agrees) (d : ElementId → Option Fields) (e : ElementId)
    (out : Fields) : label (g.marked d) e out = g.marked (Function.update d e (some out)) := by
  have ha' := (relabels_marked g d).agrees ha
  obtain ⟨hlength, hname, hcount⟩ := label_keeps (g.marked d) e out
  refine ext_places hname (fun i => ?_) (by rw [hlength]; simp) (fun s => ?_) hcount
  · rw [nodes_label, List.getElem?_modify, getElem?_nodes_marked, getElem?_nodes_marked]
    by_cases hi : e = i
    · subst hi
      cases g.nodes[e]? with
      | none => rfl
      | some n => simp [Node.marked_marked]
    · rw [Function.update_of_ne (Ne.symm hi)]
      cases g.nodes[i]? <;> simp [hi]
  · rw [ha'.scope?_label, scope?_marked, scope?_marked, Option.map_map]
    congr 1
    funext sc
    by_cases ho : sc.origin = e <;> simp [Scope.marked, ho]

end Graph

/-! ## All elements -/

namespace Resolution

variable {g g' : Graph} {d : ElementId → Option Fields}

/-- What the listed elements put out, one after the other, each from what those that feed it
have put out by then. Ends at the first that fails. -/
def evaluate (g : Graph) : List ElementId → (ElementId → Option Fields) →
    Except FieldError Unit × (ElementId → Option Fields)
  | [], d => (.ok (), d)
  | e :: rest, d =>
    match g.element? e with
    | none => evaluate g rest d
    | some x =>
      match outputFields x.name x.kind ((g.inputs e).map fun a => (d a).getD .unknown) with
      | .error err => (.error err, d)
      | .ok out => evaluate g rest (Function.update d e (some out))

theorem evaluate_cons (e : ElementId) (rest : List ElementId) (d : ElementId → Option Fields) :
    evaluate g (e :: rest) d =
      match g.element? e with
      | none => evaluate g rest d
      | some x =>
        match outputFields x.name x.kind ((g.inputs e).map fun a => (d a).getD .unknown) with
        | .error err => (.error err, d)
        | .ok out => evaluate g rest (Function.update d e (some out)) := rfl

theorem evaluate_singleton {v : ElementId} {x : Element} (hx : g.element? v = some x) :
    evaluate g [v] d =
      match outputFields x.name x.kind ((g.inputs v).map fun a => (d a).getD .unknown) with
      | .error err => (.error err, d)
      | .ok out => (.ok (), Function.update d v (some out)) := by
  simp only [evaluate_cons, hx]
  rfl

/-- One more element is evaluated where the others have not failed. -/
theorem evaluate_concat (l : List ElementId) (v : ElementId) (d : ElementId → Option Fields) :
    evaluate g (l ++ [v]) d =
      match (evaluate g l d).1 with
      | .error err => (.error err, (evaluate g l d).2)
      | .ok _ => evaluate g [v] (evaluate g l d).2 := by
  induction l generalizing d with
  | nil => rfl
  | cons e rest ih =>
    rw [List.cons_append, evaluate_cons, evaluate_cons]
    cases g.element? e with
    | none => exact ih d
    | some x =>
      dsimp only
      cases outputFields x.name x.kind ((g.inputs e).map fun a => (d a).getD .unknown) with
      | error err => rfl
      | ok out => exact ih _

theorem evaluate_concat_of_ok {l : List ElementId} {v : ElementId}
    (h : (evaluate g l d).1 = .ok ()) :
    evaluate g (l ++ [v]) d = evaluate g [v] (evaluate g l d).2 := by
  rw [evaluate_concat, h]

theorem ok_of_evaluate_concat {l : List ElementId} {v : ElementId}
    (h : (evaluate g (l ++ [v]) d).1 = .ok ()) : (evaluate g l d).1 = .ok () := by
  rw [evaluate_concat] at h
  cases hl : (evaluate g l d).1 with
  | error err => rw [hl] at h; cases h
  | ok _ => rfl

/-- What is read from a marked graph is what was put out. -/
theorem inputFields_marked (ha : g.Agrees) (d : ElementId → Option Fields) (e : ElementId) :
    inputFields (g.marked d) e = (g.inputs e).map fun a => (d a).getD .unknown := by
  rw [inputFields, Graph.incoming_marked, ha.inputs_eq, List.map_map]
  refine List.map_congr_left fun s hs => ?_
  obtain ⟨sc, hsc, -⟩ := ha.mem_incoming.1 hs
  simp [Graph.scope?_marked, hsc, Scope.marked]

/-- Resolving elements of a marked graph is evaluating them, and marking what they put out. -/
theorem resolveEach_marked (ha : g.Agrees) (l : List ElementId) (d : ElementId → Option Fields) :
    resolveEach l (g.marked d) =
      ((evaluate g l d).1.mapError .fields, g.marked (evaluate g l d).2) := by
  induction l generalizing d with
  | nil => rfl
  | cons e rest ih =>
    rw [resolveEach, evaluate_cons, Graph.element?_marked]
    cases hx : g.element? e with
    | none => exact ih d
    | some x =>
      simp only [Option.map_some, Element.name_marked, inputFields_marked ha,
        outputFields_alike (x.alike_marked (d e))]
      cases outputFields x.name x.kind ((g.inputs e).map fun a => (d a).getD .unknown) with
      | error err => rfl
      | ok out =>
        dsimp only
        rw [Graph.label_marked ha, ih]

/-- Evaluation looks at the graph past its marks. -/
theorem evaluate_of_relabels (h : g.Relabels g') (ha : g.Agrees) (l : List ElementId)
    (d : ElementId → Option Fields) : evaluate g' l d = evaluate g l d := by
  induction l generalizing d with
  | nil => rfl
  | cons e rest ih =>
    rw [evaluate_cons, evaluate_cons, h.inputs ha]
    cases hx : g.element? e with
    | none =>
      have hx' : g'.element? e = none := by
        cases hx' : g'.element? e with
        | none => rfl
        | some x' =>
          obtain ⟨x, hx'', -⟩ := h.element_from e x' hx'
          rw [hx] at hx''
          cases hx''
      rw [hx']
      exact ih d
    | some x =>
      obtain ⟨x', hx', hn, hk⟩ := h.element_to e x hx
      simp only [hx', hn, outputFields_alike hk, ih]

end Resolution

namespace Graph

variable {g : Graph}

/-- Where there is an order, resolution evaluates along it, whatever the graph was marked with. -/
theorem resolveFields_eq (ha : g.Agrees) {l : List ElementId} (hl : g.topology.order = .ok l) :
    g.resolveFields = ((evaluate g l fun _ => none).1.mapError .fields,
      g.marked (evaluate g l fun _ => none).2) := by
  rw [resolveFields, hl]
  dsimp only
  rw [clearFields_eq, resolveEach_marked ha]

/-- Resolving again changes nothing, and ends in the same way. -/
theorem resolveFields_twice (ha : g.Agrees) :
    g.resolveFields.2.resolveFields = g.resolveFields := by
  cases hl : g.topology.order with
  | error e =>
    have hfail : g.resolveFields = (.error (.cycle e), g) := by rw [resolveFields, hl]
    rw [hfail, hfail]
  | ok l =>
    rw [resolveFields_eq ha hl]
    generalize hev : evaluate g l (fun _ => none) = ev
    have hrel := relabels_marked g ev.2
    have hl' : (g.marked ev.2).topology.order = .ok l := by rw [topology_marked, hl]
    rw [resolveFields_eq (hrel.agrees ha) hl', evaluate_of_relabels hrel ha, hev,
      marked_marked fun _ => id]

end Graph
end Dataflow
