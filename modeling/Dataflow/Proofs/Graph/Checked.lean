import Dataflow.Graph.Checked
import Dataflow.Proofs.Graph.Splicing

/-!
# References that resolve

Where the adjacency lists agree with the scopes, an edit that is given live ids finds
only live ones on its way, so behind the checks it is the edit without them. In a loop
over an adjacency list the scopes still to come stay live: each step changes the scope
at hand alone, and a list holds no scope twice.

Results:

* `foldlM_eq_ok`: a checked loop whose steps all go through;
* `addStage_eq_ok`, `removeElement_eq_ok`, `insertAfter_eq_ok`, `replaceElement_eq_ok`,
  `removePassThrough_eq_ok` and the like: each checked edit as the edit itself.
-/
namespace Dataflow
namespace Graph
namespace Checked

variable {g : Graph}

theorem within_eq_ok {bound : Nat} {ids : List ElementId} (h : ∀ id ∈ ids, id < bound) :
    within bound ids = .ok () := by
  have hnone : (ids.find? fun id => decide (bound ≤ id)) = none :=
    List.find?_eq_none.2 fun id hid => by simpa using h id hid
  rw [within, hnone]

theorem modifyNode_eq_ok {id : ElementId} {f : Node → Node} (h : id < g.size) :
    modifyNode g id f = .ok (g.modifyNode id f) := by
  rw [modifyNode, within_eq_ok (by simpa using h)]
  rfl

theorem scope_eq_ok {s : ScopeId} {sc : Scope} (h : g.scope? s = some sc) :
    g.scope s = .ok sc := by
  rw [scope, h]

theorem containsScope_iff {s : ScopeId} :
    g.containsScope s = true ↔ ∃ sc, g.scope? s = some sc := Option.isSome_iff_exists

/-- Steps that go through one after the other make a loop that goes through. `P` says
what holds of the graph and of the scopes that are still to come. -/
theorem foldlM_eq_ok {f : Graph → ScopeId → Except DeadRef Graph} {f' : Graph → ScopeId → Graph}
    {P : Graph → List ScopeId → Prop}
    (hf : ∀ g s rest, P g (s :: rest) → f g s = .ok (f' g s) ∧ P (f' g s) rest)
    (l : List ScopeId) {g : Graph} (h : P g l) : l.foldlM f g = .ok (l.foldl f' g) := by
  induction l generalizing g with
  | nil => rfl
  | cons s rest ih =>
    obtain ⟨hok, hrest⟩ := hf g s rest h
    rw [List.foldlM_cons, hok]
    exact ih hrest

/-! ## Additions -/

theorem incoming_eq_ok (h : g.Agrees) (id : ElementId) : incoming g id = .ok (g.incoming id) := by
  have hnone : ((g.arrivals id).find? fun s => !g.containsScope s) = none := by
    refine List.find?_eq_none.2 fun s hs => ?_
    obtain ⟨sc, hsc, -⟩ := (h.arrivals_iff id s).1 hs
    simp [containsScope_iff.2 ⟨sc, hsc⟩]
  rw [incoming, hnone]

theorem addScope_eq_ok {o t : ElementId} {k : Nat} (ho : o < g.size) (ht : t < g.size) :
    addScope g o t k = .ok (g.addScope o t k) := by
  have hsize : ∀ scopes, ({ g with scopes := scopes } : Graph).size = g.size := fun _ => rfl
  simp only [addScope]
  rw [modifyNode_eq_ok (by rw [hsize]; exact ho)]
  simp only [bind, Except.bind]
  rw [modifyNode_eq_ok (by rw [size_modifyNode, hsize]; exact ht)]
  rfl

theorem connect_eq_ok (h : g.Agrees) {o t : ElementId} (ho : o < g.size) (ht : t < g.size) :
    connect g o t = .ok (g.connect o t) := by
  rw [connect, incoming_eq_ok h]
  exact addScope_eq_ok ho ht

theorem addSource_eq_ok (hhead : head < g.size) (name : String) (tap : Tap) :
    addSource g name tap = .ok (g.addSource name tap) := by
  have hadd := addScope_eq_ok (g := (g.addElement ⟨name, .source tap⟩).2) (k := 0)
    (show head < _ by simpa using Nat.lt_succ_of_lt hhead) (show g.size < _ by simp)
  show (do let p ← addScope (g.addElement ⟨name, .source tap⟩).2 head g.size 0
           return (g.size, p.2)) = _
  rw [hadd]
  rfl

theorem addSink_eq_ok (htail : tail < g.size) (name : String) (tap : Tap) {input : ElementId}
    (hinput : input < g.size) : addSink g name tap input = .ok (g.addSink name tap input) := by
  have hin := addScope_eq_ok (g := (g.addElement ⟨name, .sink tap⟩).2) (k := 0)
    (show input < _ by simpa using Nat.lt_succ_of_lt hinput) (show g.size < _ by simp)
  have hout := addScope_eq_ok (k := 0)
    (g := ((g.addElement ⟨name, .sink tap⟩).2.addScope input g.size 0).2)
    (show g.size < _ by simp) (show tail < _ by simpa using Nat.lt_succ_of_lt htail)
  show (do let p ← addScope (g.addElement ⟨name, .sink tap⟩).2 input g.size 0
           let q ← addScope p.2 g.size tail 0
           return (g.size, q.2)) = _
  rw [hin]
  simp only [bind, Except.bind]
  rw [hout]
  rfl

theorem addInputs_eq_ok {id : ElementId} {inputs : List ElementId} (hid : id < g.size)
    (hinputs : ∀ e ∈ inputs, e < g.size) :
    addInputs g id inputs = .ok (g.addInputs id inputs) := by
  have hloop : ∀ (l : List (ElementId × Nat)) (g : Graph), id < g.size →
      (∀ p ∈ l, p.1 < g.size) →
      l.foldlM (fun g p => do
        let q ← addScope g p.1 id p.2
        return q.2) g =
        .ok (l.foldl (fun g p => (g.addScope p.1 id p.2).2) g) := by
    intro l
    induction l with
    | nil => intro g _ _; rfl
    | cons p rest ih =>
      intro g hid hl
      rw [List.foldlM_cons, List.foldl_cons]
      have hadd := addScope_eq_ok (k := p.2) (hl p List.mem_cons_self) hid
      simp only [hadd, bind, Except.bind, pure, Except.pure]
      exact ih _ (by rw [size_addScope]; exact hid) fun q hq => by
        rw [size_addScope]; exact hl q (List.mem_cons_of_mem p hq)
  refine hloop inputs.zipIdx g hid fun p hp => hinputs p.1 ?_
  exact List.fst_mem_of_mem_zipIdx hp

theorem addStage_eq_ok (name : String) (kind : Kind) {inputs : List ElementId}
    (hinputs : ∀ e ∈ inputs, e < g.size) :
    addStage g name kind inputs = .ok (g.addStage name kind inputs) := by
  have hadd : addInputs (g.addElement ⟨name, kind⟩).2 g.size inputs = .ok _ :=
    addInputs_eq_ok (by simp) fun e he => by simpa using Nat.lt_succ_of_lt (hinputs e he)
  show (do let g' ← addInputs (g.addElement ⟨name, kind⟩).2 g.size inputs
           return (g.size, g')) = _
  rw [hadd]
  rfl

/-! ## Removals -/

theorem removeScope_eq_ok (h : g.Agrees) (s : ScopeId) :
    removeScope g s = .ok (g.removeScope s) := by
  cases hsc : g.scope? s with
  | none => simp only [removeScope, Graph.removeScope, hsc]
  | some sc =>
    have hsize : ∀ o, (g.setScope s o).size = g.size := fun _ => rfl
    simp only [removeScope, Graph.removeScope, hsc]
    rw [modifyNode_eq_ok (by rw [hsize]; exact h.origin_lt hsc)]
    simp only [bind, Except.bind]
    rw [modifyNode_eq_ok (by rw [size_modifyNode, hsize]; exact h.target_lt hsc)]
    rfl

theorem removeScopes_eq_ok (h : g.Agrees) (ids : List ScopeId) :
    removeScopes g ids = .ok (g.removeScopes ids) := by
  refine foldlM_eq_ok (P := fun g _ => g.Agrees) (fun g s _ h => ⟨?_, agrees_removeScope h s⟩) ids h
  rw [removeScope_eq_ok h]
  rfl

theorem removeElement_eq_ok (h : g.Agrees) (id : ElementId) :
    removeElement g id = .ok (g.removeElement id) := by
  cases he : g.element? id with
  | none => simp only [removeElement, Graph.removeElement, he]
  | some e =>
    have hlt : id < g.size := lt_size_of_contains (Option.isSome_iff_exists.2 ⟨e, he⟩)
    simp only [removeElement, Graph.removeElement, he]
    rw [removeScopes_eq_ok h]
    simp only [bind, Except.bind]
    rw [modifyNode_eq_ok (by rw [size_removeScopes]; exact hlt)]
    rfl

/-! ## Rewirings -/

theorem retarget_eq_ok (h : g.Agrees) {s : ScopeId} (hs : g.containsScope s = true)
    {t : ElementId} (k : Nat) (ht : t < g.size) :
    retarget g s t k = .ok (g.retarget s t k) := by
  obtain ⟨sc, hsc⟩ := containsScope_iff.1 hs
  simp only [retarget, Graph.retarget, scope_eq_ok hsc, hsc, bind, Except.bind]
  rw [modifyNode_eq_ok (h.target_lt hsc)]
  simp only
  rw [modifyNode_eq_ok (by rw [size_modifyNode]; exact ht)]
  rfl

theorem reorigin_eq_ok (h : g.Agrees) {s : ScopeId} (hs : g.containsScope s = true)
    {o : ElementId} (ho : o < g.size) : reorigin g s o = .ok (g.reorigin s o) := by
  obtain ⟨sc, hsc⟩ := containsScope_iff.1 hs
  simp only [reorigin, Graph.reorigin, scope_eq_ok hsc, hsc, bind, Except.bind]
  rw [modifyNode_eq_ok (h.origin_lt hsc)]
  simp only
  rw [modifyNode_eq_ok (by rw [size_modifyNode]; exact ho)]
  rfl

/-- What a loop over an adjacency list relies on: the lists agree, no scope comes twice
and those still to come are live. -/
structure Ready (n : Nat) (g : Graph) (l : List ScopeId) : Prop where
  size : g.size = n
  agrees : g.Agrees
  nodup : l.Nodup
  live : ∀ s ∈ l, g.containsScope s = true

/-- A step that leaves the later scopes alone leaves the loop ready. -/
theorem Ready.step {n : Nat} {s : ScopeId} {rest : List ScopeId} (h : Ready n g (s :: rest))
    {g' : Graph} (hsize : g'.size = g.size) (ha : g'.Agrees)
    (hother : ∀ t, t ≠ s → g'.scope? t = g.scope? t) : Ready n g' rest := by
  obtain ⟨hs, hrest⟩ := List.nodup_cons.1 h.nodup
  refine ⟨hsize.trans h.size, ha, hrest, fun t ht => ?_⟩
  have hne : t ≠ s := fun hts => hs (hts ▸ ht)
  rw [containsScope, hother t hne]
  exact h.live t (List.mem_cons_of_mem s ht)

theorem ready_outgoing (h : g.Agrees) (id : ElementId) : Ready g.size g (g.outgoing id) :=
  ⟨rfl, h, h.outgoing_nodup id, fun s hs => by
    obtain ⟨sc, hsc, -⟩ := (h.outgoing_iff id s).1 hs
    exact containsScope_iff.2 ⟨sc, hsc⟩⟩

theorem ready_arrivals (h : g.Agrees) (id : ElementId) : Ready g.size g (g.arrivals id) :=
  ⟨rfl, h, h.arrivals_nodup id, fun s hs => by
    obtain ⟨sc, hsc, -⟩ := (h.arrivals_iff id s).1 hs
    exact containsScope_iff.2 ⟨sc, hsc⟩⟩

theorem moveOutgoing_eq_ok (h : g.Agrees) {id o : ElementId} (hid : id < g.size)
    (ho : o < g.size) : moveOutgoing g id o = .ok (g.moveOutgoing id o) := by
  rw [moveOutgoing, within_eq_ok (by simpa using hid)]
  refine foldlM_eq_ok (P := Ready g.size) (fun g' s rest hr => ?_) _ (ready_outgoing h id)
  have ho' : o < g'.size := hr.size.symm ▸ ho
  refine ⟨reorigin_eq_ok hr.agrees (hr.live s List.mem_cons_self) ho', ?_⟩
  exact hr.step (size_reorigin s o) (agrees_reorigin hr.agrees s ho') fun t ht => by
    rw [scope?_reorigin, if_neg ht]

theorem insertAfter_eq_ok (h : g.Agrees) {id : ElementId} (hid : id < g.size) (e : Element) :
    insertAfter g id e = .ok (g.insertAfter id e) := by
  have hid' : id < (g.addElement e).2.size := by simpa using Nat.lt_succ_of_lt hid
  have hnew : g.size < (g.addElement e).2.size := by simp
  have hsize := (samePlaces_moveOutgoing (g.addElement e).2 id g.size).size
  have hadd := addScope_eq_ok (g := (g.addElement e).2.moveOutgoing id g.size) (k := 0)
    (by rw [hsize]; exact hid') (by rw [hsize]; exact hnew)
  show (do let g' ← moveOutgoing (g.addElement e).2 id g.size
           let p ← addScope g' id g.size 0
           return (g.size, p.2)) = _
  rw [moveOutgoing_eq_ok (agrees_addElement h e) hid' hnew]
  simp only [bind, Except.bind]
  rw [hadd]
  rfl

theorem insertOnScope_eq_ok (h : g.Agrees) {s : ScopeId} (hs : g.containsScope s = true)
    (e : Element) : insertOnScope g s e = .ok (g.insertOnScope s e) := by
  obtain ⟨sc, hsc⟩ := containsScope_iff.1 hs
  have hnew : g.size < (g.addElement e).2.size := by simp
  have hsize := size_retarget (g := (g.addElement e).2) s g.size 0
  have hadd := addScope_eq_ok (g := (g.addElement e).2.retarget s g.size 0) (k := sc.ordinal)
    (by rw [hsize]; exact hnew)
    (show sc.target < _ by rw [hsize, size_addElement]; exact Nat.lt_succ_of_lt (h.target_lt hsc))
  rw [insertOnScope, scope_eq_ok hsc]
  show (do let g' ← retarget (g.addElement e).2 s g.size 0
           let p ← addScope g' g.size sc.target sc.ordinal
           return (g.size, p.2)) = _
  rw [retarget_eq_ok (agrees_addElement h e) hs 0 hnew]
  simp only [bind, Except.bind]
  rw [hadd]
  simp only [Graph.insertOnScope, hsc]
  rfl

theorem spliceInput_eq_ok (h : g.Agrees) {w : ElementId} (hw : w < g.size) {s : ScopeId}
    (hs : g.containsScope s = true) : spliceInput w g s = .ok (g.spliceInput w s) := by
  obtain ⟨sc, hsc⟩ := containsScope_iff.1 hs
  simp only [spliceInput, Graph.spliceInput, scope_eq_ok hsc, hsc, bind, Except.bind]
  split
  · rw [removeScope_eq_ok h]
    rfl
  · exact retarget_eq_ok h hs _ hw

theorem spliceOutput_eq_ok (h : g.Agrees) {w : ElementId} (hw : w < g.size) {s : ScopeId}
    (hs : g.containsScope s = true) : spliceOutput w g s = .ok (Graph.spliceOutput w g s) := by
  obtain ⟨sc, hsc⟩ := containsScope_iff.1 hs
  simp only [spliceOutput, Graph.spliceOutput, scope_eq_ok hsc, hsc, bind, Except.bind]
  split
  · rw [removeScope_eq_ok h]
    rfl
  · exact reorigin_eq_ok h hs hw

/-- The second pass reads the outputs from what the first one left. -/
theorem replaceElement_eq_ok (h : g.Agrees) {old w : ElementId} (hold : old < g.size)
    (hw : w < g.size) : replaceElement g old w = .ok (g.replaceElement old w) := by
  have p1 := samePlaces_withInputsSpliced g old w
  have h1 := agrees_withInputsSpliced h old hw
  have hw1 : w < (g.withInputsSpliced old w).size := p1.size.symm ▸ hw
  have h2 := agrees_withOutputsSpliced h1 old hw1
  have hin : (g.arrivals old).foldlM (spliceInput w) g = .ok (g.withInputsSpliced old w) := by
    refine foldlM_eq_ok (P := Ready g.size) (fun g' s rest hr => ?_) _ (ready_arrivals h old)
    have hw' : w < g'.size := hr.size.symm ▸ hw
    refine ⟨spliceInput_eq_ok hr.agrees hw' (hr.live s List.mem_cons_self), ?_⟩
    exact hr.step (samePlaces_spliceInput w g' s).size (agrees_spliceInput hr.agrees hw' s)
      fun t ht => by rw [scope?_spliceInput, if_neg ht]
  have hout : ((g.withInputsSpliced old w).outgoing old).foldlM (spliceOutput w)
      (g.withInputsSpliced old w) = .ok ((g.withInputsSpliced old w).withOutputsSpliced old w) := by
    refine foldlM_eq_ok (P := Ready (g.withInputsSpliced old w).size) (fun g' s rest hr => ?_) _
      (ready_outgoing h1 old)
    have hw' : w < g'.size := hr.size.symm ▸ hw1
    refine ⟨spliceOutput_eq_ok hr.agrees hw' (hr.live s List.mem_cons_self), ?_⟩
    exact hr.step (samePlaces_spliceOutput w g' s).size (agrees_spliceOutput hr.agrees hw' s)
      fun t ht => by rw [scope?_spliceOutput, if_neg ht]
  rw [replaceElement, within_eq_ok (by simpa using hold)]
  simp only [bind, Except.bind]
  rw [hin]
  simp only
  rw [hout]
  simp only
  rw [removeElement_eq_ok h2]
  rfl

theorem removePassThrough_eq_ok (h : g.Agrees) {id : ElementId} (hid : id < g.size) :
    removePassThrough g id = .ok (g.removePassThrough id) := by
  rw [removePassThrough, within_eq_ok (by simpa using hid)]
  simp only [bind, Except.bind]
  split
  · next input hin =>
    obtain ⟨sc, hsc, -⟩ := (h.arrivals_iff id input).1 (by rw [hin]; exact List.mem_cons_self)
    have ho := h.origin_lt hsc
    simp only [scope_eq_ok hsc, Graph.removePassThrough, hin, hsc]
    rw [moveOutgoing_eq_ok h hid ho]
    simp only
    rw [removeElement_eq_ok (agrees_moveOutgoing h id ho)]
    rfl
  · next hne =>
    unfold Graph.removePassThrough
    split
    · next input hin => exact absurd hin (hne input)
    · rfl

end Checked
end Graph
end Dataflow
