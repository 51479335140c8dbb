import Mathlib
import Dataflow.Proofs.Success
import Dataflow.Proofs.Resolution.Marking

/-!
# Unknown fields only weaken the checks

Unknown fields say nothing, so they stand below all others: `f ≤ f'` if `f` is unknown or the
same as `f'`. What an element puts out is monotone in what it receives. Where it accepts its
inputs, it accepts inputs that say less, and what it puts out then says no more. So a graph
whose sources have forgotten their fields is resolved wherever the graph itself is.

Results:

* `outputFields_weakens`: one element, of whichever kind;
* `evaluate_weakens`: any list of elements, one after the other;
* `forget_weakens`: resolution as a whole.
-/
namespace Dataflow

namespace Fields

variable {f f' : Fields}

/-- How much is said about the fields: unknown ones are below every other. -/
instance : LE Fields := ⟨fun f f' => f = unknown ∨ f = f'⟩

@[simp] theorem unknown_le (f : Fields) : unknown ≤ f := .inl rfl

@[simp] theorem le_refl (f : Fields) : f ≤ f := .inr rfl

theorem eq_of_le (hle : f ≤ f') (hk : f.isKnown = true) : f = f' := by
  rcases hle with rfl | rfl
  · cases hk
  · rfl

theorem missing_of_le (hle : f ≤ f') {selector : Fields} (hm : f'.missing selector = []) :
    f.missing selector = [] := by
  rcases hle with rfl | rfl
  · rfl
  · exact hm

theorem subtract_le (hle : f ≤ f') (k : Fields) : f.subtract k ≤ f'.subtract k := by
  rcases hle with rfl | rfl
  · exact unknown_le _
  · exact le_refl _

end Fields

namespace Resolution

open Fields

variable {ε ε' : Type} {f f' : Fields} {l l' : List Fields} {name : String}

/-- Where `x'` succeeds so does `x`, with fields that say no more. -/
def Weakens (x x' : Except ε Fields) : Prop := ∀ f', x' = .ok f' → ∃ f, x = .ok f ∧ f ≤ f'

namespace Weakens

theorem ok (hle : f ≤ f') : Weakens (.ok f : Except ε Fields) (.ok f') := by
  rintro _ ⟨⟩
  exact ⟨f, rfl, hle⟩

theorem mapError {x x' : Except ε Fields} (h : Weakens x x') (wrap : ε → ε') :
    Weakens (x.mapError wrap) (x'.mapError wrap) := by
  intro f' hf'
  obtain ⟨f, hf, hle⟩ := h f' (mapError_eq_ok.1 hf')
  exact ⟨f, mapError_eq_ok.2 hf, hle⟩

/-- A check that still passes comes before. -/
theorem after {check check' : Except ε Unit} {x x' : Except ε Fields}
    (hcheck : check' = .ok () → check = .ok ()) (h : Weakens x x') :
    Weakens (check >>= fun _ => x) (check' >>= fun _ => x') := by
  intro f' hf'
  obtain ⟨⟨⟩, hc, hx⟩ := bind_eq_ok.1 hf'
  obtain ⟨f, hf, hle⟩ := h f' hx
  exact ⟨f, bind_eq_ok.2 ⟨(), hcheck hc, hf⟩, hle⟩

end Weakens

/-! ## The steps of an output -/

theorem headD_le (h : List.Forall₂ (· ≤ ·) l l') : l.headD .unknown ≤ l'.headD .unknown := by
  cases h with
  | nil => exact le_refl _
  | cons hle _ => exact hle

theorem require_of_le (hle : f ≤ f') {error : List String → FieldError} {selector : Fields}
    (h : require error f' selector = .ok ()) : require error f selector = .ok () := by
  unfold require at h ⊢
  cases hm : f'.missing selector with
  | nil => rw [missing_of_le hle hm]
  | cons name rest => rw [hm] at h; cases h

theorem checkKeys_of_le {keys : Fields} (h : List.Forall₂ (· ≤ ·) l l')
    (hok : checkKeys name keys l' = .ok ()) : checkKeys name keys l = .ok () := by
  induction h with
  | nil => rfl
  | cons hle _ ih =>
    obtain ⟨⟨⟩, hreq, hrest⟩ := bind_eq_ok.1 hok
    exact bind_eq_ok.2 ⟨(), require_of_le hle hreq, ih hrest⟩

theorem append?_weakens {k k' : Fields} (hf : f ≤ f') (hk : k ≤ k') :
    Weakens (f.append? k) (f'.append? k') := by
  rcases hf with rfl | rfl
  · exact fun f' _ => ⟨.unknown, rfl, unknown_le _⟩
  · rcases hk with rfl | rfl
    · refine fun f' _ => ⟨.unknown, ?_, unknown_le _⟩
      cases f <;> rfl
    · exact fun f' hf' => ⟨f', hf', le_refl _⟩

theorem concatenated_weakens (h : List.Forall₂ (· ≤ ·) l l') (hf : f ≤ f') :
    Weakens (concatenated f l) (concatenated f' l') := by
  induction h generalizing f f' with
  | nil => exact .ok hf
  | @cons a a' rest rest' ha _ ih =>
    intro r' hr'
    rw [concatenated] at hr' ⊢
    cases happ : f'.append? a' with
    | error e => rw [happ] at hr'; cases hr'
    | ok j' =>
      rw [happ] at hr'
      obtain ⟨j, hj, hle⟩ := append?_weakens hf ha j' happ
      rw [hj]
      exact ih hle r' hr'

/-- The layout that is agreed on so far stays below, and so does the one that is agreed on in
the end: where the first known input of the one list is later than that of the other, those
before it are unknown, and it has the layout that the other list has agreed on. -/
theorem agreedFrom_weakens (h : List.Forall₂ (· ≤ ·) l l') (hf : f ≤ f') (position : Nat) :
    Weakens (agreedFrom name position f l) (agreedFrom name position f' l') := by
  induction h generalizing f f' position with
  | nil => exact .ok hf
  | @cons a a' rest rest' ha _ ih =>
    unfold agreedFrom
    cases a' with
    | unknown =>
      obtain rfl : a = .unknown := by rcases ha with rfl | rfl <;> rfl
      exact ih hf _
    | known names =>
      cases f' with
      | unknown =>
        obtain rfl : f = .unknown := by rcases hf with rfl | rfl <;> rfl
        rcases ha with rfl | rfl
        · exact ih (unknown_le _) _
        · exact ih (le_refl _) _
      | known layout =>
        intro r' hr'
        by_cases heq : layout = names
        · subst heq
          simp only [isKnown, names?, sameLayout, Option.isSome_some, Bool.not_true,
            Bool.false_eq_true, if_false, beq_self_eq_true, if_true] at hr'
          rcases ha with rfl | rfl
          · exact ih hf _ r' hr'
          · rcases hf with rfl | rfl
            · exact ih (le_refl _) _ r' hr'
            · simpa [isKnown, names?, sameLayout] using ih (le_refl _) _ r' hr'
        · simp [isKnown, names?, sameLayout, heq] at hr'

/-- A total width is one of known inputs, and those are the same. -/
theorem eq_of_totalWidth (h : List.Forall₂ (· ≤ ·) l l') {n : Nat} (hn : totalWidth l = some n) :
    l = l' := by
  induction h generalizing n with
  | nil => rfl
  | @cons a a' rest rest' ha _ ih =>
    cases a with
    | unknown => cases hn
    | known names =>
      cases hrest : totalWidth rest with
      | none => simp [totalWidth, hrest] at hn
      | some m => rw [eq_of_le ha rfl, ih hrest]

/-! ## Elements -/

theorem joined_weakens (j : Join) (h : List.Forall₂ (· ≤ ·) l l') :
    Weakens (joined name j l) (joined name j l') := by
  refine Weakens.after (checkKeys_of_le h) ?_
  by_cases hdefer : j.defers = true
  · simp only [hdefer, if_true]
    exact .ok (le_refl _)
  simp only [hdefer, Bool.false_eq_true, if_false]
  cases j.declared with
  | none => exact (concatenated_weakens h (le_refl _)).mapError _
  | some declared =>
    dsimp only
    cases hn : totalWidth l with
    | some n =>
      rw [← eq_of_totalWidth h hn, hn]
      exact fun f' hf' => ⟨f', hf', le_refl _⟩
    | none =>
      -- one input is not known, and the width that is declared is not looked at
      intro f' hf'
      refine ⟨declared, rfl, .inr ?_⟩
      split at hf'
      · split at hf'
        · exact Except.ok.inj hf'
        · cases hf'
      · exact Except.ok.inj hf'

/-- What an operation makes of an input that has its arguments. -/
def transformed (name : String) (op : Operation) (input : Fields) : Except FieldError Fields :=
  if op.role = .filter ∨ op.role = .assertion then .ok input
  else match op.output with
    | .results => .ok op.declared
    | .all => (input.append? op.declared).mapError (.duplicateOutput name)
    | .swap => ((op.arguments.elim .none input.subtract).append? op.declared).mapError
        (.duplicateOutput name)

theorem operated_eq (op : Operation) (input : Fields) : operated name op input =
    op.arguments.elim (.ok ()) (require (.missingArguments name) input) >>= fun _ =>
      transformed name op input := by
  unfold operated transformed
  cases op.arguments <;> rfl

theorem transformed_weakens (op : Operation) (hle : f ≤ f') :
    Weakens (transformed name op f) (transformed name op f') := by
  unfold transformed
  split
  · exact .ok hle
  · cases op.output with
    | results => exact .ok (le_refl _)
    | all => exact (append?_weakens hle (le_refl _)).mapError _
    | swap =>
      refine (append?_weakens ?_ (le_refl _)).mapError _
      cases op.arguments with
      | none => exact le_refl _
      | some arguments => exact subtract_le hle arguments

theorem operated_weakens (op : Operation) (hle : f ≤ f') :
    Weakens (operated name op f) (operated name op f') := by
  rw [operated_eq, operated_eq]
  refine Weakens.after (fun hok => ?_) (transformed_weakens op hle)
  cases hargs : op.arguments with
  | none => rfl
  | some arguments =>
    rw [hargs] at hok
    exact require_of_le hle hok

theorem written_weakens (tap : Tap) (hle : f ≤ f') :
    Weakens (written name tap f) (written name tap f') := by
  refine Weakens.after (require_of_le hle) ?_
  split
  · exact .ok (le_refl _)
  · exact .ok hle

/-- An element accepts inputs that say less, and what it puts out then says no more. -/
theorem outputFields_weakens (k : Kind) (h : List.Forall₂ (· ≤ ·) l l') :
    Weakens (outputFields name k l) (outputFields name k l') := by
  cases k with
  | extent _ => exact .ok (le_refl _)
  | source _ => exact .ok (le_refl _)
  | sink tap => exact written_weakens tap (headD_le h)
  | boundary _ => exact .ok (headD_le h)
  | pipe => exact .ok (headD_le h)
  | each op => exact operated_weakens op (headD_le h)
  | every op => exact operated_weakens op (headD_le h)
  | merge => exact agreedFrom_weakens h (le_refl _) 0
  | group kind j =>
    cases kind with
    | groupBy =>
      exact Weakens.after (checkKeys_of_le h) (agreedFrom_weakens h (le_refl _) 0)
    | coGroup => exact joined_weakens j h
  | hashJoin j => exact joined_weakens j h

end Resolution

/-! ## Graphs -/

/-- The kind with unknown fields, if it is a source that is picked. -/
def Kind.forget (picked : Bool) : Kind → Kind
  | .source t => .source { t with fields := if picked then .unknown else t.fields }
  | k => k

def Element.forget (picked : Bool) (x : Element) : Element :=
  { x with kind := x.kind.forget picked }

def Node.forget (picked : Bool) (n : Node) : Node :=
  { n with element := n.element.map (Element.forget picked) }

namespace Graph

variable {g : Graph} {picks : ElementId → Bool}

/-- The graph with unknown fields at the sources that are picked. -/
def forget (g : Graph) (picks : ElementId → Bool) : Graph :=
  { g with nodes := g.nodes.mapIdx fun e => Node.forget (picks e) }

theorem getElem?_nodes_forget (e : ElementId) :
    (g.forget picks).nodes[e]? = g.nodes[e]?.map (Node.forget (picks e)) :=
  List.getElem?_mapIdx

theorem size_forget : (g.forget picks).size = g.size := List.length_mapIdx

theorem element?_forget (e : ElementId) :
    (g.forget picks).element? e = (g.element? e).map (Element.forget (picks e)) := by
  simp only [element?, getElem?_nodes_forget]
  cases g.nodes[e]? <;> rfl

theorem outgoing_forget (e : ElementId) : (g.forget picks).outgoing e = g.outgoing e := by
  simp only [outgoing, getElem?_nodes_forget]
  cases g.nodes[e]? <;> rfl

theorem arrivals_forget (e : ElementId) : (g.forget picks).arrivals e = g.arrivals e := by
  simp only [arrivals, getElem?_nodes_forget]
  cases g.nodes[e]? <;> rfl

theorem agrees_forget (ha : g.Agrees) : (g.forget picks).Agrees where
  outgoing_iff e s := by rw [outgoing_forget]; exact ha.outgoing_iff e s
  arrivals_iff e s := by rw [arrivals_forget]; exact ha.arrivals_iff e s
  outgoing_nodup e := by rw [outgoing_forget]; exact ha.outgoing_nodup e
  arrivals_nodup e := by rw [arrivals_forget]; exact ha.arrivals_nodup e

theorem edgesIn_forget (e : ElementId) : (g.forget picks).edgesIn e = g.edgesIn e := by
  rw [edgesIn, incoming, arrivals_forget]
  rfl

/-- A traversal does not see what sources declare. -/
theorem topology_forget : (g.forget picks).topology = g.topology := by
  refine topology_congr size_forget (fun e => ?_) (fun e => ?_) edgesIn_forget
  · rw [contains, element?_forget, Option.isSome_map, contains]
  · rw [edgesOut, outgoing_forget]
    rfl

theorem inputs_forget (e : ElementId) : (g.forget picks).inputs e = g.inputs e :=
  congrArg (List.map Prod.snd) (edgesIn_forget e)

end Graph

namespace Resolution

variable {g : Graph} {d d' : ElementId → Option Fields}

theorem outputFields_forget (name : String) (k : Kind) (picked : Bool) {l l' : List Fields}
    (h : List.Forall₂ (· ≤ ·) l l') :
    Weakens (outputFields name (k.forget picked) l) (outputFields name k l') := by
  cases k with
  | source t =>
    refine .ok ?_
    dsimp only
    split
    · exact Fields.unknown_le _
    · exact Fields.le_refl _
  | _ => exact outputFields_weakens _ h

theorem getD_le {o o' : Option Fields} (h : Option.Rel (· ≤ ·) o o') :
    o.getD .unknown ≤ o'.getD .unknown := by
  cases h with
  | none => exact Fields.le_refl _
  | some h => exact h

theorem eq_or_unknown {o o' : Option Fields} (h : Option.Rel (· ≤ ·) o o') :
    o = o' ∨ o = some .unknown := by
  rcases h with ⟨rfl | rfl⟩ | _
  · exact .inr rfl
  · exact .inl rfl
  · exact .inl rfl

/-- Elements that are evaluated from less, with sources that say less, put out no more. -/
theorem evaluate_weakens (picks : ElementId → Bool) (l : List ElementId)
    (hd : ∀ e, Option.Rel (· ≤ ·) (d e) (d' e)) (hok : (evaluate g l d').1 = .ok ()) :
    (evaluate (g.forget picks) l d).1 = .ok () ∧ ∀ e, Option.Rel (· ≤ ·)
      ((evaluate (g.forget picks) l d).2 e) ((evaluate g l d').2 e) := by
  induction l generalizing d d' with
  | nil => exact ⟨rfl, hd⟩
  | cons e rest ih =>
    rw [evaluate_cons] at hok
    rw [evaluate_cons, evaluate_cons, Graph.element?_forget, Graph.inputs_forget]
    cases hx : g.element? e with
    | none =>
      rw [hx] at hok
      exact ih hd hok
    | some x =>
      rw [hx] at hok
      dsimp only [Option.map_some] at hok ⊢
      have hin : List.Forall₂ (· ≤ ·) ((g.inputs e).map fun a => (d a).getD .unknown)
          ((g.inputs e).map fun a => (d' a).getD .unknown) := by
        rw [List.forall₂_map_left_iff, List.forall₂_map_right_iff]
        exact List.forall₂_same.2 fun a _ => getD_le (hd a)
      have hout := outputFields_forget x.name x.kind (picks e) hin
      cases hrun : outputFields x.name x.kind ((g.inputs e).map fun a => (d' a).getD .unknown) with
      | error err => rw [hrun] at hok; cases hok
      | ok out' =>
        obtain ⟨out, hrun', hle⟩ := hout out' hrun
        rw [hrun] at hok
        simp only [Element.forget, hrun']
        refine ih (fun a => ?_) hok
        by_cases ha : a = e
        · rw [ha, Function.update_self, Function.update_self]
          exact .some hle
        · rw [Function.update_of_ne ha, Function.update_of_ne ha]
          exact hd a

end Resolution

namespace Graph

open Resolution

variable {g : Graph} {picks : ElementId → Bool}

/-- Marks that say no more leave a scope as it is or with unknown fields. -/
theorem scope?_marked_le {d d' : ElementId → Option Fields}
    (h : ∀ e, Option.Rel (· ≤ ·) (d e) (d' e)) (s : ScopeId) :
    ((g.forget picks).marked d).scope? s = (g.marked d').scope? s ∨
      ((g.forget picks).marked d).scope? s =
        ((g.marked d').scope? s).map fun sc => { sc with fields := some .unknown } := by
  have hsame : (g.forget picks).scope? s = g.scope? s := rfl
  rw [scope?_marked, scope?_marked, hsame]
  cases g.scope? s with
  | none => exact .inl rfl
  | some sc =>
    simp only [Option.map_some, Scope.marked, Option.some.injEq]
    rcases eq_or_unknown (h sc.origin) with hd | hd
    · exact .inl (by rw [hd])
    · exact .inr (by rw [hd])

/-- They leave the tap of a boundary as it is or with unknown fields. -/
theorem kind?_marked_le {d d' : ElementId → Option Fields}
    (h : ∀ e, Option.Rel (· ≤ ·) (d e) (d' e)) {b : ElementId} {t : Tap}
    (ht : (g.marked d').kind? b = some (.boundary t)) :
    ((g.forget picks).marked d).kind? b = some (.boundary t) ∨
      ((g.forget picks).marked d).kind? b = some (.boundary { t with fields := .unknown }) := by
  rw [kind?, element?_marked] at ht
  obtain ⟨x', hx', hk⟩ := Option.map_eq_some_iff.1 ht
  obtain ⟨⟨name, kind⟩, hx, rfl⟩ := Option.map_eq_some_iff.1 hx'
  obtain ⟨t₀, rfl, rfl⟩ := Element.boundary_of_marked hk
  rw [kind?, element?_marked, element?_forget, hx]
  rcases eq_or_unknown (h b) with hd | hd
  · rw [hd]
    cases d' b with
    | none => exact .inl rfl
    | some f => exact .inl rfl
  · rw [hd]
    exact .inr rfl

/-- If a graph is resolved, so is the graph with unknown fields at some of its sources. Every
scope and every boundary tap then carries the same fields or unknown ones. -/
theorem forget_weakens (picks : ElementId → Bool) (ha : g.Agrees)
    (hok : g.resolveFields.1 = .ok ()) :
    (g.forget picks).resolveFields.1 = .ok () ∧
      (∀ s, (g.forget picks).resolveFields.2.scope? s = g.resolveFields.2.scope? s ∨
        (g.forget picks).resolveFields.2.scope? s =
          (g.resolveFields.2.scope? s).map fun sc => { sc with fields := some .unknown }) ∧
      ∀ b t, g.resolveFields.2.kind? b = some (.boundary t) →
        (g.forget picks).resolveFields.2.kind? b = some (.boundary t) ∨
          (g.forget picks).resolveFields.2.kind? b =
            some (.boundary { t with fields := .unknown }) := by
  cases hl : g.topology.order with
  | error e => rw [resolveFields, hl] at hok; cases hok
  | ok l =>
    have hl' : (g.forget picks).topology.order = .ok l := by rw [topology_forget, hl]
    rw [resolveFields_eq ha hl] at hok
    rw [resolveFields_eq (agrees_forget ha) hl', resolveFields_eq ha hl]
    have heval : (evaluate g l fun _ => none).1 = .ok () := mapError_eq_ok.1 hok
    obtain ⟨hok', hle⟩ := evaluate_weakens picks l (fun _ => Option.Rel.none) heval
    exact ⟨mapError_eq_ok.2 hok', scope?_marked_le hle, fun b t ht => kind?_marked_le hle ht⟩

/-- Two sources of the same fields, and a merge that hands them on. -/
def paired : Graph :=
  let g := ((empty "paired").addElement ⟨"a", .source ⟨"file", "a", .known ["id"], true⟩⟩).2
  let g := (g.addElement ⟨"b", .source ⟨"file", "b", .known ["id"], true⟩⟩).2
  let g := (g.addElement ⟨"m", .merge⟩).2
  (((g.addScope 2 4 0).2.addScope 3 4 1).2.addScope 4 1 0).2

theorem agrees_paired : paired.Agrees := by
  refine agrees_addScope (agrees_addScope (agrees_addScope ?_ ?_ ?_) ?_ ?_) ?_ ?_
  · exact agrees_addElement (agrees_addElement (agrees_addElement (agrees_empty _) _) _) _
  all_goals decide

/-- Without the fields of one source, the merge takes those of the other. -/
theorem paired_forgets : paired.resolveFields.1 = .ok () ∧
    (paired.forget (· == 2)).resolveFields.1 = .ok () ∧
    ((paired.forget (· == 2)).resolveFields.2.scope? 0).bind Scope.fields = some .unknown ∧
    (paired.forget (· == 2)).resolveFields.2.scope? 2 = paired.resolveFields.2.scope? 2 := by
  have hok : paired.resolveFields.1 = .ok () := by cbv
  obtain ⟨hok', hscopes, -⟩ := forget_weakens (· == 2) agrees_paired hok
  refine ⟨hok, hok', by cbv, (hscopes 2).resolve_right fun hunknown => ?_⟩
  have hknown : ((paired.forget (· == 2)).resolveFields.2.scope? 2).bind Scope.fields =
      some (.known ["id"]) := by cbv
  rw [hunknown] at hknown
  cases hsc : paired.resolveFields.2.scope? 2 with
  | none => rw [hsc] at hknown; cases hknown
  | some sc => rw [hsc] at hknown; cases hknown

end Graph
end Dataflow
