import Dataflow.Definition.Build
import Dataflow.Proofs.Fields

/-!
# The checks of a stage

Converting a stage is checking it and then writing it down: nothing that the checks look at
decides what is written. So what a stage becomes is one function, whatever its kind, and what
can be wrong with it is said by the check that finds it first.

Results:

* `elementKind_eq`: converting a stage, as two checks and what is written down;
* `check_eq_ok_iff`, `check_eq_error_iff`: when a stage passes, and what is reported otherwise;
* `elementsOf_eq_ok_iff`, `elementsOf_eq_error_iff`: the same for a list of stages, of which the
  first that does not pass is reported.
-/
namespace Dataflow

/-! ## What is written down -/

def TapDef.tap (d : TapDef) : Tap :=
  ⟨d.scheme, d.identifier, d.fields.elim .unknown .known, d.symmetrical⟩

def OperationDef.operationWith (d : OperationDef) (usual : Role) : Operation :=
  ⟨d.operation, d.role.getD usual, d.arguments.map .known, .known d.declared, d.output⟩

def JoinDef.join (d : JoinDef) : Join := ⟨.known d.keys, d.joiner, d.declared.map .known⟩

namespace StageKind

/-- The kind of element that a stage becomes. -/
def written : StageKind → Kind
  | source d => .source d.tap
  | sink d => .sink d.tap
  | pipe => .pipe
  | each d => .each (d.operationWith .function)
  | every d => .every (d.operationWith .aggregator)
  | merge => .merge
  | groupBy keys => .group .groupBy (.on (.known keys))
  | coGroup d => .group .coGroup d.join
  | hashJoin d => .hashJoin d.join

/-- The name lists that become field sets, in the order in which they are looked at. -/
def nameLists : StageKind → List (List String)
  | source d | sink d => d.fields.toList
  | each d | every d => d.declared :: d.arguments.toList
  | groupBy keys => [keys]
  | coGroup d | hashJoin d => d.keys :: d.declared.toList
  | pipe | merge => []

/-- The role that is asked for, if it is none for this kind of stage. -/
def wrongRole? : StageKind → Option Role
  | each d => d.role.filter fun r => decide (r ∉ [.function, .filter, .assertion])
  | every d => d.role.filter fun r => decide (r ∉ [.aggregator, .buffer, .assertion])
  | _ => none

end StageKind

namespace StageDef

variable {s : StageDef} {e : DefinitionError}

def element (s : StageDef) : Element := ⟨s.name, s.kind.written⟩

/-! ## What a stage has to be -/

/-- A source reads nothing, a sink one stage, and anything else at least one. -/
def ArityFits (s : StageDef) : Prop :=
  match s.kind with
  | .source _ => s.inputs = []
  | .sink _ => s.inputs.length = 1
  | _ => s.inputs ≠ []

/-- Whatever can be said of a stage by itself. -/
structure Fits (s : StageDef) : Prop where
  arity : s.ArityFits
  role : s.kind.wrongRole? = none
  names : ∀ l ∈ s.kind.nameLists, l.Nodup

/-- How a stage can read from the wrong number of stages. -/
inductive Misread (s : StageDef) : DefinitionError → Prop
  | source (d : TapDef) (hk : s.kind = .source d) (h : s.inputs ≠ []) :
    Misread s (.sourceWithInputs s.name)
  | sink (d : TapDef) (hk : s.kind = .sink d) (h : s.inputs.length ≠ 1) :
    Misread s (.sinkArity s.name s.inputs.length)
  | other (hsource : ∀ d, s.kind ≠ .source d) (hsink : ∀ d, s.kind ≠ .sink d) (h : s.inputs = []) :
    Misread s (.missingInputs s.name)

/-- What is wrong with a stage in the first place, where `taken` are the names before it. -/
inductive Fault (s : StageDef) (taken : List String) : DefinitionError → Prop
  | name (h : s.name ∈ taken) : Fault s taken (.duplicateStage s.name)
  | arity (hname : s.name ∉ taken) {e : DefinitionError} (h : s.Misread e) : Fault s taken e
  | role (hname : s.name ∉ taken) (harity : s.ArityFits) {r : Role}
    (h : s.kind.wrongRole? = some r) : Fault s taken (.invalidRole s.name r)
  /-- The first list that repeats a name, with the names that it repeats. -/
  | names (hname : s.name ∉ taken) (harity : s.ArityFits) (hrole : s.kind.wrongRole? = none)
    {clean rest : List (List String)} {l : List String}
    (hl : s.kind.nameLists = clean ++ l :: rest) (hclean : ∀ c ∈ clean, c.Nodup)
    (h : ¬ l.Nodup) : Fault s taken (.fields s.name ⟨Fields.repeated l⟩)

theorem Fault.of_names {taken taken' : List String} (h : s.Fault taken e)
    (hmem : s.name ∈ taken ↔ s.name ∈ taken') : s.Fault taken' e := by
  cases h with
  | name h => exact .name (hmem.1 h)
  | arity hname h => exact .arity (mt hmem.2 hname) h
  | role hname harity h => exact .role (mt hmem.2 hname) harity h
  | names hname harity hrole hl hclean h =>
    exact .names (mt hmem.2 hname) harity hrole hl hclean h

/-! ## The checks, one by one -/

theorem checkArity_eq_ok_iff : s.checkArity = .ok () ↔ s.ArityFits := by
  unfold checkArity ArityFits
  cases s.kind <;> rcases s.inputs with _ | ⟨a, _ | ⟨b, rest⟩⟩ <;> simp

theorem checkArity_eq_error_iff : s.checkArity = .error e ↔ s.Misread e := by
  constructor
  · intro h
    unfold checkArity at h
    split at h
    · cases h
    · next d hk hne =>
      cases h
      exact .source d hk fun hnil => hne (congrArg List.length hnil)
    · cases h
    · next d hk hne =>
      cases h
      exact .sink d hk hne
    · next hnil hsource hsink =>
      cases h
      exact .other hsource hsink (List.length_eq_zero_iff.1 hnil)
    · cases h
  · rintro (⟨d, hk, h⟩ | ⟨d, hk, h⟩ | ⟨hsource, hsink, h⟩)
    · rw [checkArity, hk]
      rcases hin : s.inputs with _ | ⟨a, rest⟩
      · exact absurd hin h
      · rfl
    · rw [checkArity, hk]
      rcases hlen : s.inputs.length with _ | _ | n
      · rfl
      · exact absurd hlen h
      · rfl
    · rw [checkArity, h]
      cases hk : s.kind with
      | source d => exact absurd hk (hsource d)
      | sink d => exact absurd hk (hsink d)
      | _ => rfl

def checkRole (s : StageDef) : Except DefinitionError Unit :=
  match s.kind.wrongRole? with
  | none => .ok ()
  | some r => .error (.invalidRole s.name r)

theorem checkRole_eq_ok_iff : s.checkRole = .ok () ↔ s.kind.wrongRole? = none := by
  unfold checkRole
  split <;> simp [*]

theorem checkRole_eq_error_iff : s.checkRole = .error e ↔
    ∃ r, s.kind.wrongRole? = some r ∧ .invalidRole s.name r = e := by
  unfold checkRole
  split <;> simp [*]

theorem fieldsOf_eq (l : List String) : s.fieldsOf l =
    if l.Nodup then .ok (.known l) else .error (.fields s.name ⟨Fields.repeated l⟩) := by
  rw [fieldsOf, Fields.ofNames?_eq]
  split <;> rfl

theorem optionalFieldsOf_eq (o : Option (List String)) : s.optionalFieldsOf o = do
    let _ ← o.toList.mapM s.fieldsOf
    return o.map .known := by
  cases o with
  | none => rfl
  | some l =>
    simp only [optionalFieldsOf, fieldsOf_eq, Option.toList_some, List.mapM_cons]
    split <;> rfl

theorem tapOf_eq (s : StageDef) (d : TapDef) : s.tapOf d = do
    let _ ← d.fields.toList.mapM s.fieldsOf
    return d.tap := by
  rw [tapOf, optionalFieldsOf_eq, TapDef.tap]
  cases d.fields.toList.mapM s.fieldsOf with
  | error e => rfl
  | ok r => cases d.fields <;> rfl

theorem joinOf_eq (s : StageDef) (d : JoinDef) : s.joinOf d = do
    let _ ← (d.keys :: d.declared.toList).mapM s.fieldsOf
    return d.join := by
  rw [joinOf, optionalFieldsOf_eq, List.mapM_cons, fieldsOf_eq]
  split
  · cases d.declared.toList.mapM s.fieldsOf <;> rfl
  · rfl

theorem operationOf_eq (d : OperationDef) {usual : Role} {allowed : List Role}
    (husual : usual ∈ allowed) : s.operationOf d usual allowed = do
      match d.role.filter fun r => decide (r ∉ allowed) with
      | none => .ok ()
      | some r => .error (.invalidRole s.name r)
      let _ ← (d.declared :: d.arguments.toList).mapM s.fieldsOf
      return d.operationWith usual := by
  have hrest : (do
      let declared ← s.fieldsOf d.declared
      let arguments ← s.optionalFieldsOf d.arguments
      return (⟨d.operation, d.role.getD usual, arguments, declared, d.output⟩ : Operation)) = do
        let _ ← (d.declared :: d.arguments.toList).mapM s.fieldsOf
        return d.operationWith usual := by
    rw [optionalFieldsOf_eq, List.mapM_cons, fieldsOf_eq]
    split
    · cases d.arguments.toList.mapM s.fieldsOf <;> rfl
    · rfl
  have hrole : (d.role.filter fun r => decide (r ∉ allowed)) =
      if d.role.getD usual ∈ allowed then none else some (d.role.getD usual) := by
    cases d.role with
    | none => simp [husual]
    | some r => by_cases hr : r ∈ allowed <;> simp [Option.filter, hr]
  rw [← hrest, hrole, operationOf]
  by_cases hr : d.role.getD usual ∈ allowed
  · simp only [hr, not_true_eq_false, if_true, if_false]
    rfl
  · simp only [hr, not_false_eq_true, if_true, if_false]
    rfl

/-- Converting a stage checks its role and its name lists, and writes it down. -/
theorem elementKind_eq (s : StageDef) : s.elementKind = do
    s.checkRole
    let _ ← s.kind.nameLists.mapM s.fieldsOf
    return s.kind.written := by
  have hmap : ∀ {α : Type} (lists : List (List String)) (f : α → Kind) (a : α),
      (f <$> do
        let _ ← lists.mapM s.fieldsOf
        return a) = do
          let _ ← lists.mapM s.fieldsOf
          return f a := by
    intro α lists f a
    cases lists.mapM s.fieldsOf <;> rfl
  unfold elementKind checkRole
  cases s.kind with
  | pipe => rfl
  | merge => rfl
  | source d => exact (congrArg _ (s.tapOf_eq d)).trans (hmap _ _ _)
  | sink d => exact (congrArg _ (s.tapOf_eq d)).trans (hmap _ _ _)
  | each d =>
    dsimp only [StageKind.wrongRole?, StageKind.nameLists, StageKind.written]
    rw [operationOf_eq d (by decide)]
    cases d.role.filter _ with
    | none => exact hmap _ _ _
    | some r => rfl
  | every d =>
    dsimp only [StageKind.wrongRole?, StageKind.nameLists, StageKind.written]
    rw [operationOf_eq d (by decide)]
    cases d.role.filter _ with
    | none => exact hmap _ _ _
    | some r => rfl
  | groupBy keys =>
    simp only [StageKind.wrongRole?, StageKind.nameLists, List.mapM_cons, fieldsOf_eq]
    split <;> rfl
  | coGroup d => exact (congrArg _ (s.joinOf_eq d)).trans (hmap _ _ _)
  | hashJoin d => exact (congrArg _ (s.joinOf_eq d)).trans (hmap _ _ _)

theorem fieldsOf_eq_error_iff {l : List String} : s.fieldsOf l = .error e ↔
    ¬ l.Nodup ∧ .fields s.name ⟨Fields.repeated l⟩ = e := by
  rw [fieldsOf_eq]
  split
  · next hl => simp [hl]
  · next hl => simp [hl]

theorem exists_fieldsOf_iff {l : List String} : (∃ f, s.fieldsOf l = .ok f) ↔ l.Nodup := by
  rw [fieldsOf_eq]
  split
  · next hl => simp [hl]
  · next hl => simp [hl]

/-! ## All checks of a stage -/

theorem elementKind_eq_ok_iff {k : Kind} : s.elementKind = .ok k ↔
    s.kind.wrongRole? = none ∧ (∀ l ∈ s.kind.nameLists, l.Nodup) ∧ s.kind.written = k := by
  rw [elementKind_eq, bind_eq_ok]
  constructor
  · rintro ⟨_, hrole, h⟩
    obtain ⟨r, hnames, h⟩ := bind_eq_ok.1 h
    cases h
    exact ⟨checkRole_eq_ok_iff.1 hrole,
      fun l hl => exists_fieldsOf_iff.1 (exists_mapM_iff.1 ⟨r, hnames⟩ l hl), rfl⟩
  · rintro ⟨hrole, hnames, rfl⟩
    obtain ⟨r, hr⟩ := exists_mapM_iff.2 fun l hl => exists_fieldsOf_iff.2 (hnames l hl)
    exact ⟨(), checkRole_eq_ok_iff.2 hrole, bind_eq_ok.2 ⟨r, hr, rfl⟩⟩

/-- What is checked of a stage before it is written down. -/
def check (s : StageDef) (taken : List String) : Except DefinitionError Unit := do
  if s.name ∈ taken then throw (.duplicateStage s.name)
  s.checkArity
  s.checkRole
  let _ ← s.kind.nameLists.mapM s.fieldsOf

theorem check_eq_ok_iff {taken : List String} :
    s.check taken = .ok () ↔ s.name ∉ taken ∧ s.Fits := by
  unfold check
  split
  · next hname =>
    refine ⟨fun h => ?_, fun h => absurd hname h.1⟩
    cases h
  · next hname =>
    rw [and_iff_right hname]
    constructor
    · intro h
      obtain ⟨_, harity, h⟩ := bind_eq_ok.1 h
      obtain ⟨_, hrole, h⟩ := bind_eq_ok.1 h
      obtain ⟨r, hnames, -⟩ := bind_eq_ok.1 h
      exact ⟨checkArity_eq_ok_iff.1 harity, checkRole_eq_ok_iff.1 hrole,
        fun l hl => exists_fieldsOf_iff.1 (exists_mapM_iff.1 ⟨r, hnames⟩ l hl)⟩
    · intro h
      obtain ⟨r, hnames⟩ := exists_mapM_iff.2 fun l hl => exists_fieldsOf_iff.2 (h.names l hl)
      exact bind_eq_ok.2 ⟨(), checkArity_eq_ok_iff.2 h.arity, bind_eq_ok.2
        ⟨(), checkRole_eq_ok_iff.2 h.role, bind_eq_ok.2 ⟨r, hnames, rfl⟩⟩⟩

theorem check_eq_error_iff {taken : List String} :
    s.check taken = .error e ↔ s.Fault taken e := by
  unfold check
  split
  · next hname =>
    constructor
    · intro h
      cases h
      exact .name hname
    · intro h
      cases h with
      | name h => rfl
      | arity hnew h => exact absurd hname hnew
      | role hnew harity h => exact absurd hname hnew
      | names hnew harity hrole hl hclean h => exact absurd hname hnew
  · next hname =>
    constructor
    · intro h
      rcases bind_eq_error.1 h with h | ⟨_, harity, h⟩
      · exact .arity hname (checkArity_eq_error_iff.1 h)
      have harity := checkArity_eq_ok_iff.1 harity
      rcases bind_eq_error.1 h with h | ⟨_, hrole, h⟩
      · obtain ⟨r, hr, rfl⟩ := checkRole_eq_error_iff.1 h
        exact .role hname harity hr
      rcases bind_eq_error.1 h with h | ⟨_, -, h⟩
      · obtain ⟨clean, l, rest, hl, hclean, h⟩ := mapM_eq_error_iff.1 h
        obtain ⟨hrepeats, rfl⟩ := fieldsOf_eq_error_iff.1 h
        exact .names hname harity (checkRole_eq_ok_iff.1 hrole) hl
          (fun c hc => exists_fieldsOf_iff.1 (hclean c hc)) hrepeats
      · cases h
    · intro h
      cases h with
      | name h => exact absurd h hname
      | arity hnew h => exact bind_eq_error.2 (.inl (checkArity_eq_error_iff.2 h))
      | role hnew harity h =>
        exact bind_eq_error.2 (.inr ⟨(), checkArity_eq_ok_iff.2 harity,
          bind_eq_error.2 (.inl (checkRole_eq_error_iff.2 ⟨_, h, rfl⟩))⟩)
      | names hnew harity hrole hl hclean h =>
        refine bind_eq_error.2 (.inr ⟨(), checkArity_eq_ok_iff.2 harity, bind_eq_error.2
          (.inr ⟨(), checkRole_eq_ok_iff.2 hrole, bind_eq_error.2 (.inl ?_)⟩)⟩)
        exact mapM_eq_error_iff.2 ⟨_, _, _, hl, fun c hc => exists_fieldsOf_iff.2 (hclean c hc),
          fieldsOf_eq_error_iff.2 ⟨h, rfl⟩⟩

end StageDef

namespace Definition

/-! ## All stages -/

/-- The stages have different names, none of them in `taken`, and each is right by itself. -/
structure Passing (taken : List String) (l : List StageDef) : Prop where
  new : ∀ s ∈ l, s.name ∉ taken
  distinct : (l.map StageDef.name).Nodup
  fits : ∀ s ∈ l, s.Fits

theorem passing_nil (taken : List String) : Passing taken [] := ⟨by simp, .nil, by simp⟩

theorem passing_cons {taken : List String} {s : StageDef} {rest : List StageDef} :
    Passing taken (s :: rest) ↔
      (s.name ∉ taken ∧ s.Fits) ∧ Passing (s.name :: taken) rest := by
  constructor
  · intro h
    obtain ⟨hname, hnew⟩ := List.forall_mem_cons.1 h.new
    obtain ⟨hdiff, hdistinct⟩ := List.nodup_cons.1 h.distinct
    obtain ⟨hfits, hrest⟩ := List.forall_mem_cons.1 h.fits
    refine ⟨⟨hname, hfits⟩, fun s' hs' hmem => ?_, hdistinct, hrest⟩
    rcases List.mem_cons.1 hmem with heq | hmem
    · exact hdiff (List.mem_map.2 ⟨s', hs', heq⟩)
    · exact hnew s' hs' hmem
  · rintro ⟨⟨hname, hfits⟩, h⟩
    have hdiff : s.name ∉ rest.map StageDef.name := by
      intro hmem
      obtain ⟨s', hs', heq⟩ := List.mem_map.1 hmem
      exact h.new s' hs' (heq ▸ List.mem_cons_self)
    have hnew : ∀ s' ∈ rest, s'.name ∉ taken := fun s' hs' hmem =>
      h.new s' hs' (List.mem_cons_of_mem _ hmem)
    exact ⟨List.forall_mem_cons.2 ⟨hname, hnew⟩, List.nodup_cons.2 ⟨hdiff, h.distinct⟩,
      List.forall_mem_cons.2 ⟨hfits, h.fits⟩⟩

theorem elementsOf_cons_eq (taken : List String) (s : StageDef) (rest : List StageDef) :
    elementsOf taken (s :: rest) = do
      s.check taken
      return s.element :: (← elementsOf (s.name :: taken) rest) := by
  rw [elementsOf, StageDef.check, StageDef.elementKind_eq]
  split
  · rfl
  · cases s.checkArity with
    | error e => rfl
    | ok u =>
      cases s.checkRole with
      | error e => rfl
      | ok u => cases s.kind.nameLists.mapM s.fieldsOf <;> rfl

theorem elementsOf_eq_ok_iff {taken : List String} {l : List StageDef} {es : List Element} :
    elementsOf taken l = .ok es ↔ Passing taken l ∧ l.map StageDef.element = es := by
  induction l generalizing taken es with
  | nil =>
    constructor
    · intro h
      cases h
      exact ⟨passing_nil taken, rfl⟩
    · rintro ⟨-, rfl⟩
      rfl
  | cons s rest ih =>
    rw [elementsOf_cons_eq, bind_eq_ok, passing_cons]
    constructor
    · rintro ⟨_, hcheck, h⟩
      obtain ⟨es', hes', h⟩ := bind_eq_ok.1 h
      cases h
      obtain ⟨hpass, rfl⟩ := ih.1 hes'
      exact ⟨⟨StageDef.check_eq_ok_iff.1 hcheck, hpass⟩, rfl⟩
    · rintro ⟨⟨hcheck, hpass⟩, rfl⟩
      exact ⟨(), StageDef.check_eq_ok_iff.2 hcheck, bind_eq_ok.2 ⟨_, ih.2 ⟨hpass, rfl⟩, rfl⟩⟩

/-- The first stage that does not pass is reported, with what is wrong with it first. -/
theorem elementsOf_eq_error_iff {taken : List String} {l : List StageDef} {e : DefinitionError} :
    elementsOf taken l = .error e ↔ ∃ before s after, l = before ++ s :: after ∧
      Passing taken before ∧ s.Fault (before.map StageDef.name ++ taken) e := by
  induction l generalizing taken with
  | nil =>
    constructor
    · intro h
      cases h
    · rintro ⟨before, s, after, h, -⟩
      exact absurd h.symm (List.append_ne_nil_of_right_ne_nil before (List.cons_ne_nil s after))
  | cons s rest ih =>
    have hmem : ∀ (before : List StageDef) (x : String),
        x ∈ before.map StageDef.name ++ s.name :: taken ↔
          x ∈ (s :: before).map StageDef.name ++ taken := fun before x => by
      simp only [List.map_cons, List.cons_append, List.mem_append, List.mem_cons]
      tauto
    rw [elementsOf_cons_eq, bind_eq_error]
    constructor
    · rintro (h | ⟨_, hcheck, h⟩)
      · exact ⟨[], s, rest, rfl, passing_nil taken, StageDef.check_eq_error_iff.1 h⟩
      · rcases bind_eq_error.1 h with h | ⟨es, -, h⟩
        · obtain ⟨before, s', after, rfl, hpass, hfault⟩ := ih.1 h
          exact ⟨s :: before, s', after, rfl,
            passing_cons.2 ⟨StageDef.check_eq_ok_iff.1 hcheck, hpass⟩,
            hfault.of_names (hmem before s'.name)⟩
        · cases h
    · rintro ⟨before, s', after, heq, hpass, hfault⟩
      cases before with
      | nil =>
        cases heq
        exact .inl (StageDef.check_eq_error_iff.2 hfault)
      | cons x before =>
        cases heq
        obtain ⟨hcheck, hpass⟩ := passing_cons.1 hpass
        refine .inr ⟨(), StageDef.check_eq_ok_iff.2 hcheck, bind_eq_error.2 (.inl (ih.2 ?_))⟩
        exact ⟨before, s', after, rfl, hpass, hfault.of_names (hmem before s'.name).symm⟩

end Definition
end Dataflow
