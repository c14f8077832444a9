import ClassLang.Proofs.Order.Agreement
import ClassLang.Stage.Conformance
import ClassLang.Stage.Constants
import ClassLang.Stage.Bodies

/-! Other numbers for the same things. Types, type parameters, symbols and units are known by their
numbers; a renaming gives each another number, and data is renamed by renaming the numbers in it. -/

namespace ClassLang

/-- Other numbers for types, type parameters, symbols and units. Primitive types have fixed numbers,
and so has the type that is not there. -/
structure Renaming where
  types : TypeRef ≃ TypeRef
  params : ParamRef ≃ ParamRef
  symbols : Nat ≃ Nat
  units : Nat ≃ Nat
  primitive : ∀ type : TypeRef, type.isPrimitive = true → types type = type
  absent : types .absent = .absent

/-- The numbers as they were. -/
def Renaming.symm (rename : Renaming) : Renaming where
  types := rename.types.symm
  params := rename.params.symm
  symbols := rename.symbols.symm
  units := rename.units.symm
  primitive type isPrimitive := by rw [Equiv.symm_apply_eq, rename.primitive type isPrimitive]
  absent := by rw [Equiv.symm_apply_eq, rename.absent]

@[simp] theorem Renaming.symm_symm (rename : Renaming) : rename.symm.symm = rename := rfl

/-- Data with numbers in it. -/
class Renamable (α : Type) where
  apply : Renaming → α → α
  cancel : ∀ (rename : Renaming) (value : α), apply rename.symm (apply rename value) = value

/-- The same data with the other numbers. -/
def Renaming.on (rename : Renaming) {α : Type} [Renamable α] : α ≃ α where
  toFun := Renamable.apply rename
  invFun := Renamable.apply rename.symm
  left_inv := Renamable.cancel rename
  right_inv := Renamable.cancel rename.symm

/-- Data without numbers in it. -/
class Plain (α : Type) extends Renamable α where
  apply_eq : ∀ (rename : Renaming) (value : α), apply rename value = value

namespace Renaming

variable {α β : Type} [Renamable α] [Renamable β] (rename : Renaming)

@[simp] theorem symm_on (value : α) : rename.symm.on (rename.on value) = value :=
  Renamable.cancel rename value

@[simp] theorem symm_symbols (id : Nat) : rename.symm.symbols (rename.symbols id) = id :=
  rename.symbols.symm_apply_apply id

@[simp] theorem symm_units (id : Nat) : rename.symm.units (rename.units id) = id :=
  rename.units.symm_apply_apply id

@[simp] theorem on_plain {α : Type} [Plain α] (value : α) : rename.on value = value :=
  Plain.apply_eq rename value

theorem on_eq_refl {α : Type} [Plain α] : (rename.on : α ≃ α) = .refl α :=
  Equiv.ext (rename.on_plain ·)

/-- Equal things stay equal, and different things stay different. -/
theorem on_inj {first second : α} : rename.on first = rename.on second ↔ first = second :=
  rename.on.apply_eq_iff_eq

theorem beq_on [BEq α] [LawfulBEq α] (first second : α) :
    (rename.on first == rename.on second) = (first == second) := by
  rw [Bool.eq_iff_iff, beq_iff_eq, beq_iff_eq, rename.on_inj]

end Renaming

/-! Numbers. -/

instance : Renamable TypeRef := ⟨(·.types), fun rename type => rename.types.symm_apply_apply type⟩

instance : Renamable ParamRef :=
  ⟨(·.params), fun rename param => rename.params.symm_apply_apply param⟩

/-! Data without numbers. Positions inside a unit are not renamed. -/

/-- Renaming that does nothing. -/
abbrev Plain.fixed (α : Type) : Plain α where
  apply _ value := value
  cancel _ _ := rfl
  apply_eq _ _ := rfl

instance : Plain PUnit := .fixed PUnit
instance : Plain Bool := .fixed Bool
instance : Plain Nat := .fixed Nat
instance : Plain String := .fixed String
instance : Plain Span := .fixed Span
instance : Plain Variance := .fixed Variance
instance : Plain TypePosition := .fixed TypePosition
instance : Plain Diagnostic := .fixed Diagnostic
instance : Plain ExprRef := .fixed ExprRef
instance : Plain Shape := .fixed Shape
instance : Plain Domain := .fixed Domain
instance : Plain Coverage := .fixed Coverage
instance : Plain GroupAnalysis := .fixed GroupAnalysis
instance : Plain GroupArm := .fixed GroupArm
instance : Plain LoweredMatch := .fixed LoweredMatch
instance : Plain AnnotationUse := .fixed AnnotationUse
instance : Plain OverloadFault := .fixed OverloadFault

/-! Lists, pairs and alternatives. -/

section
variable {α β : Type} [Renamable α] [Renamable β] (rename : Renaming)

instance : Renamable (List α) where
  apply rename := List.map rename.on
  cancel rename values := by
    rw [List.map_map]
    exact (List.map_congr_left fun value _ => rename.symm_on value).trans values.map_id

instance : Renamable (Option α) where
  apply rename := Option.map rename.on
  cancel rename value := by cases value <;> simp

instance : Renamable (α × β) where
  apply rename := Prod.map rename.on rename.on
  cancel rename value := Prod.ext (rename.symm_on value.1) (rename.symm_on value.2)

instance : Renamable (Except α β) where
  apply rename
    | .error fault => .error (rename.on fault)
    | .ok value => .ok (rename.on value)
  cancel rename value := by cases value <;> simp

namespace Renaming

theorem on_list (values : List α) : rename.on values = values.map rename.on := rfl

@[simp] theorem on_nil : rename.on ([] : List α) = [] := rfl

@[simp] theorem on_cons (value : α) (values : List α) :
    rename.on (value :: values) = rename.on value :: rename.on values := rfl

@[simp] theorem on_append (first second : List α) :
    rename.on (first ++ second) = rename.on first ++ rename.on second := List.map_append

theorem map_on {make make' : α → β}
    (same : ∀ value, make' (rename.on value) = rename.on (make value))
    (values : List α) : (rename.on values).map make' = rename.on (values.map make) := by
  rw [on_list, on_list, List.map_map, List.map_map]
  exact List.map_congr_left fun value _ => same value

@[simp] theorem length_on (values : List α) : (rename.on values).length = values.length :=
  List.length_map _

@[simp] theorem isEmpty_on (values : List α) : (rename.on values).isEmpty = values.isEmpty := by
  cases values <;> rfl

theorem zip_on (first : List α) (second : List β) :
    (rename.on first).zip (rename.on second) = rename.on (first.zip second) :=
  List.zip_map.symm ▸ rfl

theorem flatten_on (values : List (List α)) :
    (rename.on values).flatten = rename.on values.flatten :=
  List.map_flatten.symm

theorem zipIdx_on (values : List α) (start : Nat) :
    (rename.on values).zipIdx start = rename.on (values.zipIdx start) := by
  induction values generalizing start with
  | nil => rfl
  | cons value rest ih => exact congrArg (List.cons _) (ih (start + 1))

@[simp] theorem on_some (value : α) : rename.on (some value) = some (rename.on value) := rfl

@[simp] theorem on_none : rename.on (none : Option α) = none := rfl

@[simp] theorem on_pair (first : α) (second : β) :
    rename.on (first, second) = (rename.on first, rename.on second) := rfl

@[simp] theorem on_fst (pair : α × β) : (rename.on pair).1 = rename.on pair.1 := rfl

@[simp] theorem on_snd (pair : α × β) : (rename.on pair).2 = rename.on pair.2 := rfl

@[simp] theorem on_ok (value : β) : rename.on (.ok value : Except α β) = .ok
    (rename.on value) := rfl

@[simp] theorem on_error (fault : α) :
    rename.on (.error fault : Except α β) = .error (rename.on fault) := rfl

end Renaming

end

section
variable {α β : Type} [Plain α] [Plain β]

instance : Plain (List α) where
  apply_eq rename values :=
    (List.map_congr_left fun value _ => rename.on_plain value).trans values.map_id

instance : Plain (Option α) where
  apply_eq rename value := by cases value <;> simp [Renamable.apply]

instance : Plain (α × β) where
  apply_eq rename value := Prod.ext (rename.on_plain value.1) (rename.on_plain value.2)

end

/-! Types. -/

section
variable (rename : Renaming)

def TypeNode.renamed (rename : Renaming) : TypeNode → TypeNode
  | .applied base args => .applied base (rename.on args)
  | .var param variance => .var (rename.on param) variance
  | .wildcard variance bound => .wildcard variance (rename.on bound)
  | node => node

instance : Renamable TypeNode :=
  ⟨TypeNode.renamed, fun rename node => by cases node <;> simp [TypeNode.renamed]⟩

instance : Renamable TypeParam :=
  ⟨fun rename param => { param with bounds := rename.on param.bounds }, fun rename param => by simp⟩

instance : Renamable Substitution :=
  ⟨fun rename subst => ⟨rename.on subst.bindings⟩, fun rename subst => by simp⟩

def TypeFault.renamed (rename : Renaming) : TypeFault → TypeFault
  | .outsideBound param argument bound =>
    .outsideBound (rename.on param) (rename.on argument) (rename.on bound)
  | .varianceConflict param variance position =>
    .varianceConflict (rename.on param) variance position
  | .unbound param => .unbound (rename.on param)

instance : Renamable TypeFault :=
  ⟨TypeFault.renamed, fun rename fault => by cases fault <;> simp [TypeFault.renamed]⟩

namespace Renaming

variable {type : TypeRef}

theorem on_primitive (isPrimitive : type.isPrimitive = true) : rename.on type = type :=
  rename.primitive type isPrimitive

@[simp] theorem on_any : rename.on TypeRef.any = .any := rename.on_primitive rfl
@[simp] theorem on_void : rename.on TypeRef.void = .void := rename.on_primitive rfl
@[simp] theorem on_int : rename.on TypeRef.int = .int := rename.on_primitive rfl
@[simp] theorem on_float : rename.on TypeRef.float = .float := rename.on_primitive rfl
@[simp] theorem on_bool : rename.on TypeRef.bool = .bool := rename.on_primitive rfl
@[simp] theorem on_char : rename.on TypeRef.char = .char := rename.on_primitive rfl
@[simp] theorem on_string : rename.on TypeRef.string = .string := rename.on_primitive rfl
@[simp] theorem on_absent : rename.on TypeRef.absent = .absent := rename.absent

@[simp] theorem on_literal (value : Literal) : rename.on value.type = value.type := by
  cases value <;> exact rename.on_primitive rfl

/-- A type is recognised by a number that is not renamed. -/
theorem on_eq_iff {fixed : TypeRef} (same : rename.on fixed = fixed) :
    rename.on type = fixed ↔ type = fixed := by
  rw [← @Renaming.on_inj _ _ rename type, same]

@[simp] theorem isPrimitive_on (type : TypeRef) :
    (rename.on type).isPrimitive = type.isPrimitive := by
  cases isPrimitive : type.isPrimitive with
  | true => rw [rename.on_primitive isPrimitive, isPrimitive]
  | false =>
    refine Bool.eq_false_iff.mpr fun there => ?_
    have same : rename.on type = type := rename.on_inj.mp (rename.on_primitive there)
    rw [same, isPrimitive] at there
    cases there

@[simp] theorem isAbsent_on (type : TypeRef) : (rename.on type).isAbsent = type.isAbsent := by
  simp [TypeRef.isAbsent, Bool.beq_eq_decide_eq, rename.on_eq_iff rename.on_absent]

theorem headD_any_on (types : List TypeRef) :
    (rename.on types).headD .any = rename.on (types.headD .any) := by
  cases types <;> simp

end Renaming

namespace Substitution

variable (subst : Substitution)

@[simp] theorem isEmpty_on : (rename.on subst).isEmpty = subst.isEmpty :=
  rename.isEmpty_on subst.bindings

theorem lookup_on {α β : Type} [DecidableEq α] [Renamable α] [Renamable β]
    (entries : List (α × β)) (key : α) :
    (rename.on entries).lookup (rename.on key) = rename.on (entries.lookup key) := by
  induction entries with
  | nil => rfl
  | cons entry rest ih =>
    obtain ⟨other, value⟩ := entry
    by_cases same : key = other
    · simp [same]
    · simp [List.lookup_cons, beq_eq_false_iff_ne.mpr same,
        beq_eq_false_iff_ne.mpr (mt rename.on_inj.mp same), ih]

@[simp] theorem get?_on (param : ParamRef) :
    (rename.on subst).get? (rename.on param) = rename.on (subst.get? param) :=
  lookup_on rename subst.bindings param

@[simp] theorem contains_on (param : ParamRef) :
    (rename.on subst).contains (rename.on param) = subst.contains param := by
  unfold contains
  rw [get?_on]
  cases subst.get? param <;> rfl

theorem bind_on (param : ParamRef) (type : TypeRef) :
    (rename.on subst).bind (rename.on param) (rename.on type) = rename.on
      (subst.bind param type) := by
  unfold bind
  rw [contains_on]
  split
  · refine congrArg mk ?_
    change List.map _ (List.map _ subst.bindings) = List.map _ (List.map _ subst.bindings)
    rw [List.map_map, List.map_map]
    refine List.map_congr_left fun entry _ => ?_
    by_cases same : entry.1 = param
    · simp [same]
    · simp [same, rename.on_inj]
  · exact congrArg mk (rename.on_append subst.bindings [(param, type)]).symm

theorem ofArgs_on (params : List ParamRef) (args : List TypeRef) :
    ofArgs (rename.on params) (rename.on args) = rename.on (ofArgs params args) := by
  have fold : ∀ (entries : List (ParamRef × TypeRef)) (subst : Substitution),
      (rename.on entries).foldl (fun subst entry => subst.bind entry.1 entry.2) (rename.on subst) =
        rename.on (entries.foldl (fun subst entry => subst.bind entry.1 entry.2) subst) := by
    intro entries
    induction entries with
    | nil => exact fun _ => rfl
    | cons entry rest ih =>
      intro subst
      rw [rename.on_cons, List.foldl_cons, List.foldl_cons, rename.on_fst, rename.on_snd, bind_on]
      exact ih _
  unfold ofArgs
  rw [rename.zip_on]
  exact fold _ {}

/-- Binding one open parameter to `any`. -/
def fillStep (state : Substitution × List TypeFault) (param : ParamRef) :
    Substitution × List TypeFault :=
  if state.1.contains param then state
  else (state.1.bind param .any, state.2 ++ [.unbound param])

theorem fillStep_on (state : Substitution × List TypeFault) (param : ParamRef) :
    fillStep (rename.on state) (rename.on param) = rename.on (fillStep state param) := by
  unfold fillStep
  rw [rename.on_fst, contains_on]
  split
  · rfl
  · have bound := bind_on rename state.1 param .any
    rw [rename.on_any] at bound
    exact Prod.ext bound (rename.on_append state.2 [.unbound param]).symm

theorem fillUnbound_on (params : List ParamRef) :
    (rename.on subst).fillUnbound (rename.on params) = rename.on (subst.fillUnbound params) := by
  have fold : ∀ (params : List ParamRef) (state : Substitution × List TypeFault),
      (rename.on params).foldl fillStep (rename.on state) = rename.on
        (params.foldl fillStep state) := by
    intro params
    induction params with
    | nil => exact fun _ => rfl
    | cons param rest ih =>
      intro state
      rw [rename.on_cons, List.foldl_cons, List.foldl_cons, fillStep_on]
      exact ih _
  exact fold params (subst, [])

end Substitution
end

/-- States of the second run are those of the first renamed. -/
def Renaming.states (rename : Renaming) (σ : Type) [Renamable σ] : Setting σ where
  leads _ _ := True
  left _ := True
  right _ := True
  fits _ _ := True
  alike state state' := state' = rename.on state
  sees state state' := state' = rename.on state
  refl _ := trivial
  trans _ _ := trivial
  keepLeft _ _ := trivial
  keepRight _ _ := trivial
  fits_of_leads _ _ _ := trivial
  sees_of_alike _ _ alike := alike
  exists_right _ := ⟨_, trivial, rfl⟩
  exists_left {state} _ := ⟨rename.on.symm state, trivial, (rename.on.apply_symm_apply state).symm⟩

namespace Renaming.states

variable {σ ε α : Type} [Renamable σ] [Renamable α] {rename : Renaming}

/-- The renamed state has the renamed answer. -/
theorem ask {query query' : σ → Except ε α}
    (each : ∀ state, Corresponds rename.on (query state) (query' (rename.on state))) :
    (rename.states σ).Agree rename.on (do query (← MonadState.get) : StateT σ (Except ε) α)
      (do query' (← MonadState.get)) :=
  .ask fun state _ _ _ _ alike => alike ▸ each state

/-- The renamed state is changed in the same way. -/
theorem modify {change change' : σ → σ}
    (each : ∀ state, change' (rename.on state) = rename.on (change state)) :
    (rename.states σ).Agree rename.on (modifyThe σ change : StateT σ (Except ε) PUnit)
      (modifyThe σ change') :=
  (Setting.Agree.modify (fun _ _ => trivial) (fun _ _ => trivial)
    fun state _ _ _ alike => alike ▸ each state).congr rename.on_eq_refl.symm

theorem modifyGet {change change' : σ → α × σ}
    (each : ∀ state, change' (rename.on state) = rename.on (change state)) :
    (rename.states σ).Agree rename.on (modifyGetThe σ change : StateT σ (Except ε) α)
      (modifyGetThe σ change') where
  leadsLeft _ _ _ _ _ := trivial
  leadsRight _ _ _ _ _ := trivial
  agrees := by
    intro state state' _ _ alike value after value' after' ran ran' _
    have first : change state = (value, after) := Except.ok.inj ran
    have second : change' state' = (value', after') := Except.ok.inj ran'
    have same : (value', after') = rename.on (value, after) := by rw [← second, alike, each, first]
    exact Prod.mk.inj same

/-- Runs from a state and from the renamed state come to corresponding results and states. -/
theorem run {action action' : StateT σ (Except ε) α}
    (same : (rename.states σ).Agree rename.on action action') (state : σ) :
    Corresponds rename.on (action.run state) (action'.run (rename.on state)) := by
  rintro ⟨value, after⟩ ⟨value', after'⟩ ran ran'
  obtain ⟨rfl, rfl⟩ :=
    same.agrees state _ trivial trivial rfl value after value' after' ran ran' trivial
  rfl

end Renaming.states

/-! Lists of renamed elements, element by element. -/

namespace Setting.Agree

variable {σ ε α β : Type} {setting : Setting σ} {rename : Renaming} [Renamable α] [Renamable β]

/-- Results without numbers are the same. -/
theorem plain {α : Type} [Plain α] {first second : StateT σ (Except ε) α} :
    setting.Agree rename.on first second ↔ setting.Agree (.refl α) first second := by
  rw [rename.on_eq_refl]

/-- What follows a result without numbers follows the same result. -/
theorem bindPlain {α γ δ : Type} [Plain α] {next : γ ≃ δ} {first second : StateT σ (Except ε) α}
    {rest : α → StateT σ (Except ε) γ} {rest' : α → StateT σ (Except ε) δ}
    (done : setting.Agree rename.on first second)
    (goesOn : ∀ result, setting.Agree next (rest result) (rest' result)) :
    setting.Agree next (first >>= rest) (second >>= rest') :=
  (plain.mp done).bind goesOn

/-- The rest follows a result and the renamed result. -/
theorem bindOn {γ δ : Type} {next : γ ≃ δ} (rename : Renaming)
    {first second : StateT σ (Except ε) α} {rest : α → StateT σ (Except ε) γ}
    {rest' : α → StateT σ (Except ε) δ} (done : setting.Agree rename.on first second)
    (goesOn : ∀ result, setting.Agree next (rest result) (rest' (rename.on result))) :
    setting.Agree next (first >>= rest) (second >>= rest') :=
  done.bind goesOn

section
variable {elements : List α}

theorem mapM_on {first second : α → StateT σ (Except ε) β}
    (each : ∀ element ∈ elements,
      setting.Agree rename.on (first element) (second (rename.on element))) :
    setting.Agree rename.on (elements.mapM first) ((rename.on elements).mapM second) :=
  (mapM each).congr (Equiv.ext fun _ => rfl)

theorem forM_on {first second : α → StateT σ (Except ε) PUnit}
    (each : ∀ element ∈ elements,
      setting.Agree rename.on (first element) (second (rename.on element))) :
    setting.Agree rename.on (elements.forM first) ((rename.on elements).forM second) :=
  plain.mpr (forM fun element member => plain.mp (each element member))

theorem foldlM_on {first second : β → α → StateT σ (Except ε) β} (start : β)
    (each : ∀ element ∈ elements, ∀ value,
      setting.Agree rename.on (first value element)
        (second (rename.on value) (rename.on element))) :
    setting.Agree rename.on (elements.foldlM first start)
      ((rename.on elements).foldlM second (rename.on start)) :=
  foldlM start each

theorem anyM_on {first second : α → StateT σ (Except ε) Bool}
    (each : ∀ element ∈ elements,
      setting.Agree rename.on (first element) (second (rename.on element))) :
    setting.Agree rename.on (elements.anyM first) ((rename.on elements).anyM second) :=
  plain.mpr (anyM fun element member => plain.mp (each element member))

theorem allM_on {first second : α → StateT σ (Except ε) Bool}
    (each : ∀ element ∈ elements,
      setting.Agree rename.on (first element) (second (rename.on element))) :
    setting.Agree rename.on (elements.allM first) ((rename.on elements).allM second) :=
  plain.mpr (allM fun element member => plain.mp (each element member))

theorem findSomeM?_on {first second : α → StateT σ (Except ε) (Option β)}
    (each : ∀ element ∈ elements,
      setting.Agree rename.on (first element) (second (rename.on element))) :
    setting.Agree rename.on (elements.findSomeM? first) ((rename.on elements).findSomeM? second) :=
  (findSomeM? fun element member => (each element member).congr (Equiv.ext fun _ => rfl)).congr
    (Equiv.ext fun _ => rfl)

theorem findM?_on {first second : α → StateT σ (Except ε) Bool}
    (each : ∀ element ∈ elements,
      setting.Agree rename.on (first element) (second (rename.on element))) :
    setting.Agree rename.on (elements.findM? first) ((rename.on elements).findM? second) :=
  (findM? fun element member => plain.mp (each element member)).congr (Equiv.ext fun _ => rfl)

theorem filterMapM_on {first second : α → StateT σ (Except ε) (Option β)}
    (each : ∀ element ∈ elements,
      setting.Agree rename.on (first element) (second (rename.on element))) :
    setting.Agree rename.on (elements.filterMapM first) ((rename.on elements).filterMapM second) :=
  (filterMapM fun element member => (each element member).congr (Equiv.ext fun _ => rfl)).congr
    (Equiv.ext fun _ => rfl)

theorem filterM_on {first second : α → StateT σ (Except ε) Bool}
    (each : ∀ element ∈ elements,
      setting.Agree rename.on (first element) (second (rename.on element))) :
    setting.Agree rename.on (elements.filterM first) ((rename.on elements).filterM second) :=
  (filterM fun element member => plain.mp (each element member)).congr (Equiv.ext fun _ => rfl)

end

/-! Lists whose elements have no numbers in them. -/

section
variable {ι : Type} [Plain ι] {elements : List ι}

theorem mapM_plain {first second : ι → StateT σ (Except ε) β}
    (each : ∀ element ∈ elements, setting.Agree rename.on (first element) (second element)) :
    setting.Agree rename.on (elements.mapM first) (elements.mapM second) := by
  have all : setting.Agree rename.on (elements.mapM first) ((rename.on elements).mapM second) :=
    mapM_on fun element member => by rw [rename.on_plain element]; exact each element member
  rwa [rename.on_plain] at all

theorem forM_plain {first second : ι → StateT σ (Except ε) PUnit}
    (each : ∀ element ∈ elements, setting.Agree rename.on (first element) (second element)) :
    setting.Agree rename.on (elements.forM first) (elements.forM second) := by
  have all : setting.Agree rename.on (elements.forM first) ((rename.on elements).forM second) :=
    forM_on fun element member => by rw [rename.on_plain element]; exact each element member
  rwa [rename.on_plain] at all

theorem anyM_plain {first second : ι → StateT σ (Except ε) Bool}
    (each : ∀ element ∈ elements, setting.Agree rename.on (first element) (second element)) :
    setting.Agree rename.on (elements.anyM first) (elements.anyM second) := by
  have all : setting.Agree rename.on (elements.anyM first) ((rename.on elements).anyM second) :=
    anyM_on fun element member => by rw [rename.on_plain element]; exact each element member
  rwa [rename.on_plain] at all

theorem allM_plain {first second : ι → StateT σ (Except ε) Bool}
    (each : ∀ element ∈ elements, setting.Agree rename.on (first element) (second element)) :
    setting.Agree rename.on (elements.allM first) (elements.allM second) := by
  have all : setting.Agree rename.on (elements.allM first) ((rename.on elements).allM second) :=
    allM_on fun element member => by rw [rename.on_plain element]; exact each element member
  rwa [rename.on_plain] at all

theorem findSomeM?_plain {first second : ι → StateT σ (Except ε) (Option β)}
    (each : ∀ element ∈ elements, setting.Agree rename.on (first element) (second element)) :
    setting.Agree rename.on (elements.findSomeM? first) (elements.findSomeM? second) := by
  have all : setting.Agree rename.on (elements.findSomeM? first)
      ((rename.on elements).findSomeM? second) :=
    findSomeM?_on fun element member => by rw [rename.on_plain element]; exact each element member
  rwa [rename.on_plain] at all

theorem filterMapM_plain {first second : ι → StateT σ (Except ε) (Option β)}
    (each : ∀ element ∈ elements, setting.Agree rename.on (first element) (second element)) :
    setting.Agree rename.on (elements.filterMapM first) (elements.filterMapM second) := by
  have all : setting.Agree rename.on (elements.filterMapM first)
      ((rename.on elements).filterMapM second) :=
    filterMapM_on fun element member => by rw [rename.on_plain element]; exact each element member
  rwa [rename.on_plain] at all

end
end Setting.Agree

/-! Answers. -/

namespace Corresponds

variable {ε α β ι : Type} {rename : Renaming} [Renamable α] [Renamable β] [Plain ι]

/-- The same answer without numbers. -/
theorem same {answer answer' : Except ε ι} (equal : answer' = answer) :
    Corresponds rename.on answer answer' := by
  intro value value' ran known'
  rw [equal, ran] at known'
  cases known'
  exact (rename.on_plain value).symm

theorem mapM_on {elements : List α} {first second : α → Except ε β}
    (each : ∀ element ∈ elements,
      Corresponds rename.on (first element) (second (rename.on element))) :
    Corresponds rename.on (elements.mapM first) ((rename.on elements).mapM second) :=
  (mapM each).congr (Equiv.ext fun _ => rfl)

theorem mapM_plain {elements : List ι} {first second : ι → Except ε β}
    (each : ∀ element ∈ elements, Corresponds rename.on (first element) (second element)) :
    Corresponds rename.on (elements.mapM first) (elements.mapM second) := by
  have all : Corresponds rename.on (elements.mapM first) ((rename.on elements).mapM second) :=
    mapM_on fun element member => by rw [rename.on_plain element]; exact each element member
  rwa [rename.on_plain] at all

end Corresponds
end ClassLang
