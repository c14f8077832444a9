import ClassLang.Proofs.Order.Overload
import ClassLang.Proofs.Stage.Workspace

/-! Units under other numbers: what is read from a renamed unit is what is read from the unit,
renamed, and recording renamed things makes the renamed unit. -/

namespace ClassLang

instance : Plain Arena := .fixed Arena
instance : Plain MatchArm := .fixed MatchArm
instance : Plain ExprKind := .fixed ExprKind
instance : Plain Literal := .fixed Literal
instance : Plain Expr := .fixed Expr

def Resolution.renamed (rename : Renaming) : Resolution → Resolution
  | .local_ name => .local_ name
  | .field symbol => .field (rename.symbols symbol)
  | .method symbol => .method (rename.symbols symbol)
  | .class_ symbol => .class_ (rename.symbols symbol)
  | .unresolved => .unresolved

instance : Renamable Resolution :=
  ⟨Resolution.renamed, fun rename resolution => by cases resolution <;> simp [Resolution.renamed]⟩

instance : Renamable BoundUse :=
  ⟨fun rename usage => { usage with type := rename.on usage.type }, fun rename usage => by simp⟩

instance : Renamable GenericParam :=
  ⟨fun rename param => { param with id := rename.on param.id }, fun rename param => by simp⟩

instance : Renamable Param :=
  ⟨fun rename param => { param with type := rename.on param.type }, fun rename param => by simp⟩

def MemberDetail.renamed (rename : Renaming) : MemberDetail → MemberDetail
  | .field init => .field init
  | .method typeParams params body => .method (rename.on typeParams) (rename.on params) body
  | .class_ typeParams superclass interfaces superType interfaceTypes permits members =>
    .class_ (rename.on typeParams) superclass interfaces (rename.on superType)
      (rename.on interfaceTypes) permits members

instance : Renamable MemberDetail :=
  ⟨MemberDetail.renamed, fun rename detail => by cases detail <;> simp [MemberDetail.renamed]⟩

instance : Renamable Member :=
  ⟨fun rename member =>
    { member with detail := rename.on member.detail, type := rename.on member.type },
    fun rename member => by simp⟩

instance : Renamable MemberArena :=
  ⟨fun rename arena => ⟨arena.members.map rename.on⟩, fun rename arena => by
    simp [Function.comp_def]⟩

instance {α : Type} [Renamable α] : Renamable (IdMap α) :=
  ⟨fun rename map => ⟨map.slots.map rename.on⟩, fun rename map => by simp [Function.comp_def]⟩

instance : Renamable CompilationUnit where
  apply rename unit :=
    { unit with
      id := rename.units unit.id
      members := rename.on unit.members
      symbols := unit.symbols.map rename.symbols
      patterns := rename.on unit.patterns
      exprTypes := rename.on unit.exprTypes
      resolutions := rename.on unit.resolutions
      matchGroups := rename.on unit.matchGroups
      lowered := rename.on unit.lowered
      boundUses := rename.on unit.boundUses }
  cancel rename unit := by simp [Function.comp_def]

section
variable (rename : Renaming)

namespace IdMap

variable {α : Type} [Renamable α] (map : IdMap α)

@[simp] theorem get?_on (key : Nat) : (rename.on map).get? key = rename.on (map.get? key) := by
  unfold get?
  rw [show (rename.on map).slots = map.slots.map rename.on from rfl, Array.getElem?_map]
  cases map.slots[key]? with
  | none => rfl
  | some slot => cases slot <;> rfl

theorem insert_on (key : Nat) (value : α) :
    (rename.on map).insert key (rename.on value) = rename.on (map.insert key value) := by
  unfold insert
  rw [show (rename.on map).slots = map.slots.map rename.on from rfl, Array.size_map]
  apply congrArg IdMap.mk
  rw [Array.map_setIfInBounds, Array.map_append, Array.map_replicate]
  rfl

end IdMap

/-! Members. -/

namespace Member

variable (member : Member)

@[simp] theorem isClass_on : (rename.on member).isClass = member.isClass := by
  obtain ⟨name, span, detail, declared, type, modifiers, annotations, access, owner, progress⟩ :=
    member
  cases detail <;> rfl

@[simp] theorem params_on : (rename.on member).params = rename.on member.params := by
  obtain ⟨name, span, detail, declared, type, modifiers, annotations, access, owner, progress⟩ :=
    member
  cases detail <;> rfl

@[simp] theorem typeParams_on : (rename.on member).typeParams = rename.on member.typeParams := by
  obtain ⟨name, span, detail, declared, type, modifiers, annotations, access, owner, progress⟩ :=
    member
  cases detail <;> rfl

@[simp] theorem body_on : (rename.on member).body = member.body := by
  obtain ⟨name, span, detail, declared, type, modifiers, annotations, access, owner, progress⟩ :=
    member
  cases detail <;> rfl

@[simp] theorem members_on : (rename.on member).members = member.members := by
  obtain ⟨name, span, detail, declared, type, modifiers, annotations, access, owner, progress⟩ :=
    member
  cases detail <;> rfl

theorem setBody_on (body : ExprRef) :
    (rename.on member).setBody body = rename.on (member.setBody body) := by
  obtain ⟨name, span, detail, declared, type, modifiers, annotations, access, owner, progress⟩ :=
    member
  cases detail <;> rfl

theorem paramTypes_on :
    (rename.on member).params.map (·.type) = rename.on (member.params.map (·.type)) := by
  rw [params_on]
  apply rename.map_on
  exact fun _ => rfl

end Member

namespace MemberArena

variable (arena : MemberArena)

@[simp] theorem size_on : (rename.on arena).size = arena.size := Array.size_map

@[simp] theorem ids_on : (rename.on arena).ids = arena.ids := by
  unfold ids
  rw [size_on]

theorem get_on (id : Nat) : (rename.on arena).get id = (arena.get id).map rename.on := by
  unfold get
  rw [show (rename.on arena).members = arena.members.map rename.on from rfl, Array.getElem?_map]
  cases arena.members[id]? <;> rfl

theorem set_on (id : Nat) (member : Member) :
    (rename.on arena).set id (rename.on member) = rename.on (arena.set id member) :=
  congrArg MemberArena.mk Array.map_setIfInBounds.symm

theorem topLevelWithin_on : ∀ depth id : Nat,
    Corresponds rename.on (arena.topLevelWithin depth id)
      ((rename.on arena).topLevelWithin depth id)
  | 0, _ => .failLeft _
  | depth + 1, id => by
    apply (Corresponds.of_map (get_on rename arena id)).bind
    intro member
    obtain ⟨name, span, detail, declared, type, modifiers, annotations, access, owner, progress⟩ :=
      member
    cases owner with
    | none => exact .ok (rename.on_plain _).symm
    | some owner => exact topLevelWithin_on depth owner

theorem topLevel_on (id : Nat) :
    Corresponds rename.on (arena.topLevel id) ((rename.on arena).topLevel id) := by
  unfold topLevel
  rw [size_on]
  exact topLevelWithin_on rename arena _ id

end MemberArena

namespace CompilationUnit

variable (unit : CompilationUnit)

theorem symbol_on (id : Nat) :
    (rename.on unit).symbol id = (unit.symbol id).map rename.symbols := by
  unfold symbol
  rw [show (rename.on unit).symbols = unit.symbols.map rename.symbols from rfl, Array.getElem?_map]
  cases unit.symbols[id]? <;> rfl

theorem typeOf_on (ref : ExprRef) : (rename.on unit).typeOf ref = rename.on (unit.typeOf ref) := by
  cases ref with
  | missing => exact rename.on_any.symm
  | node index =>
    change ((rename.on unit.exprTypes).get? index).getD .any = _
    rw [IdMap.get?_on]
    change _ = rename.on ((unit.exprTypes.get? index).getD .any)
    cases unit.exprTypes.get? index with
    | none => exact rename.on_any.symm
    | some type => rfl

theorem classOf_on (id : Nat) : Corresponds rename.on (unit.classOf id)
    ((rename.on unit).classOf id) :=
  (MemberArena.topLevel_on rename unit.members id).bind fun top => by
    rw [rename.on_plain]
    exact .of_map (MemberArena.get_on rename unit.members top)

/-- The parameters that each member declares. -/
def typeParams (unit : CompilationUnit) : List (List GenericParam) :=
  unit.members.toList.map (·.typeParams)

/-- The parameters that the members declare. -/
def params (unit : CompilationUnit) : List ParamRef := unit.typeParams.flatten.map (·.id)

theorem typeParams_on : (rename.on unit).typeParams = rename.on unit.typeParams := by
  have members : (rename.on unit).members.toList = unit.members.toList.map rename.on :=
    Array.toList_map
  unfold typeParams
  rw [members, rename.on_list, List.map_map, List.map_map]
  exact List.map_congr_left fun member _ => Member.typeParams_on rename member

theorem params_on : (rename.on unit).params = rename.on unit.params := by
  unfold params
  rw [typeParams_on, rename.flatten_on]
  apply rename.map_on
  exact fun _ => rfl

variable {unit}

theorem mem_symbols {id symbol : Nat} (ran : unit.symbol id = .ok symbol) :
    symbol ∈ unit.symbols := by
  unfold CompilationUnit.symbol at ran
  split at ran
  · rename_i found
    cases ran
    exact Array.mem_of_getElem? found
  · cases ran

theorem typeParams_of_lookup {id : Nat} {member : Member}
    (found : unit.members.members[id]? = some member) :
    unit.typeParams[id]? = some member.typeParams := by
  have listed : unit.members.toList[id]? = some member := by simpa [MemberArena.toList] using found
  simp [typeParams, listed]

theorem mem_params {id : Nat} {listed : List GenericParam}
    (found : unit.typeParams[id]? = some listed) {param : GenericParam} (member : param ∈ listed) :
    param.id ∈ unit.params :=
  List.mem_map_of_mem (List.mem_flatten.mpr ⟨listed, List.mem_of_getElem? found, member⟩)

/-- A member is replaced by one that declares the same parameters. -/
theorem typeParams_set {id : Nat} {member : Member}
    (same : unit.typeParams[id]? = some member.typeParams) :
    { unit with members := unit.members.set id member }.typeParams = unit.typeParams := by
  obtain ⟨inside, equal⟩ := List.getElem?_eq_some_iff.mp same
  have replaced : { unit with members := unit.members.set id member }.typeParams =
      unit.typeParams.set id member.typeParams := by
    simp [typeParams, MemberArena.toList, MemberArena.set, List.map_set]
  rw [replaced, ← equal, List.set_getElem_self]

end CompilationUnit
end

end ClassLang
