import ClassLang.Proofs.Order.Crossing
import ClassLang.Proofs.Session

/-! Declarations laid out from another position: they are the same up to the numbers of their
symbols and parameters. -/

namespace ClassLang

instance : Renamable Layout where
  apply rename layout :=
    { layout with
      params := rename.on layout.params
      members := rename.on layout.members
      symbols := rename.on layout.symbols
      records := rename.on layout.records }
  cancel rename layout := by simp

/-- So many symbols and parameters from one position on are renamed to those from another. -/
structure Renaming.Moves (rename : Renaming) (symbols params : Nat)
    (here there : Position) : Prop where
  unit : there.unit = rename.units here.unit
  member : there.member = here.member
  symbols : ∀ offset < symbols, rename.symbols (here.symbol + offset) = there.symbol + offset
  params : ∀ offset < params, rename.on (⟨here.param + offset⟩ : ParamRef) = ⟨there.param + offset⟩

section
variable {rename : Renaming}

theorem genericParams_on {first first' : Nat} {decls : List TypeParamDecl}
    (moved : ∀ offset < decls.length, rename.on (⟨first + offset⟩ : ParamRef) = ⟨first' + offset⟩) :
    genericParams first' decls = rename.on (genericParams first decls) := by
  induction decls generalizing first first' with
  | nil => rfl
  | cons decl rest ih =>
    have same := moved 0 (Nat.zero_lt_succ _)
    have later : genericParams (first' + 1) rest = rename.on (genericParams (first + 1) rest) := by
      apply ih
      intro offset inside
      rw [Nat.add_assoc, Nat.add_assoc, Nat.add_comm 1]
      exact moved (offset + 1) (Nat.succ_lt_succ inside)
    rw [genericParams, genericParams, later, rename.on_cons]
    apply congrArg (· :: _)
    exact congrArg (fun id => GenericParam.mk id decl.name decl.bounds decl.span) same.symm

theorem genericParam_ids (params : List GenericParam) :
    (rename.on params).map (·.id) = rename.on (params.map (·.id)) := by
  apply rename.map_on
  exact fun _ => rfl

theorem FieldDecl.laid_on (owner : Nat) (decl : FieldDecl) : rename.on
    (decl.laid owner) = decl.laid owner :=
  congrArg (fun type => { decl.laid owner with type }) rename.on_absent

theorem MethodDecl.laid_on {owner first first' : Nat} {inInterface : Bool} {decl : MethodDecl}
    (moved : ∀ offset < decl.typeParams.length,
      rename.on (⟨first + offset⟩ : ParamRef) = ⟨first' + offset⟩) :
    decl.laid owner inInterface first' = rename.on (decl.laid owner inInterface first) := by
  let params := decl.params.map fun param =>
    { name := param.name, declared := param.type,
      annotations := Declaration.annotations param.annotations, span := param.span : Param }
  have untyped : rename.on params = params := by
    change params.map rename.on = params
    rw [List.map_map]
    apply List.map_congr_left
    intro param _
    exact congrArg (Param.mk param.name param.type · _ _) rename.on_absent
  have detail :
      rename.on (MemberDetail.method (genericParams first decl.typeParams) params decl.body) =
      .method (genericParams first' decl.typeParams) params decl.body := by
    rw [genericParams_on moved]
    exact congrArg (MemberDetail.method _ · _) untyped
  have absent : rename.on TypeRef.absent = .absent := rename.on_absent
  exact (congr
    (congrArg (fun detail type => { decl.laid owner inInterface first with detail, type }) detail)
    absent).symm

theorem laidMethods_on {owner first first' : Nat} {inInterface : Bool} {methods : List MethodDecl}
    (moved : ∀ offset < (methods.map (·.typeParams.length)).sum,
      rename.on (⟨first + offset⟩ : ParamRef) = ⟨first' + offset⟩) :
    laidMethods owner inInterface first' methods = rename.on
      (laidMethods owner inInterface first methods) := by
  induction methods generalizing first first' with
  | nil => rfl
  | cons decl rest ih =>
    rw [List.map_cons, List.sum_cons] at moved
    rw [laidMethods, laidMethods, rename.on_cons]
    congr 1
    · exact MethodDecl.laid_on fun offset inside => moved offset (by omega)
    · apply ih
      intro offset inside
      rw [Nat.add_assoc, Nat.add_assoc]
      exact moved _ (by omega)

namespace ClassDecl

variable (decl : ClassDecl) {here there : Position}

/-- The number of parameters that the class and its methods declare. -/
def paramCount : Nat := decl.typeParams.length + (decl.methods.map (·.typeParams.length)).sum

theorem length_declaredParams : decl.declaredParams.length = decl.paramCount := by
  simp [declaredParams, paramCount, List.length_flatMap]

variable {symbols params : Nat} (moves : rename.Moves symbols params here there)
  (fits : decl.paramCount ≤ params)
include moves fits

theorem classParams_on :
    genericParams there.param decl.typeParams = rename.on
      (genericParams here.param decl.typeParams) := by
  apply genericParams_on
  intro offset inside
  apply moves.params
  unfold paramCount at fits
  omega

theorem inner_on : decl.inner there = rename.on (decl.inner here) := by
  unfold inner
  rw [rename.on_append, moves.member]
  congr 1
  · rw [rename.on_list, List.map_map]
    apply List.map_congr_left
    exact fun field _ => (FieldDecl.laid_on _ field).symm
  · apply laidMethods_on
    intro offset inside
    rw [Nat.add_assoc, Nat.add_assoc]
    apply moves.params
    unfold paramCount at fits
    omega

theorem laid_on (members : List Nat) : decl.laid there members = rename.on
    (decl.laid here members) := by
  have absent : rename.on TypeRef.absent = .absent := rename.on_absent
  unfold laid
  rw [classParams_on decl moves fits]
  exact congrArg (fun type => { decl.laid here members with
    detail := .class_ (rename.on (genericParams here.param decl.typeParams)) decl.superclass
      decl.interfaces none [] decl.permits members, type }) absent.symm

omit fits in
theorem innerSymbol_on (entry : Member × Nat) :
    decl.innerSymbol there (rename.on entry) = rename.on (decl.innerSymbol here entry) := by
  obtain ⟨member, id⟩ := entry
  have count : (rename.on member).params.length = member.params.length := by
    rw [Member.params_on, rename.length_on]
  have kind : (rename.on member).kind = member.kind := by
    obtain ⟨name, span, detail, declared, type, modifiers, annotations, access, owner, progress⟩ :=
      member
    cases detail <;> rfl
  unfold innerSymbol
  rw [moves.unit, rename.on_fst, count, kind]
  rfl

theorem layout_on (counted : 1 + decl.fields.length + decl.methods.length ≤ symbols) :
    decl.layout there = rename.on (decl.layout here) := by
  have inner := inner_on decl moves fits
  have size : (decl.inner there).length = (decl.inner here).length := by
    rw [inner, rename.length_on]
  have unbound : rename.on decl.declaredParams = decl.declaredParams := by
    refine (List.map_congr_left fun param listed => ?_).trans (List.map_id _)
    have bare : param.bounds = [] := (decl.layout_fits here).params param listed
    exact congrArg (TypeParam.mk param.name param.owner param.variance)
      ((congrArg rename.on bare).trans bare.symm)
  have numbered : ((decl.inner there).zipIdx (there.member + 1)).map (decl.innerSymbol there) =
      rename.on (((decl.inner here).zipIdx (here.member + 1)).map (decl.innerSymbol here)) := by
    rw [inner, moves.member, rename.zipIdx_on]
    apply rename.map_on
    exact innerSymbol_on decl moves
  have first : rename.symbols here.symbol = there.symbol := moves.symbols 0 (by omega)
  have width : (decl.inner here).length = decl.fields.length + decl.methods.length := by
    simp [ClassDecl.inner]
  have later : (List.range' (here.symbol + 1) (decl.inner here).length).map rename.symbols =
      List.range' (there.symbol + 1) (decl.inner here).length := by
    apply List.ext_getElem (by simp)
    intro offset inside _
    rw [List.length_map, List.length_range'] at inside
    have moved := moves.symbols (1 + offset) (by omega)
    simpa [Nat.add_assoc] using moved
  have record : ({ symbol := there.symbol, name := decl.name, order := (there.unit, there.member)
                   typeParams := (genericParams there.param decl.typeParams).map (·.id)
                   permits := if decl.modifiers.isSealed then some decl.permits else none
                   members := List.range' (there.symbol + 1) (decl.inner here).length } :
                   ClassRecord) =
      rename.on { symbol := here.symbol, name := decl.name, order := (here.unit, here.member)
                  typeParams := (genericParams here.param decl.typeParams).map (·.id)
                  permits := if decl.modifiers.isSealed then some decl.permits else none
                  members := List.range' (here.symbol + 1) (decl.inner here).length } := by
    rw [← later, ← first, moves.unit, moves.member, classParams_on decl moves fits,
      genericParam_ids]
    rfl
  unfold layout partialLayout
  rw [size, numbered, record, laid_on decl moves fits, laid_on decl moves fits, inner,
    moves.member, moves.unit]
  exact congrArg (fun params => { rename.on (decl.layout here) with params }) unbound.symm

/-- The number of symbols that the class and its members have. -/
def memberCount : Nat := 1 + decl.fields.length + decl.methods.length

end ClassDecl

variable {decls : List ClassDecl} {here there : Position}

theorem Position.after_layout (decl : ClassDecl) (position : Position) :
    position.after (decl.layout position) =
      { position with
        member := position.member + decl.memberCount
        symbol := position.symbol + decl.memberCount
        param := position.param + decl.paramCount } := by
  have params := decl.length_declaredParams
  simp only [Position.after, ClassDecl.layout, ClassDecl.partialLayout, params, List.length_cons,
    List.length_map, List.length_zipIdx, ClassDecl.inner, List.length_append, length_laidMethods,
      ClassDecl.memberCount]
  congr 1 <;> omega

theorem Layout.append_on (first second : Layout) :
    (rename.on first).append (rename.on second) = rename.on (first.append second) := by
  change _ = Layout.mk (rename.on (first.params ++ second.params))
    (rename.on (first.members ++ second.members)) (rename.on (first.symbols ++ second.symbols))
    (rename.on (first.records ++ second.records)) _
  rw [rename.on_append, rename.on_append, rename.on_append, rename.on_append]
  rfl

theorem layoutAll_on
    (moves : rename.Moves (decls.map (·.memberCount)).sum (decls.map (·.paramCount)).sum
      here there) :
    layoutAll there decls = rename.on (layoutAll here decls) := by
  induction decls generalizing here there with
  | nil => rfl
  | cons decl rest ih =>
    rw [List.map_cons, List.map_cons, List.sum_cons, List.sum_cons] at moves
    have equal : decl.layout there = rename.on (decl.layout here) :=
      decl.layout_on moves (Nat.le_add_right _ _) (Nat.le_add_right _ _)
    have others : layoutAll (there.after (decl.layout there)) rest =
        rename.on (layoutAll (here.after (decl.layout here)) rest) := by
      apply ih
      rw [Position.after_layout, Position.after_layout]
      constructor
      case unit => exact moves.unit
      case member => exact congrArg (· + _) moves.member
      case symbols =>
        intro offset inside
        dsimp only
        rw [Nat.add_assoc, Nat.add_assoc]
        exact moves.symbols _ (by omega)
      case params =>
        intro offset inside
        dsimp only
        rw [Nat.add_assoc, Nat.add_assoc]
        exact moves.params _ (by omega)
    rw [layoutAll, layoutAll, others, equal]
    exact Layout.append_on _ _

/-- The number of parameters that the classes of a unit and their methods declare. -/
def SourceUnit.paramCount (source : SourceUnit) : Nat := (source.classes.map (·.paramCount)).sum

/-- The position behind the declarations of a unit. -/
theorem Position.after_layoutAll (decls : List ClassDecl) (position : Position) :
    position.after (layoutAll position decls) =
      { position with
        member := position.member + (decls.map (·.memberCount)).sum
        symbol := position.symbol + (decls.map (·.memberCount)).sum
        param := position.param + (decls.map (·.paramCount)).sum } := by
  induction decls generalizing position with
  | nil => rfl
  | cons decl rest ih =>
    have joined : position.after (layoutAll position (decl :: rest)) =
        (position.after (decl.layout position)).after
          (layoutAll (position.after (decl.layout position)) rest) := by
      simp [Position.after, layoutAll, Layout.append, Nat.add_assoc]
    rw [joined, ih, Position.after_layout]
    simp [Nat.add_assoc]

theorem PatternStore.on_empty : rename.on ({} : PatternStore) = {} :=
  congrArg PatternStore.mk Array.map_empty

theorem IdMap.on_empty {α : Type} [Renamable α] : rename.on ({} : IdMap α) = {} :=
  congrArg IdMap.mk Array.map_empty

/-- Units that are declared alike. -/
theorem SourceUnit.declared_on {source : SourceUnit}
    (moves : rename.Moves source.memberCount source.paramCount here there) :
    source.declared there = rename.on (source.declared here) := by
  have same := layoutAll_on moves
  have count : (layoutAll there source.classes).symbols.length =
      (layoutAll here source.classes).symbols.length := by
    rw [same]
    exact List.length_map _
  have width : (layoutAll here source.classes).symbols.length = source.memberCount :=
    (layoutAll_fits source.classes here).members.trans (length_layoutAll source.classes here)
  have symbols : (List.range' there.symbol (layoutAll here source.classes).symbols.length).toArray =
      (List.range' here.symbol (layoutAll here source.classes).symbols.length).toArray.map
        rename.symbols := by
    rw [List.map_toArray]
    apply congrArg
    apply List.ext_getElem (by simp)
    intro offset inside _
    rw [List.length_range', width] at inside
    simpa using (moves.symbols offset inside).symm
  have members : (layoutAll there source.classes).members.toArray =
      (layoutAll here source.classes).members.toArray.map rename.on := by
    rw [same, List.map_toArray]
    rfl
  have classes : (layoutAll there source.classes).classes =
      (layoutAll here source.classes).classes := by
    rw [same]
    rfl
  unfold SourceUnit.declared
  rw [count, symbols, members, classes, moves.unit]
  change _ = ({ id := rename.units here.unit, name := source.name, arena := source.arena
                members := ⟨(layoutAll here source.classes).members.toArray.map rename.on⟩
                classes := (layoutAll here source.classes).classes
                symbols := Array.map rename.symbols _
                patterns := rename.on {}, exprTypes := rename.on {}, resolutions := rename.on {}
                matchGroups := rename.on {}, lowered := rename.on {} } : CompilationUnit)
  rw [PatternStore.on_empty, IdMap.on_empty, IdMap.on_empty, IdMap.on_empty, IdMap.on_empty]

end

end ClassLang
