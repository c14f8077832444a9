import ClassLang.Proofs.Order.Crossing
import ClassLang.Proofs.Stage.Signatures

/-! Resolving and publishing the types of a unit in two runs. Only names are looked up that were
declared before, so it does not matter which units published their types already. -/

namespace ClassLang

instance : Renamable TypeSite :=
  ⟨fun rename site => { site with scope := rename.on site.scope }, fun rename site => by simp⟩

namespace TypeScope

variable (rename : Renaming)

theorem find?_on (scope : TypeScope) (name : Name) :
    find? (rename.on scope) name = rename.on (find? scope name) := by
  have reversed : (rename.on scope).reverse = rename.on scope.reverse := List.map_reverse.symm
  have found := Substitution.lookup_on rename scope.reverse name
  rw [rename.on_plain name] at found
  unfold find?
  rw [reversed, found]

theorem ofParams_on (params : List GenericParam) :
    ofParams (rename.on params) = rename.on (ofParams params) := by
  apply rename.map_on
  exact fun _ => rfl

theorem forMember_on (members : MemberArena) (id : Nat) :
    Corresponds rename.on (forMember members id) (forMember (rename.on members) id) := by
  have joined : ∀ (outer : List GenericParam) (member : Member),
      ofParams (rename.on outer) ++ ofParams (rename.on member).typeParams =
        rename.on (ofParams outer ++ ofParams member.typeParams) := by
    intro outer member
    rw [Member.typeParams_on, ofParams_on, ofParams_on, rename.on_append]
  apply (Corresponds.of_map (MemberArena.get_on rename members id)).bind
  intro member
  replace joined := fun outer => joined outer member
  obtain ⟨name, span, detail, declared, type, modifiers, annotations, access, owner, progress⟩ :=
    member
  cases owner with
  | none => exact .ok (joined [])
  | some owner =>
    apply (MemberArena.topLevel_on rename members owner).bind
    intro top
    rw [rename.on_plain top]
    apply (Corresponds.of_map (MemberArena.get_on rename members top)).bind
    intro class_
    rw [Member.typeParams_on]
    exact .ok (joined class_.typeParams)

end TypeScope

namespace TypePool

variable {pool : TypePool} {param : ParamRef} {bounds : List TypeRef}

theorem lookup_setBounds (index : Nat) :
    (pool.setBounds param bounds).params[index]? =
      if index = param.raw then pool.params[index]?.map fun declared => { declared with bounds }
      else pool.params[index]? := by
  unfold setBounds
  split
  · rename_i declared found
    dsimp only
    by_cases same : index = param.raw
    · subst same
      rw [Array.getElem?_setIfInBounds_self_of_lt (Array.getElem?_eq_some_iff.mp found).1,
        if_pos rfl, found]
      rfl
    · rw [Array.getElem?_setIfInBounds_ne (Ne.symm same), if_neg same]
  · rename_i missing
    split
    · rename_i same
      rw [same, missing]
      rfl
    · rfl

end TypePool

namespace SymbolTable

/-- What publishing a signature leaves of the table. -/
theorem publishSignature_inv {table after : SymbolTable} {id : Nat} {signature : Signature}
    (published : table.publishSignature id signature = .ok after) :
    after = table.sign id signature := by
  obtain ⟨symbol, read, _⟩ := Except.bind_eq_ok published
  unfold SymbolTable.get at read
  split at read
  · rename_i found
    exact Except.ok.inj (published.symm.trans (publishSignature_eq found))
  · cases read

end SymbolTable

namespace Crossing

variable {cross : Crossing}

/-- What a name refers to was declared before the stages. -/
theorem names_now {work work' : Workspace} (left : cross.start.Advances cross.settled work)
    (right : cross.start'.Advances cross.settled work') (name : Name) :
    (work'.symbols.record? name).map ClassRecord.bare =
      cross.rename.on ((work.symbols.record? name).map ClassRecord.bare) := by
  rw [SymbolTable.record?_bare left.classes, SymbolTable.record?_bare right.classes]
  exact cross.names name

theorem lookupClass?_now {work work' : Workspace} (left : cross.start.Advances cross.settled work)
    (right : cross.start'.Advances cross.settled work') (name : Name) :
    (work'.symbols.lookupClass? name).isNone = (work.symbols.lookupClass? name).isNone := by
  have same := names_now left right name
  unfold SymbolTable.lookupClass?
  cases found : work.symbols.record? name <;> cases there : work'.symbols.record? name <;>
    simp [found, there] at same ⊢

theorem typeParams_now {work work' : Workspace} (left : cross.start.Advances cross.settled work)
    (right : cross.start'.Advances cross.settled work') (name : Name) :
    work'.hierarchy.typeParams name = cross.rename.on (work.hierarchy.typeParams name) := by
  have same := names_now left right name
  change ((work'.symbols.record? name).map (·.typeParams)).getD [] =
    cross.rename.on (((work.symbols.record? name).map (·.typeParams)).getD [])
  cases found : work.symbols.record? name with
  | none =>
    cases there : work'.symbols.record? name with
    | none => rfl
    | some record => rw [found, there] at same; cases same
  | some record =>
    cases there : work'.symbols.record? name with
    | none => rw [found, there] at same; cases same
    | some record' =>
      rw [found, there] at same
      exact congrArg ClassRecord.typeParams (Option.some.inj same)

/-! Written types. -/

theorem checkArgCount_agrees (name : Name) (expected found : Nat) (span : Span) :
    cross.Agrees (TypeSite.checkArgCount name expected found span)
      (TypeSite.checkArgCount name expected found span) :=
  .ite Iff.rfl (fun _ => .pure (cross.rename.on_plain _).symm) fun _ =>
    (report_agrees _).bind fun _ => .pure (cross.rename.on_plain _).symm

theorem resolveNamed_agrees (site : TypeSite) (name : Name) (count : Nat) (span : Span)
    {args args' : StageM (List TypeRef)} (same : cross.Agrees args args') :
    cross.Agrees (site.resolveNamed name count span args)
      ((cross.rename.on site).resolveNamed name count span args') := by
  have plainClass : cross.Agrees (liftM (PoolM.class_ name) : StageM TypeRef)
      (liftM (PoolM.class_ name)) :=
    onPool_agrees fun _ _ _ _ => Comparison.class_agrees name
  unfold TypeSite.resolveNamed
  rw [show (cross.rename.on site).scope = cross.rename.on site.scope from rfl, TypeScope.find?_on]
  cases site.scope.find? name with
  | some param =>
    exact (checkArgCount_agrees name 0 count span).bindPlain fun _ =>
      onPool_agrees fun _ _ _ _ => Comparison.var_agrees param
  | none =>
    cases found : TypeRef.primitive? name with
    | some primitive =>
      apply (checkArgCount_agrees name 0 count span).bindPlain
      intro _
      exact .pure (cross.rename.on_primitive (TypeSite.isPrimitive_of_primitive? found)).symm
    | none =>
      apply Setting.Agree.get
      intro work work' left right _
      have missing := lookupClass?_now left right name
      have expected := typeParams_now left right name
      apply Setting.Agree.ite (by rw [missing])
      · exact fun _ => (report_agrees _).bind fun _ =>
          onPool_agrees fun _ _ _ _ => Comparison.unresolved_agrees name
      intro _
      apply Setting.Agree.ite Iff.rfl
      · exact fun _ => plainClass
      intro _
      dsimp only
      rw [expected, cross.rename.length_on]
      apply Setting.Agree.branch (Setting.Agree.plain.mp (checkArgCount_agrees name _ count span))
      · apply same.bind
        intro args
        apply Setting.Agree.bind (onPool_agrees fun _ _ _ _ => Comparison.applied_agrees name args)
        intro type
        apply Setting.Agree.bind
        · apply changeUnit_agrees
          · intro unit
            exact congrArg (fun boundUses => { cross.rename.on unit with boundUses })
              (cross.rename.on_append unit.boundUses [{ member := site.member, span, type }]).symm
          · exact fun _ _ => rfl
          · exact fun _ _ => rfl
        · exact fun _ => .pure rfl
      · exact plainClass

mutual

theorem resolve_agrees (site : TypeSite) : ∀ expr : TypeExpr,
    cross.Agrees (site.resolve expr) ((cross.rename.on site).resolve expr)
  | .infer => .pure cross.rename.on_any.symm
  | .wildcard .invariant _ _ => onPool_agrees fun _ _ _ _ => Comparison.anyWildcard_agrees
  | .wildcard .covariant bound _ => (resolveBound_agrees site bound).bind fun bound =>
      onPool_agrees fun _ _ _ _ => Comparison.wildcard_agrees .covariant bound
  | .wildcard .contravariant bound _ => (resolveBound_agrees site bound).bind fun bound =>
      onPool_agrees fun _ _ _ _ => Comparison.wildcard_agrees .contravariant bound
  | .named name args span =>
    resolveNamed_agrees site name args.length span (resolveArgs_agrees site args)

theorem resolveBound_agrees (site : TypeSite) : ∀ bound : Option TypeExpr,
    cross.Agrees (site.resolveBound bound) ((cross.rename.on site).resolveBound bound)
  | none => .pure cross.rename.on_any.symm
  | some bound => resolve_agrees site bound

theorem resolveArgs_agrees (site : TypeSite) : ∀ args : List TypeExpr,
    cross.Agrees (site.resolveArgs args) ((cross.rename.on site).resolveArgs args)
  | [] => .pure rfl
  | arg :: args => (resolve_agrees site arg).bind fun _ =>
      (resolveArgs_agrees site args).bind fun _ => .pure rfl

end

theorem resolveSuperclass_agrees (site : TypeSite) (superclass : Option TypeExpr) :
    cross.Agrees (superclass.mapM site.resolve)
      (superclass.mapM (cross.rename.on site).resolve) := by
  cases superclass with
  | none => exact .pure rfl
  | some expr =>
    change cross.Agrees (some <$> site.resolve expr) (some <$> (cross.rename.on site).resolve expr)
    rw [map_eq_pure_bind, map_eq_pure_bind]
    exact (resolve_agrees site expr).bind fun _ => .pure rfl

theorem ids_on (rename : Renaming) (params : List GenericParam) :
    (rename.on params).map (·.id) = rename.on (params.map (·.id)) := by
  apply rename.map_on
  exact fun _ => rfl

theorem typed_on (params : List Param) (types : List TypeRef) :
    Param.typed (cross.rename.on params) (cross.rename.on types) = cross.rename.on
      (Param.typed params types) := by
  unfold Param.typed
  rw [cross.rename.zip_on]
  apply cross.rename.map_on
  exact fun _ => rfl

/-! Publishing. -/

/-- An action that only changes the workspace. -/
theorem change_agrees {first second : StageM PUnit} {change change' : Workspace → Workspace}
    (does : ∀ work after, first.run work = .ok ((), after) → after = change work)
    (does' : ∀ work after, second.run work = .ok ((), after) → after = change' work)
    (left : ∀ work, cross.start.Advances cross.settled work →
      work.Advances cross.settled (change work))
    (right : ∀ work, cross.start'.Advances cross.settled work →
      work.Advances cross.settled (change' work))
    (alike : ∀ work work', cross.Alike work work' → cross.Alike (change work) (change' work')) :
    cross.Agrees first second where
  leadsLeft work lefts _ after ran := by
    rw [does work after ran]
    exact left work lefts
  leadsRight work rights _ after ran := by
    rw [does' work after ran]
    exact right work rights
  agrees := by
    intro work work' _ _ likeness result after result' after' ran ran' _
    rw [does work after ran, does' work' after' ran']
    exact ⟨rfl, alike work work' likeness⟩

/-- The parameters and symbols of the unit are those of the unit in the other run. -/
theorem own_param {work : Workspace} {param : ParamRef} (own : param ∈ cross.start.unit.params)
    (right : cross.start'.Advances cross.settled work) :
    cross.rename.on param ∈ work.unit.params := by
  rw [right.sameParams, cross.unit, CompilationUnit.params_on]
  exact List.mem_map_of_mem own

theorem own_symbol {work : Workspace} {id : Nat} (own : id ∈ cross.start.unit.symbols)
    (right : cross.start'.Advances cross.settled work) :
    cross.rename.symbols id ∈ work.unit.symbols := by
  rw [right.unitSymbols, cross.unit]
  exact Array.mem_map_of_mem own

section
variable (open_ : ¬ cross.settled)
include open_

/-- Setting the bounds of a parameter of the unit. -/
theorem advances_setBounds {work : Workspace} {param : ParamRef} (own : param ∈ work.unit.params)
    (bounds : List TypeRef) :
    work.Advances cross.settled { work with pool := work.pool.setBounds param bounds } := by
  refine { Workspace.Advances.refl cross.settled work with
    types := TypePool.setBounds_within.types, declared := ?_, params := ?_,
    settled := fun done => absurd done open_ }
  · apply Array.ext_getElem?
    intro index
    rw [Array.getElem?_map, Array.getElem?_map]
    change Option.map _ (work.pool.setBounds param bounds).params[index]? = _
    rw [TypePool.lookup_setBounds]
    split
    · rw [Option.map_map]
      rfl
    · rfl
  · intro other foreign
    change (work.pool.setBounds param bounds).params[other.raw]? = _
    rw [TypePool.lookup_setBounds, if_neg]
    intro same
    exact foreign (by rwa [show other = param from congrArg ParamRef.mk same])

theorem setBounds_agrees {param : ParamRef} (own : param ∈ cross.start.unit.params)
    (bounds : List TypeRef) :
    cross.Agrees (StageM.onPool (PoolM.setBounds param bounds))
      (StageM.onPool (PoolM.setBounds (cross.rename.on param) (cross.rename.on bounds))) := by
  apply change_agrees
  · intro work after ran
    cases ran
    rfl
  · intro work after ran
    cases ran
    rfl
  · exact fun work left => advances_setBounds open_ (left.sameParams.symm ▸ own) bounds
  · exact fun work right => advances_setBounds open_ (own_param own right) _
  · intro work work' alike
    refine { alike with params := fun other listed => ?_ }
    have same := alike.params other listed
    change (work'.pool.setBounds _ _).params[_]? = cross.rename.on
      (work.pool.setBounds _ _).params[_]?
    rw [TypePool.lookup_setBounds, TypePool.lookup_setBounds, same]
    by_cases differ : other = param
    · subst differ
      rw [if_pos rfl, if_pos rfl]
      cases work.pool.params[other.raw]? <;> rfl
    · rw [if_neg, if_neg]
      · exact fun raw => differ (congrArg ParamRef.mk raw)
      · exact fun raw => differ (cross.rename.on_inj.mp (congrArg ParamRef.mk raw))

/-- Publishing the signature of a symbol of the unit. -/
theorem advances_sign {work : Workspace} {id : Nat} (own : id ∈ work.unit.symbols)
    (signature : Signature) :
    work.Advances cross.settled { work with symbols := work.symbols.sign id signature } := by
  refine { Workspace.Advances.refl cross.settled work with
    named := ?_, symbols := ?_, settled := fun done => absurd done open_ }
  · apply Array.ext_getElem?
    intro index
    rw [Array.getElem?_map, Array.getElem?_map]
    change Option.map _ (work.symbols.sign id signature).symbols[index]? = _
    unfold SymbolTable.sign
    rw [Array.getElem?_modify]
    split
    · cases work.symbols.symbols[index]? <;> rfl
    · rfl
  · intro other foreign
    unfold SymbolTable.sign
    rw [Array.getElem?_modify, if_neg]
    rintro rfl
    exact foreign own

theorem publishSignature_agrees {id : Nat} (own : id ∈ cross.start.unit.symbols)
    (signature : Signature) :
    cross.Agrees (StageM.publishSignature id signature)
      (StageM.publishSignature (cross.rename.symbols id) (cross.rename.on signature)) := by
  have does : ∀ {id : Nat} {signature : Signature} (work after : Workspace),
      (StageM.publishSignature id signature).run work = .ok ((), after) →
        after = { work with symbols := work.symbols.sign id signature } := by
    intro id signature work after ran
    obtain ⟨⟨symbols, between⟩, asked, made⟩ := Except.bind_eq_ok ran
    cases made
    obtain ⟨published, rfl⟩ := inspect_eq_ok asked
    rw [SymbolTable.publishSignature_inv published]
  apply change_agrees does does
  · exact fun work left => advances_sign open_ (left.unitSymbols.symm ▸ own) signature
  · exact fun work right => advances_sign open_ (own_symbol own right) _
  · intro work work' alike
    refine { alike with symbols := fun other listed => ?_ }
    have same := alike.symbols other listed
    unfold SymbolTable.sign
    rw [Array.getElem?_modify, Array.getElem?_modify, same]
    by_cases differ : id = other
    · subst differ
      rw [if_pos rfl, if_pos rfl]
      cases work.symbols.symbols[id]? <;> rfl
    · rw [if_neg differ, if_neg (mt cross.rename.symbols.injective.eq_iff.mp differ)]

/-- Publishing the supertypes of a class of the unit. -/
theorem advances_publishClass {work : Workspace} {id : Nat} (own : id ∈ work.unit.symbols)
    (superclass : Option TypeRef) (interfaces : List TypeRef) :
    work.Advances cross.settled
      { work with symbols := work.symbols.publishClass id superclass interfaces } := by
  refine { Workspace.Advances.refl cross.settled work with
    classes := ?_, records := ?_, settled := fun done => absurd done open_ }
  · change List.map _ (List.map _ work.symbols.classes) = _
    rw [List.map_map]
    apply List.map_congr_left
    intro record _
    simp only [Function.comp_apply]
    split <;> rfl
  · intro other foreign
    refine (SymbolTable.recordsOf_publishClass id _ _ other).trans (if_neg ?_)
    rintro rfl
    exact foreign own

theorem publishClass_agrees {id : Nat} (own : id ∈ cross.start.unit.symbols)
    (superclass : Option TypeRef) (interfaces : List TypeRef) :
    cross.Agrees
      (modify fun work : Workspace =>
        { work with symbols := work.symbols.publishClass id superclass interfaces })
      (modify fun work : Workspace => { work with
        symbols := work.symbols.publishClass (cross.rename.symbols id) (cross.rename.on superclass)
          (cross.rename.on interfaces) }) := by
  apply modify_agrees
  · exact fun work left => advances_publishClass open_ (left.unitSymbols.symm ▸ own) _ _
  · exact fun work right => advances_publishClass open_ (own_symbol own right) _ _
  · intro work work' _ _ alike
    refine { alike with records := fun other listed => ?_ }
    have same := alike.records other listed
    dsimp only
    rw [SymbolTable.recordsOf_publishClass, SymbolTable.recordsOf_publishClass, same]
    by_cases differ : other = id
    · subst differ
      rw [if_pos rfl, if_pos rfl]
      apply cross.rename.map_on
      exact fun _ => rfl
    · rw [if_neg differ, if_neg (mt cross.rename.symbols.injective.eq_iff.mp differ)]

theorem resolveBounds_agrees (site : TypeSite) {params : List GenericParam}
    (own : ∀ param ∈ params, param.id ∈ cross.start.unit.params) :
    cross.Agrees (site.resolveBounds params)
      ((cross.rename.on site).resolveBounds (cross.rename.on params)) :=
  .forM_on fun param listed => (resolveArgs_agrees site param.bounds).bind fun bounds =>
    setBounds_agrees open_ (own param listed) bounds

/-- A member is left with its signature published. -/
theorem publish_agrees {id symbol : Nat} {later : Member} (own : symbol ∈ cross.start.unit.symbols)
    (listed : cross.start.unit.typeParams[id]? = some later.typeParams) (signature : Signature) :
    cross.Agrees
      (do
        StageM.publishSignature symbol signature
        StageM.setMember id later)
      (do
        StageM.publishSignature (cross.rename.symbols symbol) (cross.rename.on signature)
        StageM.setMember id (cross.rename.on later)) :=
  (publishSignature_agrees open_ own signature).bind fun _ => setMember_agrees listed

/-! The signature of a member is resolved and published, by what the member declares. -/

section
variable {id symbol : Nat} {member : Member} (own : symbol ∈ cross.start.unit.symbols)
  (listed : cross.start.unit.typeParams[id]? = some member.typeParams) (site : TypeSite)
include own listed

omit open_ own in
/-- The parameters that a member declares are parameters of the unit. -/
theorem typeParams_here {typeParams : List GenericParam} (same : member.typeParams = typeParams) :
    ∀ param ∈ typeParams, param.id ∈ cross.start.unit.params :=
  fun _ inside => CompilationUnit.mem_params listed (same ▸ inside)

theorem fieldTypes_agrees :
    cross.Agrees
      (do
        let type ← site.resolve member.declared
        StageM.publishSignature symbol { type }
        StageM.setMember id { member with type })
      (do
        let type ← (cross.rename.on site).resolve member.declared
        StageM.publishSignature (cross.rename.symbols symbol) { type }
        StageM.setMember id { cross.rename.on member with type }) := by
  apply (resolve_agrees site member.declared).bind
  intro type
  exact publish_agrees open_ own
    (show _ = some (Member.typeParams { member with type }) from listed) { type }

theorem methodTypes_agrees {typeParams : List GenericParam} {params : List Param}
    {body : Option ExprRef} (detail : member.detail = .method typeParams params body) :
    cross.Agrees
      (do
        site.resolveBounds typeParams
        let paramTypes ← site.resolveArgs (params.map (·.declared))
        let type ← match member.declared with
          | .infer => pure TypeRef.void
          | declared => site.resolve declared
        StageM.publishSignature symbol
          { type, params := paramTypes, typeParams := typeParams.map (·.id) }
        StageM.setMember id
          { member with type, detail := .method typeParams (Param.typed params paramTypes) body })
      (do
        (cross.rename.on site).resolveBounds (cross.rename.on typeParams)
        let paramTypes ← (cross.rename.on site).resolveArgs
          ((cross.rename.on params).map (·.declared))
        let type ← match member.declared with
          | .infer => pure TypeRef.void
          | declared => (cross.rename.on site).resolve declared
        StageM.publishSignature (cross.rename.symbols symbol)
          { type, params := paramTypes, typeParams := (cross.rename.on typeParams).map (·.id) }
        StageM.setMember id { cross.rename.on member with
          type, detail := .method (cross.rename.on typeParams)
            (Param.typed (cross.rename.on params) paramTypes) body }) := by
  apply (resolveBounds_agrees open_ site
    (typeParams_here listed (by simp [Member.typeParams, detail]))).bind
  intro _
  have written : (cross.rename.on params).map (·.declared) = params.map (·.declared) := by
    rw [cross.rename.on_list, List.map_map]
    rfl
  rw [written]
  apply (resolveArgs_agrees site _).bind
  intro paramTypes
  have publish : ∀ type : TypeRef, cross.Agrees
      (do
        StageM.publishSignature symbol
          { type, params := paramTypes, typeParams := typeParams.map (·.id) }
        StageM.setMember id
          { member with type, detail := .method typeParams (Param.typed params paramTypes) body })
      (do
        StageM.publishSignature (cross.rename.symbols symbol)
          { type := cross.rename.on type, params := cross.rename.on paramTypes
            typeParams := (cross.rename.on typeParams).map (·.id) }
        StageM.setMember id { cross.rename.on member with
          type := cross.rename.on type
          detail := .method (cross.rename.on typeParams)
            (Param.typed (cross.rename.on params) (cross.rename.on paramTypes)) body }) := by
    intro type
    rw [show (cross.rename.on typeParams).map (·.id) = cross.rename.on (typeParams.map (·.id)) from
      ids_on cross.rename typeParams, typed_on]
    refine publish_agrees open_ own ?_
      { type, params := paramTypes, typeParams := typeParams.map (·.id) }
    simp [listed, Member.typeParams, detail]
  obtain ⟨name, span, _, declared, type, modifiers, annotations, access, owner, progress⟩ := member
  cases declared with
  | infer =>
    have void := publish .void
    rw [cross.rename.on_void] at void
    exact void
  | named name args span => exact (resolve_agrees site _).bind publish
  | wildcard variance bound span => exact (resolve_agrees site _).bind publish

theorem classTypes_agrees {typeParams : List GenericParam} {superclass : Option TypeExpr}
    {interfaces : List TypeExpr} {before : Option TypeRef} {beforeAll : List TypeRef}
    {permits : List Name} {members : List Nat}
    (detail : member.detail = .class_ typeParams superclass interfaces before beforeAll
      permits members) :
    cross.Agrees
      (do
        site.resolveBounds typeParams
        let superType ← superclass.mapM site.resolve
        let interfaceTypes ← site.resolveArgs interfaces
        let type ← StageM.withClasses (·.selfType member.name)
        modify fun work : Workspace =>
          { work with symbols := work.symbols.publishClass symbol superType interfaceTypes }
        StageM.publishSignature symbol { type, typeParams := typeParams.map (·.id) }
        StageM.setMember id { member with
          type, detail := .class_ typeParams superclass interfaces superType interfaceTypes
            permits members })
      (do
        (cross.rename.on site).resolveBounds (cross.rename.on typeParams)
        let superType ← superclass.mapM (cross.rename.on site).resolve
        let interfaceTypes ← (cross.rename.on site).resolveArgs interfaces
        let type ← StageM.withClasses (·.selfType member.name)
        modify fun work : Workspace => { work with
          symbols := work.symbols.publishClass (cross.rename.symbols symbol) superType
            interfaceTypes }
        StageM.publishSignature (cross.rename.symbols symbol)
          { type, typeParams := (cross.rename.on typeParams).map (·.id) }
        StageM.setMember id { cross.rename.on member with
          type
          detail := .class_ (cross.rename.on typeParams) superclass interfaces superType
            interfaceTypes permits members }) := by
  apply (resolveBounds_agrees open_ site
    (typeParams_here listed (by simp [Member.typeParams, detail]))).bind
  intro _
  apply Setting.Agree.bind (resolveSuperclass_agrees site superclass)
  intro superType
  apply (resolveArgs_agrees site interfaces).bind
  intro interfaceTypes
  apply Setting.Agree.bindOn cross.rename
  · apply Setting.Agree.get
    intro work work' left right _
    apply onPool_agrees
    intro _ _ _ _
    exact Comparison.selfType_agrees (typeParams_now left right member.name)
  intro type
  apply (publishClass_agrees open_ own superType interfaceTypes).bind
  intro _
  rw [show (cross.rename.on typeParams).map (·.id) = cross.rename.on (typeParams.map (·.id)) from
    ids_on cross.rename typeParams]
  refine publish_agrees open_ own ?_ { type, typeParams := typeParams.map (·.id) }
  simp [listed, Member.typeParams, detail]

end

theorem resolveTypes_agrees (id : Nat) :
    cross.Agrees (StageM.resolveTypes id) (StageM.resolveTypes id) := by
  apply Setting.Agree.get
  intro work work' left right seen
  dsimp only
  rw [show work'.unit = cross.rename.on work.unit from seen]
  apply Setting.Agree.bind (lift_agrees (TypeScope.forMember_on cross.rename work.unit.members id))
  intro scope
  apply liftBind_agrees (CompilationUnit.symbol_on cross.rename work.unit id)
  intro symbol ran
  have own : symbol ∈ cross.start.unit.symbols :=
    left.unitSymbols ▸ CompilationUnit.mem_symbols ran
  apply liftBind_agrees (MemberArena.get_on cross.rename work.unit.members id)
  intro member read
  have listed : cross.start.unit.typeParams[id]? = some member.typeParams := by
    rw [← left.unitParams]
    exact CompilationUnit.typeParams_of_lookup (MemberArena.lookup_of_get read)
  let site : TypeSite := { scope, member := id }
  obtain ⟨name, span, detail, declared, type, modifiers, annotations, access, owner, progress⟩ :=
    member
  cases detail with
  | field init => exact fieldTypes_agrees open_ own listed site
  | method typeParams params body => exact methodTypes_agrees open_ own listed site rfl
  | class_ typeParams superclass interfaces superType interfaceTypes permits members =>
    exact classTypes_agrees open_ own listed site rfl

end

end Crossing
end ClassLang
