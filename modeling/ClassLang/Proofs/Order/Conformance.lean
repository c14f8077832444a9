import ClassLang.Proofs.Order.Bodies
import ClassLang.Proofs.Order.Lowering

/-! Checking members in two runs. -/

namespace ClassLang

variable {cross : Crossing}

namespace InheritedMethod

variable (rename : Renaming)

theorem isMissing_on (methods : List InheritedMethod) (method : InheritedMethod) :
    (rename.on method).isMissing (rename.on methods) = method.isMissing methods := by
  change (method.symbol.isAbstract && !(rename.on methods).any fun other =>
    !other.symbol.isAbstract && other.symbol.name == method.symbol.name
      && other.params == rename.on method.params) = _
  rw [rename.on_list, List.any_map]
  apply congrArg (method.symbol.isAbstract && !·)
  apply congrArg methods.any
  funext other
  exact congrArg (_ && ·) (rename.beq_on other.params method.params)

theorem filter_isMissing_on (methods : List InheritedMethod) :
    (rename.on methods).filter (·.isMissing (rename.on methods)) =
      rename.on (methods.filter (·.isMissing methods)) := by
  rw [rename.on_list (methods.filter _)]
  conv_lhs => rw [show (rename.on methods) = methods.map rename.on from rfl, List.filter_map]
  apply congrArg
  apply List.filter_congr
  exact fun method _ => isMissing_on rename methods method

end InheritedMethod

theorem sameSignature_on (rename : Renaming) (first second : Member) :
    sameSignature (rename.on first) (rename.on second) = sameSignature first second := by
  obtain ⟨_, _, detail, _⟩ := first
  obtain ⟨_, _, other, _⟩ := second
  have typed : ∀ params : List Param,
      (rename.on params).map (·.type) = rename.on (params.map (·.type)) := by
    intro params
    apply rename.map_on
    exact fun _ => rfl
  cases detail with
  | field init => cases other <;> rfl
  | class_ => cases other <;> rfl
  | method typeParams params body =>
    cases other with
    | method otherParams others otherBody =>
      change ((rename.on params).map (·.type) == (rename.on others).map (·.type)) = _
      rw [typed, typed]
      exact rename.beq_on _ _
    | field init => rfl
    | class_ => rfl

/-- Answers that are taken over one by one are taken over together. -/
theorem mapM_liftM {α β : Type} (query : α → Except Abort β) (elements : List α) :
    elements.mapM (fun element => (liftM (query element) : StageM β)) =
      (liftM (elements.mapM query) : StageM (List β)) := by
  induction elements with
  | nil => rfl
  | cons element rest ih =>
    rw [List.mapM_cons, List.mapM_cons, ih]
    funext work
    cases first : query element with
    | error fault => (simp only [Crossing.liftM_eq]; rfl)
    | ok value => cases later : rest.mapM query <;> (simp only [Crossing.liftM_eq]; rfl)

/-! Parts of the rules. -/

namespace Conformance

def reportDuplicate (member : Member) (duplicate : Bool) : StageM PUnit :=
  if duplicate then violation member.span .duplicate [member.name] else pure ()

/-- A member is reported that has the name and the signature of one before it. -/
def siblingDuplicates (unit : CompilationUnit) (owner id : Nat) (member : Member) :
    StageM PUnit := do
  let siblings := (← unit.members.get owner).members.takeWhile (· != id)
  let duplicate ← siblings.anyM fun sibling => do
    let other ← unit.members.get sibling
    return other.name == member.name && sameSignature other member
  reportDuplicate member duplicate

/-- The types of a member are judged at their positions. -/
def judgePositions (member : Member) : StageM PUnit := do
  let work ← get
  let faults ← (signaturePositions member).mapM fun entry =>
    work.pool.varianceConflicts work.hierarchy entry.1 entry.2
  faults.flatten.forM (StageM.reportFault member.span)

theorem judgePositions_eq (member : Member) :
    judgePositions member = (do
      let faults ← StageM.inspect fun work => (signaturePositions member).mapM fun entry =>
        work.pool.varianceConflicts work.hierarchy entry.1 entry.2
      faults.flatten.forM (StageM.reportFault member.span)) := by
  unfold judgePositions StageM.inspect
  rw [bind_assoc]
  apply bind_congr
  intro work
  rw [mapM_liftM]

/-- The rules for members of every kind, which come after the others. -/
def lastRules (unit : CompilationUnit) (id : Nat) (member : Member) : StageM PUnit := do
  access member (← unit.classOf id)
  bounds id
  lowerMatches member

/-- The rules from those for the type of a member on. -/
def typeRules (unit : CompilationUnit) (id : Nat) (member : Member) : StageM PUnit := do
  assignability member
  variance member (← unit.classOf id)
  lastRules unit id member

end Conformance

namespace Crossing

theorem violation_agrees (span : Span) (code : Code) (args : List String) :
    cross.Agrees (Conformance.violation span code args) (Conformance.violation span code args) :=
  report_agrees _

section
variable (done : cross.settled)
include done

omit done in
theorem readUnit_agrees (unit : CompilationUnit) (id : Nat) :
    cross.Agrees (liftM (unit.members.get id) : StageM Member)
      (liftM ((cross.rename.on unit).members.get id)) :=
  lift_agrees (.of_map (MemberArena.get_on cross.rename unit.members id))

omit done in
theorem reportDuplicate_agrees (member : Member) (duplicate : Bool) :
    cross.Agrees (Conformance.reportDuplicate member duplicate)
      (Conformance.reportDuplicate (cross.rename.on member) duplicate) := by
  apply Setting.Agree.ite Iff.rfl
  · exact fun _ => violation_agrees _ _ _
  · exact fun _ => .pure rfl

omit done in
theorem siblingDuplicates_agrees (unit : CompilationUnit) (owner id : Nat) (member : Member) :
    cross.Agrees (Conformance.siblingDuplicates unit owner id member)
      (Conformance.siblingDuplicates (cross.rename.on unit) owner id (cross.rename.on member)) := by
  apply Setting.Agree.bind (readUnit_agrees unit owner)
  intro class_
  dsimp only
  rw [Member.members_on]
  apply Setting.Agree.bindPlain
  · apply Setting.Agree.anyM_plain
    intro sibling _
    apply Setting.Agree.bind (readUnit_agrees unit sibling)
    intro other
    apply Setting.Agree.pure
    rw [sameSignature_on]
    exact (cross.rename.on_plain _).symm
  · exact reportDuplicate_agrees member

theorem duplicates_agrees (id : Nat) (member : Member) :
    cross.Agrees (Conformance.duplicates id member)
      (Conformance.duplicates id (cross.rename.on member)) := by
  apply Setting.Agree.get
  intro work work' left right seen
  have tables := tables_now left right done
  rw [show work'.unit = cross.rename.on work.unit from seen]
  have reported := @reportDuplicate_agrees cross member
  have siblings := fun owner => @siblingDuplicates_agrees cross work.unit owner id member
  obtain ⟨name, span, detail, declared, type, modifiers, annotations, access, owner, progress⟩ :=
    member
  cases detail with
  | field init =>
    cases owner with
    | none => exact reported false
    | some owner => exact siblings owner
  | method typeParams params body =>
    cases owner with
    | none => exact reported false
    | some owner => exact siblings owner
  | class_ typeParams superclass interfaces superType interfaceTypes permits members =>
    apply liftBind_agrees (CompilationUnit.symbol_on cross.rename work.unit id)
    intro own _
    have first : ((work'.symbols.declarations name).head?.map (· != cross.rename.symbols own)).getD
        false = ((work.symbols.declarations name).head?.map (· != own)).getD false := by
      rw [tables.declarations]
      cases work.symbols.declarations name with
      | nil => rfl
      | cons first _ =>
        exact congrArg not (cross.rename.symbols.injective.beq_eq)
    change cross.Agrees _ (Conformance.reportDuplicate _
      (((work'.symbols.declarations name).head?.map (· != cross.rename.symbols own)).getD false))
    rw [first]
    exact reported _

theorem implementation_agrees (member : Member) :
    cross.Agrees (Conformance.implementation member)
      (Conformance.implementation (cross.rename.on member)) := by
  apply Setting.Agree.ite Iff.rfl
  · exact fun _ => .pure rfl
  intro _
  apply Setting.Agree.get
  intro work work' left right _
  have tables := tables_now left right done
  apply Setting.Agree.bind (onPool_agrees fun _ _ _ _ =>
    Comparison.inheritedMethods_agrees tables member.type)
  intro methods
  rw [InheritedMethod.filter_isMissing_on]
  apply Setting.Agree.forM_on
  exact fun method _ => violation_agrees _ _ _

theorem overrideRules_agrees (member : Member) (owner : Name) (symbol : Symbol) (result : TypeRef) :
    cross.Agrees (Conformance.overrideRules member owner symbol result)
      (Conformance.overrideRules (cross.rename.on member) owner (cross.rename.on symbol)
        (cross.rename.on result)) := by
  have weaker : cross.Agrees
      (if member.access.weaker symbol.access then
        Conformance.violation member.span .badOverride [member.name, owner ++ "." ++ symbol.name,
          "weaker access; was " ++ symbol.access.render]
      else pure ())
      (if member.access.weaker symbol.access then
        Conformance.violation member.span .badOverride [member.name, owner ++ "." ++ symbol.name,
          "weaker access; was " ++ symbol.access.render]
      else pure ()) := by
    apply Setting.Agree.ite Iff.rfl
    · exact fun _ => violation_agrees _ _ _
    · exact fun _ => .pure rfl
  have returned : cross.Agrees
      (do
        unless ← StageM.withClasses (·.isSupertype result member.type) do
          let own ← StageM.display member.type
          let other ← StageM.display result
          Conformance.violation member.span .badOverride [member.name, owner ++ "." ++ symbol.name,
            "return type `" ++ own ++ "` is not compatible with `" ++ other ++ "`"]
        if member.access.weaker symbol.access then
          Conformance.violation member.span .badOverride [member.name, owner ++ "." ++ symbol.name,
            "weaker access; was " ++ symbol.access.render])
      (do
        unless ← StageM.withClasses
          (·.isSupertype (cross.rename.on result) (cross.rename.on member.type)) do
          let own ← StageM.display (cross.rename.on member.type)
          let other ← StageM.display (cross.rename.on result)
          Conformance.violation member.span .badOverride [member.name, owner ++ "." ++ symbol.name,
            "return type `" ++ own ++ "` is not compatible with `" ++ other ++ "`"]
        if member.access.weaker symbol.access then
          Conformance.violation member.span .badOverride [member.name, owner ++ "." ++ symbol.name,
            "weaker access; was " ++ symbol.access.render]) := by
    apply (isSupertype_agrees done result member.type).bindPlain
    intro fits
    apply Setting.Agree.ite Iff.rfl
    · exact fun _ => weaker
    intro _
    apply (display_agrees member.type).bindPlain
    intro own
    apply (display_agrees result).bindPlain
    intro other
    exact (violation_agrees _ _ _).bind fun _ => weaker
  apply Setting.Agree.ite Iff.rfl
  · exact fun _ => (violation_agrees _ _ _).bind fun _ => returned
  · exact fun _ => returned

theorem ancestors_agrees (type : TypeRef) :
    cross.Agrees (StageM.withClasses (·.ancestors type))
      (StageM.withClasses (·.ancestors (cross.rename.on type))) :=
  withClasses_agrees done fun _ _ _ _ _ _ classes => Comparison.ancestors_agrees classes type

theorem overriding_agrees (member classMember : Member) :
    cross.Agrees (Conformance.overriding member classMember)
      (Conformance.overriding (cross.rename.on member) (cross.rename.on classMember)) := by
  apply Setting.Agree.ite Iff.rfl
  · exact fun _ => .pure rfl
  intro _
  apply Setting.Agree.get
  intro work work' left right _
  have tables := tables_now left right done
  apply (ancestors_agrees done classMember.type).bind
  intro ancestors
  have dropped : (cross.rename.on ancestors).drop 1 = cross.rename.on (ancestors.drop 1) :=
    (List.map_drop).symm
  dsimp only
  rw [dropped, Member.paramTypes_on, cross.rename.length_on]
  apply Setting.Agree.bind (onPool_agrees fun _ _ _ _ =>
    Comparison.findOverridden?_agrees tables member.name _ _)
  intro overridden
  cases overridden with
  | some overridden =>
    obtain ⟨owner, symbol, result⟩ := overridden
    exact overrideRules_agrees done member owner symbol result
  | none =>
    apply Setting.Agree.ite Iff.rfl
    · intro _
      apply Setting.Agree.bindPlain (onPool_agrees fun _ _ _ _ =>
        Comparison.hasOverridable_agrees tables member.name _ _)
      intro could
      apply Setting.Agree.ite Iff.rfl
      · exact fun _ => violation_agrees _ _ _
      · exact fun _ => violation_agrees _ _ _
    · exact fun _ => .pure rfl

theorem assignability_agrees (member : Member) :
    cross.Agrees (Conformance.assignability member)
      (Conformance.assignability (cross.rename.on member)) := by
  unfold Conformance.assignability
  rw [Member.body_on]
  cases member.body with
  | none => exact .pure rfl
  | some body =>
    apply Setting.Agree.ite (cross.rename.on_eq_iff cross.rename.on_void)
    · exact fun _ => .pure rfl
    intro _
    apply Setting.Agree.get
    intro work work' left right seen
    dsimp only
    rw [show work'.unit = cross.rename.on work.unit from seen, CompilationUnit.typeOf_on]
    apply (isSupertype_agrees done member.type (work.unit.typeOf body)).bindPlain
    intro fits
    apply Setting.Agree.ite Iff.rfl
    · exact fun _ => .pure rfl
    · exact fun _ => (spanOf_agrees body).bindPlain fun span => mismatch_agrees _ _ span

omit done in
theorem signaturePositions_on (rename : Renaming) (member : Member) :
    Conformance.signaturePositions (rename.on member) =
      rename.on (Conformance.signaturePositions member) := by
  obtain ⟨name, span, detail, declared, type, modifiers, annotations, access, owner, progress⟩ :=
    member
  have parameters : ∀ params : List Param,
      (rename.on params).map (fun param => (param.type, TypePosition.parameter)) =
        rename.on (params.map fun param => (param.type, TypePosition.parameter)) := by
    intro params
    apply rename.map_on
    exact fun _ => rfl
  cases detail with
  | field init => rfl
  | class_ => rfl
  | method typeParams params body =>
    change (rename.on params).map (fun param => (param.type, TypePosition.parameter)) ++
      [(rename.on type, TypePosition.result)] = rename.on (_ ++ _)
    rw [parameters, rename.on_append]
    rfl

theorem judgePositions_agrees (member : Member) :
    cross.Agrees (Conformance.judgePositions member)
      (Conformance.judgePositions (cross.rename.on member)) := by
  rw [Conformance.judgePositions_eq, Conformance.judgePositions_eq, signaturePositions_on]
  apply Setting.Agree.bindOn cross.rename
  · apply inspect_agrees
    intro work work' left right fits _
    apply Corresponds.mapM_on
    intro position _
    obtain ⟨type, position⟩ := position
    have holds : (cross.pools _ _ (declares_now left right)).Holds work.pool work'.pool :=
      ⟨rfl, rfl, fits.1, fits.2⟩
    exact holds.varianceConflicts (tables_now left right done).classes type position
  · intro faults
    rw [cross.rename.flatten_on]
    exact reportFaults_agrees member.span faults.flatten

theorem variance_agrees (member classMember : Member) :
    cross.Agrees (Conformance.variance member classMember)
      (Conformance.variance (cross.rename.on member) (cross.rename.on classMember)) := by
  unfold Conformance.variance
  rw [Member.typeParams_on, cross.rename.isEmpty_on]
  apply Setting.Agree.ite Iff.rfl
  · exact fun _ => .pure rfl
  · exact fun _ => judgePositions_agrees done member

theorem mayAccess_agrees (unit : Nat) (classMember : Member) (symbol : Symbol) :
    cross.Agrees (Conformance.mayAccess unit classMember symbol)
      (Conformance.mayAccess (cross.rename.units unit) (cross.rename.on classMember)
        (cross.rename.on symbol)) := by
  have sameUnit : (cross.rename.units symbol.unit == cross.rename.units unit) =
      (symbol.unit == unit) :=
    cross.rename.units.injective.beq_eq
  have agrees : ∀ allows : Bool → Bool, cross.Agrees (pure (allows (symbol.unit == unit)))
      (pure (allows ((cross.rename.on symbol).unit == cross.rename.units unit))) :=
    fun allows => .pure (congrArg allows sameUnit)
  obtain ⟨name, kind, declaring, position, owner, access, modifiers, deprecated, span, arity,
    signature⟩ := symbol
  cases access with
  | public_ => exact .pure rfl
  | package => exact agrees fun same => same
  | private_ =>
    cases owner with
    | none => exact agrees fun same => same
    | some owner => exact agrees fun same => same && owner == classMember.name
  | protected_ =>
    cases owner with
    | none => exact agrees fun same => same
    | some owner =>
      apply Setting.Agree.ite Iff.rfl
      · exact fun _ => .pure rfl
      intro _
      apply Setting.Agree.bind (onPool_agrees fun _ _ _ _ => Comparison.class_agrees owner)
      intro ownerType
      exact withClasses_agrees done fun _ _ _ bounded _ _ classes =>
        Comparison.isSuperclass_agrees bounded classes ownerType classMember.type

theorem access_agrees (member classMember : Member) :
    cross.Agrees (Conformance.access member classMember)
      (Conformance.access (cross.rename.on member) (cross.rename.on classMember)) := by
  unfold Conformance.access
  rw [Member.body_on]
  cases member.body with
  | none => exact .pure rfl
  | some body =>
    apply Setting.Agree.get
    intro work work' left right seen
    dsimp only
    rw [show work'.unit = cross.rename.on work.unit from seen]
    apply Setting.Agree.bindPlain (lift_agrees (.same rfl))
    intro visited
    apply Setting.Agree.forM_plain
    intro index _
    have referred : ((cross.rename.on work.unit).resolutions.get? index).bind (·.symbol?) =
        ((work.unit.resolutions.get? index).bind (·.symbol?)).map cross.rename.symbols := by
      change ((cross.rename.on work.unit.resolutions).get? index).bind _ = _
      rw [IdMap.get?_on]
      cases work.unit.resolutions.get? index with
      | none => rfl
      | some resolution => cases resolution <;> rfl
    rw [referred]
    cases (work.unit.resolutions.get? index).bind (·.symbol?) with
    | none => exact .pure rfl
    | some id =>
      have read : cross.Agrees (StageM.inspect (·.symbols.get id))
          (StageM.inspect (·.symbols.get (cross.rename.symbols id))) :=
        askTable_agrees done fun _ _ tables => tables.get id
      apply Setting.Agree.bind read
      intro symbol
      apply (mayAccess_agrees done work.unit.id classMember symbol).bindPlain
      intro allowed
      apply Setting.Agree.ite Iff.rfl
      · exact fun _ => .pure rfl
      intro _
      apply Setting.Agree.bindPlain (lift_agrees (.same rfl))
      exact fun span => violation_agrees _ _ _

theorem bounds_agrees (id : Nat) :
    cross.Agrees (Conformance.bounds id) (Conformance.bounds id) := by
  apply Setting.Agree.get
  intro work work' left right seen
  rw [show work'.unit = cross.rename.on work.unit from seen]
  have own : (cross.rename.on work.unit).boundUses.filter (·.member == id) =
      cross.rename.on (work.unit.boundUses.filter (·.member == id)) := by
    change (work.unit.boundUses.map _).filter _ = _
    rw [List.filter_map]
    rfl
  dsimp only
  rw [own]
  apply Setting.Agree.forM_on
  intro usage _
  apply Setting.Agree.get
  intro work work' left right seen
  have tables := tables_now left right done
  apply Setting.Agree.bind (onPool_agrees fun _ _ _ _ =>
    Comparison.ancestorBindings_agrees tables usage.type)
  intro bindings
  cases bindings with
  | none => exact .pure rfl
  | some bindings =>
    obtain ⟨base, subst⟩ := bindings
    apply Setting.Agree.bind (askPool_agrees fun _ _ _ _ _ _ holds => holds.args usage.type)
    intro args
    rw [cross.rename.on_plain base, tables.classes.typeParams, cross.rename.zip_on]
    apply Setting.Agree.forM_on
    intro entry _
    obtain ⟨param, argument⟩ := entry
    apply Setting.Agree.bind (withClasses_agrees done fun _ _ _ bounded _ _ classes =>
      Comparison.violatedBound?_agrees bounded classes param argument subst)
    intro violated
    cases violated with
    | none => exact .pure rfl
    | some bound => exact reportFault_agrees usage.span (.outsideBound param argument bound)

theorem lowerMatch_agrees (index : Nat) :
    cross.Agrees (Conformance.lowerMatch index) (Conformance.lowerMatch index) := by
  apply Setting.Agree.get
  intro work work' left right seen
  dsimp only
  rw [show work'.unit = cross.rename.on work.unit from seen]
  have found : (cross.rename.on work.unit).matchGroups.get? index =
      cross.rename.on (work.unit.matchGroups.get? index) := IdMap.get?_on cross.rename _ index
  rw [found]
  cases work.unit.matchGroups.get? index with
  | none => exact .pure rfl
  | some group =>
    apply Setting.Agree.get
    intro work work' left right seen
    rw [show work'.unit = cross.rename.on work.unit from seen]
    apply Setting.Agree.bind (withClasses_agrees done fun _ _ _ bounded _ _ classes =>
      Comparison.compile_agrees bounded classes group work.unit.patterns)
    intro result
    obtain ⟨⟨analysis, reports⟩, lowered, patterns⟩ := result
    simp only [Renaming.on_pair, Renaming.on_plain]
    apply (reportAll_agrees reports).bind
    intro _
    apply changeUnit_agrees
    · intro unit
      have inserted := IdMap.insert_on cross.rename unit.lowered index lowered
      rw [cross.rename.on_plain lowered] at inserted
      exact congrArg (fun lowered =>
        { cross.rename.on unit with patterns := cross.rename.on patterns, lowered })
        inserted
    · exact fun _ _ => rfl
    · exact fun _ _ => rfl

theorem lowerMatches_agrees (member : Member) :
    cross.Agrees (Conformance.lowerMatches member)
      (Conformance.lowerMatches (cross.rename.on member)) := by
  unfold Conformance.lowerMatches
  rw [Member.body_on]
  cases member.body with
  | none => exact .pure rfl
  | some body =>
    apply Setting.Agree.get
    intro work work' left right seen
    dsimp only
    rw [show work'.unit = cross.rename.on work.unit from seen]
    apply Setting.Agree.bindPlain (lift_agrees (.same rfl))
    intro visited
    apply Setting.Agree.bindPlain (lift_agrees (.same rfl))
    intro matchNodes
    exact .forM_plain fun index _ => lowerMatch_agrees done index

omit done in
theorem classOf_agrees (unit : CompilationUnit) (id : Nat) :
    cross.Agrees (liftM (unit.classOf id) : StageM Member)
      (liftM ((cross.rename.on unit).classOf id)) :=
  lift_agrees (CompilationUnit.classOf_on cross.rename unit id)

theorem lastRules_agrees (unit : CompilationUnit) (id : Nat) (member : Member) :
    cross.Agrees (Conformance.lastRules unit id member)
      (Conformance.lastRules (cross.rename.on unit) id (cross.rename.on member)) := by
  apply Setting.Agree.bind (classOf_agrees unit id)
  intro classMember
  apply (access_agrees done member classMember).bind
  intro _
  exact (bounds_agrees done id).bind fun _ => lowerMatches_agrees done member

theorem typeRules_agrees (unit : CompilationUnit) (id : Nat) (member : Member) :
    cross.Agrees (Conformance.typeRules unit id member)
      (Conformance.typeRules (cross.rename.on unit) id (cross.rename.on member)) := by
  apply (assignability_agrees done member).bind
  intro _
  apply Setting.Agree.bind (classOf_agrees unit id)
  intro classMember
  exact (variance_agrees done member classMember).bind fun _ => lastRules_agrees done unit id member

theorem checkMember_agrees (id : Nat) :
    cross.Agrees (StageM.checkMember id) (StageM.checkMember id) := by
  apply Setting.Agree.get
  intro work work' left right seen
  dsimp only
  rw [show work'.unit = cross.rename.on work.unit from seen]
  apply Setting.Agree.bind (readUnit_agrees work.unit id)
  intro member
  apply (duplicates_agrees done id member).bind
  intro _
  have typed := typeRules_agrees done work.unit id member
  have last := lastRules_agrees done work.unit id member
  have overrides := overriding_agrees done member
  have implements := implementation_agrees done member
  obtain ⟨name, span, detail, declared, type, modifiers, annotations, access, owner, progress⟩ :=
    member
  cases detail with
  | field init => exact typed
  | method typeParams params body =>
    apply Setting.Agree.bind (classOf_agrees work.unit id)
    exact fun classMember => (overrides classMember).bind fun _ => typed
  | class_ typeParams superclass interfaces superType interfaceTypes permits members =>
    exact implements.bind fun _ => last

end
end Crossing
end ClassLang
