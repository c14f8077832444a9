import ClassLang.Proofs.Order.Signatures

/-! Resolving bodies in two runs, once the types of all declarations are published. -/

namespace ClassLang

instance : Renamable BodySite :=
  ⟨fun rename site =>
    { site with toTypeSite := rename.on site.toTypeSite, classType := rename.on site.classType },
    fun rename site => by simp⟩

/-- The pattern that typing gave, or a report of its fault in the current pool. -/
def BodyM.reportedArm : Except PatternFault Nat → StageM (Option Nat)
  | .ok typed => return some typed
  | .error fault => do
    StageM.report (← StageM.inspect fun work => fault.toDiagnostic work.pool)
    return none

theorem StageM.inspect_bind {α β : Type} (query : Workspace → Except Abort α) (next : α → StageM β)
    (work : Workspace) : (inspect query >>= next) work =
    ((liftM (query work) : StageM α) >>= next) work := rfl

theorem BodyM.reportedArm_apply (outcome : Except PatternFault Nat) (work : Workspace) :
    reportedArm outcome work = typedArm work.pool outcome work := by
  cases outcome with
  | ok typed => rfl
  | error fault => exact StageM.inspect_bind (fun work => fault.toDiagnostic work.pool) _ work

/-- Typing a pattern is work on the pool, followed by entering the patterns. -/
theorem BodyM.typeArm_eq (pattern : Nat) (subject : TypeRef) :
    BodyM.typeArm pattern subject = (do
      let work ← get
      let typed ← StageM.onPool
        ((PatternStore.typeAgainst work.hierarchy pattern subject).run.run work.unit.patterns)
      StageM.modifyUnit fun unit => { unit with patterns := typed.2 }
      reportedArm typed.1) := by
  funext work
  have read : ∀ next : Workspace → StageM (Option Nat), (get >>= next) work = next work work :=
    fun _ => rfl
  have changed :
      ∀ (change : Workspace → Workspace) (next : PUnit → StageM (Option Nat)) (work : Workspace),
      (modify change >>= next) work = next () (change work) := fun _ _ _ => rfl
  have lifted :
      ∀ {α : Type} (answer : Except Abort α) (next : α → StageM (Option Nat)) (work : Workspace),
      ((StateT.lift answer : StageM α) >>= next) work = answer >>= fun value =>
        next value work := by
    intro α answer next work
    cases answer <;> rfl
  have pooled : ∀ {α : Type} (action : PoolM α) (next : α → StageM (Option Nat)),
      (StageM.onPool action >>= next) work =
        action.run work.pool >>= fun result => next result.1 { work with pool := result.2 } := by
    intro α action next
    cases ran : action.run work.pool <;>
      simp [StageM.onPool, bind, StateT.bind, ran, Except.bind, pure, Except.pure]
  unfold BodyM.typeArm PatternStore.runTyping
  simp only [Crossing.liftM_eq]
  rw [read, read, lifted, pooled]
  cases ((PatternStore.typeAgainst work.hierarchy pattern subject).run.run work.unit.patterns).run
    work.pool with
  | error fault => rfl
  | ok result =>
    obtain ⟨⟨outcome, patterns⟩, pool⟩ := result
    simp only [ok_bind, pure_eq_ok]
    rw [changed, StageM.modifyUnit, changed]
    exact (reportedArm_apply outcome { work with pool, unit := { work.unit with patterns } }).symm

namespace Crossing

variable {cross : Crossing} {α β : Type} [Renamable α] [Renamable β]

/-! Actions with locals. -/

/-- Actions that do the same from renamed locals, up to numbers. -/
def Resolves (cross : Crossing) (first second : BodyM α) : Prop :=
  ∀ locals : Locals, cross.Agrees (first.run locals) (second.run (cross.rename.on locals))

namespace Resolves

theorem pure {value value' : α} (same : value' = cross.rename.on value) :
    cross.Resolves (Pure.pure value) (Pure.pure value') := by
  intro locals
  apply Setting.Agree.pure
  rw [same]
  rfl

theorem bind {first second : BodyM α} {rest rest' : α → BodyM β}
    (done : cross.Resolves first second)
    (goesOn : ∀ value, cross.Resolves (rest value) (rest' (cross.rename.on value))) :
    cross.Resolves (first >>= rest) (second >>= rest') := by
  intro locals
  rw [StateT.run_bind, StateT.run_bind]
  apply (done locals).bind
  intro result
  exact goesOn result.1 result.2

/-- What follows a result without numbers follows the same result. -/
theorem bindPlain {α : Type} [Plain α] {first second : BodyM α} {rest rest' : α → BodyM β}
    (done : cross.Resolves first second)
    (goesOn : ∀ value, cross.Resolves (rest value) (rest' value)) :
    cross.Resolves (first >>= rest) (second >>= rest') := by
  apply done.bind
  intro value
  rw [cross.rename.on_plain]
  exact goesOn value

/-- An action that leaves the locals as they are. -/
theorem lift {action action' : StageM α} (same : cross.Agrees action action') :
    cross.Resolves (StateT.lift action) (StateT.lift action') :=
  fun _ => same.bind fun _ => .pure rfl

/-- The locals are read. -/
theorem get {rest rest' : Locals → BodyM α}
    (each : ∀ locals : Locals, cross.Resolves (rest locals) (rest' (cross.rename.on locals))) :
    cross.Resolves (MonadState.get >>= rest) (MonadState.get >>= rest') :=
  fun locals => each locals locals

theorem modify {change change' : Locals → Locals}
    (same : ∀ locals : Locals, change' (cross.rename.on locals) = cross.rename.on (change locals)) :
    cross.Resolves (modifyThe Locals change : BodyM PUnit) (modifyThe Locals change') := by
  intro locals
  apply Setting.Agree.pure
  dsimp only
  rw [same]
  rfl

theorem throw (fault : Abort) :
    cross.Resolves (StateT.lift (MonadExcept.throw fault) : BodyM α)
      (StateT.lift (MonadExcept.throw fault)) :=
  lift (Setting.Agree.throw fault fault)

section
variable {ι : Type}

theorem mapM {first second : ι → BodyM β}
    (each : ∀ element, cross.Resolves (first element) (second element))
    (elements : List ι) : cross.Resolves (elements.mapM first) (elements.mapM second) := by
  induction elements with
  | nil => exact pure rfl
  | cons element rest ih =>
    rw [List.mapM_cons, List.mapM_cons]
    exact (each element).bind fun _ => ih.bind fun _ => pure rfl

theorem forM {first second : ι → BodyM PUnit}
    (each : ∀ element, cross.Resolves (first element) (second element)) (elements : List ι) :
    cross.Resolves (elements.forM first) (elements.forM second) := by
  induction elements with
  | nil => exact pure rfl
  | cons element rest ih => exact (each element).bindPlain fun _ => ih

end

/-- What an action adds to the locals is forgotten. -/
theorem withScope {first second : BodyM α} (same : cross.Resolves first second) :
    cross.Resolves (BodyM.withScope first) (BodyM.withScope second) := by
  apply Resolves.get
  intro outer
  apply same.bind
  intro result
  have truncating : ∀ locals : Locals, Locals.truncate (cross.rename.on locals)
      (cross.rename.on outer).length = cross.rename.on (locals.truncate outer.length) := by
    intro locals
    have lengths : ∀ locals : Locals, (cross.rename.on locals).length = locals.length :=
      fun _ => List.length_map _
    rw [Locals.truncate, lengths, lengths]
    exact List.map_drop.symm
  exact (modify truncating).bindPlain fun _ => pure rfl

end Resolves

/-! Single expressions. -/

theorem spanOf_agrees (ref : ExprRef) : cross.Agrees (BodyM.spanOf ref) (BodyM.spanOf ref) :=
  askUnit_agrees fun _ _ same => .same (by rw [same]; rfl)

theorem isLenient_agrees (type : TypeRef) :
    cross.Agrees (BodyM.isLenient type) (BodyM.isLenient (cross.rename.on type)) :=
  askPool_agrees fun _ _ _ _ _ _ holds => holds.isLenient type

theorem resolveAs_agrees (index : Nat) (resolution : Resolution) :
    cross.Agrees (BodyM.resolveAs index resolution)
      (BodyM.resolveAs index (cross.rename.on resolution)) := by
  apply changeUnit_agrees
  · intro unit
    exact congrArg (fun resolutions => { cross.rename.on unit with resolutions })
      (IdMap.insert_on cross.rename unit.resolutions index resolution)
  · exact fun _ _ => rfl
  · exact fun _ _ => rfl

theorem useSymbol_agrees (site : BodySite) (index : Nat) (resolution : Resolution) (symbol : Symbol)
    (span : Span) :
    cross.Agrees (BodyM.useSymbol site index resolution symbol span)
      (BodyM.useSymbol (cross.rename.on site) index (cross.rename.on resolution)
        (cross.rename.on symbol) span) := by
  apply (resolveAs_agrees index resolution).bind
  intro _
  apply Setting.Agree.ite Iff.rfl
  · exact fun _ => report_agrees _
  · exact fun _ => .pure (cross.rename.on_plain _).symm

theorem noMember_agrees (receiver : TypeRef) (name : Name) (span : Span) :
    cross.Agrees (BodyM.noMember receiver name span)
      (BodyM.noMember (cross.rename.on receiver) name span) :=
  (display_agrees receiver).bindPlain fun _ => report_agrees _

theorem getSymbol_agrees {work work' : Workspace}
    (tables : cross.rename.Tables work.symbols work'.symbols) (id : Nat) :
    cross.Agrees (liftM (work.symbols.get id) : StageM Symbol)
      (liftM (work'.symbols.get (cross.rename.symbols id))) :=
  lift_agrees (tables.get id)

section
variable (done : cross.settled)
include done

theorem isSupertype_agrees (expected found : TypeRef) :
    cross.Agrees (StageM.withClasses (·.isSupertype expected found))
      (StageM.withClasses (·.isSupertype (cross.rename.on expected) (cross.rename.on found))) :=
  withClasses_agrees done fun _ _ _ bounded _ _ classes =>
    Comparison.isSupertype_agrees bounded classes expected found

theorem expect_agrees (expected found : TypeRef) (span : Span) :
    cross.Agrees (BodyM.expect expected found span)
      (BodyM.expect (cross.rename.on expected) (cross.rename.on found) span) := by
  apply (isSupertype_agrees done expected found).bindPlain
  intro fits
  apply Setting.Agree.ite Iff.rfl
  · exact fun _ => .pure (cross.rename.on_plain _).symm
  · exact fun _ => mismatch_agrees expected found span

theorem join_agrees (first second : TypeRef) :
    cross.Agrees (BodyM.join first second)
      (BodyM.join (cross.rename.on first) (cross.rename.on second)) := by
  have void : ∀ type : TypeRef, cross.rename.on type = .void ↔ type = .void := fun type =>
    cross.rename.on_eq_iff cross.rename.on_void
  apply Setting.Agree.ite (by rw [cross.rename.on_inj, void])
  · exact fun _ => .pure rfl
  intro _
  apply Setting.Agree.ite (void first)
  · exact fun _ => .pure rfl
  intro _
  apply (isSupertype_agrees done first second).bindPlain
  intro wider
  apply Setting.Agree.ite Iff.rfl
  · exact fun _ => .pure rfl
  intro _
  apply (isSupertype_agrees done second first).bindPlain
  intro narrower
  apply Setting.Agree.ite Iff.rfl
  · exact fun _ => .pure rfl
  · exact fun _ => .pure cross.rename.on_any.symm

theorem classTypeOf_agrees (type : TypeRef) :
    cross.Agrees (BodyM.classTypeOf type) (BodyM.classTypeOf (cross.rename.on type)) := by
  apply Setting.Agree.bind (askPool_agrees fun _ _ _ _ _ _ holds => holds.node type)
  intro node
  have upper : ∀ param : ParamRef, cross.Agrees (StageM.inspect (·.pool.upperBound param))
      (StageM.inspect (·.pool.upperBound (cross.rename.on param))) := fun param =>
    askPool_agrees fun _ _ _ _ _ bounded holds => holds.upperBound (bounded done) param
  cases node with
  | var param variance => exact upper param
  | wildcard variance bound => cases variance <;> exact .pure rfl
  | _ => exact .pure rfl

/-- A declaration that was found, with its type where it was looked for. -/
def found (cross : Crossing) : Nat × Symbol × TypeRef ≃ Nat × Symbol × TypeRef :=
  Equiv.prodCongr cross.rename.symbols cross.rename.on

theorem findField?_agrees (receiver : TypeRef) (name : Name) :
    cross.stages.Agree (Equiv.optionCongr cross.found) (BodyM.findField? receiver name)
      (BodyM.findField? (cross.rename.on receiver) name) := by
  apply (classTypeOf_agrees done receiver).bind
  intro receiver
  apply Setting.Agree.get
  intro work work' left right _
  have tables := tables_now left right done
  dsimp only
  apply Setting.Agree.bind (withClasses_agrees done fun _ _ _ _ _ _ classes =>
    Comparison.ancestors_agrees classes receiver)
  intro ancestors
  apply Setting.Agree.findSomeM?
  intro ancestor _
  apply Setting.Agree.bind
    (onPool_agrees fun _ _ _ _ => Comparison.ancestorBindings_agrees tables ancestor)
  intro bindings
  cases bindings with
  | none => exact .pure rfl
  | some bindings =>
    obtain ⟨base, subst⟩ := bindings
    simp only [Renaming.on_some, Renaming.on_pair, Renaming.on_plain, tables.membersNamed]
    cases work.symbols.membersNamed base name .field with
    | nil => exact .pure rfl
    | cons entry rest =>
      obtain ⟨id, symbol⟩ := entry
      have instantiated : cross.Agrees (StageM.onPool (instantiate symbol.type subst))
          (StageM.onPool (instantiate (cross.rename.on symbol).type (cross.rename.on subst))) := by
        rw [Symbol.type_on]
        exact onPool_agrees fun _ _ _ _ => Comparison.instantiate_agrees symbol.type subst
      exact instantiated.bind fun type => .pure rfl

theorem ident_agrees (site : BodySite) (locals : Locals) (index : Nat) (name : Name) (span : Span) :
    cross.Agrees (BodyM.ident site locals index name span)
      (BodyM.ident (cross.rename.on site) (cross.rename.on locals) index name span) := by
  have local_ := Substitution.lookup_on cross.rename locals name
  rw [cross.rename.on_plain name] at local_
  unfold BodyM.ident
  rw [local_]
  cases locals.lookup name with
  | some type => exact (resolveAs_agrees index (.local_ name)).bind fun _ => .pure rfl
  | none =>
    apply (findField?_agrees done site.classType name).bind
    intro field
    cases field with
    | some field =>
      obtain ⟨id, symbol, type⟩ := field
      exact (useSymbol_agrees site index (.field id) symbol span).bind fun _ => .pure rfl
    | none =>
      apply Setting.Agree.get
      intro work work' left right _
      have tables := tables_now left right done
      dsimp only
      rw [tables.lookupClass?]
      cases work.symbols.lookupClass? name with
      | some id =>
        apply (getSymbol_agrees tables id).bind
        intro symbol
        exact (useSymbol_agrees site index (.class_ id) symbol span).bind fun _ =>
          onPool_agrees fun _ _ _ _ => Comparison.class_agrees name
      | none =>
        exact (report_agrees _).bind fun _ => (resolveAs_agrees index .unresolved).bind fun _ =>
          onPool_agrees fun _ _ _ _ => Comparison.unresolved_agrees name

theorem field_agrees (site : BodySite) (index : Nat) (receiver : TypeRef) (name : Name)
    (span : Span) : cross.Agrees (BodyM.field site index receiver name span)
      (BodyM.field (cross.rename.on site) index (cross.rename.on receiver) name span) := by
  apply (isLenient_agrees receiver).bindPlain
  intro lenient
  apply Setting.Agree.ite Iff.rfl
  · exact fun _ => .pure cross.rename.on_any.symm
  intro _
  apply (findField?_agrees done receiver name).bind
  intro field
  cases field with
  | some field =>
    obtain ⟨id, symbol, type⟩ := field
    exact (useSymbol_agrees site index (.field id) symbol span).bind fun _ => .pure rfl
  | none => exact (noMember_agrees receiver name span).bind fun _ => .pure cross.rename.on_any.symm

theorem call_agrees (site : BodySite) (index : Nat) (receiver : TypeRef) (method : Name)
    (args : List TypeRef) (span : Span) :
    cross.Agrees (BodyM.call site index receiver method args span)
      (BodyM.call (cross.rename.on site) index (cross.rename.on receiver) method
        (cross.rename.on args) span) := by
  have any : ∀ {action action' : StageM PUnit}, cross.Agrees action action' →
      cross.Agrees (action >>= fun _ => pure TypeRef.any) (action' >>= fun _ => pure TypeRef.any) :=
    fun same => same.bind fun _ => .pure cross.rename.on_any.symm
  apply (isLenient_agrees receiver).bindPlain
  intro lenient
  apply Setting.Agree.ite Iff.rfl
  · exact fun _ => .pure cross.rename.on_any.symm
  intro _
  apply (classTypeOf_agrees done receiver).bind
  intro classType
  apply Setting.Agree.get
  intro work work' left right _
  have tables := tables_now left right done
  apply Setting.Agree.bind (onPool_agrees fun _ _ _ bounded =>
    Comparison.selectOverload_agrees tables (bounded done) classType method args)
  intro outcome
  cases outcome with
  | ok selection =>
    apply (reportFaults_agrees span selection.unbound).bind
    intro _
    apply (getSymbol_agrees tables selection.id).bind
    intro symbol
    exact (useSymbol_agrees site index (.method selection.id) symbol span).bind fun _ => .pure rfl
  | error fault =>
    cases fault with
    | noSuchMethod => exact any (noMember_agrees receiver method span)
    | noneApplicable =>
      have shown : cross.Agrees (args.mapM StageM.display)
          ((cross.rename.on args).mapM StageM.display) :=
        .mapM_on fun arg _ => display_agrees arg
      exact shown.bindPlain fun _ => (report_agrees _).bind fun _ =>
        any (resolveAs_agrees index .unresolved)
    | ambiguous count =>
      exact (report_agrees _).bind fun _ => any (resolveAs_agrees index .unresolved)

theorem newInstance_agrees (site : BodySite) (index : Nat) (type : TypeExpr) (span : Span) :
    cross.Agrees (BodyM.newInstance site index type span)
      (BodyM.newInstance (cross.rename.on site) index type span) := by
  apply (resolve_agrees site.toTypeSite type).bind
  intro type
  apply Setting.Agree.bindPlain (askPool_agrees fun _ _ _ _ _ _ holds => holds.baseName? type)
  intro base
  cases base with
  | none => exact .pure rfl
  | some base =>
    apply Setting.Agree.get
    intro work work' left right _
    have tables := tables_now left right done
    dsimp only
    rw [tables.lookupClass?]
    cases work.symbols.lookupClass? base with
    | none => exact .pure rfl
    | some id =>
      apply (getSymbol_agrees tables id).bind
      intro symbol
      have refer : cross.Agrees
          (do
            BodyM.useSymbol site index (.class_ id) symbol span
            return type)
          (do
            BodyM.useSymbol (cross.rename.on site) index (.class_ (cross.rename.symbols id))
              (cross.rename.on symbol) span
            return cross.rename.on type) :=
        (useSymbol_agrees site index (.class_ id) symbol span).bind fun _ => .pure rfl
      apply Setting.Agree.ite Iff.rfl
      · exact fun _ => (report_agrees _).bind fun _ => refer
      · exact fun _ => refer

theorem expectBool_agrees (operand : TypeRef) (span : Span) :
    cross.Agrees (BodyM.expect .bool operand span)
      (BodyM.expect .bool (cross.rename.on operand) span) := by
  have same := expect_agrees done .bool operand span
  rwa [cross.rename.on_bool] at same

omit done in
theorem isNumeric_on (op : BinaryOp) (type : TypeRef) :
    BodyM.isNumeric op (cross.rename.on type) = BodyM.isNumeric op type := by
  unfold BodyM.isNumeric
  rw [Bool.beq_eq_decide_eq, Bool.beq_eq_decide_eq, Bool.beq_eq_decide_eq, Bool.beq_eq_decide_eq]
  simp only [cross.rename.on_eq_iff cross.rename.on_int,
    cross.rename.on_eq_iff cross.rename.on_float]

omit done in
theorem expectNumeric_agrees (op : BinaryOp) (operands : List (TypeRef × Span)) :
    cross.Agrees (BodyM.expectNumeric op operands)
      (BodyM.expectNumeric op (cross.rename.on operands)) := by
  have wrong : ∀ operands : List (TypeRef × Span),
      (cross.rename.on operands).filter (fun operand => !BodyM.isNumeric op operand.1) =
        cross.rename.on (operands.filter fun operand => !BodyM.isNumeric op operand.1) := by
    intro operands
    rw [cross.rename.on_list, List.filter_map]
    apply congrArg
    apply List.filter_congr
    intro operand _
    exact congrArg not (isNumeric_on op operand.1)
  unfold BodyM.expectNumeric
  dsimp only
  rw [wrong, cross.rename.isEmpty_on]
  apply Setting.Agree.bindOn cross.rename
  · apply Setting.Agree.forM_on
    intro operand _
    have reported := @mismatch_agrees cross .int operand.1 operand.2
    rw [cross.rename.on_int] at reported
    exact reported
  · exact fun _ => .pure (cross.rename.on_plain _).symm

theorem binary_agrees (op : BinaryOp) (left right : TypeRef × Span) :
    cross.Agrees (BodyM.binary op left right)
      (BodyM.binary op (cross.rename.on left) (cross.rename.on right)) := by
  have string : ∀ {type : TypeRef}, cross.rename.on type = .string ↔ type = .string :=
    cross.rename.on_eq_iff cross.rename.on_string
  have float : ∀ {type : TypeRef}, cross.rename.on type = .float ↔ type = .float :=
    cross.rename.on_eq_iff cross.rename.on_float
  have bool : cross.Agrees (pure TypeRef.bool) (pure .bool) := .pure cross.rename.on_bool.symm
  have any : cross.Agrees (pure TypeRef.any) (pure .any) := .pure cross.rename.on_any.symm
  unfold BodyM.binary
  apply Setting.Agree.ite Iff.rfl
  · intro _
    apply (expectBool_agrees done left.1 left.2).bind
    intro _
    exact (expectBool_agrees done right.1 right.2).bind fun _ => bool
  intro _
  apply Setting.Agree.ite Iff.rfl
  · exact fun _ => bool
  intro _
  apply (isLenient_agrees left.1).bindPlain
  intro leftLenient
  dsimp only
  apply Setting.Agree.shortcut (Setting.Agree.plain.mp (isLenient_agrees right.1))
  intro lenient
  apply Setting.Agree.ite Iff.rfl
  · intro _
    cases op.isComparison with
    | true => exact bool
    | false => exact any
  intro _
  apply Setting.Agree.ite (and_congr_right fun _ => or_congr string string)
  · exact fun _ => .pure cross.rename.on_string.symm
  intro _
  apply (expectNumeric_agrees op [left, right]).bindPlain
  intro numeric
  apply Setting.Agree.ite Iff.rfl
  · exact fun _ => bool
  intro _
  apply Setting.Agree.ite Iff.rfl
  · exact fun _ => any
  intro _
  apply Setting.Agree.pure
  rw [cross.rename.on_fst, cross.rename.on_fst]
  simp only [float]
  split
  · exact cross.rename.on_float.symm
  · exact cross.rename.on_int.symm

theorem unary_agrees (op : UnaryOp) (operand : TypeRef) (span : Span) :
    cross.Agrees (BodyM.unary op operand span) (BodyM.unary op (cross.rename.on operand) span) := by
  have int : cross.rename.on operand = .int ↔ operand = .int :=
    cross.rename.on_eq_iff cross.rename.on_int
  have float : cross.rename.on operand = .float ↔ operand = .float :=
    cross.rename.on_eq_iff cross.rename.on_float
  have notInt : cross.Agrees (do StageM.mismatch .int operand span; return TypeRef.any)
      (do StageM.mismatch .int (cross.rename.on operand) span; return TypeRef.any) := by
    have reported := @mismatch_agrees cross .int operand span
    rw [cross.rename.on_int] at reported
    exact reported.bind fun _ => .pure cross.rename.on_any.symm
  apply (isLenient_agrees operand).bindPlain
  intro lenient
  apply Setting.Agree.ite Iff.rfl
  · intro _
    apply Setting.Agree.pure
    cases op with
    | not => exact cross.rename.on_bool.symm
    | neg => rfl
    | bitNot => rfl
  intro _
  cases op with
  | not =>
    exact (expectBool_agrees done operand span).bind fun _ => .pure cross.rename.on_bool.symm
  | neg =>
    apply Setting.Agree.ite (or_congr int float)
    · exact fun _ => .pure rfl
    · exact fun _ => notInt
  | bitNot =>
    apply Setting.Agree.ite int
    · exact fun _ => .pure rfl
    · exact fun _ => notInt

/-! Matches. -/

theorem reportUnknownClasses_agrees (pattern : Nat) :
    cross.Agrees (BodyM.reportUnknownClasses pattern) (BodyM.reportUnknownClasses pattern) := by
  apply Setting.Agree.get
  intro work work' left right _
  have tables := tables_now left right done
  have asked : cross.Agrees (StageM.inspect (·.unit.patterns.deconstructed pattern))
      (StageM.inspect (·.unit.patterns.deconstructed pattern)) := by
    apply askUnit_agrees
    intro work work' same
    apply Corresponds.same
    rw [same]
    exact PatternStore.deconstructed_on cross.rename work.unit.patterns pattern
  apply asked.bindPlain
  intro classes
  dsimp only
  simp only [tables.lookupClass?, Option.isNone_map]
  exact (reportAll_agrees _).bind fun _ => .pure (cross.rename.on_plain _).symm

omit done in
theorem enterPatterns_agrees (patterns : PatternStore) :
    cross.Agrees (StageM.modifyUnit fun unit => { unit with patterns })
      (StageM.modifyUnit fun unit => { unit with patterns := cross.rename.on patterns }) := by
  apply changeUnit_agrees
  · exact fun _ => rfl
  · exact fun _ _ => rfl
  · exact fun _ _ => rfl

theorem typeArm_agrees (pattern : Nat) (subject : TypeRef) :
    cross.Agrees (BodyM.typeArm pattern subject)
      (BodyM.typeArm pattern (cross.rename.on subject)) := by
  rw [BodyM.typeArm_eq, BodyM.typeArm_eq]
  apply Setting.Agree.get
  intro work work' left right seen
  have tables := tables_now left right done
  rw [show work'.unit = cross.rename.on work.unit from seen]
  apply Setting.Agree.bind (onPool_agrees fun _ _ _ bounded =>
    Comparison.typeAgainst_types (bounded done) tables.classes pattern subject work.unit.patterns)
  intro result
  obtain ⟨outcome, patterns⟩ := result
  apply (enterPatterns_agrees patterns).bind
  intro _
  cases outcome with
  | ok typed => exact .pure rfl
  | error fault =>
    unfold BodyM.reportedArm
    apply Setting.Agree.bindPlain
      (askPool_agrees fun _ _ _ _ _ _ holds => holds.patternDiagnostic fault)
    intro diagnostic
    exact (report_agrees diagnostic).bind fun _ => .pure rfl

theorem prepareArm_agrees (arm : MatchArm) (subject : TypeRef) :
    cross.Agrees (BodyM.prepareArm arm subject)
      (BodyM.prepareArm arm (cross.rename.on subject)) := by
  apply Setting.Agree.get
  intro work work' left right seen
  rw [show work'.unit = cross.rename.on work.unit from seen]
  apply Setting.Agree.bind
    (lift_agrees
      (PatternStore.importFrom_on cross.rename work.unit.patterns work.unit.arena arm.pattern))
  intro result
  obtain ⟨raw, patterns⟩ := result
  apply (enterPatterns_agrees patterns).bind
  intro _
  apply (reportUnknownClasses_agrees done raw).bindPlain
  intro unknown
  apply Setting.Agree.ite Iff.rfl
  · exact fun _ => .pure rfl
  · exact fun _ => typeArm_agrees done raw subject

/-! Expressions. -/

omit done in
theorem recordGroup_agrees (index : Nat) (group : MatchGroup) :
    cross.Agrees
      (StageM.modifyUnit fun unit =>
        { unit with matchGroups := unit.matchGroups.insert index group })
      (StageM.modifyUnit fun unit =>
        { unit with matchGroups := unit.matchGroups.insert index (cross.rename.on group) }) := by
  apply changeUnit_agrees
  · intro unit
    exact congrArg (fun matchGroups => { cross.rename.on unit with matchGroups })
      (IdMap.insert_on cross.rename unit.matchGroups index group)
  · exact fun _ _ => rfl
  · exact fun _ _ => rfl

theorem armType_resolves {resolve resolve' : ExprRef → BodyM TypeRef}
    (same : ∀ ref, cross.Resolves (resolve ref) (resolve' ref)) (arm : MatchArm) (bound : Locals)
    (result : Option TypeRef) :
    cross.Resolves (BodyM.armType resolve arm bound result)
      (BodyM.armType resolve' arm (cross.rename.on bound) (cross.rename.on result)) := by
  have reversed : (cross.rename.on bound).reverse = cross.rename.on bound.reverse :=
    List.map_reverse.symm
  apply Resolves.bind
    (Resolves.withScope (Resolves.bindPlain (Resolves.modify fun locals => ?_) fun _ =>
    same arm.body))
  · intro type
    cases result with
    | none => exact .pure rfl
    | some previous => exact .lift (join_agrees done previous type)
  · rw [reversed, cross.rename.on_append]

theorem arms_resolves {resolve resolve' : ExprRef → BodyM TypeRef}
    (same : ∀ ref, cross.Resolves (resolve ref) (resolve' ref)) (subject : TypeRef) :
    ∀ (branches : List MatchArm) (result : Option TypeRef),
      cross.Resolves (BodyM.arms resolve subject branches result)
        (BodyM.arms resolve' (cross.rename.on subject) branches (cross.rename.on result))
  | [], result => .pure rfl
  | arm :: rest, result => by
    have after : ∀ (pattern : Option Nat) (bound : Locals), cross.Resolves
        (BodyM.armType resolve arm bound result >>= fun joined =>
          BodyM.arms resolve subject rest (some joined) >>= fun later =>
            pure (({ pattern, span := arm.span } : GroupArm) :: later.1, later.2))
        (BodyM.armType resolve' arm (cross.rename.on bound) (cross.rename.on result) >>=
          fun joined => BodyM.arms resolve' (cross.rename.on subject) rest (some joined) >>=
            fun later =>
              pure (({ pattern, span := arm.span } : GroupArm) :: later.1, later.2)) := by
      intro pattern bound
      apply (armType_resolves done same arm bound result).bind
      intro joined
      apply (arms_resolves same subject rest (some joined)).bind
      exact fun _ => .pure rfl
    apply (Resolves.lift (prepareArm_agrees done arm subject)).bindPlain
    intro pattern
    cases pattern with
    | none => exact after none []
    | some typed =>
      have bindings : cross.Agrees (StageM.inspect (·.unit.patterns.bindings typed))
          (StageM.inspect (·.unit.patterns.bindings typed)) := by
        apply askUnit_agrees
        intro work work' same
        rw [same]
        exact PatternStore.bindings_on cross.rename work.unit.patterns typed
      exact (Resolves.lift bindings).bind (after (some typed))

omit done in
theorem items_resolves {resolve resolve' : ExprRef → BodyM TypeRef}
    (same : ∀ ref, cross.Resolves (resolve ref) (resolve' ref)) :
    ∀ (list : List ExprRef) (type : TypeRef),
      cross.Resolves (BodyM.items resolve list type)
        (BodyM.items resolve' list (cross.rename.on type))
  | [], _ => .pure rfl
  | item :: rest, _ => (same item).bind fun type => items_resolves same rest type

omit done in
/-- A name of a body is bound to a type. -/
theorem bind_resolves (name : Name) (declared : TypeRef) :
    cross.Resolves
      (do
        modify fun locals : Locals => (name, declared) :: locals
        return TypeRef.void)
      (do
        modify fun locals : Locals => (name, cross.rename.on declared) :: locals
        return TypeRef.void) := by
  have added : cross.Resolves (modify fun locals : Locals => (name, declared) :: locals)
      (modify fun locals : Locals => (name, cross.rename.on declared) :: locals) :=
    Resolves.modify fun _ => rfl
  exact added.bindPlain fun _ => .pure cross.rename.on_void.symm

/-- A name is bound to the type that is written, which the type of its value is compared with. -/
theorem bindWritten_resolves (site : BodySite) (name : Name) (type : TypeExpr) (init : ExprRef)
    (initType : TypeRef) : cross.Resolves
      (do
        let declared ← site.resolve type
        BodyM.expect declared initType (← BodyM.spanOf init)
        modify fun locals : Locals => (name, declared) :: locals
        return TypeRef.void)
      (do
        let declared ← (cross.rename.on site).resolve type
        BodyM.expect declared (cross.rename.on initType) (← BodyM.spanOf init)
        modify fun locals : Locals => (name, declared) :: locals
        return TypeRef.void) := by
  apply (Resolves.lift (resolve_agrees site.toTypeSite type)).bind
  intro declared
  apply (Resolves.lift (spanOf_agrees init)).bindPlain
  intro initSpan
  apply (Resolves.lift (expect_agrees done declared initType initSpan)).bindPlain
  exact fun _ => bind_resolves name declared

theorem matchOn_resolves {resolve resolve' : ExprRef → BodyM TypeRef}
    (same : ∀ ref, cross.Resolves (resolve ref) (resolve' ref)) (site : BodySite) (index : Nat)
    (scrutinee : ExprRef) (branches : List MatchArm) (span : Span) :
    cross.Resolves (BodyM.node site resolve index ⟨.matchOn scrutinee branches, span⟩)
      (BodyM.node (cross.rename.on site) resolve' index ⟨.matchOn scrutinee branches, span⟩) := by
  apply (same scrutinee).bind
  intro subject
  apply (arms_resolves done same subject branches none).bind
  intro result
  obtain ⟨typed, result⟩ := result
  simp only [Renaming.on_pair, Renaming.on_plain]
  have recorded := Resolves.lift (@recordGroup_agrees cross index { subject, arms := typed, span })
  apply recorded.bindPlain
  intro _
  apply Resolves.pure
  cases result with
  | none => exact cross.rename.on_void.symm
  | some type => rfl

theorem node_resolves {resolve resolve' : ExprRef → BodyM TypeRef}
    (same : ∀ ref, cross.Resolves (resolve ref) (resolve' ref)) (site : BodySite) (index : Nat)
    (expr : Expr) : cross.Resolves (BodyM.node site resolve index expr)
      (BodyM.node (cross.rename.on site) resolve' index expr) := by
  obtain ⟨kind, span⟩ := expr
  cases kind with
  | literal value => exact .pure (cross.rename.on_literal value).symm
  | ident name =>
    apply Resolves.get
    intro locals
    exact .lift (ident_agrees done site locals index name span)
  | this => exact .pure rfl
  | field receiver name =>
    exact (same receiver).bind fun receiver =>
      .lift (field_agrees done site index receiver name span)
  | call receiver method args =>
    have invoke : ∀ receiver : TypeRef, cross.Resolves
        (do
          let args ← args.mapM resolve
          BodyM.call site index receiver method args span)
        (do
          let args ← args.mapM resolve'
          BodyM.call (cross.rename.on site) index (cross.rename.on receiver) method args span) :=
      fun receiver => (Resolves.mapM same args).bind fun args =>
        .lift (call_agrees done site index receiver method args span)
    cases receiver with
    | none => exact invoke site.classType
    | some receiver => exact (same receiver).bind invoke
  | new type args =>
    apply Resolves.bindPlain
    · apply Resolves.forM
      intro arg
      change cross.Resolves (Function.const TypeRef PUnit.unit <$> resolve arg)
        (Function.const TypeRef PUnit.unit <$> resolve' arg)
      rw [map_eq_pure_bind, map_eq_pure_bind]
      exact (same arg).bind fun _ => .pure rfl
    · exact fun _ => .lift (newInstance_agrees done site index type span)
  | binary op left right =>
    apply (same left).bind
    intro leftType
    apply (same right).bind
    intro rightType
    apply (Resolves.lift (spanOf_agrees right)).bindPlain
    intro rightSpan
    apply (Resolves.lift (spanOf_agrees left)).bindPlain
    intro leftSpan
    exact .lift (binary_agrees done op (leftType, leftSpan) (rightType, rightSpan))
  | unary op operand =>
    apply (same operand).bind
    intro type
    apply (Resolves.lift (spanOf_agrees operand)).bindPlain
    exact fun span => .lift (unary_agrees done op type span)
  | ifElse cond thenBranch elseBranch =>
    apply (same cond).bind
    intro condType
    apply (Resolves.lift (spanOf_agrees cond)).bindPlain
    intro condSpan
    apply (Resolves.lift (expectBool_agrees done condType condSpan)).bindPlain
    intro _
    apply (same thenBranch).bind
    intro thenType
    by_cases missing : elseBranch = .missing
    · subst missing
      exact .pure cross.rename.on_void.symm
    · rw [if_neg missing, if_neg missing]
      exact (same elseBranch).bind fun elseType => .lift (join_agrees done thenType elseType)
  | matchOn scrutinee branches =>
    exact matchOn_resolves done same site index scrutinee branches span
  | letIn name type init =>
    apply (same init).bind
    intro initType
    cases type with
    | infer => exact bind_resolves name initType
    | named name' args span => exact bindWritten_resolves done site name _ init initType
    | wildcard variance bound span => exact bindWritten_resolves done site name _ init initType
  | block list =>
    have all := items_resolves same list .void
    rw [cross.rename.on_void] at all
    exact .withScope all
  | error => exact .pure cross.rename.on_any.symm

omit done in
theorem recordType_agrees (index : Nat) (type : TypeRef) :
    cross.Agrees
      (StageM.modifyUnit fun unit => { unit with exprTypes := unit.exprTypes.insert index type })
      (StageM.modifyUnit fun unit =>
        { unit with exprTypes := unit.exprTypes.insert index (cross.rename.on type) }) := by
  apply changeUnit_agrees
  · intro unit
    exact congrArg (fun exprTypes => { cross.rename.on unit with exprTypes })
      (IdMap.insert_on cross.rename unit.exprTypes index type)
  · exact fun _ _ => rfl
  · exact fun _ _ => rfl

theorem resolveWithin_resolves (site : BodySite) : ∀ (depth : Nat) (ref : ExprRef),
    cross.Resolves (BodyM.resolveWithin site depth ref)
      (BodyM.resolveWithin (cross.rename.on site) depth ref)
  | 0, .missing => .pure cross.rename.on_void.symm
  | _ + 1, .missing => .pure cross.rename.on_void.symm
  | 0, .node _ => .throw _
  | depth + 1, .node index => by
    have read : cross.Agrees (StageM.inspect (·.unit.arena.expr (.node index)))
        (StageM.inspect (·.unit.arena.expr (.node index))) :=
      askUnit_agrees fun _ _ same => .same (by rw [same]; rfl)
    apply (Resolves.lift read).bindPlain
    intro expr
    apply (node_resolves done (resolveWithin_resolves site depth) site index expr).bind
    intro type
    exact (Resolves.lift (recordType_agrees index type)).bindPlain fun _ => .pure rfl

theorem resolve_resolves (site : BodySite) (ref : ExprRef) :
    cross.Resolves (BodyM.resolve site ref) (BodyM.resolve (cross.rename.on site) ref) := by
  have sized : cross.Agrees (StageM.inspect fun work => pure work.unit.arena.size)
      (StageM.inspect fun work => pure work.unit.arena.size) :=
    askUnit_agrees fun _ _ same => .same (by rw [same]; rfl)
  apply (Resolves.lift sized).bindPlain
  intro size
  exact resolveWithin_resolves done site (size + 1) ref

/-! Members. -/

theorem resolveAnnotationUse_agrees (entry : AnnotationUse) :
    cross.Agrees (StageM.resolveAnnotationUse entry) (StageM.resolveAnnotationUse entry) := by
  apply Setting.Agree.ite Iff.rfl
  · exact fun _ => .pure rfl
  intro _
  apply Setting.Agree.get
  intro work work' left right _
  have tables := tables_now left right done
  dsimp only
  rw [tables.classModifiers?]
  have unknown : cross.Agrees
      (do
        StageM.report { code := .unknownAnnotationClass, span := entry.span, args := [entry.name] }
        return entry)
      (do
        StageM.report { code := .unknownAnnotationClass, span := entry.span, args := [entry.name] }
        return entry) :=
    (report_agrees _).bind fun _ => .pure rfl
  cases work.symbols.classModifiers? entry.name with
  | none => exact unknown
  | some modifiers =>
    apply Setting.Agree.ite Iff.rfl
    · exact fun _ => .pure rfl
    · exact fun _ => unknown

theorem resolveAnnotations_agrees (id : Nat) :
    cross.Agrees (StageM.resolveAnnotations id) (StageM.resolveAnnotations id) := by
  apply readMember_agrees
  intro member found
  have annotated : ∀ uses : List AnnotationUse, cross.Agrees (uses.mapM StageM.resolveAnnotationUse)
      (uses.mapM StageM.resolveAnnotationUse) := fun uses =>
    .mapM_plain fun entry _ => resolveAnnotationUse_agrees done entry
  apply (annotated member.annotations).bindPlain
  intro annotations
  obtain ⟨name, span, detail, declared, type, modifiers, written, access, owner, progress⟩ := member
  cases detail with
  | field init =>
    exact @setMember_agrees cross id
      ⟨name, span, .field init, declared, type, modifiers, annotations, access,
      owner, progress⟩ found
  | class_ typeParams superclass interfaces superType interfaceTypes permits members =>
    exact @setMember_agrees cross id ⟨name, span,
      .class_ typeParams superclass interfaces superType interfaceTypes permits members,
        declared, type,
      modifiers, annotations, access, owner, progress⟩ found
  | method typeParams params body =>
    apply Setting.Agree.bindOn cross.rename
    · apply Setting.Agree.mapM_on
      intro param _
      exact (annotated param.annotations).bindPlain fun annotations => .pure rfl
    · intro params
      exact @setMember_agrees cross id
        ⟨name, span, .method typeParams params body, declared, type, modifiers,
        annotations, access, owner, progress⟩ found

theorem resolveBody_agrees (id : Nat) :
    cross.Agrees (StageM.resolveBody id) (StageM.resolveBody id) := by
  apply (resolveAnnotations_agrees done id).bindPlain
  intro _
  apply Setting.Agree.get
  intro work work' left right seen
  dsimp only
  rw [show work'.unit = cross.rename.on work.unit from seen]
  apply Setting.Agree.bind
    (lift_agrees (.of_map (MemberArena.get_on cross.rename work.unit.members id)))
  intro member
  rw [Member.body_on]
  cases member.body with
  | none => exact .pure (cross.rename.on_plain _).symm
  | some body =>
    apply Setting.Agree.bind (lift_agrees (CompilationUnit.classOf_on cross.rename work.unit id))
    intro classMember
    apply Setting.Agree.bind
      (lift_agrees (TypeScope.forMember_on cross.rename work.unit.members id))
    intro scope
    have locals : ((cross.rename.on member).params.map fun param =>
      (param.name, param.type)).reverse =
        cross.rename.on (member.params.map fun param => (param.name, param.type)).reverse := by
      have named : (cross.rename.on member.params).map (fun param => (param.name, param.type)) =
          cross.rename.on (member.params.map fun param => (param.name, param.type)) := by
        apply Renaming.map_on
        exact fun _ => rfl
      rw [Member.params_on, named]
      exact List.map_reverse.symm
    rw [locals]
    let site : BodySite :=
      { scope, member := id, className := classMember.name, classType := classMember.type
        suppress := member.suppressesWarnings || classMember.suppressesWarnings }
    have resolved := resolve_resolves done site body
      (member.params.map fun param => (param.name, param.type)).reverse
    exact resolved.bind fun _ => .pure rfl

end
end Crossing
end ClassLang
