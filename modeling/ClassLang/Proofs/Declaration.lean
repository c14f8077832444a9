import ClassLang.Declaration

/-! What a declaration adds: parameters, members, symbols and records, each at the end of what was
there. The layout of a unit is a function of its source and of the first free positions. -/

namespace ClassLang

/-- The first free positions. -/
structure Position where
  unit : Nat
  member : Nat
  symbol : Nat
  param : Nat

/-- What declarations add; every member has one symbol. -/
structure Layout where
  params : List TypeParam := []
  members : List Member := []
  symbols : List Symbol := []
  records : List ClassRecord := []
  classes : List Nat := []

namespace Layout

/-- One layout behind the other. -/
def append (first second : Layout) : Layout where
  params := first.params ++ second.params
  members := first.members ++ second.members
  symbols := first.symbols ++ second.symbols
  records := first.records ++ second.records
  classes := first.classes ++ second.classes

end Layout

namespace Position

/-- The free positions behind a layout. -/
def after (position : Position) (layout : Layout) : Position where
  unit := position.unit
  member := position.member + layout.members.length
  symbol := position.symbol + layout.symbols.length
  param := position.param + layout.params.length

end Position

namespace Workspace

def position (work : Workspace) : Position where
  unit := work.unit.id
  member := work.unit.members.size
  symbol := work.symbols.size
  param := work.pool.params.size

/-- The workspace with a layout behind what it has. -/
def add (work : Workspace) (layout : Layout) : Workspace :=
  { work with
    pool := { work.pool with params := work.pool.params ++ layout.params.toArray }
    symbols :=
      { symbols := work.symbols.symbols ++ layout.symbols.toArray
        classes := work.symbols.classes ++ layout.records }
    unit := { work.unit with
      members := ⟨work.unit.members.members ++ layout.members.toArray⟩
      classes := work.unit.classes ++ layout.classes
      symbols := work.unit.symbols ++
        (List.range' work.symbols.size layout.symbols.length).toArray } }

variable (work : Workspace) (first second layout : Layout)

@[simp] theorem add_empty : work.add {} = work := by
  simp [add]

/-- Parameters alone go to the pool. -/
theorem add_params (params : List TypeParam) : work.add { params } =
    { work with pool := { work.pool with params := work.pool.params ++ params.toArray } } := by
  simp [add]

@[simp] theorem position_add : (work.add layout).position = work.position.after layout := by
  simp [position, add, Position.after, MemberArena.size, SymbolTable.size]

@[simp] theorem add_add : (work.add first).add second = work.add (first.append second) := by
  simp [add, Layout.append, SymbolTable.size, Array.append_assoc]

end Workspace

/-! The parts of a layout. -/

/-- The parameter as it is first declared: without bounds. -/
def TypeParamDecl.declared (owner : Name) (decl : TypeParamDecl) : TypeParam :=
  { name := decl.name, owner, variance := decl.variance }

/-- The declared parameters, numbered from `first` on. -/
def genericParams (first : Nat) : List TypeParamDecl → List GenericParam
  | [] => []
  | decl :: rest =>
    { id := ⟨first⟩, name := decl.name, bounds := decl.bounds, span := decl.span } ::
      genericParams (first + 1) rest

def Member.kind (member : Member) : SymbolKind :=
  match member.detail with
  | .field _ => .field
  | .method .. => .method
  | .class_ .. => .class_

/-- The field as it is laid out in the class at `owner`. -/
def FieldDecl.laid (owner : Nat) (decl : FieldDecl) : Member :=
  { name := decl.name, span := decl.span, detail := .field decl.init, declared := decl.type,
    modifiers := decl.modifiers, annotations := Declaration.annotations decl.annotations,
    access := decl.access, owner := some owner }

/-- The method as it is laid out in the class at `owner`, with its parameters from `first` on. -/
def MethodDecl.laid (owner : Nat) (inInterface : Bool) (first : Nat) (decl : MethodDecl) : Member :=
  { name := decl.name, span := decl.span
    detail := .method (genericParams first decl.typeParams)
      (decl.params.map fun param =>
        { name := param.name, declared := param.type,
          annotations := Declaration.annotations param.annotations, span := param.span })
      decl.body
    declared := decl.returns
    modifiers :=
      if inInterface && decl.body.isNone then { decl.modifiers with isAbstract := true }
      else decl.modifiers
    annotations := Declaration.annotations decl.annotations
    access := if inInterface then .public_ else decl.access
    owner := some owner }

/-- Methods one after the other. -/
def laidMethods (owner : Nat) (inInterface : Bool) : Nat → List MethodDecl → List Member
  | _, [] => []
  | first, decl :: rest =>
    decl.laid owner inInterface first ::
      laidMethods owner inInterface (first + decl.typeParams.length) rest

@[simp] theorem length_laidMethods (owner first : Nat) (inInterface : Bool)
    (methods : List MethodDecl) :
    (laidMethods owner inInterface first methods).length = methods.length := by
  induction methods generalizing first with
  | nil => rfl
  | cons decl rest ih => exact congrArg (· + 1) (ih _)

namespace ClassDecl
variable (decl : ClassDecl) (position : Position)

/-- The fields and methods of the class. -/
def inner : List Member :=
  decl.fields.map (·.laid position.member) ++
    laidMethods position.member decl.modifiers.isInterface
      (position.param + decl.typeParams.length) decl.methods

/-- The parameters of the class and of its methods. -/
def declaredParams : List TypeParam :=
  decl.typeParams.map (·.declared decl.name) ++
    decl.methods.flatMap fun method => method.typeParams.map (·.declared method.name)

/-- The class itself, with the positions of its fields and methods. -/
def laid (members : List Nat) : Member :=
  { name := decl.name, span := decl.span
    detail := .class_ (genericParams position.param decl.typeParams) decl.superclass
      decl.interfaces none [] decl.permits members
    declared := .named decl.name [] decl.span, modifiers := decl.modifiers
    annotations := Declaration.annotations decl.annotations, access := decl.access }

/-- The symbol of a field or method at a position. -/
def innerSymbol (entry : Member × Nat) : Symbol :=
  Declaration.symbolFor entry.1 entry.2 position.unit entry.1.kind (some decl.name)
    entry.1.params.length

/-- The layout of the class with some fields and methods and parameters, while it is made. -/
def partialLayout (params : List TypeParam) (inner : List Member) (members : List Nat) :
    Layout where
  params := params
  members := decl.laid position members :: inner
  symbols :=
    Declaration.symbolFor (decl.laid position []) position.member position.unit .class_ none 0 ::
      (inner.zipIdx (position.member + 1)).map (decl.innerSymbol position)
  records :=
    [{ symbol := position.symbol, name := decl.name, order := (position.unit, position.member)
       typeParams := (genericParams position.param decl.typeParams).map (·.id)
       permits := if decl.modifiers.isSealed then some decl.permits else none
       members := List.range' (position.symbol + 1) inner.length }]
  classes := [position.member]

def layout : Layout :=
  decl.partialLayout position decl.declaredParams (decl.inner position)
    (List.range' (position.member + 1) (decl.inner position).length)

end ClassDecl

/-- Classes one after the other. -/
def layoutAll : Position → List ClassDecl → Layout
  | _, [] => {}
  | position, decl :: rest =>
    (decl.layout position).append (layoutAll (position.after (decl.layout position)) rest)

namespace Declaration
variable {work : Workspace}

theorem bind_run {first : DeclareM α} {next : α → DeclareM β} {start middle : Workspace}
    {result : α} {final : β × Workspace} (same : first.run start = (result, middle))
    (rest : (next result).run middle = final) : (first >>= next).run start = final := by
  rw [StateT.run_bind, same]
  exact rest

/-- The runs of an action on a list, one after the other. -/
theorem mapM_cons_run {action : α → DeclareM β} {first : α} {rest : List α}
    {start middle final : Workspace} {result : β} {results : List β}
    (same : (action first).run start = (result, middle))
    (others : (rest.mapM action).run middle = (results, final)) :
    ((first :: rest).mapM action).run start = (result :: results, final) := by
  rw [List.mapM_cons]
  exact bind_run same (bind_run others rfl)

theorem typeParams_run (owner : Name) (decls : List TypeParamDecl) (work : Workspace) :
    (typeParams owner decls).run work = (genericParams work.pool.params.size decls,
      work.add { params := decls.map (·.declared owner) }) := by
  induction decls generalizing work with
  | nil => exact congrArg (Prod.mk []) work.add_empty.symm
  | cons decl rest ih =>
    have later := ih (work.add { params := [decl.declared owner] })
    rw [Workspace.add_add] at later
    refine mapM_cons_run ?_ (later.trans ?_)
    · exact congrArg (Prod.mk _) (by simp [Workspace.add, TypeParamDecl.declared])
    · simp [Workspace.add, Layout.append]

/-- A member goes to the record of the class that was declared last. -/
theorem declareMember_last (table : SymbolTable) {earlier : List ClassRecord} {record : ClassRecord}
    (classes : table.classes = earlier ++ [record])
    (fresh : ∀ other ∈ earlier, other.symbol < record.symbol) (symbol : Symbol) :
    table.declareMember record.symbol symbol = (table.size,
      { symbols := table.symbols.push symbol
        classes := earlier ++ [{ record with members := record.members ++ [table.size] }] }) := by
  have kept : (earlier.map fun other => if other.symbol = record.symbol then
      { other with members := other.members ++ [table.size] } else other) = earlier := by
    refine (List.map_congr_left fun other member => ?_).trans (List.map_id _)
    exact if_neg (Nat.ne_of_lt (fresh other member))
  simp [SymbolTable.declareMember, SymbolTable.updateClass, classes, kept]

theorem member_eq (owner class_ : Nat) (className : Name) (kind : SymbolKind) (arity : Nat)
    {added : Member} (owned : added.owner = some owner) (work : Workspace) :
    (member owner class_ className kind arity added).run work = (work.unit.members.size,
      { work with
        symbols := (work.symbols.declareMember class_ (symbolFor added work.unit.members.size
          work.unit.id kind (some className) arity)).2
        unit := { work.unit with
          members := ⟨work.unit.members.members.push added⟩
          symbols := work.unit.symbols.push work.symbols.size } }) := by
  have same : { added with owner := some owner } = added := by rw [← owned]
  unfold member
  simp only [same]
  rfl

section
variable (decl : ClassDecl) (params : List TypeParam) (inner : List Member)
  (fresh : ∀ record ∈ work.symbols.classes, record.symbol < work.symbols.size)
include fresh

/-- A field or method is added to the class that is being declared. -/
theorem member_run (added : Member) (owned : added.owner = some work.unit.members.size) :
    (member work.unit.members.size work.symbols.size decl.name added.kind added.params.length
        added).run (work.add (decl.partialLayout work.position params inner [])) =
      (work.unit.members.size + 1 + inner.length,
        work.add (decl.partialLayout work.position params (inner ++ [added]) [])) := by
  rw [member_eq _ _ _ _ _ owned]
  have published := declareMember_last
    (work.add (decl.partialLayout work.position params inner [])).symbols rfl fresh
  change (_,
    Workspace.mk (Program.mk _ (SymbolTable.declareMember _ work.position.symbol _).2) _ _) = _
  rw [published]
  have count : ∀ first, first + (inner.length + 1) = first + 1 + inner.length := by omega
  simp [Workspace.add, ClassDecl.partialLayout, Workspace.position, MemberArena.size,
    SymbolTable.size, ClassDecl.innerSymbol, List.zipIdx_append, List.range'_concat, count]

theorem fields_run (fields : List FieldDecl) (inner : List Member) :
    (fields.mapM (field work.unit.members.size work.symbols.size decl.name)).run
        (work.add (decl.partialLayout work.position params inner [])) =
      (List.range' (work.unit.members.size + 1 + inner.length) fields.length,
        work.add (decl.partialLayout work.position params
          (inner ++ fields.map (·.laid work.unit.members.size)) [])) := by
  induction fields generalizing inner with
  | nil =>
    simp only [List.map_nil, List.append_nil]
    rfl
  | cons first rest ih =>
    have later := ih (inner ++ [first.laid work.unit.members.size])
    rw [List.append_assoc, List.length_append] at later
    exact mapM_cons_run (member_run decl params inner fresh (first.laid work.unit.members.size) rfl)
      later

theorem method_run (inInterface : Bool) (added : MethodDecl) :
    (method work.unit.members.size work.symbols.size decl.name inInterface added).run
        (work.add (decl.partialLayout work.position params inner [])) =
      (work.unit.members.size + 1 + inner.length,
        work.add (decl.partialLayout work.position
          (params ++ added.typeParams.map (·.declared added.name))
          (inner ++ [added.laid work.unit.members.size inInterface
            (work.pool.params.size + params.length)]) [])) := by
  have declared := typeParams_run added.name added.typeParams
    (work.add (decl.partialLayout work.position params inner []))
  have widened : (work.add (decl.partialLayout work.position params inner [])).add
      { params := added.typeParams.map (·.declared added.name) } =
        work.add (decl.partialLayout work.position
          (params ++ added.typeParams.map (·.declared added.name)) inner []) := by
    simp [Layout.append, ClassDecl.partialLayout]
  have size : (work.add (decl.partialLayout work.position params inner [])).pool.params.size =
      work.pool.params.size + params.length := by
    simp [Workspace.add, ClassDecl.partialLayout]
  have step := member_run decl (params ++ added.typeParams.map (·.declared added.name)) inner fresh
    (added.laid work.unit.members.size inInterface (work.pool.params.size + params.length)) rfl
  rw [widened, size] at declared
  exact bind_run declared step

theorem methods_run (inInterface : Bool) (methods : List MethodDecl) (params : List TypeParam)
    (inner : List Member) :
    (methods.mapM (method work.unit.members.size work.symbols.size decl.name inInterface)).run
        (work.add (decl.partialLayout work.position params inner [])) =
      (List.range' (work.unit.members.size + 1 + inner.length) methods.length,
        work.add (decl.partialLayout work.position
          (params ++ methods.flatMap fun method => method.typeParams.map (·.declared method.name))
          (inner ++ laidMethods work.unit.members.size inInterface
            (work.pool.params.size + params.length) methods) [])) := by
  induction methods generalizing params inner with
  | nil =>
    simp only [List.flatMap_nil, laidMethods, List.append_nil]
    rfl
  | cons first rest ih =>
    have later := ih (params ++ first.typeParams.map (·.declared first.name))
      (inner ++ [first.laid work.unit.members.size inInterface
        (work.pool.params.size + params.length)])
    rw [List.append_assoc, List.append_assoc, List.length_append, List.length_append,
      List.length_map, ← Nat.add_assoc work.pool.params.size] at later
    exact mapM_cons_run (method_run decl params inner fresh inInterface first) later

omit fresh in
/-- The class stands before its fields and methods are added. -/
theorem open_eq (params : List TypeParam) : { work with
      pool := { work.pool with params := work.pool.params ++ params.toArray }
      symbols := (work.symbols.declareClass
        (symbolFor (decl.laid work.position []) work.unit.members.size work.unit.id .class_ none 0)
        ((genericParams work.pool.params.size decl.typeParams).map (·.id))
        (if decl.modifiers.isSealed then some decl.permits else none)).2
      unit := { work.unit with
        members := ⟨work.unit.members.members.push (decl.laid work.position [])⟩
        symbols := work.unit.symbols.push work.symbols.size
        classes := work.unit.classes ++ [work.unit.members.size] } } =
    work.add (decl.partialLayout work.position params [] []) := by
  simp [Workspace.add, ClassDecl.partialLayout, SymbolTable.declareClass, Workspace.position,
    symbolFor, ClassDecl.laid]

omit fresh in
/-- The class lists its fields and methods at the end. -/
theorem close_run (members : List Nat) :
    (modify fun work' : Workspace => { work' with unit := { work'.unit with
        members := work'.unit.members.set work.unit.members.size
          (decl.laid work.position members) } } :
        DeclareM PUnit).run (work.add (decl.partialLayout work.position params inner [])) =
      ((), work.add (decl.partialLayout work.position params inner members)) := by
  refine congrArg (Prod.mk ()) ?_
  simp [Workspace.add, ClassDecl.partialLayout, MemberArena.set, MemberArena.size]

/-- Declaring a class adds its layout. -/
theorem class_run :
    (class_ decl).run work = ((), work.add (decl.layout work.position)) := by
  have declared := typeParams_run decl.name decl.typeParams work
  have fields := fields_run decl (decl.typeParams.map (·.declared decl.name)) fresh decl.fields []
  have methods := methods_run decl fresh decl.modifiers.isInterface decl.methods
    (decl.typeParams.map (·.declared decl.name)) (decl.fields.map (·.laid work.unit.members.size))
  rw [Workspace.add_params] at declared
  rw [← open_eq] at fields
  rw [List.length_map (TypeParamDecl.declared decl.name)] at methods
  refine bind_run declared ?_
  refine bind_run rfl (bind_run rfl (bind_run rfl (bind_run rfl ?_)))
  refine bind_run fields (bind_run methods ?_)
  have listed : List.range' (work.unit.members.size + 1 + ([] : List Member).length)
      decl.fields.length ++ List.range' (work.unit.members.size + 1 +
        (decl.fields.map (·.laid work.unit.members.size)).length) decl.methods.length =
        List.range' (work.unit.members.size + 1) (decl.inner work.position).length := by
    simp [ClassDecl.inner]
  rw [listed]
  exact close_run decl _ _ _

end

theorem classes_run (decls : List ClassDecl) (work : Workspace)
    (fresh : ∀ record ∈ work.symbols.classes, record.symbol < work.symbols.size) :
    (decls.forM class_).run work = ((), work.add (layoutAll work.position decls)) := by
  induction decls generalizing work with
  | nil => exact congrArg (Prod.mk ()) work.add_empty.symm
  | cons decl rest ih =>
    have still : ∀ record ∈ (work.add (decl.layout work.position)).symbols.classes,
        record.symbol < (work.add (decl.layout work.position)).symbols.size := by
      intro record member
      have size : work.symbols.size < (work.add (decl.layout work.position)).symbols.size := by
        simp [Workspace.add, SymbolTable.size, ClassDecl.layout, ClassDecl.partialLayout]
      rcases List.mem_append.mp member with old | new
      · exact Nat.lt_trans (fresh record old) size
      · rw [List.mem_singleton.mp new]
        exact size
    have later := ih _ still
    rw [Workspace.position_add, Workspace.add_add] at later
    exact bind_run (class_run decl fresh) later

end Declaration

/-- Where the declarations of the next unit begin. -/
def Program.position (program : Program) (unit : Nat) : Position where
  unit := unit
  member := 0
  symbol := program.symbols.size
  param := program.pool.params.size

/-- The program with the shared parts of a layout behind what it has. -/
def Program.add (program : Program) (layout : Layout) : Program where
  pool := { program.pool with params := program.pool.params ++ layout.params.toArray }
  symbols :=
    { symbols := program.symbols.symbols ++ layout.symbols.toArray
      classes := program.symbols.classes ++ layout.records }

/-- The unit as it is declared. -/
def SourceUnit.declared (source : SourceUnit) (position : Position) : CompilationUnit :=
  { id := position.unit, name := source.name, arena := source.arena
    members := ⟨(layoutAll position source.classes).members.toArray⟩
    classes := (layoutAll position source.classes).classes
    symbols := (List.range' position.symbol
      (layoutAll position source.classes).symbols.length).toArray }

/-- Declaring a unit lays out its classes behind the program. -/
theorem Program.declareUnit_eq {program : Program}
    (fresh : ∀ record ∈ program.symbols.classes, record.symbol < program.symbols.size)
    (id : Nat) (source : SourceUnit) :
    program.declareUnit id source = (source.declared (program.position id),
      program.add (layoutAll (program.position id) source.classes)) := by
  have ran := Declaration.classes_run source.classes
    { toProgram := program, unit := { id, name := source.name, arena := source.arena } } fresh
  unfold Program.declareUnit
  dsimp only
  rw [ran]
  simp [Workspace.add, SourceUnit.declared, Program.add, Workspace.position, Program.position,
    MemberArena.size]

end ClassLang
