import ClassLang.Proofs.Stage.Accounts
import ClassLang.Proofs.Stage.Evolution
import ClassLang.Proofs.Stage.ScopedOverload

/-! What a unit says about classes and type parameters before any stage works on it, and what stages
keep: everything that is published or recorded is over the parameters of the declaration it belongs
to. -/

namespace ClassLang

namespace TypeExpr

mutual

/-- The names that occur, each with the number of arguments written for it. -/
def uses : TypeExpr → List (Name × Nat)
  | infer => []
  | named name args _ => (name, args.length) :: usesOfAll args
  | wildcard .invariant _ _ => []
  | wildcard _ bound _ => usesOfBound bound

def usesOfAll : List TypeExpr → List (Name × Nat)
  | [] => []
  | first :: rest => uses first ++ usesOfAll rest

def usesOfBound : Option TypeExpr → List (Name × Nat)
  | none => []
  | some bound => uses bound

end

theorem mem_usesOfAll {use : Name × Nat} {types : List TypeExpr} :
    use ∈ usesOfAll types ↔ ∃ type ∈ types, use ∈ type.uses := by
  induction types with
  | nil => simp [usesOfAll]
  | cons first rest ih =>
    rw [usesOfAll, List.mem_append, ih]
    simp

end TypeExpr

/-- The names an expression uses: a bare name may be that of a class without arguments. -/
def ExprKind.uses : ExprKind → List (Name × Nat)
  | .ident name => [(name, 0)]
  | .new type _ | .letIn _ type _ => type.uses
  | _ => []

namespace Member

/-- The types written in the declaration, those of its members apart. -/
def writtenTypes (member : Member) : List TypeExpr :=
  member.typeParams.flatMap (·.bounds) ++
    match member.detail with
    | .field _ => [member.declared]
    | .method _ params _ => member.declared :: params.map (·.declared)
    | .class_ _ superclass interfaces .. => superclass.toList ++ interfaces

/-- The declaration without what stages find out about it. -/
def written (member : Member) : Member :=
  { member with
    type := .absent, annotations := [], progress := .unresolved
    detail := match member.detail with
      | .field init => .field init
      | .method typeParams params body =>
        .method typeParams (params.map fun param =>
          { param with type := .absent, annotations := [] }) body
      | .class_ typeParams superclass interfaces _ _ permits members =>
        .class_ typeParams superclass interfaces none [] permits members }

/-- The declared parameters. -/
def ownParams (member : Member) : List ParamRef := member.typeParams.map (·.id)

end Member

namespace CompilationUnit

/-- The parameter is one of the member or of its enclosing class. -/
def inScope (unit : CompilationUnit) (member : Member) : ParamSet := fun param =>
  ∃ entry ∈ unit.scopeOf member, entry.2 = param

/-- The unit uses the name with a number of type arguments, be it in a written type or alone. -/
def Uses (unit : CompilationUnit) (name : Name) (count : Nat) : Prop :=
  (∃ member ∈ unit.members.toList, ∃ type ∈ member.writtenTypes, (name, count) ∈ type.uses) ∨
    ∃ expr ∈ unit.arena.exprs.toList, (name, count) ∈ expr.kind.uses

instance (unit : CompilationUnit) (name : Name) (count : Nat) : Decidable (unit.Uses name count) :=
  inferInstanceAs (Decidable ((∃ _ ∈ _, ∃ _ ∈ _, _) ∨ ∃ _ ∈ _, _))

end CompilationUnit

/-- The symbols of the units and the parameters they declare are those of the table, and each
declaration has its own. -/
structure Linked (table : SymbolTable) (units : List CompilationUnit) : Prop where
  nested : ∀ unit ∈ units, ∀ (id : Nat) (member : Member), unit.members.members[id]? = some member →
    ∀ owner ∈ member.owner, ∃ class_, unit.members.members[owner]? = some class_ ∧
    class_.owner = none
  own : ∀ record ∈ table.classes, ∀ unit ∈ units, ∀ (id : Nat) (member : Member),
    unit.symbols[id]? = some record.symbol → unit.members.members[id]? = some member →
      member.owner = none ∧ record.typeParams = member.ownParams
  inner : ∀ record ∈ table.classes, ∀ symbol ∈ record.members, ∀ unit ∈ units,
    ∀ (id : Nat) (member : Member), unit.symbols[id]? = some symbol →
    unit.members.members[id]? = some member →
      record.typeParams = (unit.outerParams member).map (·.id)
  fields : ∀ unit ∈ units, ∀ (id symbol : Nat) (member : Member) (entry : Symbol),
    unit.symbols[id]? = some symbol → unit.members.members[id]? = some member →
      table.symbols[symbol]? = some entry → entry.kind = .field → member.typeParams = []
  declaring : ∀ record ∈ table.classes, ∃ unit ∈ units, ∃ (id : Nat) (member : Member),
    unit.members.members[id]? = some member ∧ member.owner = none ∧
    record.typeParams = member.ownParams
  single : ∀ unit ∈ units, ∀ other ∈ units, ∀ (id place : Nat) (member rival : Member),
    unit.members.members[id]? = some member → other.members.members[place]? = some rival →
      ∀ param, param ∈ member.ownParams → param ∈ rival.ownParams →
      unit.inScope member = other.inScope rival

/-- What the bounds of a parameter may mention: what is in scope where the parameter is declared. -/
def scopeAround (units : List CompilationUnit) (param : ParamRef) : ParamSet := fun other =>
  ∀ unit ∈ units, ∀ (id : Nat) (member : Member), unit.members.members[id]? = some member →
    param ∈ member.ownParams → unit.inScope member other

/-- A session to be judged, with the units as they are declared. Loose are the parameters of classes
that are used without arguments, and those that a class has for another one of its name; and what
the bounds of such a parameter mention is loose, too. -/
structure Judgement extends Scoping where
  table : SymbolTable
  units : List CompilationUnit
  linked : Linked table units
  classes : typeParams = table.hierarchy.typeParams
  raw : ∀ unit ∈ units, ∀ name, unit.Uses name 0 → ∀ param ∈ typeParams name, loose param
  hidden : ∀ unit ∈ units, ∀ (id symbol : Nat) (member : Member),
    unit.members.members[id]? = some member → member.isClass = true →
    unit.symbols[id]? = some symbol →
      ∀ param ∈ typeParams member.name, param ∈ member.ownParams ∨ loose param
  closed : ∀ param other, loose param → scopeAround units param other → loose other

namespace Judgement
variable (judgement : Judgement)

abbrev home (param : ParamRef) : ParamSet := scopeAround judgement.units param

/-- The name may be used with the number of arguments: without any of them the parameters are
loose. -/
def Admits (name : Name) (count : Nat) : Prop := count = 0 → ∀ param ∈ judgement.typeParams name,
    judgement.loose param

/-- All that is written in the type may be used so. -/
def Knows (type : TypeExpr) : Prop := ∀ use ∈ type.uses, judgement.Admits use.1 use.2

/-- What a unit uses may be used so. -/
theorem admits {judgement : Judgement} {unit : CompilationUnit} {name : Name} {count : Nat}
    (inside : unit ∈ judgement.units) (used : unit.Uses name count) :
    judgement.Admits name count := by
  rintro rfl
  exact judgement.raw unit inside name used

end Judgement

/-- The record without what the first stage finds out. -/
def ClassRecord.outline (record : ClassRecord) : ClassRecord :=
  { record with superclass := none, interfaces := [] }

/-- The shared parts are those that were declared, and what is published is over the parameters of
its declaration. -/
structure Program.Scoped (judgement : Judgement) (program : Program) : Prop where
  records : program.symbols.classes.map ClassRecord.outline = judgement.table.classes.map
    ClassRecord.outline
  kinds : ∀ id : Nat, (program.symbols.symbols[id]?).map (·.kind) =
    (judgement.table.symbols[id]?).map (·.kind)
  supertypes : ∀ record ∈ program.symbols.classes,
    ∀ type ∈ record.superclass.toList ++ record.interfaces,
      judgement.Over (· ∈ record.typeParams) type
  signatures : ∀ record ∈ program.symbols.classes, ∀ id ∈ record.members,
    ∀ symbol, program.symbols.symbols[id]? = some symbol → ∀ signature,
      symbol.signature = some signature →
      judgement.Over (fun param => param ∈ record.typeParams ∨ param ∈ signature.typeParams)
        signature.type
  fields : ∀ (id : Nat) (symbol : Symbol), program.symbols.symbols[id]? = some symbol →
    symbol.kind = .field → ∀ signature, symbol.signature = some signature →
    signature.typeParams = []
  bounds : ∀ (param : ParamRef) (declared : TypeParam),
    program.pool.params[param.raw]? = some declared → ∀ bound ∈ declared.bounds,
      judgement.Over (judgement.home param) bound

/-- The types of the member are over the scope. -/
def Member.Over (scoping : Scoping) (scope : ParamSet) (member : Member) : Prop :=
  scoping.Over scope member.type ∧ ∀ param ∈ member.params, scoping.Over scope param.type

/-- What may be recorded for a node: a type over the scope of a member with the node in its body,
and a type without variables for an operation. -/
structure CompilationUnit.MayRecord (scoping : Scoping) (unit : CompilationUnit) (index : Nat)
    (type : TypeRef) : Prop where
  scope : ∃ (id : Nat) (member : Member) (body : ExprRef), unit.members.members[id]? = some member ∧
    member.body = some body ∧ unit.arena.Contains body index ∧
    scoping.Over (unit.inScope member) type
  operation : ∃ expr, unit.arena.exprs[index]? = some expr ∧
    (expr.kind.isOperation = true → scoping.Over (fun _ => False) type)

/-- The unit is the declared one with what stages found out, all of it over the scopes of its
members. -/
structure CompilationUnit.Scoped (unit : CompilationUnit) (scoping : Scoping)
    (declared : CompilationUnit) : Prop where
  arena : unit.arena = declared.arena
  symbols : unit.symbols = declared.symbols
  written : unit.members.members.map Member.written = declared.members.members.map Member.written
  types : ∀ (id : Nat) (original member : Member), declared.members.members[id]? = some original →
    unit.members.members[id]? = some member → member.Over scoping (declared.inScope original)
  recorded : ∀ index type, unit.exprTypes.get? index = some type →
    declared.MayRecord scoping index type

/-! The shared parts. -/

namespace SymbolTable
variable {first second : SymbolTable}
    (same : first.classes.map ClassRecord.outline = second.classes.map ClassRecord.outline)

theorem record?_outline (table : SymbolTable) (name : Name) :
    (table.record? name).map ClassRecord.outline = earliest?
      ((table.classes.map ClassRecord.outline).filter (·.name == name)) := by
  have filtered : (table.classes.map ClassRecord.outline).filter (·.name == name) =
      (table.classes.filter (·.name == name)).map ClassRecord.outline := List.filter_map
  have outlined : ∀ records : List ClassRecord,
      earliest? (records.map ClassRecord.outline) = (earliest? records).map ClassRecord.outline :=
    earliest?_map fun _ => rfl
  rw [filtered, outlined]
  rfl

include same

/-- What is declared of the class that a name refers to. -/
theorem record?_of_outline {β : Type} (read : ClassRecord → β)
    (plain : ∀ record, read record.outline = read record) (name : Name) :
    (first.record? name).map read = (second.record? name).map read := by
  have through (table : SymbolTable) : (table.record? name).map read =
      (earliest? ((table.classes.map ClassRecord.outline).filter (·.name == name))).map read := by
    rw [← record?_outline, Option.map_map]
    exact congrArg (Option.map · _) (funext fun record => (plain record).symm)
  rw [through first, through second, same]

theorem typeParams_of_outline : first.hierarchy.typeParams = second.hierarchy.typeParams :=
  funext fun name => congrArg (·.getD [])
    (record?_of_outline same ClassRecord.typeParams (fun _ => rfl) name)

theorem lookupClass?_of_outline (name : Name) :
    first.lookupClass? name = second.lookupClass? name :=
  record?_of_outline same ClassRecord.symbol (fun _ => rfl) name

end SymbolTable

namespace Program.Scoped
variable {judgement : Judgement} {program : Program} (scoped_ : program.Scoped judgement)
include scoped_

theorem publishes : judgement.Publishes program.symbols where
  typeParams := (SymbolTable.typeParams_of_outline scoped_.records).trans judgement.classes.symm
  supertypes := scoped_.supertypes
  signatures := scoped_.signatures
  fields := scoped_.fields

/-- Each record has a declared one with the same symbol, members and parameters. -/
theorem exists_declared {record : ClassRecord} (listed : record ∈ program.symbols.classes) :
    ∃ declared ∈ judgement.table.classes, declared.symbol = record.symbol ∧
      declared.members = record.members ∧ declared.typeParams = record.typeParams := by
  have member : record.outline ∈ judgement.table.classes.map ClassRecord.outline :=
    scoped_.records ▸ List.mem_map_of_mem listed
  obtain ⟨declared, there, same⟩ := List.mem_map.mp member
  exact ⟨declared, there, (congrArg ClassRecord.symbol same :),
    (congrArg ClassRecord.members same :), (congrArg ClassRecord.typeParams same :)⟩

/-- Publishing the supertypes of a class. -/
theorem publishClass {symbol : Nat} {superclass : Option TypeRef} {interfaces : List TypeRef}
    (ranges : ∀ record ∈ judgement.table.classes, record.symbol = symbol →
      ∀ type ∈ superclass.toList ++ interfaces, judgement.Over (· ∈ record.typeParams) type) :
    { program with symbols := program.symbols.publishClass symbol superclass interfaces }.Scoped
      judgement := by
  have listed {record : ClassRecord}
      (member : record ∈ (program.symbols.publishClass symbol superclass interfaces).classes) :
      ∃ old ∈ program.symbols.classes, record.members = old.members ∧
      record.typeParams = old.typeParams ∧
        (record = old ∨ old.symbol = symbol ∧ record.superclass = superclass ∧
          record.interfaces = interfaces) := by
    obtain ⟨old, there, rfl⟩ := List.mem_map.mp member
    refine ⟨old, there, ?_⟩
    split
    · exact ⟨rfl, rfl, .inr ⟨‹_›, rfl, rfl⟩⟩
    · exact ⟨rfl, rfl, .inl rfl⟩
  constructor
  case records =>
    refine Eq.trans ?_ scoped_.records
    simp only [SymbolTable.publishClass, SymbolTable.updateClass, List.map_map]
    refine List.map_congr_left fun record _ => ?_
    simp only [Function.comp_apply]
    split <;> rfl
  case kinds => exact scoped_.kinds
  case supertypes =>
    intro record member type above
    obtain ⟨old, there, _, params, rfl | ⟨rfl, super, interfaces⟩⟩ := listed member
    · exact scoped_.supertypes record there type above
    · obtain ⟨declared, inTable, symbol, _, same⟩ := scoped_.exists_declared there
      rw [super, interfaces] at above
      rw [params, ← same]
      exact ranges declared inTable symbol type above
  case signatures =>
    intro record member id inside symbol found signature answer
    obtain ⟨old, there, members, params, _⟩ := listed member
    rw [params]
    exact scoped_.signatures old there id (members ▸ inside) symbol found signature answer
  case fields => exact scoped_.fields
  case bounds => exact scoped_.bounds

/-- Publishing the signature of a declaration. -/
theorem publishSignature {symbol : Nat} {signature : Signature} {symbols : SymbolTable}
    (ran : program.symbols.publishSignature symbol signature = .ok symbols)
    (ranges : ∀ record ∈ judgement.table.classes, symbol ∈ record.members →
      judgement.Over (fun param => param ∈ record.typeParams ∨ param ∈ signature.typeParams)
        signature.type)
    (field : ∀ entry, judgement.table.symbols[symbol]? = some entry → entry.kind = .field →
      signature.typeParams = []) :
    { program with symbols }.Scoped judgement := by
  obtain ⟨entry, read, same⟩ := Except.bind_eq_ok ran
  cases same
  have present : program.symbols.symbols[symbol]? = some entry := by
    unfold SymbolTable.get at read
    split at read
    · cases read
      assumption
    · cases read
  have lookup (id : Nat) : (program.symbols.symbols.setIfInBounds symbol
      { entry with signature := some signature })[id]? = if id = symbol then
        some { entry with signature := some signature } else program.symbols.symbols[id]? := by
    by_cases differ : id = symbol
    · subst differ
      rw [if_pos rfl]
      exact Array.getElem?_setIfInBounds_self_of_lt (Array.getElem?_eq_some_iff.mp present).1
    · rw [if_neg differ]
      exact Array.getElem?_setIfInBounds_ne (Ne.symm differ)
  constructor
  case records => exact scoped_.records
  case kinds =>
    intro id
    simp only [lookup]
    split
    · subst id
      rw [← scoped_.kinds, present]
      rfl
    · exact scoped_.kinds id
  case supertypes => exact scoped_.supertypes
  case signatures =>
    intro record member id inside other found known published
    simp only [lookup] at found
    split at found
    · subst id
      cases found
      cases published
      obtain ⟨declared, inTable, _, members, params⟩ := scoped_.exists_declared member
      rw [← params]
      exact ranges declared inTable (members ▸ inside)
    · exact scoped_.signatures record member id inside other found known published
  case fields =>
    intro id other found kind known published
    simp only [lookup] at found
    split at found
    · subst id
      cases found
      cases published
      have kinds := scoped_.kinds symbol
      rw [present] at kinds
      obtain ⟨original, there, same⟩ := Option.map_eq_some_iff.mp kinds.symm
      exact field original there (same.trans kind)
    · exact scoped_.fields id other found kind known published
  case bounds => exact scoped_.bounds

/-- Changes of the pool that leave parameters alone. -/
theorem repool {pool : TypePool} (params : pool.params = program.pool.params) :
    { program with pool }.Scoped judgement :=
  { scoped_ with bounds := fun param declared found =>
    scoped_.bounds param declared (params ▸ found) }

/-- The first bound of a parameter mentions what is in scope where it is declared. -/
theorem upperBound {param : ParamRef} {bound : TypeRef}
    (asked : program.pool.upperBound param = .ok bound) :
    judgement.Over (judgement.home param) bound := by
  unfold TypePool.upperBound TypePool.param at asked
  split at asked
  · rename_i declared found
    cases asked
    have bounds := scoped_.bounds param declared found
    change judgement.Over _ (declared.bounds.headD .any)
    cases listed : declared.bounds with
    | nil => exact .any
    | cons first rest => exact bounds first (by simp [listed])
  · cases asked

theorem setBounds {param : ParamRef} {bounds : List TypeRef}
    (ranges : ∀ bound ∈ bounds, judgement.Over (judgement.home param) bound) :
    { program with pool := program.pool.setBounds param bounds }.Scoped judgement := by
  refine { scoped_ with bounds := fun other declared found bound member => ?_ }
  obtain ⟨old, stored, rfl | ⟨raw, rfl⟩⟩ := TypePool.setBounds_lookup found
  · exact scoped_.bounds other declared stored bound member
  · have same : other = param := congrArg ParamRef.mk raw
    exact same ▸ ranges bound member

end Program.Scoped

/-! Members of a unit. -/

namespace Member
variable {first second : Member} (same : first.written = second.written)
include same

theorem owner_of_written : first.owner = second.owner := (congrArg Member.owner same :)

theorem name_of_written : first.name = second.name := (congrArg Member.name same :)

theorem typeParams_of_written : first.typeParams = second.typeParams := by
  have read (member : Member) : member.typeParams = member.written.typeParams := by
    unfold typeParams written
    cases member.detail <;> rfl
  rw [read first, same, ← read second]

theorem body_of_written : first.body = second.body := by
  have read (member : Member) : member.body = member.written.body := by
    unfold body written
    cases member.detail <;> rfl
  rw [read first, same, ← read second]

theorem isClass_of_written : first.isClass = second.isClass := by
  have read (member : Member) : member.isClass = member.written.isClass := by
    unfold isClass written
    cases member.detail <;> rfl
  rw [read first, same, ← read second]

theorem writtenTypes_of_written : first.writtenTypes = second.writtenTypes := by
  have read (member : Member) : member.writtenTypes = member.written.writtenTypes := by
    unfold writtenTypes typeParams written
    cases member.detail <;> simp [Function.comp_def]
  rw [read first, same, ← read second]

end Member

/-! What is known about a declaration that a stage works on. -/

namespace CompilationUnit
variable {unit : CompilationUnit} {member : Member} {param : ParamRef}

theorem inScope_iff : unit.inScope member param ↔
    param ∈ (unit.outerParams member).map (·.id) ∨ param ∈ member.ownParams := by
  simp [inScope, scopeOf, TypeScope.ofParams, Member.ownParams, or_and_right, exists_or]

theorem inScope_top (top : member.owner = none) : unit.inScope member param ↔
    param ∈ member.ownParams := by
  simp [inScope_iff, outerParams, top]

/-- What is in scope of a class is in scope of its members. -/
theorem inScope_of_owner {class_ : Member} {place : Nat} (owner : member.owner = some place)
    (there : unit.members.members[place]? = some class_) (top : class_.owner = none)
    (scope : unit.inScope class_ param) : unit.inScope member param := by
  have own := (inScope_top top).mp scope
  exact inScope_iff.mpr (.inl (by simpa [outerParams, owner, there, Member.ownParams] using own))

end CompilationUnit

namespace Judgement
variable {judgement : Judgement} {param other : ParamRef}

variable {declared : CompilationUnit} {id : Nat} {original : Member}
    (inside : declared ∈ judgement.units)
  (found : declared.members.members[id]? = some original)
include inside found

theorem knows {type : TypeExpr} (listed : type ∈ original.writtenTypes) : judgement.Knows type :=
  fun _ occurs => judgement.admits inside
    (.inl ⟨original, Array.mem_toList_iff.mpr (Array.mem_of_getElem? found), type, listed, occurs⟩)

/-- What is in scope where a parameter is declared may be mentioned by its bounds. -/
theorem home_of_own (own : param ∈ original.ownParams) (scope : declared.inScope original other) :
    judgement.home param other := by
  intro unit listed place member present also
  rw [← judgement.linked.single declared inside unit listed id place original member found present
    param own also]
  exact scope

/-- The bounds of what is in scope mention nothing else. -/
theorem inScope_home (scope : declared.inScope original param) (home : judgement.home param other) :
    declared.inScope original other := by
  rcases CompilationUnit.inScope_iff.mp scope with outer | own
  · unfold CompilationUnit.outerParams at outer
    cases owner : original.owner with
    | none => simp [owner] at outer
    | some place =>
      obtain ⟨class_, there, top⟩ :=
        judgement.linked.nested declared inside id original found place owner
      simp only [owner, Option.bind_some, there, Option.map_some, Option.getD_some] at outer
      exact CompilationUnit.inScope_of_owner owner there top
        (home declared inside place class_ there outer)
  · exact home declared inside id original found own

end Judgement

namespace CompilationUnit.Scoped
variable {scoping : Scoping} {declared unit : CompilationUnit} {id : Nat} {original member : Member}

theorem written_eq (scoped_ : unit.Scoped scoping declared)
    (found : declared.members.members[id]? = some original)
    (present : unit.members.members[id]? = some member) : member.written = original.written := by
  have read := congrArg (·[id]?) scoped_.written
  simpa [found, present] using read

theorem exists_later (scoped_ : unit.Scoped scoping declared)
    (found : declared.members.members[id]? = some original) :
    ∃ member, unit.members.members[id]? = some member ∧ member.written = original.written := by
  have read := congrArg (·[id]?) scoped_.written
  simp only [Array.getElem?_map, found, Option.map_some] at read
  exact Option.map_eq_some_iff.mp read

theorem exists_original (scoped_ : unit.Scoped scoping declared)
    (present : unit.members.members[id]? = some member) : ∃ original,
    declared.members.members[id]? = some original ∧ member.written = original.written := by
  have read := congrArg (·[id]?) scoped_.written
  simp only [Array.getElem?_map, present, Option.map_some] at read
  obtain ⟨original, there, same⟩ := Option.map_eq_some_iff.mp read.symm
  exact ⟨original, there, same.symm⟩

theorem scopeOf_eq (scoped_ : unit.Scoped scoping declared)
    (same : member.written = original.written) :
    unit.scopeOf member = declared.scopeOf original := by
  have outer (owner : Nat) : (unit.members.members[owner]?).map (·.typeParams) =
      (declared.members.members[owner]?).map (·.typeParams) := by
    cases found : declared.members.members[owner]? with
    | none =>
      cases present : unit.members.members[owner]? with
      | none => rfl
      | some later =>
        obtain ⟨_, there, _⟩ := scoped_.exists_original present
        cases found.symm.trans there
    | some original =>
      obtain ⟨later, present, same⟩ := scoped_.exists_later found
      simp [present, Member.typeParams_of_written same]
  unfold scopeOf outerParams
  rw [Member.owner_of_written same, Member.typeParams_of_written same]
  cases original.owner with
  | none => rfl
  | some owner => simp only [Option.bind_some, outer]

/-- A member takes the place of one with the same declaration. -/
theorem setMember {later : Member} (scoped_ : unit.Scoped scoping declared)
    (found : declared.members.members[id]? = some original)
    (written : later.written = original.written)
    (ranges : later.Over scoping (declared.inScope original)) :
    { unit with members := unit.members.set id later }.Scoped scoping declared := by
  have same : (unit.members.members.setIfInBounds id later).map Member.written =
      declared.members.members.map Member.written := by
    refine Array.ext_getElem? fun place => ?_
    have before := congrArg (·[place]?) scoped_.written
    simp only [Array.getElem?_map, Array.getElem?_setIfInBounds] at before ⊢
    split
    · subst place
      rw [found] at before ⊢
      have there : id < unit.members.members.size := by
        by_contra outside
        simp [Array.getElem?_eq_none (Nat.le_of_not_lt outside)] at before
      simp [there, written]
    · exact before
  refine { scoped_ with written := same, types := fun place first second stored present => ?_ }
  simp only [MemberArena.set, Array.getElem?_setIfInBounds] at present
  split at present
  · subst place
    split at present
    · cases present
      cases found.symm.trans stored
      exact ranges
    · cases present
  · exact scoped_.types place first second stored present

/-- Members stand in classes at the top, as they are declared. -/
theorem nested {judgement : Judgement} (scoped_ : unit.Scoped judgement.toScoping declared)
    (inside : declared ∈ judgement.units) (present : unit.members.members[id]? = some member) :
    ∀ owner ∈ member.owner, ∃ class_, unit.members.members[owner]? = some class_ ∧
    class_.owner = none := by
  intro owner owned
  obtain ⟨original, found, same⟩ := scoped_.exists_original present
  obtain ⟨class_, there, top⟩ := judgement.linked.nested declared inside id original found owner
    (Member.owner_of_written same ▸ owned)
  obtain ⟨later, now, equal⟩ := scoped_.exists_later there
  exact ⟨later, now, (Member.owner_of_written equal).trans top⟩

theorem forMember_eq {judgement : Judgement} (scoped_ : unit.Scoped judgement.toScoping declared)
    (inside : declared ∈ judgement.units) (found : declared.members.members[id]? = some original) :
    TypeScope.forMember unit.members id = .ok (declared.scopeOf original) := by
  obtain ⟨member, present, same⟩ := scoped_.exists_later found
  rw [forMember_nested present (scoped_.nested inside present), scoped_.scopeOf_eq same]

/-- The class around a member is over the scope of the member. -/
theorem classOf_over {judgement : Judgement} (scoped_ : unit.Scoped judgement.toScoping declared)
    (inside : declared ∈ judgement.units) (found : declared.members.members[id]? = some original)
    {class_ : Member} (reached : unit.classOf id = .ok class_) :
    judgement.Over (declared.inScope original) class_.type := by
  obtain ⟨member, present, same⟩ := scoped_.exists_later found
  obtain ⟨top, outer, ran, there, rfl | owner⟩ :=
    classOf_nested present (scoped_.nested inside present)
  · cases ran.symm.trans reached
    exact (scoped_.types id original _ found present).1
  · cases ran.symm.trans reached
    rw [Member.owner_of_written same] at owner
    obtain ⟨declaring, written, standing⟩ :=
      judgement.linked.nested declared inside id original found top owner
    exact (scoped_.types top declaring class_ written there).1.widen fun _ =>
      inScope_of_owner owner written standing

end CompilationUnit.Scoped
end ClassLang
