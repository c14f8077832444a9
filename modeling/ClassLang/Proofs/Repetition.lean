import ClassLang.Proofs.Explanation

/-! A class that repeats the declaration of an inherited method implements it as long as no type
parameter occurs in the types: every method has parameters of its own, and types with parameters of
different methods differ even if they are written the same. -/

namespace ClassLang
open CompilationUnit

namespace TypeExpr
variable {naming : Naming} {scope other : TypeScope} {subst : TreeSubstitution}

/-- Types that are written the same stand for the same where no type parameter hides a name. -/
theorem trees_congr {types others : List TypeExpr} (same : bareAll types = bareAll others)
    (free : ∀ name ∈ namesOfAll types, scope.find? name = none ∧ other.find? name = none) :
    trees naming other others = trees naming scope types := by
  rw [← trees_bare others, ← same, trees_bare,
    trees_eq types (fun name occurs => (free name occurs).2) fun name occurs =>
      (free name occurs).1]

theorem resultTree_bare (type : TypeExpr) :
    type.bare.resultTree naming scope = type.resultTree naming scope := by
  cases type with
  | infer => rfl
  | wildcard | named => exact tree_bare _

theorem resultTree_congr {type another : TypeExpr} (same : type.bare = another.bare)
    (free : ∀ name ∈ type.names, scope.find? name = none ∧ other.find? name = none) :
    another.resultTree naming other = type.resultTree naming scope := by
  rw [← resultTree_bare another, ← same, resultTree_bare]
  cases type with
  | infer => rfl
  | wildcard | named => exact tree_eq _ (fun name occurs => (free name occurs).2) fun name occurs =>
    (free name occurs).1

theorem instantiate_resultTree (subst : TreeSubstitution) {type : TypeExpr}
    (free : type.FreeOf scope) :
    (type.resultTree naming scope).instantiate subst = type.resultTree naming scope := by
  cases type with
  | infer => rfl
  | wildcard | named => exact instantiate_tree subst _ free

end TypeExpr

theorem Member.typeTree_of_isClass {naming : Naming} {scope : TypeScope} {member : Member}
    (isClass : member.isClass = true) :
    member.typeTree naming scope = naming.selfType member.name := by
  unfold Member.isClass at isClass
  unfold Member.typeTree
  split at isClass
  · rename_i detail
    rw [detail]
  · cases isClass

/-! What a report is explained by. -/

namespace Member.Explains
variable {member : Member} {table : SymbolTable} {pool : TypePool} {types : MemberTrees}
    {report : Diagnostic}
  (explains : member.Explains table pool types report)
include explains

theorem missing_of_code (code : report.code = .missingImplementation) : member.isClass = true ∧
    ∃ method ∈ table.missingMethods pool types.type,
      report.args = [member.name, method.symbol.name, method.owner] := by
  cases explains with
  | missing isClass _ lacks same => exact ⟨isClass, _, lacks, (congrArg (·.2.2) same :)⟩
  | nothing _ _ same | misfit _ _ same => cases code.symm.trans (congrArg Prod.fst same :)

theorem overridden?_of_code (code : report.code = .overridesNothing) :
    table.overridden? pool types.owner member.name types.params = none := by
  cases explains with
  | nothing _ _ _ none => exact none
  | missing _ _ _ same | misfit _ _ same => cases code.symm.trans (congrArg Prod.fst same :)

theorem not_fits_of_code (code : report.code = .badOverride) {method : SeenMethod}
    (nearest : table.overridden? pool types.owner member.name types.params = some method) :
    ¬ member.Fits pool types method.symbol := by
  cases explains with
  | misfit _ _ _ fails => exact fails method nearest
  | missing _ _ _ same | nothing _ _ same => cases code.symm.trans (congrArg Prod.fst same :)

end Member.Explains

theorem Program.base?_naming_selfType {program : Program} {name : Name} :
    (program.naming.selfType name).base? = some name := by
  rw [← Program.selfType_unfold]
  exact TreeHierarchy.base?_selfType _ name

/-- A method that a class of one of the units declares. -/
structure MethodSite (units : List CompilationUnit) where
  index : Nat
  unit : CompilationUnit
  listed : units[index]? = some unit
  classId : Nat
  class_ : Member
  classFound : unit.members.members[classId]? = some class_
  isClass : class_.isClass = true
  id : Nat
  method : Member
  found : unit.members.members[id]? = some method
  isMethod : method.isMethod = true
  owner : method.owner = some classId

namespace MethodSite
variable {units : List CompilationUnit} (site : MethodSite units)

/-- The method at `id` of a unit, if that is one. -/
def at? (units : List CompilationUnit) (index id : Nat) : Option (MethodSite units) :=
  match listed : units[index]? with
  | none => none
  | some unit =>
    match found : unit.members.members[id]? with
    | none => none
    | some method =>
      match owner : method.owner with
      | none => none
      | some classId =>
        match classFound : unit.members.members[classId]? with
        | none => none
        | some class_ =>
          if kinds : class_.isClass = true ∧ method.isMethod = true then
            some {
              index, unit, listed, classId, class_, classFound, id, method, found, owner
              isClass := kinds.1, isMethod := kinds.2 }
          else none

/-- The type parameters that are in scope of the method. -/
def scope : TypeScope := site.unit.scopeOf site.method

/-- The types of the method as they are written. -/
def trees (naming : Naming) : MemberTrees := site.unit.treesOf naming site.class_ site.method

theorem owner_eq (naming : Naming) : (site.trees naming).owner = naming.selfType site.class_.name :=
  Member.typeTree_of_isClass site.isClass

theorem type_eq (naming : Naming) :
    (site.trees naming).type = site.method.declared.resultTree naming site.scope := by
  have isMethod := site.isMethod
  unfold Member.isMethod at isMethod
  unfold trees treesOf Member.typeTree
  dsimp only
  split at isMethod
  · rename_i detail
    rw [detail]
    rfl
  · cases isMethod

/-- The symbol of the method. -/
def symbol? (program : Program) : Option Symbol := (site.unit.symbols[site.id]?).bind
    (program.symbols.symbols[·]?)

/-- The name of the class refers to this declaration of it. -/
def IsReferred (program : Program) : Prop :=
  program.symbols.lookupClass? site.class_.name = site.unit.symbols[site.classId]?

instance (program : Program) : Decidable (site.IsReferred program) := inferInstanceAs
    (Decidable (_ = _))

/-- The class of the method extends or implements the one of the other method directly. The former
has instances, the latter is an interface or abstract. -/
structure Inherits (own inherited : MethodSite units) (program : Program) : Prop where
  referred : own.IsReferred program
  inheritedReferred : inherited.IsReferred program
  concrete : own.class_.isConcrete = true
  lacksBody : inherited.class_.modifiers.lacksBody = true
  direct : ∃ type ∈ own.class_.extended,
    (type.tree program.naming (own.unit.scopeOf own.class_)).base? = some inherited.class_.name

instance (own inherited : MethodSite units) (program : Program) : Decidable
    (own.Inherits inherited program) :=
  decidable_of_iff (own.IsReferred program ∧ inherited.IsReferred program ∧
    own.class_.isConcrete = true ∧
      inherited.class_.modifiers.lacksBody = true ∧ ∃ type ∈ own.class_.extended,
        (type.tree program.naming (own.unit.scopeOf own.class_)).base? = some inherited.class_.name)
    ⟨fun ⟨referred, also, concrete, lacksBody, direct⟩ =>
      ⟨referred, also, concrete, lacksBody, direct⟩,
      fun ⟨referred, also, concrete, lacksBody, direct⟩ =>
        ⟨referred, also, concrete, lacksBody, direct⟩⟩

/-- The method is written with the name, the parameter types and the result of the other one. -/
structure Repeats (own inherited : MethodSite units) : Prop where
  name : own.method.name = inherited.method.name
  params : TypeExpr.bareAll (own.method.params.map (·.declared)) = TypeExpr.bareAll
    (inherited.method.params.map (·.declared))
  result : own.method.declared.bare = inherited.method.declared.bare

instance (own inherited : MethodSite units) : Decidable (own.Repeats inherited) :=
  decidable_of_iff (own.method.name = inherited.method.name ∧
      TypeExpr.bareAll (own.method.params.map (·.declared)) = TypeExpr.bareAll
        (inherited.method.params.map (·.declared)) ∧
      own.method.declared.bare = inherited.method.declared.bare)
    ⟨fun ⟨name, params, result⟩ => ⟨name, params, result⟩, fun ⟨name, params, result⟩ =>
      ⟨name, params, result⟩⟩

/-- None of the names is one of the type parameters in scope of the two methods. -/
def ParamFree (own inherited : MethodSite units) (names : List Name) : Prop :=
  ∀ name ∈ names, own.scope.find? name = none ∧ inherited.scope.find? name = none

instance (own inherited : MethodSite units) (names : List Name) : Decidable
    (own.ParamFree inherited names) :=
  inferInstanceAs (Decidable (∀ _ ∈ _, _))

/-- The names in the parameter types, as they are written. -/
def paramNames : List Name := TypeExpr.namesOfAll (site.method.params.map (·.declared))

/-- The symbol is that of the method, with the types that are written. -/
structure Publishes (program : Program) (symbol : Symbol) : Prop where
  found : site.symbol? program = some symbol
  stands : symbol.StandsFor site.unit site.id site.method
  signed : ∃ signature, symbol.signature = some signature ∧
    program.pool.Denotes signature.type (site.trees program.naming).type ∧
    program.pool.DenotesAll signature.params (site.trees program.naming).params

/-- The unit of the method and the program belong together, and the types that are written in it are
published. -/
structure IsResolved (program : Program) : Prop where
  consistent : site.unit.Consistent program
  indexed : site.unit.Indexed program
  known : site.unit.Known program

variable {site} {own inherited : MethodSite units} {program : Program} {symbol : Symbol}
    {seen : SeenMethod}
  {tree : TypeTree}

theorem exists_symbol (consistent : site.unit.Consistent program) :
    ∃ symbol, site.symbol? program = some symbol := by
  obtain ⟨number, symbol, declares, there, -⟩ := consistent.symbols site.id site.method site.found
  exact ⟨symbol, by simp [symbol?, declares, there]⟩

theorem IsResolved.publishes (resolved : site.IsResolved program)
    (found : site.symbol? program = some symbol) :
    site.Publishes program symbol := by
  obtain ⟨number, declares, there⟩ := Option.bind_eq_some_iff.mp found
  obtain ⟨_, _, again, present, stands⟩ :=
    resolved.consistent.symbols site.id site.method site.found
  obtain ⟨_, signature, also, published, type, params⟩ :=
    resolved.known.signed site.id number site.method site.found declares
  cases declares.symm.trans again
  cases there.symm.trans present
  cases there.symm.trans also
  exact ⟨found, stands, signature, published, type, params⟩

/-- A method is among those of its class if the name of the class refers to it. -/
theorem IsResolved.mem_methods (resolved : site.IsResolved program)
    (referred : site.IsReferred program) (publishes : site.Publishes program symbol) :
    ∃ number : Nat, (number, symbol) ∈ program.symbols.methods site.class_.name := by
  obtain ⟨consistent, indexed, -⟩ := resolved
  obtain ⟨number, declares, there⟩ := Option.bind_eq_some_iff.mp publishes.found
  obtain ⟨classNumber, _, classDeclares, -⟩ :=
    consistent.symbols site.classId site.class_ site.classFound
  obtain ⟨record, named, same⟩ := Option.map_eq_some_iff.mp (referred.trans classDeclares)
  have stands := indexed record (SymbolTable.record?_mem named).1 site.classId site.class_
    site.classFound (same ▸ classDeclares)
  have own := (consistent.lists site.classId site.class_ site.classFound site.isClass).1.owned
  have numbered : some number ∈ record.members.map some := by
    rw [stands.members]
    exact List.mem_map.mpr ⟨site.id,
      (own site.id).mpr ⟨site.method, site.found, site.owner⟩, declares⟩
  obtain ⟨_, listed, equal⟩ := List.mem_map.mp numbered
  cases equal
  have isMethod : symbol.kind = .method := by
    have := site.isMethod
    rw [publishes.stands.kind]
    unfold Member.isMethod at this
    unfold Member.kind
    split at this <;> simp_all
  refine ⟨number, ?_⟩
  unfold SymbolTable.methods SymbolTable.findMembers
  rw [named]
  refine List.mem_filterMap.mpr ⟨number, listed, ?_⟩
  simp [there, isMethod]

/-- From wherever the method is seen, its parameter types are those that are written, with arguments
put in. -/
theorem params_of_seen (publishes : site.Publishes program symbol) (small : program.pool.Small)
    (listed : seen ∈ program.symbols.seenMethods program.pool tree) (same : seen.symbol = symbol) :
    ∃ subst : TreeSubstitution,
      seen.params = (site.trees program.naming).params.map (·.instantiate subst) := by
  obtain ⟨signature, published, -, params⟩ := publishes.signed
  unfold SymbolTable.seenMethods at listed
  split at listed
  · cases listed
  · rename_i base _
    obtain ⟨entry, _, rfl⟩ := List.mem_map.mp listed
    refine ⟨(program.symbols.hierarchy.unfold program.pool).bindArgs base tree.args, ?_⟩
    have published : entry.2.signature = some signature := by rw [← published, ← same]; rfl
    rw [← params.reads small]
    simp [SymbolTable.seenMethod, SymbolTable.methodTree, TreeMethod.paramTypes,
      Signature.tree, published]

/-- The class of a type sees the method. -/
theorem IsResolved.exists_seen (resolved : site.IsResolved program)
    (referred : site.IsReferred program) (publishes : site.Publishes program symbol)
    (named : tree.base? = some site.class_.name) :
    ∃ seen ∈ program.symbols.seenMethods program.pool tree, seen.symbol = symbol := by
  obtain ⟨number, listed⟩ := resolved.mem_methods referred publishes
  refine ⟨program.symbols.seenMethod program.pool site.class_.name tree.args (number, symbol), ?_,
    rfl⟩
  unfold SymbolTable.seenMethods
  rw [named]
  exact List.mem_map_of_mem listed

namespace Repeats
variable (repeats : own.Repeats inherited) (plain : own.ParamFree inherited own.paramNames)
include repeats plain

theorem trees_eq (naming : Naming) : (inherited.trees naming).params = (own.trees naming).params :=
  TypeExpr.trees_congr repeats.params plain

/-- Both methods are seen with the same parameter types. -/
theorem params_eq (small : program.pool.Small)
    (publishes : own.Publishes program symbol ∨ inherited.Publishes program symbol)
    (listed : seen ∈ program.symbols.seenMethods program.pool tree) (same : seen.symbol = symbol) :
    seen.params = (own.trees program.naming).params := by
  obtain ⟨subst, params⟩ : ∃ subst : TreeSubstitution,
      seen.params = (own.trees program.naming).params.map (·.instantiate subst) := by
    rcases publishes with publishing | there
    · exact params_of_seen publishing small listed same
    · rw [← repeats.trees_eq plain]
      exact params_of_seen there small listed same
  rw [params, ← TypeTree.instantiateAll_eq_map]
  exact TypeExpr.instantiate_trees subst _ fun name occurs => (plain name occurs).1

/-- None of the methods that a class lacks is inherited from a declaration that it repeats. -/
theorem not_missing (small : program.pool.Small) (resolved : own.IsResolved program)
    (referred : own.IsReferred program) {symbol other : Symbol}
    (publishes : own.Publishes program other) (inherits : inherited.Publishes program symbol)
    (body : own.method.modifiers.lacksBody = false)
    (missing : seen ∈ program.symbols.missingMethods program.pool
      (program.naming.selfType own.class_.name)) :
    seen.symbol ≠ symbol := by
  rintro same
  obtain ⟨⟨above, -⟩, none⟩ := SymbolTable.mem_missingMethods.mp missing
  obtain ⟨ancestor, _, listed⟩ := List.mem_flatMap.mp above
  have self : (program.naming.selfType own.class_.name).base? = some own.class_.name :=
    Program.base?_naming_selfType
  obtain ⟨implementing, member, equal⟩ := resolved.exists_seen referred publishes self
  have reached : implementing ∈ program.symbols.methodsAbove program.pool
      (program.naming.selfType own.class_.name) := by
    refine List.mem_flatMap.mpr ⟨_, ?_, member⟩
    rw [TreeHierarchy.ancestors_eq self]
    exact List.mem_cons_self
  refine none implementing reached ?_ ?_ ?_
  · rw [equal, Symbol.isAbstract, publishes.stands.modifiers, body]
  · rw [equal, same, publishes.stands.name, inherits.stands.name, repeats.name]
  · rw [repeats.params_eq plain small (.inl publishes) member equal,
      repeats.params_eq plain small (.inr inherits) listed same]

end Repeats

namespace Inherits
variable (inherits : own.Inherits inherited program)
include inherits

/-- Names refer to one class each, so the two classes have different ones. -/
theorem name_ne (consistent : own.unit.Consistent program)
    (others : inherited.unit.Consistent program) : own.class_.name ≠ inherited.class_.name := by
  intro same
  obtain ⟨number, symbol, declares, found, stands⟩ :=
    consistent.symbols own.classId own.class_ own.classFound
  obtain ⟨_, _, again, foundAgain, standsAgain⟩ :=
    others.symbols inherited.classId inherited.class_ inherited.classFound
  have number : inherited.unit.symbols[inherited.classId]? = own.unit.symbols[own.classId]? := by
    rw [← inherits.referred, ← inherits.inheritedReferred, same]
  cases (number.symm.trans again).symm.trans declares
  cases found.symm.trans foundAgain
  have concrete := inherits.concrete
  rw [Member.isConcrete, ← stands.modifiers, standsAgain.modifiers, inherits.lacksBody] at concrete
  cases concrete

/-- The types that the class extends and implements are those that are written. -/
theorem supertypes_eq (small : program.pool.Small) (resolved : own.IsResolved program) :
    (program.symbols.hierarchy.unfold program.pool).supertypes own.class_.name =
      TypeExpr.trees program.naming (own.unit.scopeOf own.class_) own.class_.extended := by
  obtain ⟨number, _, declares, -⟩ :=
    resolved.consistent.symbols own.classId own.class_ own.classFound
  obtain ⟨record, named, rfl⟩ := Option.map_eq_some_iff.mp (inherits.referred.trans declares)
  have listed := SymbolTable.mem_recordsOf.mpr (SymbolTable.record?_mem named).1
  have denotesAll := resolved.known.supertypes own.classId _ own.class_ own.classFound declares
    own.isClass record listed
  rw [← denotesAll.reads small]
  simp [ClassHierarchy.unfold, ClassHierarchy.supertypes, SymbolTable.hierarchy, named]

/-- Of the class that is extended or implemented there is an ancestor, which is not the class
itself. -/
theorem exists_ancestor (sound : program.Sound) (small : program.pool.Small)
    (resolved : own.IsResolved program) (others : inherited.unit.Consistent program) :
    ∃ ancestor ∈ ((program.symbols.hierarchy.unfold program.pool).ancestors
      (program.naming.selfType own.class_.name)).drop 1,
      ancestor.base? = some inherited.class_.name := by
  obtain ⟨type, written, hasBase⟩ := inherits.direct
  let tree := program.naming.selfType own.class_.name
  have self : tree.base? = some own.class_.name := Program.base?_naming_selfType
  let subst := (program.symbols.hierarchy.unfold program.pool).bindArgs own.class_.name tree.args
  have super : (type.tree program.naming (own.unit.scopeOf own.class_)).instantiate subst ∈
      (program.symbols.hierarchy.unfold program.pool).instantiateParts
        (program.symbols.hierarchy.unfold program.pool).supertypes tree := by
    unfold TreeHierarchy.instantiateParts
    rw [self]
    dsimp only
    rw [inherits.supertypes_eq small resolved, TypeExpr.trees_eq_map]
    exact List.mem_map_of_mem (List.mem_map_of_mem written)
  have member : tree ∈ (program.symbols.hierarchy.unfold program.pool).ancestors tree := by
    rw [TreeHierarchy.ancestors_eq self]
    exact List.mem_cons_self
  obtain ⟨ancestor, reached⟩ := Option.isSome_iff_exists.mp <|
    (sound.symbols.hierarchy sound.pool).ancestors_closed member super
      (TypeTree.base?_instantiate hasBase subst)
  have named : ancestor.base? = some inherited.class_.name := by simpa using List.find?_some reached
  refine ⟨ancestor, ?_, named⟩
  have listed := List.mem_of_find?_eq_some reached
  rw [TreeHierarchy.ancestors_eq self] at listed ⊢
  rcases List.mem_cons.mp listed with rfl | above
  · exact absurd (Option.some.inj (self.symm.trans named))
      (inherits.name_ne resolved.consistent others)
  · exact above

/-- A method that repeats one of that class has a method to override. -/
theorem exists_overridden (sound : program.Sound) (small : program.pool.Small)
    (repeats : own.Repeats inherited) (plain : own.ParamFree inherited own.paramNames)
    (resolved : own.IsResolved program) (others : inherited.IsResolved program)
    (publishes : inherited.Publishes program symbol)
    (shared : inherited.method.modifiers.isStatic = false) : ∃ nearest,
    program.symbols.overridden? program.pool (own.trees program.naming).owner own.method.name
      (own.trees program.naming).params = some nearest := by
  obtain ⟨ancestor, above, named⟩ := inherits.exists_ancestor sound small resolved others.consistent
  obtain ⟨seen, listed, rfl⟩ := others.exists_seen inherits.inheritedReferred publishes named
  obtain ⟨signature, published, -⟩ := publishes.signed
  have overrides : seen.isOverridable own.method.name (own.trees program.naming).params = true := by
    have name : seen.symbol.name = own.method.name := publishes.stands.name.trans repeats.name.symm
    have static : seen.symbol.isStatic = false :=
      (congrArg Modifiers.isStatic publishes.stands.modifiers).trans shared
    have params := repeats.params_eq plain small (.inr publishes) listed rfl
    simp [SeenMethod.isOverridable, name, static, params, published]
  have isSome := List.find?_isSome.mpr ⟨seen, listed, overrides⟩
  refine Option.isSome_iff_exists.mp (List.findSome?_isSome_iff.mpr ⟨ancestor, ?_, isSome⟩)
  rwa [own.owner_eq]

end Inherits

/-- A method that repeats an inherited one with its access fits it. -/
theorem Repeats.fits (repeats : own.Repeats inherited)
    (plain : own.ParamFree inherited own.method.declared.names) (small : program.pool.Small)
    (publishes : inherited.Publishes program symbol)
    (access : own.method.access = inherited.method.access) :
    own.method.Fits program.pool (own.trees program.naming) symbol where
  result signature published subst := by
    obtain ⟨_, again, type, -⟩ := publishes.signed
    cases published.symm.trans again
    have same : (inherited.trees program.naming).type = (own.trees program.naming).type := by
      rw [inherited.type_eq, own.type_eq]
      exact TypeExpr.resultTree_congr repeats.result plain
    rw [type.reads small, same, own.type_eq]
    exact TypeExpr.instantiate_resultTree subst fun name occurs => (plain name occurs).1
  access := by
    rw [publishes.stands.access, access]
    exact decide_eq_false (Nat.lt_irrefl _)

/-- What the method explains. -/
theorem explains_of_at {report : Diagnostic}
    (explains : own.unit.ExplainsAt program own.id report) :
    own.method.Explains program.symbols program.pool (own.trees program.naming) report := by
  obtain ⟨member, class_, found, owner, explains⟩ := explains
  cases own.found.symm.trans found
  rw [own.owner] at owner
  cases own.classFound.symm.trans owner
  exact explains

end MethodSite

theorem AccountAll.exists_unit {program : Program} {progress : Progress}
    {declared units : List CompilationUnit} (account : AccountAll program progress declared units)
    {index : Nat} {origin : CompilationUnit} (listed : declared[index]? = some origin) :
    ∃ unit, units[index]? = some unit ∧ unit.progress = progress ∧
    unit.Accountable program origin := by
  induction account generalizing index with
  | nil => cases listed
  | cons facts _ ih =>
    cases index with
    | zero =>
      cases listed
      exact ⟨_, rfl, facts⟩
    | succ index => exact ih listed

/-- What a session comes to for the unit of a method. -/
theorem AccountAll.at_site {program : Program} {progress : Progress}
    {declared units : List CompilationUnit} (account : AccountAll program progress declared units)
    (opened : ∀ unit ∈ declared, unit.Consistent program ∧ unit.Indexed program)
    (site : MethodSite declared) : ∃ unit, units[site.index]? = some unit ∧
    unit.progress = progress ∧ unit.Accountable program site.unit ∧
      site.unit.Consistent program ∧ (progress ≠ .unresolved → site.IsResolved program) := by
  obtain ⟨unit, there, reached, accountable⟩ := account.exists_unit site.listed
  obtain ⟨consistent, indexed⟩ := opened site.unit (List.mem_of_getElem? site.listed)
  exact ⟨unit, there, reached, accountable, consistent, fun open_ =>
    ⟨consistent, indexed, accountable.known (reached ▸ open_)⟩⟩

namespace Session
variable {config : SessionConfig} {sources : List SourceUnit} {done : Session}
    {unit : CompilationUnit}
  {own inherited : MethodSite (declareUnits { config, sources }).1}

/-- Where a class repeats the declaration of a method that it inherits, and no type parameter occurs
in its types, nothing is reported about that: if an unimplemented method of the class is reported,
it is another one, and if a method is reported to override nothing or not to fit, it is another one,
or it is held against a nearer method. -/
theorem repeated_declaration_implements (ran : compile { config, sources } = .ok (.ok done))
    (small : done.program.pool.Small) (inherits : own.Inherits inherited done.program)
    (repeats : own.Repeats inherited) (plain : own.ParamFree inherited own.paramNames)
    (body : own.method.modifiers.lacksBody = false) (there : done.units[own.index]? = some unit) :
    ∃ symbol, inherited.symbol? done.program = some symbol ∧
    ∀ report ∈ unit.diagnostics.diagnostics,
      (report.code = .missingImplementation → report.args.head? = some own.class_.name →
        ∃ other ∈ done.program.symbols.missingMethods done.program.pool
          (done.program.naming.selfType own.class_.name),
          report.args = [own.class_.name, other.symbol.name, other.owner] ∧ other.symbol ≠ symbol) ∧
      (report.code = .overridesNothing → inherited.method.modifiers.isStatic = false →
        ∃ id, own.unit.ExplainsAt done.program id report ∧ id ≠ own.id) ∧
      (report.code = .badOverride → inherited.method.modifiers.isStatic = false →
        own.ParamFree inherited own.method.declared.names →
        own.method.access = inherited.method.access → ∃ id,
          own.unit.ExplainsAt done.program id report ∧
          (id = own.id → ∃ nearest, done.program.symbols.overridden? done.program.pool
            (done.program.naming.selfType own.class_.name) own.method.name
            (own.trees done.program.naming).params = some nearest ∧ nearest.symbol ≠ symbol)) := by
  obtain ⟨sound, ⟨progress, account⟩, opened⟩ := run_accounts ran
  obtain ⟨_, again, reached, accountable, consistent, resolved⟩ := account.at_site opened own
  cases there.symm.trans again
  obtain ⟨_, -, -, -, consistentOther, others⟩ := account.at_site opened inherited
  obtain ⟨symbol, found⟩ := inherited.exists_symbol consistentOther
  refine ⟨symbol, found, fun report listed => ?_⟩
  by_cases early : unit.progress.rank < Progress.checked.rank
  · have discreet : report.code.concernsInherited = false := accountable.early early report listed
    refine ⟨fun code => ?_, fun code => ?_, fun code => ?_⟩ <;>
      cases (congrArg Code.concernsInherited code).symm.trans discreet
  have checked := Nat.le_of_not_lt early
  have open_ : progress ≠ .unresolved := by
    rintro rfl
    exact absurd (reached ▸ checked) (by decide)
  replace resolved := resolved open_
  replace others := others open_
  have publishes := others.publishes found
  obtain ⟨other, answer⟩ := own.exists_symbol consistent
  have explained := accountable.explained checked small report listed
  refine ⟨fun code head => ?_, fun code shared => ?_, fun code shared free access => ?_⟩
  · obtain ⟨id, member, class_, _, _, explains⟩ := explained (congrArg Code.concernsInherited code)
    obtain ⟨isClass, method, lacks, args⟩ := explains.missing_of_code code
    have same : member.name = own.class_.name :=
      Option.some.inj ((congrArg List.head? args).symm.trans head)
    rw [treesOf, Member.typeTree_of_isClass isClass, same] at lacks
    have others := repeats.not_missing plain small resolved inherits.referred
      (resolved.publishes answer) publishes body lacks
    exact ⟨method, lacks, same ▸ args, others⟩
  · obtain ⟨id, explains⟩ := explained (congrArg Code.concernsInherited code)
    refine ⟨id, explains, ?_⟩
    rintro rfl
    obtain ⟨nearest, overrides⟩ :=
      inherits.exists_overridden sound small repeats plain resolved others publishes shared
    cases ((MethodSite.explains_of_at explains).overridden?_of_code code).symm.trans overrides
  · obtain ⟨id, explains⟩ := explained (congrArg Code.concernsInherited code)
    refine ⟨id, explains, ?_⟩
    rintro rfl
    obtain ⟨nearest, overrides⟩ :=
      inherits.exists_overridden sound small repeats plain resolved others publishes shared
    refine ⟨nearest, own.owner_eq _ ▸ overrides, ?_⟩
    rintro rfl
    exact (MethodSite.explains_of_at explains).not_fits_of_code code overrides
      (repeats.fits free small publishes access)

/-- A unit is told of such a report. -/
def Reports (done : Session) (index : Nat) (code : Code) (args : List String) : Prop :=
  ∃ unit ∈ done.units[index]?, ∃ report ∈ unit.diagnostics.diagnostics, report.code = code ∧
    report.args = args

instance (done : Session) (index : Nat) (code : Code) (args : List String) : Decidable
    (done.Reports index code args) :=
  inferInstanceAs (Decidable (∃ _ ∈ _, _))

/-- One method of a unit repeats another one that its class inherits. -/
structure Repeats (done : Session) {units : List CompilationUnit}
    (own inherited : MethodSite units) : Prop where
  inherits : own.Inherits inherited done.program
  repeats : own.Repeats inherited
  typeParams : own.method.typeParams.map
    (fun param => (param.name, TypeExpr.bareAll param.bounds)) = inherited.method.typeParams.map
    fun param => (param.name, TypeExpr.bareAll param.bounds)
  body : own.method.modifiers.lacksBody = false ∧ inherited.method.modifiers.lacksBody = true

instance (done : Session) {units : List CompilationUnit} (own inherited : MethodSite units) :
    Decidable (done.Repeats own inherited) :=
  decidable_of_iff (own.Inherits inherited done.program ∧ own.Repeats inherited ∧
      own.method.typeParams.map (fun param => (param.name, TypeExpr.bareAll param.bounds)) =
        inherited.method.typeParams.map (fun param => (param.name, TypeExpr.bareAll param.bounds)) ∧
      own.method.modifiers.lacksBody = false ∧ inherited.method.modifiers.lacksBody = true)
    ⟨fun ⟨inherits, repeats, typeParams, body⟩ => ⟨inherits, repeats, typeParams, body⟩,
      fun ⟨inherits, repeats, typeParams, body⟩ => ⟨inherits, repeats, typeParams, body⟩⟩

/-- `C` repeats one of two methods of `I`. -/
def overloadingUnit : SourceUnit where
  name := "main"
  classes := [
    { name := "I", modifiers := { isInterface := true }, span := ⟨0, 1⟩
      methods := [
        { name := "m", typeParams := [{ name := "T", span := ⟨2, 3⟩ }]
          params := [{ name := "x", type := .named "I" [] ⟨4, 5⟩, span := ⟨6, 7⟩ }]
          returns := .named "I" [] ⟨8, 9⟩, modifiers := { isAbstract := true }, span := ⟨10, 11⟩ },
        { name := "m",
          params := [{ name := "x", type := .named "int" [] ⟨12, 13⟩, span := ⟨14, 15⟩ }]
          returns := .named "int" [] ⟨16, 17⟩, modifiers := { isAbstract := true }
          span := ⟨18, 19⟩ }] },
    { name := "C", interfaces := [.named "I" [] ⟨20, 21⟩], span := ⟨22, 23⟩
      methods := [
        { name := "m", typeParams := [{ name := "T", span := ⟨24, 25⟩ }]
          params := [{ name := "y", type := .named "I" [] ⟨26, 27⟩, span := ⟨28, 29⟩ }]
          returns := .named "I" [] ⟨30, 31⟩, body := some (.node 0)
          annotations := [{ name := "Override", span := ⟨32, 33⟩ }], span := ⟨34, 35⟩ }] }]
  arena := { exprs := #[⟨.ident "y", ⟨36, 37⟩⟩] }

/-- What is reported of `C` is about the method that it does not repeat. -/
theorem repeated_declaration_implements_overload : ∃ done, compile
    { sources := [overloadingUnit] } = .ok (.ok done) ∧
    ∃ own ∈ MethodSite.at? (declareUnits { sources := [overloadingUnit] }).1 0 4,
    ∃ inherited ∈ MethodSite.at? (declareUnits { sources := [overloadingUnit] }).1 0 1,
      done.Repeats own inherited ∧ own.ParamFree inherited own.paramNames ∧
      done.Reports 0 .missingImplementation ["C", "m", "I"] ∧
      ∃ other ∈ done.program.symbols.missingMethods done.program.pool (.class_ "C"),
        other.symbol.name = "m" ∧ other.owner = "I" ∧
        some other.symbol ≠ inherited.symbol? done.program := by
  obtain ⟨done, ran, small, reports, self, own, isOwn, inherited, isInherited, repeats, plain,
    class_, index⟩ :=
    exists_run { sources := [overloadingUnit] } (fun done => done.program.pool.Small ∧
      done.Reports 0 .missingImplementation ["C", "m", "I"] ∧
      done.program.naming.selfType "C" = .class_ "C" ∧
      ∃ own ∈ MethodSite.at? (declareUnits { sources := [overloadingUnit] }).1 0 4,
      ∃ inherited ∈ MethodSite.at? (declareUnits { sources := [overloadingUnit] }).1 0 1,
        done.Repeats own inherited ∧ own.ParamFree inherited own.paramNames ∧
        own.class_.name = "C" ∧ own.index = 0)
      (by decide +kernel)
  have ran : compile { sources := [overloadingUnit] } = .ok (.ok done) := congrArg Except.ok ran
  obtain ⟨unit, there, report, listed, code, args⟩ := reports
  obtain ⟨symbol, found, told⟩ :=
    repeated_declaration_implements ran small repeats.inherits repeats.repeats plain
    repeats.body.1 (index ▸ there)
  obtain ⟨other, missing, same, differs⟩ := (told report listed).1 code (by rw [args, class_]; rfl)
  rw [args, class_] at same
  rw [class_, self] at missing
  obtain ⟨name, owner⟩ : "m" = other.symbol.name ∧ "I" = other.owner := by simpa using same
  refine ⟨done, ran, own, isOwn, inherited, isInherited, repeats, plain,
    ⟨unit, there, report, listed, code, args⟩, other, missing, name.symm, owner.symm, ?_⟩
  rw [found]
  exact fun equal => differs (Option.some.inj equal)

/-- `C` repeats a method of `I` with a type parameter. -/
def genericMethodUnit : SourceUnit where
  name := "main"
  classes := [
    { name := "I", modifiers := { isInterface := true }, span := ⟨0, 1⟩
      methods := [
        { name := "m", typeParams := [{ name := "T", span := ⟨2, 3⟩ }]
          params := [{ name := "x", type := .named "T" [] ⟨4, 5⟩, span := ⟨6, 7⟩ }]
          returns := .named "T" [] ⟨8, 9⟩, modifiers := { isAbstract := true }
          span := ⟨10, 11⟩ }] },
    { name := "C", interfaces := [.named "I" [] ⟨12, 13⟩], span := ⟨14, 15⟩
      methods := [
        { name := "m", typeParams := [{ name := "T", span := ⟨16, 17⟩ }]
          params := [{ name := "x", type := .named "T" [] ⟨18, 19⟩, span := ⟨20, 21⟩ }]
          returns := .named "T" [] ⟨22, 23⟩, body := some (.node 0)
          annotations := [{ name := "Override", span := ⟨24, 25⟩ }], span := ⟨26, 27⟩ }] }]
  arena := { exprs := #[⟨.ident "x", ⟨28, 29⟩⟩] }

/-- `C` is told that it lacks the method, and its own one that the parameter types differ. -/
theorem repeated_generic_declaration_rejected : ∃ done, compile
    { sources := [genericMethodUnit] } = .ok (.ok done) ∧
    (∃ own ∈ MethodSite.at? (declareUnits { sources := [genericMethodUnit] }).1 0 3,
      ∃ inherited ∈ MethodSite.at? (declareUnits { sources := [genericMethodUnit] }).1 0 1,
        done.Repeats own inherited ∧
        own.method.modifiers.isStatic = false ∧ own.method.access = inherited.method.access) ∧
        done.errorCount = 2 ∧
    done.Reports 0 .missingImplementation ["C", "m", "I"] ∧
    done.Reports 0 .badOverride ["m", "m", "parameter types differ"] := by
  obtain ⟨done, ran, rejects⟩ := exists_run { sources := [genericMethodUnit] } (fun done =>
    (∃ own ∈ MethodSite.at? (declareUnits { sources := [genericMethodUnit] }).1 0 3,
      ∃ inherited ∈ MethodSite.at? (declareUnits { sources := [genericMethodUnit] }).1 0 1,
        done.Repeats own inherited ∧
        own.method.modifiers.isStatic = false ∧ own.method.access = inherited.method.access) ∧
        done.errorCount = 2 ∧
    done.Reports 0 .missingImplementation ["C", "m", "I"] ∧
    done.Reports 0 .badOverride ["m", "m", "parameter types differ"]) (by decide +kernel)
  exact ⟨done, congrArg Except.ok ran, rejects⟩

end Session
end ClassLang
