import ClassLang.Proofs.Stage.Scope

/-! What written types stand for: the trees of the types that the first stage makes of them. They
depend on the names of a type only through what these refer to. -/

namespace ClassLang

/-- What names refer to: the parameters of the declared classes, and the variances of type
parameters. -/
structure Naming where
  params? : Name → Option (List ParamRef)
  variance : ParamRef → Variance

/-- The names of a program, whatever is published of its classes so far. -/
def Program.naming (program : Program) : Naming where
  params? name := (program.symbols.record? name).map (·.typeParams)
  variance param := ((program.pool.params[param.raw]?).map (·.variance)).getD .invariant

namespace Naming
variable (naming : Naming)

/-- A class with arguments; without any it is the class itself. -/
def classType (name : Name) (args : List TypeTree) : TypeTree :=
  if args.isEmpty then .class_ name else .applied name args

/-- The class applied to its own type variables. -/
def selfType (name : Name) : TypeTree :=
  classType name (((naming.params? name).getD []).map fun param =>
    .var param (naming.variance param))

/-- A class that is named with arguments. With a wrong number of them it stands for the class
without any. -/
def declaredType (name : Name) (args : List TypeTree) : TypeTree :=
  match naming.params? name with
  | none => .unresolved name
  | some params => if args.length = params.length then classType name args else .class_ name

/-- A name where a type is written: a parameter in scope, else a primitive, else a class. -/
def refer (scope : TypeScope) (name : Name) (args : List TypeTree) : TypeTree :=
  match scope.find? name with
  | some param => .var param (naming.variance param)
  | none => ((TypeRef.primitive? name).map (TypePool.tree {})).getD (naming.declaredType name args)

end Naming

theorem TypeSite.isPrimitive_of_primitive? {name : Name} {type : TypeRef}
    (found : TypeRef.primitive? name = some type) : type.isPrimitive = true := by
  obtain ⟨index, listed, rfl⟩ := Option.map_eq_some_iff.mp found
  obtain ⟨inside, _⟩ := List.idxOf?_eq_some_iff.mp listed
  exact decide_eq_true inside

namespace TypeExpr

mutual

/-- The type that is written, with the type parameters in scope. -/
def tree (naming : Naming) (scope : TypeScope) : TypeExpr → TypeTree
  | infer => .any
  | wildcard .invariant _ _ => .wildcard .invariant .any
  | wildcard variance bound _ => .wildcard variance (boundTree naming scope bound)
  | named name args _ => naming.refer scope name (trees naming scope args)

def boundTree (naming : Naming) (scope : TypeScope) : Option TypeExpr → TypeTree
  | none => .any
  | some bound => bound.tree naming scope

def trees (naming : Naming) (scope : TypeScope) : List TypeExpr → List TypeTree
  | [] => []
  | first :: rest => first.tree naming scope :: trees naming scope rest

end

/-- The type of a written result; a method without one returns nothing. -/
def resultTree (naming : Naming) (scope : TypeScope) : TypeExpr → TypeTree
  | infer => .void
  | result => result.tree naming scope

theorem trees_eq_map (naming : Naming) (scope : TypeScope) (types : List TypeExpr) :
    trees naming scope types = types.map (·.tree naming scope) := by
  induction types with
  | nil => rfl
  | cons first rest ih => rw [trees, ih, List.map_cons]

mutual

/-- The type as it is written anywhere else. -/
def bare : TypeExpr → TypeExpr
  | infer => .infer
  | wildcard variance bound _ => .wildcard variance (bareBound bound) .dummy
  | named name args _ => .named name (bareAll args) .dummy

def bareBound : Option TypeExpr → Option TypeExpr
  | none => none
  | some bound => some bound.bare

def bareAll : List TypeExpr → List TypeExpr
  | [] => []
  | first :: rest => first.bare :: bareAll rest

end

variable {naming : Naming} {scope other : TypeScope}

mutual

/-- It does not matter where a type is written. -/
theorem tree_bare : ∀ type : TypeExpr, type.bare.tree naming scope = type.tree naming scope
  | infer => rfl
  | wildcard .invariant _ _ => rfl
  | wildcard .covariant bound _ | wildcard .contravariant bound _ => by
    simp only [bare, tree, boundTree_bare bound]
  | named name args _ => by simp only [bare, tree, trees_bare args]

theorem boundTree_bare : ∀ bound : Option TypeExpr,
    boundTree naming scope (bareBound bound) = boundTree naming scope bound
  | none => rfl
  | some bound => by simp only [bareBound, boundTree, tree_bare bound]

theorem trees_bare : ∀ types : List TypeExpr, trees naming scope
    (bareAll types) = trees naming scope types
  | [] => rfl
  | first :: rest => by simp only [bareAll, trees, tree_bare first, trees_bare rest]

end

/-- None of the names that occur is one of the type parameters in scope. -/
def FreeOf (type : TypeExpr) (scope : TypeScope) : Prop :=
  ∀ name ∈ type.names, scope.find? name = none

instance (type : TypeExpr) (scope : TypeScope) : Decidable (type.FreeOf scope) :=
  inferInstanceAs (Decidable (∀ _ ∈ _, _))

mutual

/-- Where no name is hidden by a parameter, a type stands for the same. -/
theorem tree_eq : ∀ type : TypeExpr, type.FreeOf scope → type.FreeOf other →
    type.tree naming scope = type.tree naming other
  | infer, _, _ => rfl
  | wildcard .invariant _ _, _, _ => rfl
  | wildcard .covariant bound _, free, alsoFree | wildcard .contravariant bound _, free,
      alsoFree => by
    simp only [tree, boundTree_eq bound free alsoFree]
  | named name args _, free, alsoFree => by
    simp only [tree, Naming.refer, free name List.mem_cons_self, alsoFree name List.mem_cons_self,
      trees_eq args (fun other member => free other (List.mem_cons_of_mem _ member))
        fun other member => alsoFree other (List.mem_cons_of_mem _ member)]

theorem boundTree_eq : ∀ bound : Option TypeExpr,
    (∀ name ∈ namesOfBound bound, scope.find? name = none) →
    (∀ name ∈ namesOfBound bound, other.find? name = none) →
    boundTree naming scope bound = boundTree naming other bound
  | none, _, _ => rfl
  | some bound, free, alsoFree => tree_eq bound free alsoFree

theorem trees_eq : ∀ types : List TypeExpr, (∀ name ∈ namesOfAll types, scope.find? name = none) →
    (∀ name ∈ namesOfAll types, other.find? name = none) →
    trees naming scope types = trees naming other types
  | [], _, _ => rfl
  | first :: rest, free, alsoFree => by
    simp only [trees, tree_eq first (fun name member => free name (List.mem_append_left _ member))
        fun name member => alsoFree name (List.mem_append_left _ member),
      trees_eq rest (fun name member => free name (List.mem_append_right _ member))
        fun name member => alsoFree name (List.mem_append_right _ member)]

end

mutual

/-- There it has no variables, and is the same for all arguments. -/
theorem instantiate_tree (subst : TreeSubstitution) : ∀ type : TypeExpr, type.FreeOf scope →
    (type.tree naming scope).instantiate subst = type.tree naming scope
  | infer, _ => rfl
  | wildcard .invariant _ _, _ => by simp [tree, TypeTree.instantiate, TypeTree.wildcardOver]
  | wildcard .covariant bound _, free | wildcard .contravariant bound _, free => by
    simp [tree, TypeTree.instantiate, instantiate_boundTree subst bound free, TypeTree.wildcardOver]
  | named name args _, free => by
    have inner := instantiate_trees subst args fun other member =>
      free other (List.mem_cons_of_mem _ member)
    simp only [tree, Naming.refer, free name List.mem_cons_self]
    cases found : TypeRef.primitive? name with
    | some type =>
      exact TypePool.valid_empty.instantiate_primitive
        (TypeSite.isPrimitive_of_primitive? found) subst
    | none =>
      simp only [Option.map_none, Option.getD_none, Naming.declaredType]
      split
      · rfl
      split
      · unfold Naming.classType
        split
        · rfl
        · rw [TypeTree.instantiate, inner]
      · rfl

theorem instantiate_boundTree (subst : TreeSubstitution) : ∀ bound : Option TypeExpr,
    (∀ name ∈ namesOfBound bound, scope.find? name = none) →
      (boundTree naming scope bound).instantiate subst = boundTree naming scope bound
  | none, _ => rfl
  | some bound, free => instantiate_tree subst bound free

theorem instantiate_trees (subst : TreeSubstitution) : ∀ types : List TypeExpr,
    (∀ name ∈ namesOfAll types, scope.find? name = none) →
      TypeTree.instantiateAll subst (trees naming scope types) = trees naming scope types
  | [], _ => rfl
  | first :: rest, free => by
    simp only [trees, TypeTree.instantiateAll,
      instantiate_tree subst first fun name member => free name (List.mem_append_left _ member),
      instantiate_trees subst rest fun name member => free name (List.mem_append_right _ member)]

end

end TypeExpr

/-! Members and what is published of them. -/

namespace Member

/-- What a class extends and implements, as written. -/
def extended (member : Member) : List TypeExpr :=
  match member.detail with
  | .class_ _ superclass interfaces .. => superclass.toList ++ interfaces
  | _ => []

/-- The type of the member as written. A class is applied to its own variables. -/
def typeTree (naming : Naming) (scope : TypeScope) (member : Member) : TypeTree :=
  match member.detail with
  | .field _ => member.declared.tree naming scope
  | .method .. => member.declared.resultTree naming scope
  | .class_ .. => naming.selfType member.name

/-- The types of the member stand for those that are written. -/
structure Reads (member : Member) (naming : Naming) (scope : TypeScope)
    (pool : TypePool) : Prop where
  type : pool.Denotes member.type (member.typeTree naming scope)
  params : pool.DenotesAll (member.params.map (·.type))
    (TypeExpr.trees naming scope (member.params.map (·.declared)))
  supertypes : pool.DenotesAll member.supertypes (TypeExpr.trees naming scope member.extended)

theorem Reads.typed {member : Member} {naming : Naming} {scope : TypeScope} {pool : TypePool}
    (reads : member.Reads naming scope pool) : member.Typed pool where
  type := reads.type.has
  params param present := reads.params.has param.type (List.mem_map_of_mem present)
  supertypes := reads.supertypes.has

/-- The signature of a member with its types. -/
def signature (member : Member) : Signature :=
  { type := member.type, params := member.params.map (·.type), typeParams := member.ownParams }

end Member

namespace SymbolTable

/-- The table with the signature of a declaration. -/
def sign (table : SymbolTable) (number : Nat) (signature : Signature) : SymbolTable :=
  { table with symbols := table.symbols.modify number fun symbol =>
    { symbol with signature := some signature } }

/-- The table with all that is published of a member with its types. -/
def announce (table : SymbolTable) (number : Nat) (member : Member) : SymbolTable :=
  match member.detail with
  | .class_ _ _ _ superType interfaceTypes _ _ =>
    (table.publishClass number superType interfaceTypes).sign number member.signature
  | _ => table.sign number member.signature

variable {table : SymbolTable} {number : Nat} {signature : Signature}

theorem size_sign : (table.sign number signature).size = table.size := Array.size_modify

theorem publishSignature_eq {symbol : Symbol} (found : table.symbols[number]? = some symbol) :
    table.publishSignature number signature = .ok (table.sign number signature) := by
  have same : table.symbols.setIfInBounds number { symbol with signature := some signature } =
      table.symbols.modify number fun symbol => { symbol with signature := some signature } := by
    refine Array.ext_getElem? fun other => ?_
    rw [Array.getElem?_setIfInBounds, Array.getElem?_modify]
    split
    · subst other
      rw [if_pos (Array.getElem?_eq_some_iff.mp found).1, found]
      rfl
    · rfl
  simp only [publishSignature, SymbolTable.get, found, sign, ← same]
  rfl

end SymbolTable

namespace Program
variable {program : Program}

theorem selfType_unfold (name : Name) :
    (program.symbols.hierarchy.unfold program.pool).selfType name =
      program.naming.selfType name := by
  have params : (program.symbols.hierarchy.unfold program.pool).params name =
      ((program.naming.params? name).getD []).map fun param =>
        (param, program.naming.variance param) := rfl
  simp [TreeHierarchy.selfType, Naming.selfType, Naming.classType, params, Function.comp_def]

/-- What is published of classes besides their parameters does not matter for names. -/
theorem naming_publishClass {number : Nat} {superclass : Option TypeRef}
    {interfaces : List TypeRef} :
    Program.naming { program with
      symbols := program.symbols.publishClass number superclass interfaces } =
      program.naming := by
  have same : (program.symbols.publishClass number superclass interfaces).classes.map
      ClassRecord.outline = program.symbols.classes.map ClassRecord.outline := by
    simp only [SymbolTable.publishClass, SymbolTable.updateClass, List.map_map]
    refine List.map_congr_left fun record _ => ?_
    simp only [Function.comp_apply]
    split <;> rfl
  exact congrArg (Naming.mk · _)
    (funext fun name => SymbolTable.record?_of_outline same (·.typeParams) (fun _ => rfl) name)

theorem naming_sign {number : Nat} {signature : Signature} :
    Program.naming { program with symbols := program.symbols.sign number signature } =
      program.naming := rfl

theorem naming_setBounds {param : ParamRef} {bounds : List TypeRef} :
    Program.naming { program with pool := program.pool.setBounds param bounds } =
      program.naming := by
  exact congrArg (Naming.mk _)
    (funext fun other => congrArg (·.getD .invariant) TypePool.setBounds_variance)

end Program

/-- Stages that publish nothing keep what names refer to. -/
theorem Workspace.Leads.naming {change : CompilationUnit → CompilationUnit → Prop}
    {before after : Workspace} (led : before.Leads change after) :
    after.naming = before.naming := by
  unfold Program.naming
  rw [led.symbols, led.pool.params]

end ClassLang
