import ClassLang.Proofs.ParameterCount
import ClassLang.Proofs.Stage.SelectedTrees
import Mathlib.Data.List.Forall2

/-! The order in which classes declare their methods. Two tables that differ in nothing else have
the same classes, and a call chooses the same method in both. -/

namespace ClassLang

/-- A declaration without its place in the unit. -/
def Symbol.unplaced (symbol : Symbol) : Symbol := { symbol with member := 0, span := .dummy }

theorem Symbol.eq_of_unplaced (read : Symbol → α)
    (blind : ∀ symbol : Symbol, read symbol.unplaced = read symbol)
    {symbol other : Symbol} (same : other.unplaced = symbol.unplaced) : read other = read symbol :=
  (blind other).symm.trans ((congrArg read same).trans (blind symbol))

/-- The same class with its methods in another order. What `rename` gives are the numbers of its
symbols now. -/
structure ClassRecord.Reorders (rename : Nat → Nat) (isMethod : Nat → Bool)
    (record other : ClassRecord) : Prop where
  is : other = { record with symbol := rename record.symbol, members := other.members }
  members : other.members.Perm (record.members.map rename)
  fields : other.members.filter (!isMethod ·) = (record.members.map rename).filter (!isMethod ·)

theorem earliest?_rel {related : ClassRecord → ClassRecord → Prop}
    (order : ∀ {record other}, related record other → other.order = record.order)
    {records others : List ClassRecord} (all : List.Forall₂ related records others) :
    Option.Rel related (earliest? records) (earliest? others) := by
  induction all with
  | nil => exact .none
  | @cons record other rest rest' same _ ih =>
    unfold earliest?
    generalize earliest? rest = best at ih
    generalize earliest? rest' = best' at ih
    cases ih with
    | none => exact .some same
    | some alike =>
      dsimp only
      rw [order same, order alike]
      split
      · exact .some alike
      · exact .some same

namespace SymbolTable

/-- The symbol is that of a method. -/
def isMethod (table : SymbolTable) (id : Nat) : Bool := (table.symbols[id]?).any (·.kind == .method)

/-- The same declarations, of which `rename` gives the numbers, with the methods of each class in
another order. -/
structure Reorders (rename : Nat → Nat) (table other : SymbolTable) : Prop where
  symbols : ∀ id : Nat, (other.symbols[rename id]?).map (·.unplaced) = (table.symbols[id]?).map
    (·.unplaced)
  classes : List.Forall₂ (ClassRecord.Reorders rename other.isMethod) table.classes other.classes

/-- What is read of a member that passes a test. -/
def member? (table : SymbolTable) (test : Symbol → Bool) (read : Nat × Symbol → α)
    (id : Nat) : Option α :=
  (table.symbols[id]?).bind fun symbol => if test symbol then some (read (id, symbol)) else none

theorem findMembers_map (table : SymbolTable) (class_ : Name) (test : Symbol → Bool)
    (read : Nat × Symbol → α) : (table.findMembers class_ test).map read =
      (((table.record? class_).map (·.members)).getD []).filterMap (table.member? test read) := by
  unfold findMembers
  cases table.record? class_ with
  | none => rfl
  | some record =>
    rw [List.map_filterMap]
    refine List.filterMap_congr fun id _ => ?_
    unfold member?
    cases table.symbols[id]? with
    | none => rfl
    | some symbol =>
      simp only [Option.bind_some]
      split <;> rfl

/-- Methods can be left out where none passes the test. -/
theorem filterMap_member? (table : SymbolTable) {test : Symbol → Bool} {read : Nat × Symbol → α}
    (fields : ∀ symbol, test symbol → symbol.kind ≠ .method) (ids : List Nat) :
    (ids.filter (!table.isMethod ·)).filterMap (table.member? test read) = ids.filterMap
      (table.member? test read) := by
  rw [List.filterMap_filter]
  refine List.filterMap_congr fun id _ => ?_
  split
  · rfl
  · rename_i isMethod
    unfold member?
    cases found : table.symbols[id]? with
    | none => rfl
    | some symbol =>
      have method : symbol.kind = .method := by simpa [SymbolTable.isMethod, found] using isMethod
      exact (if_neg fun passed => fields symbol passed method).symm

namespace Reorders

variable {table other : SymbolTable} {rename : Nat → Nat} (reorders : Reorders rename table other)
include reorders

theorem record? (name : Name) :
    Option.Rel (ClassRecord.Reorders rename other.isMethod) (table.record? name)
      (other.record? name) := by
  refine earliest?_rel (fun same => by rw [same.is]) (List.rel_filter ?_ reorders.classes)
  intro record record' same
  rw [same.is]

theorem record?_cases (name : Name) : (table.record? name = none ∧ other.record? name = none) ∨
    ∃ record record', table.record? name = some record ∧ other.record? name = some record' ∧
      ClassRecord.Reorders rename other.isMethod record record' := by
  have related := reorders.record? name
  generalize table.record? name = found at related ⊢
  generalize other.record? name = found' at related ⊢
  cases related with
  | none => exact .inl ⟨rfl, rfl⟩
  | some alike => exact .inr ⟨_, _, rfl, rfl, alike⟩

/-- What a class has besides its members. -/
theorem record?_bind {read : ClassRecord → Option α} (name : Name)
    (blind : ∀ record symbol members, read { record with symbol, members } = read record) :
    (other.record? name).bind read = (table.record? name).bind read := by
  rcases reorders.record?_cases name with ⟨none, none'⟩ | ⟨record, record', found, found', alike⟩
  · rw [none, none']
  · rw [found, found', Option.bind_some, Option.bind_some, alike.is, blind]

theorem record?_map {read : ClassRecord → α} (name : Name)
    (blind : ∀ record symbol members, read { record with symbol, members } = read record) :
    (other.record? name).map read = (table.record? name).map read := by
  rw [Option.map_eq_bind, Option.map_eq_bind]
  exact reorders.record?_bind name fun record symbol members =>
    congrArg some (blind record symbol members)

/-- What is read of a symbol, when its place does not matter. -/
theorem symbol_bind {read : Symbol → Option α} {read' : Symbol → Option α} (id : Nat)
    (same : ∀ symbol symbol', symbol'.unplaced = symbol.unplaced → read' symbol' = read symbol) :
    (other.symbols[rename id]?).bind read' = (table.symbols[id]?).bind read := by
  have alike := reorders.symbols id
  cases now : other.symbols[rename id]? with
  | none =>
    rw [now, Option.map_none, eq_comm, Option.map_eq_none_iff] at alike
    rw [alike]
    rfl
  | some symbol' =>
    rw [now, Option.map_some, eq_comm, Option.map_eq_some_iff] at alike
    obtain ⟨symbol, before, unplaced⟩ := alike
    rw [before, Option.bind_some, Option.bind_some, same symbol symbol' unplaced.symm]

section
variable {test : Symbol → Bool} {read read' : Nat × Symbol → α}
    (same : ∀ (id : Nat) (symbol symbol' : Symbol),
  symbol'.unplaced = symbol.unplaced → test symbol' = test symbol ∧
  read' (rename id, symbol') = read (id, symbol))
include same

theorem member?_eq (id : Nat) : other.member? test read'
    (rename id) = table.member? test read id := by
  refine reorders.symbol_bind id fun symbol symbol' unplaced => ?_
  obtain ⟨tested, value⟩ := same id symbol symbol' unplaced
  rw [tested, value]

/-- The members of a class are the same in another order. -/
theorem findMembers_perm (name : Name) :
    ((other.findMembers name test).map read').Perm ((table.findMembers name test).map read) := by
  rw [findMembers_map, findMembers_map]
  rcases reorders.record?_cases name with ⟨none, none'⟩ | ⟨record, record', found, found', alike⟩
  · rw [none, none']
    exact .nil
  · rw [found, found']
    refine (alike.members.filterMap _).trans (.of_eq ?_)
    rw [List.filterMap_map]
    exact List.filterMap_congr fun id _ => reorders.member?_eq same id

/-- Members that are no methods stay in their order. -/
theorem findMembers_map_eq (name : Name) (fields : ∀ symbol, test symbol → symbol.kind ≠ .method) :
    (other.findMembers name test).map read' = (table.findMembers name test).map read := by
  rw [findMembers_map, findMembers_map]
  rcases reorders.record?_cases name with ⟨none, none'⟩ | ⟨record, record', found, found', alike⟩
  · rw [none, none']
    rfl
  · rw [found, found']
    simp only [Option.map_some, Option.getD_some]
    rw [← other.filterMap_member? fields, alike.fields, other.filterMap_member? fields,
      List.filterMap_map]
    exact List.filterMap_congr fun id _ => reorders.member?_eq same id

end

/-- The declaration of a class is the same. -/
theorem lookup?_map {read : Symbol → α} (name : Name)
    (blind : ∀ symbol symbol' : Symbol, symbol'.unplaced = symbol.unplaced →
      read symbol' = read symbol) :
    (other.lookup? name).map read = (table.lookup? name).map read := by
  unfold lookup? lookupClass?
  rcases reorders.record?_cases name with ⟨none, none'⟩ | ⟨record, record', found, found', alike⟩
  · rw [none, none']
    rfl
  · rw [found, found', alike.is]
    simp only [Option.bind_some, Option.map_eq_bind]
    exact reorders.symbol_bind record.symbol fun symbol symbol' unplaced =>
      congrArg some (blind symbol symbol' unplaced)

/-- The classes are the same. -/
theorem hierarchy_eq : other.hierarchy = table.hierarchy := by
  have names : other.classes.map (·.name) = table.classes.map (·.name) := by
    have each : List.Forall₂ (fun record record' : ClassRecord => record.name = record'.name)
        table.classes other.classes :=
      reorders.classes.imp fun _ _ alike => by rw [alike.is]
    have same := List.forall₂_map_left_iff.mpr (List.forall₂_map_right_iff.mpr each)
    rw [List.forall₂_eq_eq_eq] at same
    exact same.symm
  unfold SymbolTable.hierarchy
  simp only [ClassHierarchy.mk.injEq]
  refine ⟨?_, ?_, ?_, ?_, ?_, ?_, names⟩ <;> funext name
  · exact reorders.record?_bind name fun _ _ _ => rfl
  · rw [reorders.record?_map name fun _ _ _ => rfl]
  · rw [reorders.record?_map name fun _ _ _ => rfl]
  · exact reorders.record?_bind name fun _ _ _ => rfl
  · have declared : (other.lookup? name).map (·.isAbstract) = (table.lookup? name).map
        (·.isAbstract) :=
      reorders.lookup?_map name fun _ _ unplaced =>
        Symbol.eq_of_unplaced (·.isAbstract) (fun _ => rfl) unplaced
    rw [declared]
  · refine reorders.findMembers_map_eq (fun id symbol symbol' unplaced => ⟨?_, ?_⟩) name ?_
    · exact Symbol.eq_of_unplaced (fun symbol => symbol.kind == .field && !symbol.isStatic)
        (fun _ => rfl) unplaced
    · exact Symbol.eq_of_unplaced (·.type) (fun _ => rfl) unplaced
    · intro symbol passed method
      simp [method] at passed

/-- The methods that a call sees are the same in another order. -/
theorem methodTrees (pool : TypePool) (name : Name) :
    (table.methodTrees rename pool name).Reorders (other.methodTrees id pool name) := by
  refine ⟨?_, ?_, fun base => ?_⟩
  · exact congrArg (·.unfold pool) reorders.hierarchy_eq
  · unfold SymbolTable.methodTrees
    rw [reorders.hierarchy_eq]
  · refine reorders.findMembers_perm (fun number symbol symbol' unplaced => ⟨?_, ?_⟩) base
    · exact Symbol.eq_of_unplaced (fun symbol => symbol.name == name && symbol.kind == .method)
        (fun _ => rfl) unplaced
    · exact Symbol.eq_of_unplaced (fun symbol => methodTree rename pool (number, symbol))
        (fun _ => rfl) unplaced

end Reorders

section
variable {table other : SymbolTable} {rename : Nat → Nat} {pool : TypePool} {receiver : TypeRef}
    {args : List TypeRef}

theorem Sized.methodTrees (sized : table.Sized) (rename : Nat → Nat) (pool : TypePool)
    (name : Name) : (table.methodTrees rename pool name).Sized := by
  rintro base _ listed _ published
  obtain ⟨⟨number, symbol⟩, member, rfl⟩ := List.mem_map.mp listed
  obtain ⟨signature, found, rfl⟩ := Option.map_eq_some_iff.mp published
  rw [Signature.tree, List.length_map]
  exact sized number symbol signature (mem_findMembers member) found

/-- At most one of the methods that apply has exactly the types of the arguments. -/
theorem exactMatch_unique (valid : pool.Valid) (held : table.HeldBy pool) (sized : table.Sized)
    (inPool : pool.Has receiver) (argsHere : ∀ arg ∈ args, pool.Has arg) (name : Name) :
    PoolM.Builds (do
        let visible ← table.visibleMethods receiver name
        visible.filterMapM (table.applicable? args)) pool fun applicable after => after.Small →
      (applicable.filter fun entry => exactMatch args entry.1).length ≤ 1 := by
  refine PoolM.Builds.bind
    (visibleMethods_lists valid held id valid.growth (TypePool.Denotes.self inPool) name)
    fun visible between growth lists => ?_
  refine (applicable_offers valid held id name growth argsHere lists).mono
    fun applicable after grown offers small => ?_
  have whole := growth.trans grown
  have bound := (table.methodTrees id pool name).exactMatch_unique (sized.methodTrees id pool name)
    (pool.tree receiver) (args.map pool.tree)
  rw [TreeMethods.applicable, ← offers.reads small, ← whole.map_tree_eq valid argsHere,
    offers.filter_exactMatch grown.valid fun arg member => whole.has (argsHere arg member),
      List.length_map] at bound
  exact bound

/-- The choice of a method does not depend on the order in which classes declare their methods, when
no two of the name in one class have the same parameter types for the receiver. In any order at most
one of the methods that apply has exactly the types of the arguments. In a session every table is
`Sized`, by `Session.Passes.sized`. -/
theorem selectOverload_reordered (valid : pool.Valid) (held : table.HeldBy pool)
    (heldOther : other.HeldBy pool) (sized : table.Sized) (reorders : Reorders rename table other)
    (inPool : pool.Has receiver) (argsHere : ∀ arg ∈ args, pool.Has arg) (name : Name)
    (distinct : (table.methodTrees rename pool name).Distinct (pool.tree receiver)) :
    Completes (table.selectOverload receiver name args) pool (fun outcome after =>
      Completes (other.selectOverload receiver name args) pool fun outcome' after' =>
        after.Small → after'.Small →
          outcome'.map (·.tree id after') = outcome.map (·.tree rename after)) ∧
    Completes (do
        let visible ← table.visibleMethods receiver name
        visible.filterMapM (table.applicable? args)) pool fun applicable after => after.Small →
      (applicable.filter fun entry => exactMatch args entry.1).length ≤ 1 := by
  constructor
  · refine (selectOverload_reads valid held rename name inPool argsHere valid).mono ?_
    rintro outcome after ⟨_, first⟩
    refine (selectOverload_reads valid heldOther id name inPool argsHere valid).mono ?_
    rintro outcome' after' ⟨_, second⟩ small small'
    rw [first small, second small']
    exact (reorders.methodTrees pool name).select_eq distinct
  · exact (exactMatch_unique valid held sized inPool argsHere name valid).mono fun _ _ facts =>
      facts.2

end

/-- A pool for a crate of integers. -/
def cratePool : TypePool :=
  .ofEntries
    #[.any, .void, .int, .float, .bool, .char, .string, .var ⟨0⟩ .invariant, .applied "Crate" [⟨2⟩],
      .applied "Crate" [⟨7⟩]]
    #[⟨"T", "Crate", .invariant, []⟩]

def crateSymbol : Symbol :=
  { name := "Crate", kind := .class_, unit := 0, member := 0, access := .public_, span := .dummy,
    signature := some { type := ⟨9⟩, typeParams := [⟨0⟩] } }

/-- A method that puts something into the crate. -/
def putSymbol (member : Nat) (param : TypeRef) : Symbol :=
  { name := "put", kind := .method, unit := 0, member, owner := some "Crate", access := .public_,
    span := .dummy, arity := 1,
    signature := some { type := .void, params := [param] } }

/-- `Crate<T>` with two methods, of which the first has the first type as its parameter. -/
def crateTable (first second : TypeRef) : SymbolTable where
  symbols := #[crateSymbol, putSymbol 1 first, putSymbol 2 second]
  classes :=
    [{ symbol := 0, name := "Crate", order := (0, 0), typeParams := [⟨0⟩], members := [1, 2] }]

/-- The methods of the crate under the numbers of the other one. -/
def turnCrate : Nat → Nat
  | 1 => 2
  | 2 => 1
  | number => number

section
variable {first second : TypeRef}

/-- The symbols of the crate, with what is published of them. -/
theorem crateTable_cases {number : Nat} {symbol : Symbol}
    (found : (crateTable first second).symbols[number]? = some symbol) :
    symbol = crateSymbol ∨ symbol = putSymbol 1 first ∨ symbol = putSymbol 2 second := by
  simpa [crateTable] using Array.mem_of_getElem? found

theorem heldBy_crateTable (firstHere : cratePool.Has first) (secondHere : cratePool.Has second) :
    (crateTable first second).HeldBy cratePool := by
  refine ⟨fun record member => ?_, fun number symbol signature found published => ?_⟩
  · rw [List.mem_singleton.mp member]
    exact ⟨Nat.zero_lt_succ 2, by decide, by simp, by simp⟩
  · rcases crateTable_cases found with rfl | rfl | rfl <;> cases published
    · exact ⟨by decide, by decide, by decide⟩
    · exact ⟨(by decide : cratePool.Has .void), by simpa using firstHere, by simp⟩
    · exact ⟨(by decide : cratePool.Has .void), by simpa using secondHere, by simp⟩

theorem crateTable_sized : (crateTable first second).Sized := by
  intro number symbol signature found published
  rcases crateTable_cases found with rfl | rfl | rfl <;> cases published <;> rfl

theorem reorders_crateTable : Reorders turnCrate (crateTable first second)
    (crateTable second first) where
  symbols
    | 0 | 1 | 2 => rfl
    | _ + 3 => rfl
  classes := .cons ⟨rfl, .swap .., rfl⟩ .nil

end

/-- A crate of integers takes an integer as one of its elements, in whichever order its methods are
declared. -/
theorem selectOverload_reordered_crate :
    (∃ outcome after outcome' after',
      ((crateTable ⟨7⟩ .any).selectOverload ⟨8⟩ "put" [.int]).run cratePool = .ok (outcome, after) ∧
      ((crateTable .any ⟨7⟩).selectOverload ⟨8⟩ "put" [.int]).run cratePool =
        .ok (outcome', after') ∧
      outcome = .ok { id := 1, result := .void, unbound := [] } ∧
      outcome'.map (·.tree id after') = outcome.map (·.tree turnCrate after)) ∧
    ∃ applicable after, (do
        let visible ← (crateTable ⟨7⟩ .any).visibleMethods ⟨8⟩ "put"
        visible.filterMapM ((crateTable ⟨7⟩ .any).applicable? [.int])).run cratePool =
          .ok (applicable, after) ∧
      applicable.length = 2 ∧ (applicable.filter fun entry => exactMatch [.int] entry.1).length ≤
        1 := by
  have distinct : ((crateTable ⟨7⟩ .any).methodTrees turnCrate cratePool "put").Distinct
      (cratePool.tree ⟨8⟩) := by
    have only : ((crateTable ⟨7⟩ .any).hierarchy.unfold cratePool).ancestors (cratePool.tree ⟨8⟩) =
        [.applied "Crate" [.int]] := by decide
    intro ancestor member base named
    cases List.mem_singleton.mp (only ▸ member)
    cases named
    exact (by decide : [[TypeTree.int], [TypeTree.any]].Nodup)
  obtain ⟨⟨outcome, after, ran, outcome', after', ran', same⟩, applicable, final,
    searched, bound⟩ :=
    selectOverload_reordered (by decide : cratePool.Valid)
      (heldBy_crateTable (by decide) (by decide)) (heldBy_crateTable (by decide) (by decide))
      crateTable_sized reorders_crateTable (by decide : cratePool.Has ⟨8⟩)
      (by decide : ∀ arg ∈ [TypeRef.int], cratePool.Has arg) "put" distinct
  refine ⟨⟨outcome, after, outcome', after', ran, ran', ?_, ?_⟩, applicable, final,
    searched, ?_, ?_⟩
  · cases ran
    rfl
  · cases ran
    cases ran'
    exact same (by decide) (by decide)
  · cases searched
    rfl
  · cases searched
    exact bound (by decide)

end SymbolTable
end ClassLang
