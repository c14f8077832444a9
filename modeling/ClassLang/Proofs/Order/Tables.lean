import ClassLang.Proofs.Order.Patterns

/-! Two symbol tables with the same declarations under other numbers: a class or a member is found
in the one where it is found in the other, and calls choose the same methods. -/

namespace ClassLang

instance : Renamable Signature :=
  ⟨fun rename signature =>
    { type := rename.on signature.type, params := rename.on signature.params
      typeParams := rename.on signature.typeParams }, fun rename signature => by simp⟩

instance : Renamable Symbol :=
  ⟨fun rename symbol =>
    { symbol with unit := rename.units symbol.unit, signature := rename.on symbol.signature },
    fun rename symbol => by simp⟩

instance : Renamable ClassRecord where
  apply rename record :=
    { record with
      symbol := rename.symbols record.symbol
      order := (rename.units record.order.1, record.order.2)
      typeParams := rename.on record.typeParams
      superclass := rename.on record.superclass
      interfaces := rename.on record.interfaces
      members := record.members.map rename.symbols }
  cancel rename record := by simp [Function.comp_def]

namespace Renaming

/-- A symbol with its number. -/
def entry (rename : Renaming) : Nat × Symbol ≃ Nat × Symbol :=
  Equiv.prodCongr rename.symbols rename.on

/-- The second table has the declarations of the first under their other numbers. -/
structure Tables (rename : Renaming) (table table' : SymbolTable) : Prop where
  symbols : ∀ id : Nat, table'.symbols[rename.symbols id]? = rename.on table.symbols[id]?
  record? : ∀ name, table'.record? name = rename.on (table.record? name)
  declarations : ∀ name, table'.declarations name = (table.declarations name).map rename.symbols

end Renaming

@[simp] theorem Symbol.type_on (rename : Renaming) (symbol : Symbol) :
    (rename.on symbol).type = rename.on symbol.type := by
  obtain ⟨name, kind, unit, member, owner, access, modifiers, deprecated, span, arity, signature⟩ :=
    symbol
  cases signature with
  | none => exact rename.on_any.symm
  | some signature => rfl

namespace Renaming.Tables

variable {rename : Renaming} {table table' : SymbolTable} (tables : rename.Tables table table')
include tables

theorem lookupClass? (name : Name) :
    table'.lookupClass? name = (table.lookupClass? name).map rename.symbols := by
  unfold SymbolTable.lookupClass?
  rw [tables.record?]
  cases table.record? name <;> rfl

theorem lookup? (name : Name) : table'.lookup? name = rename.on (table.lookup? name) := by
  unfold SymbolTable.lookup?
  rw [tables.lookupClass?]
  cases table.lookupClass? name with
  | none => rfl
  | some id => exact tables.symbols id

theorem classModifiers? (name : Name) :
    table'.classModifiers? name = table.classModifiers? name := by
  unfold SymbolTable.classModifiers?
  rw [tables.lookup?]
  cases table.lookup? name <;> rfl

theorem get (id : Nat) : Corresponds rename.on (table.get id) (table'.get (rename.symbols id)) := by
  unfold SymbolTable.get
  rw [tables.symbols]
  cases table.symbols[id]? with
  | none => exact .failLeft _
  | some symbol => exact .ok rfl

theorem findMembers (class_ : Name) {test : Symbol → Bool}
    (blind : ∀ symbol, test (rename.on symbol) = test symbol) :
    table'.findMembers class_ test = (table.findMembers class_ test).map rename.entry := by
  unfold SymbolTable.findMembers
  rw [tables.record?]
  cases table.record? class_ with
  | none => rfl
  | some record =>
    change List.filterMap _ (record.members.map rename.symbols) = _
    rw [List.filterMap_map, List.map_filterMap]
    apply List.filterMap_congr
    intro id _
    simp only [Function.comp_apply]
    rw [tables.symbols]
    cases table.symbols[id]? with
    | none => rfl
    | some symbol =>
      simp only [rename.on_some, blind]
      split <;> rfl

theorem membersNamed (class_ name : Name) (kind : SymbolKind) :
    table'.membersNamed class_ name kind = (table.membersNamed class_ name kind).map rename.entry :=
  tables.findMembers class_ fun _ => rfl

theorem methods (class_ : Name) : table'.methods class_ = (table.methods class_).map rename.entry :=
  tables.findMembers class_ fun _ => rfl

theorem classes : rename.Classes table.hierarchy table'.hierarchy where
  superclass name := by
    simp only [SymbolTable.hierarchy]
    rw [tables.record?]
    cases table.record? name <;> rfl
  interfaces name := by
    simp only [SymbolTable.hierarchy]
    rw [tables.record?]
    cases table.record? name <;> rfl
  typeParams name := by
    simp only [SymbolTable.hierarchy]
    rw [tables.record?]
    cases table.record? name <;> rfl
  variants name := by
    simp only [SymbolTable.hierarchy]
    rw [tables.record?]
    cases table.record? name <;> rfl
  isAbstract name := by
    simp only [SymbolTable.hierarchy]
    rw [tables.lookup?]
    cases table.lookup? name <;> rfl
  components name := by
    simp only [SymbolTable.hierarchy]
    rw [@findMembers _ _ _ tables name (fun symbol => symbol.kind == .field && !symbol.isStatic)
      fun _ => rfl, List.map_map, rename.on_list, List.map_map]
    exact List.map_congr_left fun entry _ => entry.2.type_on rename

end Renaming.Tables

/-! Choosing a method. -/

instance : Renamable Candidate :=
  ⟨fun rename candidate =>
    { id := rename.symbols candidate.id, symbol := rename.on candidate.symbol
      ownerType := rename.on candidate.ownerType, params := rename.on candidate.params },
    fun rename candidate => by simp⟩

instance : Renamable Selection :=
  ⟨fun rename selection =>
    { id := rename.symbols selection.id, result := rename.on selection.result
      unbound := rename.on selection.unbound }, fun rename selection => by simp⟩

instance : Renamable InheritedMethod :=
  ⟨fun rename method =>
    { method with symbol := rename.on method.symbol, params := rename.on method.params },
    fun rename method => by simp⟩

end ClassLang
