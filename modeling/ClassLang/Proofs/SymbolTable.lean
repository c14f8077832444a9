import ClassLang.Proofs.Type.Inheritance
import ClassLang.Proofs.Type.Params
import ClassLang.SymbolTable

/-! What the symbol table says about types is in the pool, so that the classes of the table can be
asked about. -/

namespace ClassLang

/-- The types and parameters of a signature are in the pool. -/
structure Signature.HeldBy (signature : Signature) (pool : TypePool) : Prop where
  type : pool.Has signature.type
  params : ∀ type ∈ signature.params, pool.Has type
  typeParams : ∀ param ∈ signature.typeParams, pool.Declares param

theorem Signature.HeldBy.grow {signature : Signature} {before after : TypePool}
    (held : signature.HeldBy before) (within : before.Within after) : signature.HeldBy after :=
  ⟨within.has held.type, fun type member => within.has (held.params type member),
    fun param member => within.declares (held.typeParams param member)⟩

/-- A record names a symbol below `size` and types of the pool. -/
structure ClassRecord.HeldBy (record : ClassRecord) (pool : TypePool) (size : Nat) : Prop where
  symbol : record.symbol < size
  typeParams : ∀ param ∈ record.typeParams, pool.Declares param
  superclass : ∀ type ∈ record.superclass, pool.Has type
  interfaces : ∀ type ∈ record.interfaces, pool.Has type

theorem ClassRecord.HeldBy.grow {record : ClassRecord} {before after : TypePool} {size larger : Nat}
    (held : record.HeldBy before size) (within : before.Within after) (le : size ≤ larger) :
    record.HeldBy after larger :=
  ⟨Nat.lt_of_lt_of_le held.symbol le, fun param member =>
    within.declares (held.typeParams param member),
    fun type member => within.has (held.superclass type member),
    fun type member => within.has (held.interfaces type member)⟩

theorem earliest?_mem {record : ClassRecord} : ∀ {records : List ClassRecord},
    earliest? records = some record → record ∈ records
  | [], found => by cases found
  | first :: rest, found => by
    unfold earliest? at found
    split at found
    · rename_i best later
      split at found
      · cases found
        exact List.mem_cons_of_mem _ (earliest?_mem later)
      · cases found
        exact List.mem_cons_self
    · cases found
      exact List.mem_cons_self

/-- The first of the declarations in order is the earliest. -/
theorem head?_foldr_insertDeclaration : ∀ records : List ClassRecord,
    (records.foldr insertDeclaration []).head? = earliest? records
  | [] => rfl
  | record :: rest => by
    have ih := head?_foldr_insertDeclaration rest
    rw [List.foldr_cons, earliest?, ← ih]
    cases rest.foldr insertDeclaration [] with
    | nil => rfl
    | cons next others =>
      rw [insertDeclaration]
      split <;> rename_i before <;> simp [before]

namespace SymbolTable

/-- What the table refers to is in the table and in the pool. -/
structure HeldBy (table : SymbolTable) (pool : TypePool) : Prop where
  records : ∀ record ∈ table.classes, record.HeldBy pool table.size
  signatures : ∀ (id : Nat) (symbol : Symbol) (signature : Signature),
    table.symbols[id]? = some symbol → symbol.signature = some signature → signature.HeldBy pool

variable {table : SymbolTable} {pool before after : TypePool} {name : Name} {id : Nat}
  {symbol : Symbol} {record : ClassRecord}

theorem HeldBy.grow (held : table.HeldBy before) (within : before.Within after) :
    table.HeldBy after :=
  ⟨fun record member => (held.records record member).grow within (Nat.le_refl _),
    fun id symbol signature found published =>
      (held.signatures id symbol signature found published).grow within⟩

theorem record?_mem (found : table.record? name = some record) :
    record ∈ table.classes ∧ record.name = name := by
  obtain ⟨member, named⟩ := List.mem_filter.mp (earliest?_mem found)
  exact ⟨member, of_decide_eq_true named⟩

/-- A class name refers to its first declaration. -/
theorem head?_declarations (table : SymbolTable) (name : Name) :
    (table.declarations name).head? = table.lookupClass? name := by
  rw [declarations, List.head?_map, head?_foldr_insertDeclaration]
  rfl

/-- Only declared classes have supertypes. -/
theorem exists_record_of_supertype {type : TypeRef}
    (member : type ∈ table.hierarchy.supertypes name) :
    ∃ record ∈ table.classes, record.name = name := by
  cases found : table.record? name with
  | none => simp [ClassHierarchy.supertypes, hierarchy, found] at member
  | some record => exact ⟨record, record?_mem found⟩

theorem get_eq (found : table.symbols[id]? = some symbol) : table.get id = .ok symbol := by
  simp [SymbolTable.get, found]

theorem get_ok (inside : id < table.size) : ∃ symbol, table.get id = .ok symbol :=
  ⟨_, get_eq (Array.getElem?_eq_getElem inside)⟩

theorem HeldBy.lookupClass?_lt (held : table.HeldBy pool)
    (found : table.lookupClass? name = some id) : id < table.size := by
  obtain ⟨record, answer, rfl⟩ := Option.map_eq_some_iff.mp found
  exact (held.records record (record?_mem answer).1).symbol

/-- The members found are symbols of the table. -/
theorem mem_findMembers {test : Symbol → Bool} {entry : Nat × Symbol}
    (member : entry ∈ table.findMembers name test) : table.symbols[entry.1]? = some entry.2 := by
  unfold findMembers at member
  split at member
  · cases member
  · obtain ⟨id, _, made⟩ := List.mem_filterMap.mp member
    split at made
    · rename_i found
      split at made
      · cases made
        exact found
      · cases made
    · cases made

/-- and the symbols pass the test. -/
theorem findMembers_passes {test : Symbol → Bool} {entry : Nat × Symbol}
    (member : entry ∈ table.findMembers name test) : test entry.2 = true := by
  unfold findMembers at member
  split at member
  · cases member
  · obtain ⟨id, _, made⟩ := List.mem_filterMap.mp member
    split at made
    · split at made
      · cases made
        assumption
      · cases made
    · cases made

/-- The type of a symbol is in the pool; before it is known it is `any`. -/
theorem HeldBy.has_type (held : table.HeldBy pool) (valid : pool.Valid)
    (found : table.symbols[id]? = some symbol) : pool.Has symbol.type := by
  unfold Symbol.type
  split
  · rename_i signature published
    exact (held.signatures id symbol signature found published).type
  · exact valid.has_any

/-- The classes of the table can be asked about. -/
theorem HeldBy.hierarchy (held : table.HeldBy pool) (valid : pool.Valid) :
    table.hierarchy.HeldBy pool where
  supertypes name type member := by
    rcases List.mem_append.mp member with above | among
    · obtain ⟨record, answer, super⟩ := Option.bind_eq_some_iff.mp (Option.mem_toList.mp above)
      exact (held.records record (record?_mem answer).1).superclass type super
    · cases answer : table.record? name with
      | none => simp [SymbolTable.hierarchy, answer] at among
      | some record =>
        have listed : type ∈ record.interfaces := by
          simpa [SymbolTable.hierarchy, answer] using among
        exact (held.records record (record?_mem answer).1).interfaces type listed
  components name type member := by
    obtain ⟨entry, found, rfl⟩ := List.mem_map.mp member
    exact held.has_type valid (mem_findMembers found)
  params name param member := by
    cases answer : table.record? name with
    | none => simp [SymbolTable.hierarchy, answer] at member
    | some record =>
      have listed : param ∈ record.typeParams := by
        simpa [SymbolTable.hierarchy, answer] using member
      exact (held.records record (record?_mem answer).1).typeParams param listed
  classes name inherits := by
    cases answer : table.record? name with
    | none => simp [SymbolTable.hierarchy, ClassHierarchy.supertypes, answer] at inherits
    | some record =>
      obtain ⟨member, named⟩ := record?_mem answer
      exact List.mem_map.mpr ⟨record, member, named⟩

end SymbolTable
end ClassLang
