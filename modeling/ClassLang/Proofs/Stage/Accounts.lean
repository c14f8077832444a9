import ClassLang.Proofs.Diagnostic
import ClassLang.Proofs.Stage.Entries
import ClassLang.Proofs.Stage.Evolution
import ClassLang.Proofs.Type.Params

/-! Accounts that every stage keeps: an applied type has as many arguments as its class has
parameters, and a name that was not found stands in a type only if an error is reported. -/

namespace ClassLang

namespace SymbolTable

variable {table : SymbolTable} {class_ : Nat} {change : ClassRecord → ClassRecord}

/-- The number of type parameters of the class a name refers to. -/
def arity? (table : SymbolTable) (name : Name) : Option Nat :=
  (table.record? name).map (·.typeParams.length)

theorem earliest?_map (order : ∀ record, (change record).order = record.order) :
    ∀ records : List ClassRecord, earliest? (records.map change) = (earliest? records).map change
  | [] => rfl
  | record :: rest => by
    rw [List.map_cons, earliest?, earliest?, earliest?_map order rest]
    cases earliest? rest with
    | none => rfl
    | some best =>
      dsimp only [Option.map]
      rw [order, order]
      split <;> rfl

/-- Changing what is known about a class keeps which declaration its name refers to. -/
theorem record?_updateClass (named : ∀ record, (change record).name = record.name)
    (order : ∀ record, (change record).order = record.order) (name : Name) :
    (table.updateClass class_ change).record? name = (table.record? name).map fun record =>
      if record.symbol = class_ then change record else record := by
  have kept : ∀ record : ClassRecord,
      (if record.symbol = class_ then change record else record).name = record.name := by
    intro record
    split
    · exact named record
    · rfl
  unfold record? updateClass
  rw [← earliest?_map, List.filter_map]
  · simp only [Function.comp_def, kept]
  · intro record
    split
    · exact order record
    · rfl

theorem arity?_publishClass (superclass : Option TypeRef) (interfaces : List TypeRef) :
    (table.publishClass class_ superclass interfaces).arity? = table.arity? := by
  funext name
  have record := @record?_updateClass table class_ ({ · with superclass, interfaces })
    (fun _ => rfl) (fun _ => rfl) name
  unfold arity? publishClass
  rw [record, Option.map_map]
  congr 1
  funext record
  simp only [Function.comp_apply]
  split <;> rfl

theorem arity?_publishSignature {id : Nat} {signature : Signature} {published : SymbolTable}
    (ran : table.publishSignature id signature = .ok published) :
    published.arity? = table.arity? := by
  obtain ⟨symbol, _, same⟩ := Except.bind_eq_ok ran
  cases same
  rfl

theorem typeParams_length (table : SymbolTable) (name : Name) :
    (table.hierarchy.typeParams name).length = (table.arity? name).getD 0 := by
  unfold arity? hierarchy
  dsimp only
  cases table.record? name <;> rfl

/-- Only a declared class has type parameters. -/
theorem arity?_of_typeParams {name : Name} {count : Nat} (positive : count ≠ 0)
    (length : count = (table.hierarchy.typeParams name).length) :
    table.arity? name = some count := by
  rw [typeParams_length] at length
  cases found : table.arity? name with
  | none => exact absurd (by simpa [found] using length) positive
  | some declared => simpa [found] using length.symm

end SymbolTable

/-- What stays while a unit is worked on: the numbers of type parameters of the declared classes,
the buffer of the unit, and whether an error was kept before. -/
structure Ledger where
  arity : Name → Option Nat
  buffer : DiagnosticBuffer
  erred : Prop

/-- There are as many arguments as the class has parameters, and a name was not found only if an
error is known. -/
def TypeNode.Fits (arity : Name → Option Nat) (erred : Prop) : TypeNode → Prop
  | applied base args => arity base = some args.length
  | unresolved _ => erred
  | _ => True

theorem TypeNode.Fits.mono {arity : Name → Option Nat} {before after : Prop} {node : TypeNode}
    (fits : node.Fits arity before) (later : before → after) : node.Fits arity after := by
  cases node with
  | unresolved name => exact later fits
  | _ => exact fits

/-- Asking about the declared classes enters fitting types only. -/
theorem TypeNode.inheritable_fits {table : SymbolTable} {arity : Name → Option Nat} {erred : Prop}
    (declared : table.arity? = arity) :
    Inheritable table.hierarchy (TypeNode.Fits arity erred) where
  wildcard _ _ := trivial
  applied base args replaced fits length := by
    rw [TypeNode.Fits, length]
    exact fits
  class_ _ := trivial
  var _ _ := trivial
  self name args some_ length := by
    have count : args.length ≠ 0 := mt List.length_eq_zero_iff.mp some_
    exact declared ▸ SymbolTable.arity?_of_typeParams count length

/-- An error is reported. -/
def Workspace.Errs (work : Workspace) : Prop := ∃ report ∈ work.reports, report.isError = true

/-- The classes have the parameters of the ledger, every report is as severe as its code, and every
type fits. -/
structure Workspace.Accounted (ledger : Ledger) (work : Workspace) : Prop where
  arity : work.symbols.arity? = ledger.arity
  buffer : work.unit.diagnostics = ledger.buffer
  standard : ∀ report ∈ work.reports, report.Standard
  entries : work.pool.Only (TypeNode.Fits ledger.arity (ledger.erred ∨ work.Errs))

namespace Workspace.Accounted
variable {ledger : Ledger} {before after : Workspace}

/-- Classes and types may stay as they are while something is reported. -/
theorem step (accounted : before.Accounted ledger)
    (arity : after.symbols.arity? = before.symbols.arity?)
    (buffer : after.unit.diagnostics = before.unit.diagnostics) (pool : after.pool = before.pool)
    (reports : ∃ added, after.reports = before.reports ++ added ∧ ∀ report ∈ added,
      report.Standard) :
    after.Accounted ledger := by
  obtain ⟨added, same, standard⟩ := reports
  refine ⟨arity.trans accounted.arity, buffer.trans accounted.buffer, ?_, ?_⟩
  · rw [same]
    exact List.forall_mem_append.mpr ⟨accounted.standard, standard⟩
  · intro index node found
    rw [pool] at found
    apply (accounted.entries index node found).mono
    apply Or.imp_right
    rintro ⟨report, member, severe⟩
    exact ⟨report, by rw [same]; exact List.mem_append_left _ member, severe⟩

end Workspace.Accounted
end ClassLang
