import ClassLang.Proofs.Order.Constants
import ClassLang.Pipeline

/-! Programs that are the same up to numbers. A stage works alike on every member of a unit in two
runs; when every class name is declared once, the symbol tables answer alike, so that a stage on a
unit may be compared from any point of two phases. -/

namespace ClassLang

namespace Crossing

variable {cross : Crossing} {stage : Stage}

/-- Types are published by the first stage, and used by the later ones. -/
theorem perform_agrees (timely : cross.settled ↔ stage ≠ .resolveTypes) (id : Nat) :
    cross.Agrees (StageM.perform stage id) (StageM.perform stage id) := by
  cases stage with
  | resolveTypes => exact resolveTypes_agrees (fun done => timely.mp done rfl) id
  | resolve => exact resolveBody_agrees (timely.mpr (by decide)) id
  | check => exact checkMember_agrees (timely.mpr (by decide)) id
  | foldConstants => exact foldConstants_agrees id

theorem runMember_agrees (timely : cross.settled ↔ stage ≠ .resolveTypes) (id : Nat) :
    cross.Agrees (StageM.runMember stage id) (StageM.runMember stage id) := by
  apply Setting.Agree.get
  intro work work' left right seen
  dsimp only
  rw [show work'.unit = cross.rename.on work.unit from seen]
  apply Setting.Agree.bind (readUnit_agrees work.unit id)
  intro member
  apply Setting.Agree.ite Iff.rfl
  · exact fun _ => .pure rfl
  intro _
  apply Setting.Agree.ite Iff.rfl
  · exact fun _ => .throwThen _ _
  intro _
  apply (perform_agrees timely id).bind
  intro _
  apply readMember_agrees
  intro member found
  exact @setMember_agrees cross id { member with progress := stage.target } found

theorem runMembers_agrees (timely : cross.settled ↔ stage ≠ .resolveTypes) (ids : List Nat) :
    cross.Agrees (ids.forM (StageM.runMember stage)) (ids.forM (StageM.runMember stage)) :=
  .forM_plain fun id _ => runMember_agrees timely id

end Crossing

namespace SymbolTable

variable {table : SymbolTable} {name : Name} {record : ClassRecord}

/-- A class name that is declared once has the records that it refers to. -/
theorem filter_name (distinct : (table.classes.map (·.name)).Nodup) (name : Name) :
    table.classes.filter (·.name == name) = (table.record? name).toList := by
  have listed : ∀ record ∈ table.classes.filter (·.name == name), record.name = name :=
    fun record member => beq_iff_eq.mp (List.mem_filter.mp member).2
  have once : ((table.classes.filter (·.name == name)).map (·.name)).Nodup :=
    distinct.sublist (List.filter_sublist.map _)
  unfold record?
  generalize table.classes.filter (·.name == name) = records at listed once
  match records with
  | [] => rfl
  | [record] => rfl
  | first :: second :: rest =>
    have same : first.name = second.name :=
      (listed first List.mem_cons_self).trans
        (listed second (List.mem_cons_of_mem _ List.mem_cons_self)).symm
    exact absurd (List.mem_cons.mpr (.inl same)) (List.nodup_cons.mp once).1

theorem record?_eq_some_iff (distinct : (table.classes.map (·.name)).Nodup) :
    table.record? name = some record ↔ record ∈ table.classes ∧ record.name = name := by
  rw [← Option.mem_toList, ← filter_name distinct, List.mem_filter, beq_iff_eq]

theorem declarations_eq (distinct : (table.classes.map (·.name)).Nodup) (name : Name) :
    table.declarations name = (table.record? name).toList.map (·.symbol) := by
  unfold declarations
  rw [filter_name distinct]
  cases table.record? name <;> rfl

theorem mem_recordsOf : record ∈ table.recordsOf record.symbol ↔ record ∈ table.classes := by
  simp [recordsOf]

end SymbolTable

/-- The programs have the same symbols, classes and parameters up to numbers, and every class has
its own name. -/
structure Renaming.Shared (rename : Renaming) (program program' : Program) : Prop where
  symbols : ∀ id : Nat, program'.symbols.symbols[rename.symbols id]? =
    rename.on program.symbols.symbols[id]?
  records : ∀ id, program'.symbols.recordsOf (rename.symbols id) = rename.on
    (program.symbols.recordsOf id)
  params : ∀ param : ParamRef,
    program'.pool.params[(rename.on param).raw]? = rename.on program.pool.params[param.raw]?
  names : (program.symbols.classes.map (·.name)).Nodup
  names' : (program'.symbols.classes.map (·.name)).Nodup

namespace Renaming.Shared

variable {rename : Renaming} {program program' : Program} (shared : rename.Shared program program')
include shared

theorem mem_classes (record : ClassRecord) :
    rename.on record ∈ program'.symbols.classes ↔ record ∈ program.symbols.classes := by
  have own : (rename.on record).symbol = rename.symbols record.symbol := rfl
  rw [← SymbolTable.mem_recordsOf, ← @SymbolTable.mem_recordsOf program.symbols, own,
    shared.records]
  exact List.mem_map_of_injective rename.on.injective

theorem record? (name : Name) :
    program'.symbols.record? name = rename.on (program.symbols.record? name) := by
  apply Option.ext
  intro record'
  obtain ⟨record, rfl⟩ := rename.on.surjective record'
  rw [SymbolTable.record?_eq_some_iff shared.names', shared.mem_classes]
  change record ∈ program.symbols.classes ∧ record.name = name ↔ _
  rw [← SymbolTable.record?_eq_some_iff shared.names, ← rename.on_some, rename.on_inj]

/-- The tables answer alike. -/
theorem tables : rename.Tables program.symbols program'.symbols where
  symbols := shared.symbols
  record? := shared.record?
  declarations name := by
    rw [SymbolTable.declarations_eq shared.names', SymbolTable.declarations_eq shared.names,
      shared.record?]
    cases program.symbols.record? name <;> rfl

theorem bounds : rename.Bounds program.pool.params program'.pool.params := by
  intro param declared declared' found found'
  have same := shared.params param
  rw [found, found'] at same
  exact Option.some.inj same

end Renaming.Shared

/-- The units of both runs, and what they work on, when a stage begins on one of them. -/
def Renaming.Shared.crossing {rename : Renaming} {program program' here here' : Program}
    {first second : TypePool} (shared : rename.Shared program program')
    (carries : rename.Carries first second) {settled : Prop} {touches touches' : Nat → Prop}
    {binds binds' : ParamRef → Prop} (near : program.Advances settled touches binds here)
    (near' : program'.Advances settled touches' binds' here') (unit : CompilationUnit) :
    Crossing where
  rename := rename
  first := first
  second := second
  carries := carries
  settled := settled
  start := { toProgram := here, unit }
  start' := { toProgram := here', unit := rename.on unit }
  unit := rfl
  declares := shared.bounds.declares.of_bare near.declared near'.declared
  names name := by
    rw [SymbolTable.record?_bare near.classes, SymbolTable.record?_bare near'.classes,
      shared.record?]
    cases program.symbols.record? name <;> rfl
  tables done := by
    rw [(near.settled done).1, (near'.settled done).1]
    exact shared.tables
  bounds done := by
    rw [(near.settled done).2, (near'.settled done).2]
    exact shared.bounds

end ClassLang
