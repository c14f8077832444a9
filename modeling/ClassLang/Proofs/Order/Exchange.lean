import ClassLang.Proofs.Order.Opening
import ClassLang.Proofs.Order.Trees
import ClassLang.Proofs.Order.Pairing

/-! Units declared in two orders. Each unit has its block of symbols and of parameters in both, and
the renaming that carries block to block makes one program of declarations the other. -/

namespace ClassLang

section
variable {α : Type} {first second : List α}

/-- The places behind the first change as given. -/
def Equiv.behind (places : Nat ≃ Nat) : Nat ≃ Nat where
  toFun
    | 0 => 0
    | index + 1 => places index + 1
  invFun
    | 0 => 0
    | index + 1 => places.symm index + 1
  left_inv index := by cases index <;> simp
  right_inv index := by cases index <;> simp

/-- In another order every element has another place. -/
theorem exists_places (perm : first.Perm second) :
    ∃ places : Nat ≃ Nat, ∀ index, second[places index]? = first[index]? := by
  induction perm with
  | nil => exact ⟨.refl Nat, fun _ => rfl⟩
  | cons element _ ih =>
    obtain ⟨places, same⟩ := ih
    refine ⟨Equiv.behind places, fun index => ?_⟩
    cases index with
    | zero => rfl
    | succ index => exact same index
  | swap element other rest =>
    refine ⟨Equiv.swap 0 1, fun index => ?_⟩
    match index with
    | 0 => rfl
    | 1 => rfl
    | index + 2 => rw [Equiv.swap_apply_of_ne_of_ne (by omega) (by omega)]; rfl
  | trans _ _ ih ih' =>
    obtain ⟨places, same⟩ := ih
    obtain ⟨places', same'⟩ := ih'
    exact ⟨places.trans places', fun index => (same' _).trans (same index)⟩

end

/-- The renaming carries the declarations of every unit to those of the same unit at another
place. -/
structure Renaming.Exchanges (rename : Renaming) (sources sources' : List SourceUnit) : Prop where
  places : ∀ index : Nat, sources'[rename.units index]? = sources[index]?
  moves : ∀ (index : Nat) (source : SourceUnit), sources[index]? = some source →
    rename.Moves source.memberCount source.paramCount (SourceUnit.place sources index)
      (SourceUnit.place sources' (rename.units index))
  symbols : ∀ id, (sources.map (·.memberCount)).sum ≤ id →
    (sources'.map (·.memberCount)).sum ≤ rename.symbols id
  params : ∀ param : ParamRef, (sources.map (·.paramCount)).sum ≤ param.raw →
    (sources'.map (·.paramCount)).sum ≤ (rename.on param).raw

variable {sources sources' : List SourceUnit}

/-- Units in another order, and the types of two pools, have common numbers. -/
theorem Renaming.exists_exchange (perm : sources.Perm sources') {first second : TypePool}
    (valid : first.Valid) (valid' : second.Valid) (small : first.Small) (small' : second.Small) :
    ∃ rename : Renaming, rename.Exchanges sources sources' ∧ rename.Carries first second ∧
      ∀ type, first.Has type → second.Has (rename.on type) →
        second.tree (rename.on type) = rename.on (first.tree type) := by
  obtain ⟨units, places⟩ := exists_places perm
  have counts (count : SourceUnit → Nat) (block : Nat) :
      (sources'.map count).getD (units block) 0 = (sources.map count).getD block 0 := by
    rw [List.getD_eq_getElem?_getD, List.getD_eq_getElem?_getD, List.getElem?_map,
      List.getElem?_map, places]
  have size {count : SourceUnit → Nat} {index : Nat} {source : SourceUnit}
      (found : sources[index]? = some source) :
      (sources.map count).getD index 0 = count source := by
    rw [List.getD_eq_getElem?_getD, List.getElem?_map, found]
    rfl
  obtain ⟨symbols, moved, outside⟩ := exists_blockwise (counts (·.memberCount))
  obtain ⟨params, movedParams, outsideParams⟩ := exists_blockwise (counts (·.paramCount))
  let paramRefs : ParamRef ≃ ParamRef :=
    { toFun := fun param => ⟨params param.raw⟩
      invFun := fun param => ⟨params.symm param.raw⟩
      left_inv := fun param => congrArg ParamRef.mk (params.symm_apply_apply param.raw)
      right_inv := fun param => congrArg ParamRef.mk (params.apply_symm_apply param.raw) }
  obtain ⟨rename, sameParams, rfl, rfl, carries, trees⟩ :=
    Renaming.exists_carries valid valid' small small' paramRefs symbols units
  have carried (param : ParamRef) : rename.on param = ⟨params param.raw⟩ :=
    congrArg (fun carry : ParamRef ≃ ParamRef => carry param) sameParams
  refine ⟨rename, ⟨places, fun index source found => ?_, outside, fun param => ?_⟩, carries, trees⟩
  · constructor
    case unit => rfl
    case member => rfl
    case symbols =>
      intro offset inside
      exact moved index offset ((size found).symm ▸ inside)
    case params =>
      intro offset inside
      rw [carried]
      exact congrArg ParamRef.mk (movedParams index offset ((size found).symm ▸ inside))
  · rw [carried]
    exact outsideParams param.raw

/-- The source of the block that a number stands in. -/
theorem exists_source {count : SourceUnit → Nat} {number : Nat}
    (inside : number < (sources.map count).sum) : ∃ (index : Nat) (source : SourceUnit),
    sources[index]? = some source ∧ ∃ offset < count source,
      number = blockStart (sources.map count) index + offset := by
  obtain ⟨index, offset, within, rfl⟩ := exists_inBlock inside
  rw [List.getD_eq_getElem?_getD, List.getElem?_map] at within
  cases found : sources[index]? with
  | none => simp [found] at within
  | some source =>
    rw [found] at within
    exact ⟨index, source, found, offset, within, rfl⟩

/-- No two units share a symbol or a parameter. -/
theorem Opening.apart {config : BufferConfig} {state : List CompilationUnit × Program}
    (opening : Opening config sources state) : state.1.Pairwise CompilationUnit.Apart := by
  have listed (index : Nat) (inside : index < state.1.length) : ∃ source,
      sources[index]? = some source ∧
      state.1[index] = { source.declared (SourceUnit.place sources index) with
        diagnostics := { config } } := by
    have found := opening.units index
    rw [List.getElem?_eq_getElem inside] at found
    obtain ⟨source, there, same⟩ := Option.map_eq_some_iff.mp found.symm
    exact ⟨source, there, same.symm⟩
  -- The block of a unit ends before that of a later one begins.
  have ends {count : SourceUnit → Nat} {index later : Nat} {source : SourceUnit}
      (found : sources[index]? = some source) (before : index < later) :
      blockStart (sources.map count) index + count source ≤ blockStart
        (sources.map count) later := by
    have next := blockStart_succ (sources.map count) index
    rw [List.getD_eq_getElem?_getD, List.getElem?_map, found] at next
    exact next ▸ blockStart_mono _ before
  rw [List.pairwise_iff_getElem]
  intro index later inside inside' before
  obtain ⟨source, found, same⟩ := listed index inside
  obtain ⟨source', _, same'⟩ := listed later inside'
  rw [same, same']
  constructor
  · intro id own other
    change id ∈ (source.declared _).symbols at own
    change id ∈ (source'.declared _).symbols at other
    rw [SourceUnit.declared_symbols, List.mem_toArray, List.mem_range'_1] at own other
    exact absurd (own.2.trans_le (@ends (·.memberCount) _ _ _ found before))
      (Nat.not_lt.mpr other.1)
  · intro param own other
    change param ∈ (source.declared _).params at own
    change param ∈ (source'.declared _).params at other
    rw [SourceUnit.declared_params, List.mem_map] at own other
    obtain ⟨number, own, rfl⟩ := own
    obtain ⟨number', other, same⟩ := other
    cases same
    rw [List.mem_range'_1] at own other
    exact absurd (own.2.trans_le (@ends (·.paramCount) _ _ _ found before)) (Nat.not_lt.mpr other.1)

theorem Opening.recordsOf_outside {config : BufferConfig} {state : List CompilationUnit × Program}
    (opening : Opening config sources state) {id : Nat} (outside : state.2.symbols.size ≤ id) :
    state.2.symbols.recordsOf id = [] := by
  rw [SymbolTable.recordsOf, List.filter_eq_nil_iff]
  intro record member same
  exact absurd (beq_iff_eq.mp same ▸ opening.fresh record member) (Nat.not_lt.mpr outside)

namespace Renaming.Exchanges

variable {rename : Renaming} (exchanges : rename.Exchanges sources sources')
  {config : BufferConfig} {state state' : List CompilationUnit × Program}
include exchanges

theorem layoutAll_on {index : Nat} {source : SourceUnit} (found : sources[index]? = some source) :
    layoutAll (SourceUnit.place sources' (rename.units index)) source.classes =
      rename.on (layoutAll (SourceUnit.place sources index) source.classes) :=
  ClassLang.layoutAll_on (exchanges.moves index source found)

/-- Declared units are paired. -/
theorem pairs (opening : Opening config sources state) (opening' : Opening config sources' state') :
    rename.Pairs state.1 state'.1 where
  places index := by
    rw [opening.units, opening'.units, exchanges.places]
    cases found : sources[index]? with
    | none => rfl
    | some source =>
      have same := SourceUnit.declared_on (exchanges.moves index source found)
      exact congrArg (fun unit => some { unit with diagnostics := ({ config } : DiagnosticBuffer) })
        same
  apart := opening.apart
  apart' := opening'.apart

section
variable (opening : Opening config sources state) (opening' : Opening config sources' state')
include opening opening'

/-- A symbol is one of the same member of a unit in both programs, or one of no member in either. -/
theorem symbol_cases (id : Nat) :
    (∃ (index : Nat) (source : SourceUnit) (offset : Nat), sources[index]? = some source ∧
      offset < source.memberCount ∧
      id = (SourceUnit.place sources index).symbol + offset ∧
      rename.symbols id = (SourceUnit.place sources' (rename.units index)).symbol + offset) ∨
    state.2.symbols.size ≤ id ∧ state'.2.symbols.size ≤ rename.symbols id := by
  by_cases inside : id < state.2.symbols.size
  · obtain ⟨index, source, found, offset, within, same⟩ :=
      exists_source (opening.symbolCount ▸ inside)
    refine .inl ⟨index, source, offset, found, within, same, ?_⟩
    rw [same]
    exact (exchanges.moves index source found).symbols offset within
  · have outside := exchanges.symbols id (opening.symbolCount ▸ Nat.not_lt.mp inside)
    rw [← opening'.symbolCount] at outside
    exact .inr ⟨Nat.not_lt.mp inside, outside⟩

theorem param_cases (param : ParamRef) :
    (∃ (index : Nat) (source : SourceUnit) (offset : Nat), sources[index]? = some source ∧
      offset < source.paramCount ∧
      param.raw = (SourceUnit.place sources index).param + offset ∧
      (rename.on param).raw = (SourceUnit.place sources' (rename.units index)).param + offset) ∨
    state.2.pool.params.size ≤ param.raw ∧ state'.2.pool.params.size ≤ (rename.on param).raw := by
  by_cases inside : param.raw < state.2.pool.params.size
  · obtain ⟨index, source, found, offset, within, same⟩ :=
      exists_source (opening.paramCount ▸ inside)
    refine .inl ⟨index, source, offset, found, within, same, ?_⟩
    obtain rfl : param = ⟨blockStart (sources.map (·.paramCount)) index + offset⟩ :=
      congrArg ParamRef.mk same
    exact congrArg ParamRef.raw ((exchanges.moves index source found).params offset within)
  · have outside := exchanges.params param (opening.paramCount ▸ Nat.not_lt.mp inside)
    rw [← opening'.paramCount] at outside
    exact .inr ⟨Nat.not_lt.mp inside, outside⟩

theorem symbols_on (id : Nat) :
    state'.2.symbols.symbols[rename.symbols id]? = rename.on state.2.symbols.symbols[id]? := by
  rcases exchanges.symbol_cases opening opening' id with ⟨index, source, offset, found, within,
    same, there⟩ | outside
  · have found' := (exchanges.places index).trans found
    rw [same] at there ⊢
    rw [there, opening'.symbols _ source found' offset within,
      opening.symbols index source found offset within, exchanges.layoutAll_on found]
    exact List.getElem?_map
  · rw [Array.getElem?_eq_none outside.1, Array.getElem?_eq_none outside.2]
    rfl

theorem params_on (param : ParamRef) :
    state'.2.pool.params[(rename.on param).raw]? = rename.on state.2.pool.params[param.raw]? := by
  rcases exchanges.param_cases opening opening' param with ⟨index, source, offset, found, within,
    same, there⟩ | outside
  · have found' := (exchanges.places index).trans found
    rw [same, there, opening'.params _ source found' offset within,
      opening.params index source found offset within, exchanges.layoutAll_on found]
    exact List.getElem?_map
  · rw [Array.getElem?_eq_none outside.1, Array.getElem?_eq_none outside.2]
    rfl

theorem recordsOf_on (id : Nat) :
    state'.2.symbols.recordsOf (rename.symbols id) = rename.on (state.2.symbols.recordsOf id) := by
  rcases exchanges.symbol_cases opening opening' id with ⟨index, source, offset, found, within,
    same, there⟩ | outside
  · have found' := (exchanges.places index).trans found
    have moved := opening'.records _ source found' offset within
    rw [exchanges.layoutAll_on found, ← there] at moved
    have listed := opening.records index source found offset within
    rw [← same] at listed
    rw [moved, listed]
    change (List.map rename.on _).filter _ = List.map rename.on _
    rw [List.filter_map]
    apply congrArg (List.map rename.on)
    apply List.filter_congr
    intro record _
    change (rename.symbols record.symbol == rename.symbols id) = (record.symbol == id)
    exact rename.symbols.injective.beq_eq
  · rw [opening.recordsOf_outside outside.1, opening'.recordsOf_outside outside.2]
    rfl

/-- What is declared is the same up to numbers. -/
theorem shared (perm : sources.Perm sources')
    (distinct : (sources.flatMap fun source => source.classes.map (·.name)).Nodup) :
    rename.Shared state.2 state'.2 where
  symbols := exchanges.symbols_on opening opening'
  records := exchanges.recordsOf_on opening opening'
  params := exchanges.params_on opening opening'
  names := by
    rw [opening.names]
    exact distinct
  names' := by
    rw [opening'.names]
    exact (perm.flatMap_right _).nodup_iff.mp distinct

end

end Renaming.Exchanges

end ClassLang
