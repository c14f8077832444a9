import ClassLang.Proofs.Order.Layouts
import ClassLang.Proofs.Order.Matching

/-! Declared units in closed form. The declarations of a unit stand in a block behind those of the
units before it, so that units in another order have the same blocks in other places. -/

namespace ClassLang

/-- Where the declarations of a unit begin behind those of the units before it. -/
def SourceUnit.place (sources : List SourceUnit) (index : Nat) : Position where
  unit := index
  member := 0
  symbol := blockStart (sources.map (·.memberCount)) index
  param := blockStart (sources.map (·.paramCount)) index

section
variable {position : Position} {decls : List ClassDecl}

theorem layoutAll_symbols_length (position : Position) (decls : List ClassDecl) :
    (layoutAll position decls).symbols.length = (decls.map (·.memberCount)).sum :=
  (layoutAll_fits decls position).members.trans (length_layoutAll decls position)

theorem layoutAll_params_length (position : Position) (decls : List ClassDecl) :
    (layoutAll position decls).params.length = (decls.map (·.paramCount)).sum := by
  have behind := congrArg Position.param (Position.after_layoutAll decls position)
  simp only [Position.after] at behind
  omega

theorem layoutAll_records_names (position : Position) (decls : List ClassDecl) :
    (layoutAll position decls).records.map (·.name) = decls.map (·.name) := by
  induction decls generalizing position with
  | nil => rfl
  | cons decl rest ih => exact congrArg (decl.name :: ·) (ih _)

theorem layoutAll_records_symbol (position : Position) (decls : List ClassDecl) :
    ∀ record ∈ (layoutAll position decls).records, position.symbol ≤ record.symbol := by
  induction decls generalizing position with
  | nil => simp [layoutAll]
  | cons decl rest ih =>
    intro record member
    rcases List.mem_append.mp member with listed | later
    · rw [List.mem_singleton.mp listed]
    · exact Nat.le_trans (Nat.le_add_right _ _) (ih _ record later)

/-! The parameters that members declare are those of the layout, in their order. -/

theorem genericParams_ids (first : Nat) (decls : List TypeParamDecl) :
    (genericParams first decls).map (·.id) = (List.range' first decls.length).map ParamRef.mk := by
  induction decls generalizing first with
  | nil => rfl
  | cons decl rest ih => exact congrArg (⟨first⟩ :: ·) (ih (first + 1))

theorem laidMethods_params (owner first : Nat) (inInterface : Bool) (methods : List MethodDecl) :
    ((laidMethods owner inInterface first methods).flatMap (·.typeParams)).map (·.id) =
      (List.range' first (methods.map (·.typeParams.length)).sum).map ParamRef.mk := by
  induction methods generalizing first with
  | nil => rfl
  | cons decl rest ih =>
    have own : (decl.laid owner inInterface first).typeParams =
        genericParams first decl.typeParams := rfl
    rw [laidMethods, List.flatMap_cons, List.map_append, ih, own, genericParams_ids, List.map_cons,
      List.sum_cons, ← List.range'_append_1, List.map_append]

theorem ClassDecl.layout_paramIds (decl : ClassDecl) (position : Position) :
    ((decl.layout position).members.flatMap (·.typeParams)).map (·.id) =
      (List.range' position.param decl.paramCount).map ParamRef.mk := by
  have own :
      (decl.laid position
        (List.range' (position.member + 1) (decl.inner position).length)).typeParams =
      genericParams position.param decl.typeParams := rfl
  have fields : (decl.fields.map (·.laid position.member)).flatMap (·.typeParams) = [] := by
    rw [List.flatMap_eq_nil_iff]
    intro member laid
    obtain ⟨field, _, rfl⟩ := List.mem_map.mp laid
    rfl
  change (List.flatMap _ (decl.laid position _ :: decl.inner position)).map _ = _
  rw [List.flatMap_cons, own, ClassDecl.inner, List.flatMap_append, fields, List.nil_append,
    List.map_append, genericParams_ids, laidMethods_params,
      ClassDecl.paramCount, ← List.range'_append_1, List.map_append]

theorem layoutAll_paramIds (position : Position) (decls : List ClassDecl) :
    ((layoutAll position decls).members.flatMap (·.typeParams)).map (·.id) =
      (List.range' position.param (decls.map (·.paramCount)).sum).map ParamRef.mk := by
  induction decls generalizing position with
  | nil => rfl
  | cons decl rest ih =>
    change (List.flatMap _ ((decl.layout position).members ++ _)).map _ = _
    rw [List.flatMap_append, List.map_append, ih, decl.layout_paramIds, Position.after_layout,
      List.map_cons, List.sum_cons, ← List.range'_append_1, List.map_append]

end

namespace SourceUnit

variable (source : SourceUnit) (position : Position)

theorem declared_params :
    (source.declared position).params = (List.range' position.param source.paramCount).map
      ParamRef.mk := by
  apply Eq.trans _ (layoutAll_paramIds position source.classes)
  unfold CompilationUnit.params CompilationUnit.typeParams
  rw [← List.flatMap_def]
  rfl

theorem declared_symbols :
    (source.declared position).symbols = (List.range' position.symbol source.memberCount).toArray :=
  congrArg (fun count => (List.range' position.symbol count).toArray)
    (layoutAll_symbols_length position source.classes)

end SourceUnit

/-- What is declared when all units are: every unit has its block of symbols, records and
parameters. -/
structure Opening (config : BufferConfig) (sources : List SourceUnit)
    (state : List CompilationUnit × Program) : Prop where
  length : state.1.length = sources.length
  units : ∀ index : Nat, state.1[index]? = sources[index]?.map fun source =>
    { source.declared (SourceUnit.place sources index) with diagnostics := { config } }
  symbols : ∀ (index : Nat) (source : SourceUnit), sources[index]? = some source →
    ∀ offset < source.memberCount,
      state.2.symbols.symbols[(SourceUnit.place sources index).symbol + offset]? =
        (layoutAll (SourceUnit.place sources index) source.classes).symbols[offset]?
  records : ∀ (index : Nat) (source : SourceUnit), sources[index]? = some source →
    ∀ offset < source.memberCount,
      state.2.symbols.recordsOf ((SourceUnit.place sources index).symbol + offset) =
        (layoutAll (SourceUnit.place sources index) source.classes).records.filter
          (·.symbol == (SourceUnit.place sources index).symbol + offset)
  params : ∀ (index : Nat) (source : SourceUnit), sources[index]? = some source →
    ∀ offset < source.paramCount,
      state.2.pool.params[(SourceUnit.place sources index).param + offset]? =
        (layoutAll (SourceUnit.place sources index) source.classes).params[offset]?
  symbolCount : state.2.symbols.size = (sources.map (·.memberCount)).sum
  paramCount : state.2.pool.params.size = (sources.map (·.paramCount)).sum
  fresh : ∀ record ∈ state.2.symbols.classes, record.symbol < state.2.symbols.size
  names : state.2.symbols.classes.map (·.name) = sources.flatMap fun source =>
    source.classes.map (·.name)

namespace SourceUnit

variable {sources : List SourceUnit} {source : SourceUnit}

theorem place_append {index : Nat} (inside : index ≤ sources.length) (more : List SourceUnit) :
    place (sources ++ more) index = place sources index := by
  have start : ∀ count : SourceUnit → Nat,
      blockStart ((sources ++ more).map count) index = blockStart (sources.map count) index := by
    intro count
    unfold blockStart
    rw [List.map_append, List.take_append_of_le_length (by rwa [List.length_map])]
  unfold place
  rw [start, start]

theorem place_length (sources : List SourceUnit) :
    place sources sources.length =
      { unit := sources.length, member := 0
        symbol := (sources.map (·.memberCount)).sum
        param := (sources.map (·.paramCount)).sum } := by
  have start : ∀ count : SourceUnit → Nat,
      blockStart (sources.map count) sources.length = (sources.map count).sum := by
    intro count
    unfold blockStart
    rw [List.take_of_length_le (List.length_map _).le]
  unfold place
  rw [start, start]

/-- The block of a unit ends where all blocks end, or before. -/
theorem place_le {index : Nat} (found : sources[index]? = some source) :
    (place sources index).symbol + source.memberCount ≤ (sources.map (·.memberCount)).sum ∧
      (place sources index).param + source.paramCount ≤ (sources.map (·.paramCount)).sum := by
  have within : ∀ count : SourceUnit → Nat,
      blockStart (sources.map count) index + count source ≤ (sources.map count).sum := by
    intro count
    have next := blockStart_succ (sources.map count) index
    rw [List.getD_eq_getElem?_getD, List.getElem?_map, found] at next
    exact next ▸ blockStart_le_sum _ _
  exact ⟨within _, within _⟩

end SourceUnit

/-! What is found in a program with more declarations. -/

namespace Program

variable (program : Program) (layout : Layout)

theorem symbol_add (id : Nat) : (program.add layout).symbols.symbols[id]? =
    if id < program.symbols.size then program.symbols.symbols[id]?
    else layout.symbols[id - program.symbols.size]? := by
  change (program.symbols.symbols ++ layout.symbols.toArray)[id]? = _
  rw [Array.getElem?_append, @List.getElem?_toArray _ layout.symbols]
  rfl

theorem param_add (index : Nat) : (program.add layout).pool.params[index]? =
    if index < program.pool.params.size then program.pool.params[index]?
    else layout.params[index - program.pool.params.size]? := by
  change (program.pool.params ++ layout.params.toArray)[index]? = _
  rw [Array.getElem?_append, @List.getElem?_toArray _ layout.params]

variable {program layout}

theorem recordsOf_add
    (fresh : ∀ record ∈ program.symbols.classes, record.symbol < program.symbols.size)
    (later : ∀ record ∈ layout.records, program.symbols.size ≤ record.symbol) (id : Nat) :
    (program.add layout).symbols.recordsOf id =
      if id < program.symbols.size then program.symbols.recordsOf id
      else layout.records.filter (·.symbol == id) := by
  change List.filter _ (program.symbols.classes ++ layout.records) = _
  rw [List.filter_append]
  split
  · rename_i before
    have others : layout.records.filter (·.symbol == id) = [] := by
      rw [List.filter_eq_nil_iff]
      intro record member same
      exact absurd (beq_iff_eq.mp same ▸ later record member) (Nat.not_le.mpr before)
    rw [others, List.append_nil]
    rfl
  · rename_i behind
    have others : program.symbols.classes.filter (·.symbol == id) = [] := by
      rw [List.filter_eq_nil_iff]
      intro record member same
      exact absurd (beq_iff_eq.mp same ▸ fresh record member) behind
    rw [others, List.nil_append]

end Program

namespace Opening

variable {config : BufferConfig} {sources : List SourceUnit}
    {state : List CompilationUnit × Program}

theorem nil (config : BufferConfig) : Opening config [] ([], {}) where
  length := rfl
  units _ := rfl
  symbols _ _ found := nomatch found
  records _ _ found := nomatch found
  params _ _ found := nomatch found
  symbolCount := rfl
  paramCount := rfl
  fresh _ member := nomatch member
  names := rfl

/-- What is found in a list with one more element. -/
theorem lookup_append {α : Type} {elements : List α} {last found : α} {index : Nat}
    (there : (elements ++ [last])[index]? = some found) :
    index < elements.length ∧ elements[index]? = some found ∨ index = elements.length ∧
    found = last := by
  rw [List.getElem?_append] at there
  split at there
  · rename_i inside
    exact .inl ⟨inside, there⟩
  · obtain ⟨bound, same⟩ := List.getElem?_eq_some_iff.mp there
    rw [List.getElem_singleton] at same
    rw [List.length_singleton] at bound
    exact .inr ⟨by omega, same.symm⟩

section
variable (opening : Opening config sources state) {index offset : Nat} {source : SourceUnit}
include opening

/-- What is declared with a unit is numbered below the symbols that are declared. -/
theorem symbol_lt (there : sources[index]? = some source) (inside : offset < source.memberCount) :
    (SourceUnit.place sources index).symbol + offset < state.2.symbols.size := by
  rw [opening.symbolCount]
  exact Nat.lt_of_lt_of_le (Nat.add_lt_add_left inside _) (SourceUnit.place_le there).1

theorem param_lt (there : sources[index]? = some source) (inside : offset < source.paramCount) :
    (SourceUnit.place sources index).param + offset < state.2.pool.params.size := by
  rw [opening.paramCount]
  exact Nat.lt_of_lt_of_le (Nat.add_lt_add_left inside _) (SourceUnit.place_le there).2

end

/-- One more unit is declared behind the others. -/
theorem add (opening : Opening config sources state) (source : SourceUnit) :
    Opening config (sources ++ [source])
      (state.1 ++
        [{ (state.2.declareUnit sources.length source).1 with diagnostics := { config } }],
        (state.2.declareUnit sources.length source).2) := by
  obtain ⟨units, program⟩ := state
  have same : program.position sources.length = SourceUnit.place (sources ++ [source])
      sources.length := by
    rw [SourceUnit.place_append (Nat.le_refl _), SourceUnit.place_length, ← opening.symbolCount,
      ← opening.paramCount]
    rfl
  have old : ∀ {index : Nat}, index < sources.length →
      SourceUnit.place (sources ++ [source]) index = SourceUnit.place sources index :=
    fun inside => SourceUnit.place_append inside.le _
  rw [Program.declareUnit_eq opening.fresh]
  have fits := layoutAll_fits source.classes (program.position sources.length)
  have later := layoutAll_records_symbol (program.position sources.length) source.classes
  have past : ∀ offset, ¬ (program.position sources.length).symbol + offset <
      program.symbols.size :=
    fun _ => Nat.not_lt.mpr (Nat.le_add_right _ _)
  have pastParams : ∀ offset, ¬ (program.position sources.length).param + offset <
      program.pool.params.size :=
    fun _ => Nat.not_lt.mpr (Nat.le_add_right _ _)
  constructor
  case length =>
    rw [List.length_append, List.length_append, opening.length]
    rfl
  case units =>
    intro index
    rcases Nat.lt_trichotomy index sources.length with before | rfl | behind
    · rw [List.getElem?_append_left (opening.length.symm ▸ before),
        List.getElem?_append_left before, old before]
      exact opening.units index
    · rw [List.getElem?_append_right opening.length.le, List.getElem?_append_right (Nat.le_refl _),
        opening.length, Nat.sub_self, same]
      rfl
    · rw [List.getElem?_eq_none (by simpa [opening.length, Nat.succ_le_iff] using behind),
        List.getElem?_eq_none (by simpa [Nat.succ_le_iff] using behind)]
      rfl
  case symbols =>
    intro index other found offset inside
    rw [Program.symbol_add]
    rcases lookup_append found with ⟨before, there⟩ | ⟨rfl, rfl⟩
    · rw [old before, if_pos (opening.symbol_lt there inside)]
      exact opening.symbols index other there offset inside
    · rw [← same, if_neg (past offset)]
      exact congrArg (_[·]?) (Nat.add_sub_cancel_left _ _)
  case records =>
    intro index other found offset inside
    rw [Program.recordsOf_add opening.fresh later]
    rcases lookup_append found with ⟨before, there⟩ | ⟨rfl, rfl⟩
    · rw [old before, if_pos (opening.symbol_lt there inside)]
      exact opening.records index other there offset inside
    · rw [← same, if_neg (past offset)]
  case params =>
    intro index other found offset inside
    rw [Program.param_add]
    rcases lookup_append found with ⟨before, there⟩ | ⟨rfl, rfl⟩
    · rw [old before, if_pos (opening.param_lt there inside)]
      exact opening.params index other there offset inside
    · rw [← same, if_neg (pastParams offset)]
      exact congrArg (_[·]?) (Nat.add_sub_cancel_left _ _)
  case symbolCount =>
    have width := layoutAll_symbols_length (program.position sources.length) source.classes
    have counted := opening.symbolCount
    simp only [SymbolTable.size, Program.add, Array.size_append, List.size_toArray, List.map_append,
      List.sum_append, List.map_cons, List.map_nil, List.sum_singleton, width] at counted ⊢
    exact congrArg (· + _) counted
  case paramCount =>
    have width := layoutAll_params_length (program.position sources.length) source.classes
    have counted := opening.paramCount
    simp only [Program.add, Array.size_append, List.size_toArray, List.map_append, List.sum_append,
      List.map_cons, List.map_nil, List.sum_singleton, width] at counted ⊢
    exact congrArg (· + _) counted
  case fresh =>
    intro record member
    have size : ∀ layout, (program.add layout).symbols.size =
        program.symbols.size + layout.symbols.length := by
      simp [Program.add, SymbolTable.size]
    rw [size]
    rcases List.mem_append.mp member with before | new
    · exact Nat.lt_of_lt_of_le (opening.fresh record before) (Nat.le_add_right _ _)
    · exact (fits.records record new).1
  case names =>
    change List.map _ (program.symbols.classes ++ _) = _
    rw [List.map_append, opening.names, layoutAll_records_names, List.flatMap_append]
    simp

end Opening

/-- All units of a session are declared. -/
theorem Session.declareUnits_opening (config : SessionConfig) (sources : List SourceUnit) :
    Opening config.diagnostics sources (declareUnits { config, sources }) := by
  induction sources using List.reverseRecOn with
  | nil => exact .nil config.diagnostics
  | append_singleton earlier source ih =>
    unfold declareUnits at ih ⊢
    dsimp only at ih ⊢
    rw [List.zipIdx_append, List.foldl_append]
    simpa using ih.add source

end ClassLang
