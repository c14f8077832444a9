import ClassLang.Proofs.Linkage
import ClassLang.Proofs.Order.Opening

/-! What a declared unit looks like: its members, its symbols and the class records tell the same,
whatever units are declared before and after it. -/

namespace ClassLang

/-- The symbol is that of the member at `id` of the unit. -/
structure Symbol.StandsFor (symbol : Symbol) (unit : CompilationUnit) (id : Nat)
    (member : Member) : Prop where
  place : symbol.unit = unit.id ∧ symbol.member = id
  kind : symbol.kind = member.kind
  name : symbol.name = member.name
  access : symbol.access = member.access
  modifiers : symbol.modifiers = member.modifiers
  span : symbol.span = member.span
  arity : symbol.arity = member.params.length
  owner : symbol.owner = (member.owner.bind (unit.members.members[·]?)).map (·.name)

/-- The record is that of the class at `id`, with the symbols of what the class lists. -/
structure ClassRecord.StandsFor (record : ClassRecord) (unit : CompilationUnit) (id : Nat)
    (class_ : Member) : Prop where
  symbol : unit.symbols[id]? = some record.symbol
  name : record.name = class_.name
  order : record.order = (unit.id, id)
  typeParams : record.typeParams = class_.typeParams.map (·.id)
  members : record.members.map some = class_.members.map (unit.symbols[·]?)

namespace CompilationUnit

/-- The class at `id` lists what it owns: fields and then methods, right behind it. -/
structure ListsOwned (unit : CompilationUnit) (id : Nat) (class_ : Member) : Prop where
  behind : class_.members = List.range' (id + 1) class_.members.length
  owned : ∀ other, other ∈ class_.members ↔ ∃ member ∈ unit.members.members[other]?,
    member.owner = some id
  sorted : ∃ fields methods, class_.members = fields ++ methods ∧
    (∀ other ∈ fields, ∃ member ∈ unit.members.members[other]?, member.isField = true) ∧
    ∀ other ∈ methods, ∃ member ∈ unit.members.members[other]?, member.isMethod = true

/-- Members, symbols and records of a unit belong together. -/
structure Consistent (unit : CompilationUnit) (program : Program) : Prop where
  count : unit.symbols.size = unit.members.size
  symbols : ∀ (id : Nat) (member : Member), unit.members.members[id]? = some member →
    ∃ number symbol, unit.symbols[id]? = some number ∧
    program.symbols.symbols[number]? = some symbol ∧ symbol.StandsFor unit id member
  classes : unit.classes = (unit.members.toList.zipIdx.filter (·.1.isClass)).map (·.2)
  lists : ∀ (id : Nat) (class_ : Member), unit.members.members[id]? = some class_ →
    class_.isClass = true → unit.ListsOwned id class_ ∧ ∃ record ∈ program.symbols.classes,
      record.StandsFor unit id class_
  nested : ∀ (id : Nat) (member : Member), unit.members.members[id]? = some member →
    (member.isClass = true ↔ member.owner = none) ∧ ∀ owner ∈ member.owner, owner < id ∧
      ∃ class_ ∈ unit.members.members[owner]?, class_.isClass = true
  topLevel : ∀ (id : Nat) (member : Member), unit.members.members[id]? = some member →
    unit.members.topLevel id = .ok (member.owner.getD id)

end CompilationUnit

/-! One class. -/

namespace ClassDecl
variable {decl : ClassDecl} {there : Position} {member : Member} {index : Nat}

/-- The symbol that stands beside a member of the class. -/
theorem symbol_of_member (found : (decl.layout there).members[index]? = some member) :
    (decl.layout there).symbols[index]? =
      some (Declaration.symbolFor member (there.member + index) there.unit member.kind
      (member.owner.map fun _ => decl.name) member.params.length) := by
  cases index with
  | zero =>
    cases found
    rfl
  | succ index =>
    have owned := inner_owner (List.mem_of_getElem? found)
    simp only [layout, partialLayout, List.getElem?_cons_succ] at found ⊢
    rw [List.getElem?_map, List.getElem?_zipIdx, found, owned, Nat.add_right_comm]
    rfl

/-- In the class are its fields and then its methods. -/
theorem inner_sorted (found : (decl.inner there)[index]? = some member) :
    (index < decl.fields.length → member.isField = true) ∧
    (decl.fields.length ≤ index → member.isMethod = true) := by
  unfold inner at found
  rw [List.getElem?_append, List.length_map] at found
  split at found
  · rename_i before
    refine ⟨fun _ => ?_, fun behind => absurd before (Nat.not_lt.mpr behind)⟩
    obtain ⟨_, _, rfl⟩ := List.mem_map.mp (List.mem_of_getElem? found)
    rfl
  · rename_i behind
    refine ⟨fun before => absurd before behind, fun _ => ?_⟩
    obtain ⟨_, _, _, rfl, _⟩ := mem_laidMethods (List.mem_of_getElem? found)
    rfl

theorem inner_isClass (inner : member ∈ decl.inner there) : member.isClass = false := by
  rcases List.mem_append.mp inner with field | method
  · obtain ⟨_, _, rfl⟩ := List.mem_map.mp field
    rfl
  · obtain ⟨_, _, _, rfl, _⟩ := mem_laidMethods method
    rfl

/-- The class is the only one in its layout. -/
theorem layout_classes (decl : ClassDecl) (there : Position) : (decl.layout there).classes =
    (((decl.layout there).members.zipIdx there.member).filter (·.1.isClass)).map (·.2) := by
  have none : ((decl.inner there).zipIdx (there.member + 1)).filter (·.1.isClass) = [] :=
    List.filter_eq_nil_iff.mpr fun entry listed =>
      Bool.eq_false_iff.mp (inner_isClass (List.fst_mem_of_mem_zipIdx listed))
  change [there.member] = (List.filter _ (_ :: (decl.inner there).zipIdx (there.member + 1))).map _
  rw [List.filter_cons_of_pos rfl, none]
  rfl

end ClassDecl

/-! One unit. -/

theorem Placed.unit_eq {position there : Position} {decls : List ClassDecl} {decl : ClassDecl}
    (placed : Placed position decls decl there) : there.unit = position.unit := by
  induction placed with
  | here => rfl
  | later _ ih => exact ih

theorem layoutAll_classes (position : Position) (decls : List ClassDecl) :
    (layoutAll position decls).classes =
      (((layoutAll position decls).members.zipIdx position.member).filter (·.1.isClass)).map
        (·.2) := by
  induction decls generalizing position with
  | nil => rfl
  | cons decl rest ih =>
    change (decl.layout position).classes ++ (layoutAll _ rest).classes =
      ((((decl.layout position).members ++ (layoutAll _ rest).members).zipIdx
        position.member).filter _).map _
    rw [ih, decl.layout_classes, List.zipIdx_append, List.filter_append, List.map_append]
    rfl


namespace SourceUnit
open CompilationUnit

variable {source : SourceUnit} {position : Position} {program : Program}
    (first : position.member = 0)
  (symbols : ∀ (offset : Nat) (symbol : Symbol),
    (layoutAll position source.classes).symbols[offset]? = some symbol →
    program.symbols.symbols[position.symbol + offset]? = some symbol)
  (records : ∀ record ∈ (layoutAll position source.classes).records,
    record ∈ program.symbols.classes)
include first

/-- Every member stands in one of the classes of the unit. -/
theorem exists_site {id : Nat} {member : Member}
    (found : (source.declared position).members.members[id]? = some member) :
    ∃ decl there index, Placed position source.classes decl there ∧ id = there.member + index ∧
      (decl.layout there).members[index]? = some member := by
  obtain ⟨decl, there, index, placed, same, laid⟩ := exists_placed_at (declared_lookup ▸ found)
  exact ⟨decl, there, index, placed, by omega, laid⟩

/-- What a class lays out is in the unit, beside its symbol. -/
theorem lookup_site {decl : ClassDecl} {there : Position}
    (placed : Placed position source.classes decl there) {index : Nat}
    {member : Member} (laid : (decl.layout there).members[index]? = some member) :
    (source.declared position).members.members[there.member + index]? = some member ∧
      (source.declared position).symbols[there.member + index]? = some (there.symbol + index) := by
  obtain ⟨place, same, found⟩ := placed.lookup laid
  have equal : place = there.member + index := by omega
  subst equal
  have inside : there.member + index < source.memberCount := by
    have := (List.getElem?_eq_some_iff.mp found).1
    rwa [length_layoutAll] at this
  refine ⟨declared_lookup.trans found, ?_⟩
  have := placed.position_le.2.2
  rw [declared_symbols, List.getElem?_toArray, List.getElem?_range' inside]
  exact congrArg some (by omega)

/-- The symbol number of a member is its place in the unit, behind the symbols that were there. -/
theorem symbol_site {decl : ClassDecl} {there : Position}
    (placed : Placed position source.classes decl there) :
    there.symbol = position.symbol + there.member := by
  have := placed.position_le.2.2
  omega

/-- A member stands in a class, or it is one. -/
theorem declared_nested {id : Nat} {member : Member}
    (found : (source.declared position).members.members[id]? = some member) :
    (member.isClass = true ↔ member.owner = none) ∧ ∀ owner ∈ member.owner, owner < id ∧
      ∃ class_ ∈ (source.declared position).members.members[owner]?, class_.isClass = true ∧
      class_.owner = none := by
  obtain ⟨decl, there, index, placed, rfl, laid⟩ := exists_site first found
  obtain ⟨rfl, members, rfl⟩ | ⟨behind, inner⟩ := ClassDecl.layout_cases laid
  · exact ⟨iff_of_true rfl rfl, nofun⟩
  · have owned := ClassDecl.inner_owner inner
    refine ⟨iff_of_false (by simp [ClassDecl.inner_isClass inner]) (by simp [owned]),
      fun owner same => ?_⟩
    cases owned.symm.trans same
    obtain ⟨members, class_⟩ := declared_class first placed
    exact ⟨Nat.lt_add_of_pos_right behind, _, class_, rfl, rfl⟩

theorem declared_topLevel {id : Nat} {member : Member}
    (found : (source.declared position).members.members[id]? = some member) :
    (source.declared position).members.topLevel id = .ok (member.owner.getD id) := by
  have inside : id < (source.declared position).members.size :=
    (Array.getElem?_eq_some_iff.mp found).1
  obtain ⟨size, same⟩ := Nat.exists_eq_succ_of_ne_zero (Nat.ne_of_gt (Nat.zero_lt_of_lt inside))
  unfold MemberArena.topLevel
  rw [same, MemberArena.topLevelWithin, MemberArena.get, found, ok_bind]
  cases owned : member.owner with
  | none => rfl
  | some owner =>
    obtain ⟨_, class_, present, _, outer⟩ := (declared_nested first found).2 owner owned
    dsimp only
    rw [MemberArena.topLevelWithin, MemberArena.get, present, ok_bind, outer]
    rfl

/-- Two classes of a unit do not begin at the same member. -/
theorem same_site {decl other : ClassDecl} {there place : Position}
    (placed : Placed position source.classes decl there)
    (also : Placed position source.classes other place) (same : there.member = place.member) :
    decl = other ∧ there = place := by
  have width (decl : ClassDecl) (there : Position) :
      there.symbol < (there.after (decl.layout there)).symbol :=
    Nat.lt_add_of_pos_right (by simp [ClassDecl.layout, ClassDecl.partialLayout])
  have agree := symbol_site first placed
  have there' := symbol_site first also
  have := width decl there
  have := width other place
  rcases placed.same_or_behind also with equal | ⟨before, _⟩ | ⟨before, _⟩
  · exact equal
  · omega
  · omega

/-- What is owned by a class is listed by it. -/
theorem mem_members_iff {decl : ClassDecl} {there : Position}
    (placed : Placed position source.classes decl there) (id : Nat) :
    id ∈ List.range' (there.member + 1) (decl.inner there).length ↔
      ∃ member ∈ (source.declared position).members.members[id]?,
        member.owner = some there.member := by
  rw [List.mem_range'_1]
  constructor
  · rintro ⟨behind, inside⟩
    obtain ⟨index, rfl⟩ := Nat.exists_eq_add_of_le behind
    have below : index < (decl.inner there).length := by omega
    have laid : (decl.layout there).members[index + 1]? = some (decl.inner there)[index] :=
      List.getElem?_eq_getElem below
    rw [Nat.add_assoc, Nat.add_comm 1]
    exact ⟨_, (lookup_site first placed laid).1, ClassDecl.inner_owner (List.getElem_mem below)⟩
  · rintro ⟨member, found, owned⟩
    obtain ⟨other, place, index, also, rfl, laid⟩ := exists_site first found
    obtain ⟨rfl, rfl⟩ := same_site first placed also
      ((ClassDecl.lays (List.mem_of_getElem? laid)).owner _ owned)
    obtain ⟨rfl, members, rfl⟩ | ⟨behind, inner⟩ := ClassDecl.layout_cases laid
    · cases owned
    · have below : index < (decl.inner there).length + 1 := (List.getElem?_eq_some_iff.mp laid).1
      omega

theorem inner_lookup {decl : ClassDecl} {there : Position}
    (placed : Placed position source.classes decl there) {id : Nat}
    (behind : there.member + 1 ≤ id) (inside : id < there.member + 1 + (decl.inner there).length) :
    ∃ member ∈ (source.declared position).members.members[id]?,
      (id < there.member + 1 + decl.fields.length → member.isField = true) ∧
        (there.member + 1 + decl.fields.length ≤ id → member.isMethod = true) := by
  obtain ⟨index, rfl⟩ := Nat.exists_eq_add_of_le behind
  have below : index < (decl.inner there).length := by omega
  have laid : (decl.layout there).members[index + 1]? = some (decl.inner there)[index] :=
    List.getElem?_eq_getElem below
  obtain ⟨fields, methods⟩ := ClassDecl.inner_sorted (List.getElem?_eq_getElem below)
  rw [Nat.add_lt_add_iff_left, Nat.add_le_add_iff_left, Nat.add_assoc, Nat.add_comm 1]
  exact ⟨_, (lookup_site first placed laid).1, fields, methods⟩

theorem declared_owns {id : Nat} {class_ : Member}
    (found : (source.declared position).members.members[id]? = some class_)
    (isClass : class_.isClass = true) : (source.declared position).ListsOwned id class_ := by
  obtain ⟨decl, there, index, placed, rfl, laid⟩ := exists_site first found
  cases index with
  | zero =>
    cases laid
    have count : (decl.inner there).length = decl.fields.length + decl.methods.length := by
      simp [ClassDecl.inner]
    refine ⟨by simp [ClassDecl.laid, Member.members], mem_members_iff first placed,
      List.range' (there.member + 1) decl.fields.length,
      List.range' (there.member + 1 + decl.fields.length) decl.methods.length, ?_,
        fun id listed => ?_, fun id listed => ?_⟩
    · rw [List.range'_append_1, ← count]
      rfl
    · obtain ⟨behind, inside⟩ := List.mem_range'_1.mp listed
      obtain ⟨member, present, field, _⟩ := inner_lookup first placed behind (by omega)
      exact ⟨member, present, field inside⟩
    · obtain ⟨behind, inside⟩ := List.mem_range'_1.mp listed
      obtain ⟨member, present, _, method⟩ :=
        inner_lookup first placed (Nat.le_trans (Nat.le_add_right _ _) behind) (by omega)
      exact ⟨member, present, method behind⟩
  | succ index =>
    rw [ClassDecl.inner_isClass
      (List.mem_of_getElem? (laid : (decl.inner there)[index]? = some class_))] at isClass
    cases isClass

/-- The record that a class is published with. -/
theorem record_stands {decl : ClassDecl} {there : Position}
    (placed : Placed position source.classes decl there) {record : ClassRecord}
    (listed : record ∈ (decl.layout there).records) {class_ : Member}
    (found : (source.declared position).members.members[there.member]? = some class_) :
    record.StandsFor (source.declared position) there.member class_ := by
  cases List.mem_singleton.mp listed
  obtain ⟨stored, numbered⟩ := @lookup_site _ _ first _ _ placed 0 _ rfl
  cases found.symm.trans stored
  refine ⟨numbered, rfl, congrArg (·, there.member) placed.unit_eq, rfl, ?_⟩
  change (List.range' (there.symbol + 1) _).map some = (List.range' (there.member + 1) _).map _
  rw [List.range'_eq_map_range, List.range'_eq_map_range, List.map_map, List.map_map]
  refine List.map_congr_left fun index listed => ?_
  have laid : (decl.layout there).members[index + 1]? = some _ :=
    List.getElem?_eq_getElem (List.mem_range.mp listed)
  have numbered := (lookup_site first placed laid).2
  rw [Nat.add_comm index, ← Nat.add_assoc, ← Nat.add_assoc] at numbered
  exact numbered.symm

theorem exists_record {id : Nat} {class_ : Member}
    (found : (source.declared position).members.members[id]? = some class_)
    (isClass : class_.isClass = true) : ∃ record ∈ (layoutAll position source.classes).records,
      record.StandsFor (source.declared position) id class_ := by
  obtain ⟨decl, there, index, placed, rfl, laid⟩ := exists_site first found
  cases index with
  | zero =>
    obtain ⟨before, behind, same, -⟩ := placed.split
    refine ⟨_, ?_, record_stands first placed (List.mem_singleton_self _) found⟩
    rw [same]
    exact List.mem_append_left _ (List.mem_append_right _ (List.mem_singleton_self _))
  | succ index =>
    rw [ClassDecl.inner_isClass
      (List.mem_of_getElem? (laid : (decl.inner there)[index]? = some class_))] at isClass
    cases isClass

/-- No other record has the symbol of a class. -/
theorem stands_of_symbol {record : ClassRecord}
    (listed : record ∈ (layoutAll position source.classes).records) {id : Nat}
    {class_ : Member} (found : (source.declared position).members.members[id]? = some class_)
    (symbol : (source.declared position).symbols[id]? = some record.symbol) :
    record.StandsFor (source.declared position) id class_ := by
  obtain ⟨decl, there, placed, own⟩ := exists_placed_record listed
  have same : id = there.member := by
    have equal : record.symbol = there.symbol := by
      cases List.mem_singleton.mp own
      rfl
    rw [declared_symbols, List.getElem?_toArray] at symbol
    obtain ⟨inside, symbol⟩ := List.getElem?_eq_some_iff.mp symbol
    rw [List.getElem_range', equal, symbol_site first placed] at symbol
    omega
  subst same
  exact record_stands first placed own found

include symbols in
theorem declared_symbol {id : Nat} {member : Member}
    (found : (source.declared position).members.members[id]? = some member) :
    ∃ number symbol, (source.declared position).symbols[id]? = some number ∧
      program.symbols.symbols[number]? = some symbol ∧
      symbol.StandsFor (source.declared position) id member := by
  obtain ⟨decl, there, index, placed, rfl, laid⟩ := exists_site first found
  have published := ClassDecl.symbol_of_member laid
  obtain ⟨place, same, listed⟩ := placed.lookup_symbol published
  refine ⟨_, _, (lookup_site first placed laid).2, same ▸ symbols place _ listed, ?_⟩
  refine ⟨⟨placed.unit_eq, rfl⟩, rfl, rfl, rfl, rfl, rfl, rfl, ?_⟩
  cases owned : member.owner with
  | none => simp [Declaration.symbolFor]
  | some owner =>
    obtain ⟨members, class_⟩ := declared_class first placed
    rw [(ClassDecl.lays (List.mem_of_getElem? laid)).owner owner owned, Option.bind_some, class_]
    rfl

include symbols records in
/-- Nothing of a declared unit is missing from the program, and nothing disagrees. -/
theorem declared_consistent : (source.declared position).Consistent program where
  count := by
    rw [declared_symbols]
    simp [SourceUnit.declared, MemberArena.size, length_layoutAll, SourceUnit.memberCount]
  symbols _ _ found := declared_symbol first symbols found
  classes := by
    have laid := layoutAll_classes position source.classes
    rwa [first] at laid
  lists _ _ found isClass := by
    obtain ⟨record, listed, stands⟩ := exists_record first found isClass
    exact ⟨declared_owns first found isClass, record, records record listed, stands⟩
  nested _ _ found := by
    obtain ⟨outer, inner⟩ := declared_nested first found
    refine ⟨outer, fun owner owned => ?_⟩
    obtain ⟨before, class_, present, isClass, -⟩ := inner owner owned
    exact ⟨before, class_, present, isClass⟩
  topLevel _ _ found := declared_topLevel first found

end SourceUnit

/-! One unit after the other. -/

namespace Program

/-- Declare units, each with the number that it is given. -/
def declareAll (program : Program) : List (Nat × SourceUnit) → List CompilationUnit × Program
  | [] => ([], program)
  | (id, source) :: calls =>
    let (unit, between) := program.declareUnit id source
    let (units, final) := between.declareAll calls
    (unit :: units, final)

/-- What was published stands where it was. -/
structure Keeps (before after : Program) : Prop where
  types : after.pool.types = before.pool.types
  params : before.pool.params.toList <+: after.pool.params.toList
  symbols : before.symbols.symbols.toList <+: after.symbols.symbols.toList
  classes : before.symbols.classes <+: after.symbols.classes

/-- The classes of the table are those of some of its symbols. -/
def Fresh (program : Program) : Prop := ∀ record ∈ program.symbols.classes,
    record.symbol < program.symbols.size

theorem Keeps.refl (program : Program) : program.Keeps program :=
  ⟨rfl, List.prefix_refl _, List.prefix_refl _, List.prefix_refl _⟩

theorem Keeps.trans {first second third : Program} (earlier : first.Keeps second)
    (later : second.Keeps third) :
    first.Keeps third :=
  ⟨later.types.trans earlier.types, earlier.params.trans later.params,
    earlier.symbols.trans later.symbols, earlier.classes.trans later.classes⟩

theorem keeps_add (program : Program) (layout : Layout) : program.Keeps (program.add layout) :=
  ⟨rfl, by simp [add], by simp [add], List.prefix_append _ _⟩

theorem Keeps.symbol {before after : Program} (kept : before.Keeps after) {number : Nat}
    {symbol : Symbol} (found : before.symbols.symbols[number]? = some symbol) :
    after.symbols.symbols[number]? = some symbol := by
  rw [← Array.getElem?_toList] at found ⊢
  obtain ⟨added, same⟩ := kept.symbols
  rw [← same, List.getElem?_append_left (List.getElem?_eq_some_iff.mp found).1, found]

end Program

theorem CompilationUnit.Consistent.keep {unit : CompilationUnit} {before after : Program}
    (consistent : unit.Consistent before) (kept : before.Keeps after) : unit.Consistent after where
  count := consistent.count
  symbols id member found := by
    obtain ⟨number, symbol, noted, stored, stands⟩ := consistent.symbols id member found
    exact ⟨number, symbol, noted, kept.symbol stored, stands⟩
  classes := consistent.classes
  lists id class_ found isClass := by
    obtain ⟨owns, record, listed, stands⟩ := consistent.lists id class_ found isClass
    exact ⟨owns, record, kept.classes.subset listed, stands⟩
  nested := consistent.nested
  topLevel := consistent.topLevel

namespace Program
variable {program : Program}

/-- What declaring one unit adds. -/
structure Adds (program : Program) (id : Nat) (source : SourceUnit) (unit : CompilationUnit)
    (after : Program) : Prop where
  name : unit.id = id ∧ unit.name = source.name
  consistent : unit.Consistent after
  symbols : unit.symbols.toList = List.range' program.symbols.size source.memberCount
  params : unit.params = (List.range' program.pool.params.size source.paramCount).map ParamRef.mk
  sizes : after.symbols.size = program.symbols.size + source.memberCount ∧
    after.pool.params.size = program.pool.params.size + source.paramCount
  keeps : program.Keeps after
  fresh : after.Fresh

theorem declareUnit_adds (fresh : program.Fresh) (id : Nat) (source : SourceUnit) :
    program.Adds id source (program.declareUnit id source).1 (program.declareUnit id source).2 := by
  rw [declareUnit_eq fresh]
  have sizes : (program.add (layoutAll (program.position id) source.classes)).symbols.size =
      program.symbols.size + source.memberCount ∧
        (program.add (layoutAll (program.position id) source.classes)).pool.params.size =
          program.pool.params.size + source.paramCount := by
    simp only [add, SymbolTable.size, Array.size_append, List.size_toArray,
      layoutAll_symbols_length, layoutAll_params_length]
    exact ⟨rfl, rfl⟩
  refine ⟨⟨rfl, rfl⟩, ?_, ?_, source.declared_params _, sizes, keeps_add _ _, ?_⟩
  · refine SourceUnit.declared_consistent rfl (fun offset symbol found => ?_) fun record =>
      List.mem_append_right _
    change (program.symbols.symbols ++
      (layoutAll (program.position id) source.classes).symbols.toArray)[
      program.symbols.symbols.size + offset]? = _
    rw [Array.getElem?_append_right (Nat.le_add_right _ _), Nat.add_sub_cancel_left,
      List.getElem?_toArray, found]
  · rw [source.declared_symbols]
    rfl
  · intro record listed
    rcases List.mem_append.mp listed with old | new
    · exact Nat.lt_of_lt_of_le (fresh record old) (sizes.1 ▸ Nat.le_add_right _ _)
    · have := ((layoutAll_fits source.classes (program.position id)).records record new).1
      simp only [Position.after, layoutAll_symbols_length] at this
      exact Nat.lt_of_lt_of_eq this sizes.1.symm

theorem declareAll_cons (program : Program) (id : Nat) (source : SourceUnit)
    (calls : List (Nat × SourceUnit)) : program.declareAll ((id, source) :: calls) =
      ((program.declareUnit id source).1 :: ((program.declareUnit id source).2.declareAll calls).1,
        ((program.declareUnit id source).2.declareAll calls).2) := rfl

/-- Symbols and type parameters are numbered on, unit after unit. -/
theorem declareAll_adds (fresh : program.Fresh) (calls : List (Nat × SourceUnit)) :
    List.Forall₂ (fun call unit => unit.id = call.1 ∧ unit.name = call.2.name ∧
      unit.Consistent (program.declareAll calls).2) calls (program.declareAll calls).1 ∧
    (∃ count, (program.declareAll calls).1.flatMap (·.symbols.toList) =
      List.range' program.symbols.size count ∧
      (program.declareAll calls).2.symbols.size = program.symbols.size + count) ∧
    (∃ count, (program.declareAll calls).1.flatMap (·.params) =
        (List.range' program.pool.params.size count).map ParamRef.mk ∧
      (program.declareAll calls).2.pool.params.size = program.pool.params.size + count) ∧
    program.Keeps (program.declareAll calls).2 := by
  induction calls generalizing program with
  | nil => exact ⟨.nil, ⟨0, rfl, rfl⟩, ⟨0, rfl, rfl⟩, .refl program⟩
  | cons call calls ih =>
    obtain ⟨id, source⟩ := call
    have adds := declareUnit_adds fresh id source
    obtain ⟨consistent, ⟨symbolCount, symbols, size⟩, ⟨paramCount, params, paramSize⟩, kept⟩ :=
      ih adds.fresh
    rw [declareAll_cons]
    refine ⟨.cons ⟨adds.name.1, adds.name.2, adds.consistent.keep kept⟩ consistent,
      ⟨source.memberCount + symbolCount, ?_, ?_⟩, ⟨source.paramCount + paramCount, ?_, ?_⟩,
        adds.keeps.trans kept⟩
    · rw [List.flatMap_cons, adds.symbols, symbols, adds.sizes.1, List.range'_append_1]
    · rw [size, adds.sizes.1, Nat.add_assoc]
    · rw [List.flatMap_cons, adds.params, params, adds.sizes.2, ← List.map_append,
        List.range'_append_1]
    · rw [paramSize, adds.sizes.2, Nat.add_assoc]

/-- However many units are declared, each of them is consistent with the program in the end. Their
members have one symbol each, numbered on from those of the program, their type parameters are all
different from each other and from earlier ones, and what was published before stands where it
was. -/
theorem declareAll_consistent (fresh : program.Fresh) (calls : List (Nat × SourceUnit))
    {units : List CompilationUnit} {final : Program}
    (declared : program.declareAll calls = (units, final)) :
    List.Forall₂ (fun call unit => unit.id = call.1 ∧ unit.name = call.2.name ∧
      unit.Consistent final) calls units ∧
    (∃ count, units.flatMap (·.symbols.toList) = List.range' program.symbols.size count ∧
      final.symbols.size = program.symbols.size + count) ∧
    (units.flatMap (·.params)).Nodup ∧
    (∀ param ∈ units.flatMap (·.params), program.pool.params.size ≤ param.raw ∧
      param.raw < final.pool.params.size) ∧
    program.Keeps final := by
  have adds := declareAll_adds fresh calls
  rw [declared] at adds
  obtain ⟨consistent, symbols, ⟨count, params, size⟩, kept⟩ := adds
  refine ⟨consistent, symbols, ?_, fun param listed => ?_, kept⟩
  · rw [params]
    exact List.Nodup.map (fun _ _ same => ParamRef.mk.inj same) List.nodup_range'
  · rw [params] at listed
    obtain ⟨raw, inside, rfl⟩ := List.mem_map.mp listed
    exact size ▸ List.mem_range'_1.mp inside

/-- A generic class with a field and a generic method, and an interface. -/
def lidUnit : SourceUnit where
  name := "lid"
  classes := [
    { name := "Box", typeParams := [{ name := "T", span := ⟨0, 1⟩ }], span := ⟨2, 5⟩
      fields := [{ name := "item", type := .named "T" [] ⟨6, 7⟩, span := ⟨8, 12⟩ }]
      methods := [
        { name := "swap", typeParams := [{ name := "U", span := ⟨13, 14⟩ }]
          params := [{ name := "other", type := .named "U" [] ⟨15, 16⟩, span := ⟨17, 22⟩ }]
          returns := .named "U" [] ⟨23, 24⟩, span := ⟨25, 29⟩ }] },
    { name := "Lid", modifiers := { isInterface := true }, span := ⟨30, 33⟩
      methods := [{ name := "lift", returns := .named "void" [] ⟨34, 38⟩, span := ⟨39, 43⟩ }] }]

/-- The unit is declared twice with one number: each time it has symbols and type parameters of its
own. -/
theorem declareAll_consistent_twice : ({} : Program).Fresh ∧
    ∃ first second final, ({} : Program).declareAll [(0, lidUnit), (0, lidUnit)] =
      ([first, second], final) ∧
      first.Consistent final ∧ second.Consistent final ∧ first.symbols = #[0, 1, 2, 3, 4] ∧
        second.symbols = #[5, 6, 7, 8, 9] ∧
      (first.params ++ second.params).Nodup ∧ first.params = [⟨0⟩, ⟨1⟩] ∧
        ({} : Program).Keeps final := by
  have fresh : ({} : Program).Fresh := by simp [Fresh]
  have numbers : (({} : Program).declareUnit 0 lidUnit).1.symbols = #[0, 1, 2, 3, 4] ∧
      (({} : Program).declareUnit 0 lidUnit).1.params = [⟨0⟩, ⟨1⟩] ∧
      ((({} : Program).declareUnit 0 lidUnit).2.declareUnit 0 lidUnit).1.symbols =
        #[5, 6, 7, 8, 9] := by
    decide +kernel
  obtain ⟨⟨first, between⟩, earlier⟩ : ∃ made, ({} : Program).declareUnit 0 lidUnit = made :=
    ⟨_, rfl⟩
  obtain ⟨⟨second, final⟩, later⟩ : ∃ made, between.declareUnit 0 lidUnit = made := ⟨_, rfl⟩
  rw [earlier] at numbers
  dsimp only at numbers
  rw [later] at numbers
  have declared : ({} : Program).declareAll [(0, lidUnit), (0, lidUnit)] =
      ([first, second], final) := by
    rw [declareAll_cons, earlier, declareAll_cons, later, declareAll]
  obtain ⟨consistent, -, distinct, -, kept⟩ := declareAll_consistent fresh _ declared
  rcases consistent with - | ⟨⟨-, -, former⟩, - | ⟨⟨-, -, latter⟩, -⟩⟩
  exact ⟨fresh, first, second, final, declared, former, latter, numbers.1,
    numbers.2.2, by simpa using distinct, numbers.2.1, kept⟩

end Program
end ClassLang
