import ClassLang.Proofs.Layout
import ClassLang.Proofs.Stage.Scope
import ClassLang.Session

/-! The units of a session share one table. Each class takes up symbols and parameters of its own
there, so that they tell the class, its unit and the member. -/

namespace ClassLang

/-! Inside one class. -/

namespace ClassDecl
variable {decl : ClassDecl} {there : Position} {member rival : Member} {param : ParamRef}
    {index : Nat}

/-- Fields and methods stand in their class. -/
theorem inner_owner (laid : member ∈ decl.inner there) : member.owner = some there.member := by
  rcases List.mem_append.mp laid with field | method
  · obtain ⟨_, _, rfl⟩ := List.mem_map.mp field
    rfl
  · obtain ⟨_, _, _, rfl, _⟩ := mem_laidMethods method
    rfl

/-- The parameters of fields and methods are behind those of the class. -/
theorem inner_params (laid : member ∈ decl.inner there) (own : param ∈ member.ownParams) :
    there.param + decl.typeParams.length ≤ param.raw ∧
      member ∈ laidMethods there.member decl.modifiers.isInterface
        (there.param + decl.typeParams.length) decl.methods := by
  rcases List.mem_append.mp laid with field | method
  · obtain ⟨_, _, rfl⟩ := List.mem_map.mp field
    cases own
  · refine ⟨?_, method⟩
    obtain ⟨_, _, _, rfl, behind, _⟩ := mem_laidMethods method
    obtain ⟨generic, listed, rfl⟩ := List.mem_map.mp own
    exact Nat.le_trans behind (mem_genericParams_lt listed).1

/-- The class comes first, then its fields and methods. -/
theorem layout_cases (found : (decl.layout there).members[index]? = some member) :
    (index = 0 ∧ ∃ members, member = decl.laid there members) ∨ 0 < index ∧
    member ∈ decl.inner there := by
  cases index with
  | zero => exact .inl ⟨rfl, _, (Option.some.inj found).symm⟩
  | succ index => exact .inr ⟨Nat.succ_pos _, List.mem_of_getElem? found⟩

theorem layout_params (laid : member ∈ (decl.layout there).members)
    (own : param ∈ member.ownParams) :
    there.param ≤ param.raw ∧ param.raw < (there.after (decl.layout there)).param := by
  obtain ⟨generic, listed, rfl⟩ := List.mem_map.mp own
  refine ⟨?_, (lays laid).params generic listed⟩
  rcases List.mem_cons.mp laid with rfl | inner
  · exact (mem_genericParams_lt listed).1
  · exact Nat.le_trans (Nat.le_add_right _ _) (inner_params inner own).1

/-- Members of a class that share a parameter are the same. -/
theorem layout_single (laid : member ∈ (decl.layout there).members)
    (also : rival ∈ (decl.layout there).members) (own : param ∈ member.ownParams)
    (shared : param ∈ rival.ownParams) : member = rival := by
  have outer {members : List Nat} (own : param ∈ (decl.laid there members).ownParams) :
      param.raw < there.param + decl.typeParams.length := by
    obtain ⟨generic, listed, rfl⟩ := List.mem_map.mp own
    exact (mem_genericParams_lt listed).2
  rcases List.mem_cons.mp laid with rfl | inner <;>
    rcases List.mem_cons.mp also with rfl | alsoInner
  · rfl
  · exact absurd (outer own) (Nat.not_lt.mpr (inner_params alsoInner shared).1)
  · exact absurd (outer shared) (Nat.not_lt.mpr (inner_params inner own).1)
  · exact laidMethods_single (inner_params inner own).2 (inner_params alsoInner shared).2 own shared

/-- The symbol of a member is of its kind and has as many parameters. -/
theorem layout_symbol {symbol : Symbol} (found : (decl.layout there).members[index]? = some member)
    (published : (decl.layout there).symbols[index]? = some symbol) :
    symbol.kind = member.kind ∧ symbol.arity = member.params.length := by
  cases index with
  | zero =>
    cases found
    cases published
    exact ⟨rfl, rfl⟩
  | succ index =>
    simp only [layout, partialLayout, List.getElem?_cons_succ] at found published
    simp only [List.getElem?_map, List.getElem?_zipIdx, found, Option.map_some] at published
    cases published
    exact ⟨rfl, rfl⟩

end ClassDecl

theorem Member.typeParams_field {member : Member} (field : member.kind = .field) :
    member.typeParams = [] := by
  cases detail : member.detail <;> simp [Member.kind, Member.typeParams, detail] at field ⊢

/-! Classes of one unit and of several. -/

/-- A class of a unit, with the position it is laid out at. -/
structure ClassSite where
  unit : CompilationUnit
  decl : ClassDecl
  there : Position

namespace ClassSite

def layout (site : ClassSite) : Layout := site.decl.layout site.there

/-- The position behind what the class takes up. -/
def behind (site : ClassSite) : Position := site.there.after site.layout

/-- What the first class takes up comes before what the second does. -/
structure Before (first second : ClassSite) : Prop where
  symbol : first.behind.symbol ≤ second.there.symbol
  param : first.behind.param ≤ second.there.param

end ClassSite

/-- The units are laid out in the program, with the classes at some sites. -/
structure Assembled (program : Program) (units : List CompilationUnit)
    (sites : ClassSite → Prop) : Prop where
  inside : ∀ site, sites site → site.unit ∈ units
  members : ∀ unit ∈ units, ∀ (id : Nat) (member : Member),
    unit.members.members[id]? = some member → ∃ site index, sites site ∧ site.unit = unit ∧
    id = site.there.member + index ∧
      site.layout.members[index]? = some member
  records : ∀ record ∈ program.symbols.classes, ∃ site, sites site ∧ record ∈ site.layout.records
  lookup : ∀ site, sites site → ∀ (index : Nat) (member : Member),
    site.layout.members[index]? = some member →
    site.unit.members.members[site.there.member + index]? = some member ∧
      site.unit.symbols[site.there.member + index]? = some (site.there.symbol + index)
  symbols : ∀ site, sites site → ∀ (index : Nat) (symbol : Symbol),
    site.layout.symbols[index]? = some symbol →
    program.symbols.symbols[site.there.symbol + index]? = some symbol
  bounded : ∀ site, sites site → site.behind.symbol ≤ program.symbols.size ∧
    site.behind.param ≤ program.pool.params.size
  apart : ∀ first second, sites first → sites second → first = second ∨ first.Before second ∨
    second.Before first
  unpublished : ∀ symbol ∈ program.symbols.symbols, symbol.signature = none
  untyped : ∀ unit ∈ units, unit.exprTypes = {}

namespace Assembled
variable {program : Program} {units : List CompilationUnit} {sites : ClassSite → Prop}
  (assembled : Assembled program units sites) {first second : ClassSite}
include assembled

/-- A symbol tells its class. -/
theorem same_of_symbol {symbol : Nat} (holds : sites first) (other : sites second)
    (inFirst : first.there.symbol ≤ symbol ∧ symbol < first.behind.symbol)
    (inSecond : second.there.symbol ≤ symbol ∧ symbol < second.behind.symbol) : first = second := by
  rcases assembled.apart first second holds other with same | before | before
  · exact same
  · have := before.symbol
    omega
  · have := before.symbol
    omega

/-- A parameter tells its class. -/
theorem same_of_param {param : ParamRef} (holds : sites first) (other : sites second)
    (inFirst : first.there.param ≤ param.raw ∧ param.raw < first.behind.param)
    (inSecond : second.there.param ≤ param.raw ∧ param.raw < second.behind.param) :
    first = second := by
  rcases assembled.apart first second holds other with same | before | before
  · exact same
  · have := before.param
    omega
  · have := before.param
    omega

/-- The member with a symbol of a class is one of the class, at the place of the symbol. -/
theorem member_of_symbol {site : ClassSite} (there : sites site) {offset : Nat}
    (inside : offset < site.layout.symbols.length) {unit : CompilationUnit} (listed : unit ∈ units)
    {id : Nat} {member : Member} (declared : unit.symbols[id]? = some (site.there.symbol + offset))
    (found : unit.members.members[id]? = some member) :
    unit = site.unit ∧ site.layout.members[offset]? = some member := by
  obtain ⟨other, index, also, rfl, rfl, laid⟩ := assembled.members unit listed id member found
  have stored := (assembled.lookup other also index member laid).2
  have symbol : other.there.symbol + index = site.there.symbol + offset :=
    Option.some.inj (stored.symm.trans declared)
  have below : index < other.layout.symbols.length := by
    rw [ClassSite.layout, (other.decl.layout_fits other.there).members]
    exact (List.getElem?_eq_some_iff.mp laid).1
  have inOther : other.there.symbol ≤ other.there.symbol + index ∧
      other.there.symbol + index < other.behind.symbol :=
    ⟨Nat.le_add_right _ _, Nat.add_lt_add_left below _⟩
  have inSite : site.there.symbol ≤ other.there.symbol + index ∧
      other.there.symbol + index < site.behind.symbol :=
    symbol.symm ▸ ⟨Nat.le_add_right _ _, Nat.add_lt_add_left inside _⟩
  have same := assembled.same_of_symbol also there inOther inSite
  subst same
  exact ⟨rfl, Nat.add_left_cancel symbol ▸ laid⟩

/-- The member that a symbol of a unit is for stands at the same place of the same class. -/
theorem exists_layout {unit : CompilationUnit} (listed : unit ∈ units) {id number : Nat}
    {member : Member} {symbol : Symbol} (found : unit.members.members[id]? = some member)
    (declared : unit.symbols[id]? = some number)
    (published : program.symbols.symbols[number]? = some symbol) :
    ∃ site : ClassSite, ∃ index : Nat, site.layout.members[index]? = some member ∧
      site.layout.symbols[index]? = some symbol := by
  obtain ⟨site, index, there, rfl, rfl, laid⟩ := assembled.members unit listed id member found
  cases (assembled.lookup site there index member laid).2.symm.trans declared
  have below : index < site.layout.symbols.length := by
    rw [ClassSite.layout, (site.decl.layout_fits site.there).members]
    exact (List.getElem?_eq_some_iff.mp laid).1
  have own := List.getElem?_eq_getElem below
  cases (assembled.symbols site there index _ own).symm.trans published
  exact ⟨site, index, laid, own⟩

/-- The class that a member of a site stands in is the one of the site. -/
theorem class_of_site {site : ClassSite} (there : sites site) :
    ∃ members, site.unit.members.members[site.there.member]? =
      some (site.decl.laid site.there members) :=
  ⟨_, (assembled.lookup site there 0 _ rfl).1⟩

/-- What is in scope of a field or method besides its own parameters are those of its class. -/
theorem outerParams_eq {site : ClassSite} (there : sites site) {member : Member}
    (inner : member ∈ site.decl.inner site.there) :
    site.unit.outerParams member = genericParams site.there.param site.decl.typeParams := by
  obtain ⟨members, class_⟩ := assembled.class_of_site there
  unfold CompilationUnit.outerParams
  rw [ClassDecl.inner_owner inner, Option.bind_some, class_]
  rfl

theorem linked : Linked program.symbols units := by
  have width (site : ClassSite) :
      site.layout.symbols.length = (site.decl.inner site.there).length + 1 := by
    simp [ClassSite.layout, ClassDecl.layout, ClassDecl.partialLayout]
  constructor
  case nested =>
    intro unit listed id member found owner owned
    obtain ⟨site, index, there, rfl, rfl, laid⟩ := assembled.members unit listed id member found
    obtain ⟨members, class_⟩ := assembled.class_of_site there
    rw [(ClassDecl.lays (List.mem_of_getElem? laid)).owner owner owned]
    exact ⟨_, class_, rfl⟩
  case own =>
    intro record inside unit listed id member declared found
    obtain ⟨site, there, recorded⟩ := assembled.records record inside
    cases List.mem_singleton.mp recorded
    obtain ⟨rfl, laid⟩ := @member_of_symbol _ _ _ assembled site there 0 (by simp [width]) unit
      listed id member declared found
    obtain ⟨_, members, rfl⟩ | ⟨impossible, _⟩ := ClassDecl.layout_cases laid
    · exact ⟨rfl, rfl⟩
    · cases impossible
  case inner =>
    intro record inside symbol inRecord unit listed id member declared found
    obtain ⟨site, there, recorded⟩ := assembled.records record inside
    cases List.mem_singleton.mp recorded
    obtain ⟨lower, upper⟩ := List.mem_range'_1.mp inRecord
    obtain ⟨offset, rfl⟩ := Nat.exists_eq_add_of_le lower
    rw [Nat.add_assoc] at declared
    obtain ⟨rfl, laid⟩ := assembled.member_of_symbol there (by rw [width]; omega) listed
      declared found
    obtain ⟨impossible, _⟩ | ⟨_, inner⟩ := ClassDecl.layout_cases laid
    · omega
    · rw [assembled.outerParams_eq there inner]
  case fields =>
    intro unit listed id symbol member entry declared found published kind
    obtain ⟨site, index, laid, own⟩ := assembled.exists_layout listed found declared published
    exact Member.typeParams_field ((ClassDecl.layout_symbol laid own).1.symm.trans kind)
  case declaring =>
    intro record inside
    obtain ⟨site, there, recorded⟩ := assembled.records record inside
    cases List.mem_singleton.mp recorded
    obtain ⟨members, class_⟩ := assembled.class_of_site there
    exact ⟨site.unit, assembled.inside site there, _, _, class_, rfl, rfl⟩
  case single =>
    intro unit listed other also id place member rival found present param own shared
    obtain ⟨site, index, there, rfl, rfl, laid⟩ := assembled.members unit listed id member found
    obtain ⟨second, offset, alsoThere, rfl, rfl, alsoLaid⟩ :=
      assembled.members other also place rival present
    have same := assembled.same_of_param there alsoThere
      (ClassDecl.layout_params (List.mem_of_getElem? laid) own)
      (ClassDecl.layout_params (List.mem_of_getElem? alsoLaid) shared)
    subst same
    rw [ClassDecl.layout_single (List.mem_of_getElem? laid)
      (List.mem_of_getElem? alsoLaid) own shared]

/-- One more unit is declared. -/
theorem add (source : SourceUnit) (id : Nat) {unit : CompilationUnit}
    (members : unit.members = (source.declared (program.position id)).members)
    (symbols : unit.symbols = (source.declared (program.position id)).symbols)
    (untyped : unit.exprTypes = {}) :
    Assembled (program.add (layoutAll (program.position id) source.classes))
      (units ++ [unit]) fun site => sites site ∨ site.unit = unit ∧
      Placed (program.position id) source.classes site.decl site.there := by
  let position := program.position id
  have grown (symbol : Nat) (below : symbol < program.symbols.size) :
      (program.add (layoutAll position source.classes)).symbols.symbols[symbol]? =
        program.symbols.symbols[symbol]? :=
    Array.getElem?_append_left below
  constructor
  case inside =>
    rintro site (old | ⟨rfl, _⟩)
    · exact List.mem_append_left _ (assembled.inside site old)
    · exact List.mem_append_right _ (List.mem_singleton_self _)
  case members =>
    intro other listed place member found
    rcases List.mem_append.mp listed with old | new
    · obtain ⟨site, index, there, facts⟩ := assembled.members other old place member found
      exact ⟨site, index, .inl there, facts⟩
    · cases List.mem_singleton.mp new
      rw [members, SourceUnit.declared_lookup] at found
      obtain ⟨decl, there, index, placed, same, laid⟩ := exists_placed_at found
      exact ⟨⟨unit, decl, there⟩, index, .inr ⟨rfl, placed⟩, rfl,
        (Nat.zero_add place).symm.trans same, laid⟩
  case records =>
    intro record listed
    rcases List.mem_append.mp listed with old | new
    · obtain ⟨site, there, recorded⟩ := assembled.records record old
      exact ⟨site, .inl there, recorded⟩
    · obtain ⟨decl, there, placed, recorded⟩ := exists_placed_record new
      exact ⟨⟨unit, decl, there⟩, .inr ⟨rfl, placed⟩, recorded⟩
  case lookup =>
    rintro site (old | ⟨rfl, placed⟩) index member laid
    · exact assembled.lookup site old index member laid
    · obtain ⟨place, same, found⟩ := placed.lookup laid
      have equal : place = site.there.member + index := (Nat.zero_add place).symm.trans same
      subst equal
      rw [members, symbols, SourceUnit.declared_lookup]
      refine ⟨found, ?_⟩
      have numbered : site.there.symbol + 0 = position.symbol + site.there.member :=
        placed.position_le.2.2
      have below := (List.getElem?_eq_some_iff.mp found).1
      rw [← (layoutAll_fits source.classes position).members] at below
      change (List.range' position.symbol
        (layoutAll position source.classes).symbols.length).toArray[_]? = _
      rw [List.getElem?_toArray, List.getElem?_range' below]
      exact congrArg some (by omega)
  case symbols =>
    rintro site (old | ⟨rfl, placed⟩) index symbol published
    · have stored := assembled.symbols site old index symbol published
      rw [grown _ (Array.getElem?_eq_some_iff.mp stored).1, stored]
    · obtain ⟨place, same, found⟩ := placed.lookup_symbol published
      rw [← same]
      change (program.symbols.symbols ++
        (layoutAll position source.classes).symbols.toArray)[program.symbols.symbols.size +
        place]? = _
      rw [Array.getElem?_append_right (Nat.le_add_right _ _), Nat.add_sub_cancel_left,
        List.getElem?_toArray]
      exact found
  case bounded =>
    have sizes : (position.after (layoutAll position source.classes)).symbol =
          (program.add (layoutAll position source.classes)).symbols.size ∧
        (position.after (layoutAll position source.classes)).param =
          (program.add (layoutAll position source.classes)).pool.params.size := by
      simp [position, Program.add, Position.after, Program.position, SymbolTable.size]
    rintro site (old | ⟨rfl, placed⟩)
    · obtain ⟨symbol, param⟩ := assembled.bounded site old
      refine ⟨Nat.le_trans symbol ?_, Nat.le_trans param ?_⟩
      · exact sizes.1 ▸ Nat.le_add_right _ _
      · exact sizes.2 ▸ Nat.le_add_right _ _
    · exact ⟨sizes.1 ▸ placed.after_le.2.2, sizes.2 ▸ placed.after_le.2.1⟩
  case apart =>
    have behind {site other : ClassSite} (old : sites site)
        (placed : Placed position source.classes other.decl other.there) : site.Before other :=
      ⟨Nat.le_trans (assembled.bounded site old).1 placed.position_le.1,
        Nat.le_trans (assembled.bounded site old).2 placed.position_le.2.1⟩
    rintro ⟨_, decl, there⟩ ⟨_, other, place⟩ (old | ⟨rfl, placed⟩) (alsoOld | ⟨same, also⟩)
    · exact assembled.apart _ _ old alsoOld
    · exact .inr (.inl (behind old also))
    · exact .inr (.inr (behind alsoOld placed))
    · cases same
      rcases placed.same_or_behind also with ⟨rfl, rfl⟩ | before | before
      · exact .inl rfl
      · exact .inr (.inl ⟨before.1, before.2⟩)
      · exact .inr (.inr ⟨before.1, before.2⟩)
  case unpublished =>
    intro symbol listed
    rcases Array.mem_append.mp listed with old | new
    · exact assembled.unpublished symbol old
    · exact (layoutAll_fits source.classes position).symbols symbol (List.mem_toArray.mp new)
  case untyped =>
    intro other listed
    rcases List.mem_append.mp listed with old | new
    · exact assembled.untyped other old
    · exact List.mem_singleton.mp new ▸ untyped

theorem declareUnit (config : BufferConfig) (source : SourceUnit) (id : Nat) :
    ∃ later, Assembled (program.declareUnit id source).2
      (units ++ [{ (program.declareUnit id source).1 with diagnostics := { config } }]) later := by
  have fresh : ∀ record ∈ program.symbols.classes, record.symbol < program.symbols.size := by
    intro record listed
    obtain ⟨site, there, recorded⟩ := assembled.records record listed
    cases List.mem_singleton.mp recorded
    have width : site.there.symbol < site.behind.symbol := by
      simp [ClassSite.behind, ClassSite.layout, Position.after, ClassDecl.layout,
        ClassDecl.partialLayout]
    exact Nat.lt_of_lt_of_le width (assembled.bounded site there).1
  rw [Program.declareUnit_eq fresh]
  exact ⟨_, assembled.add source id rfl rfl rfl⟩

/-- Nothing is published of classes yet. -/
theorem records_bare {record : ClassRecord} (listed : record ∈ program.symbols.classes) :
    record.superclass = none ∧ record.interfaces = [] := by
  obtain ⟨site, _, recorded⟩ := assembled.records record listed
  cases List.mem_singleton.mp recorded
  exact ⟨rfl, rfl⟩

/-- Members have no types yet. -/
theorem member_untyped {unit : CompilationUnit} (listed : unit ∈ units) {id : Nat} {member : Member}
    (found : unit.members.members[id]? = some member) :
    member.type = .absent ∧ ∀ param ∈ member.params, param.type = .absent := by
  obtain ⟨site, index, _, _, _, laid⟩ := assembled.members unit listed id member found
  obtain ⟨_, members, rfl⟩ | ⟨_, inner⟩ := ClassDecl.layout_cases laid
  · exact ⟨rfl, by simp [Member.params, ClassDecl.laid]⟩
  · rcases List.mem_append.mp inner with field | method
    · obtain ⟨_, _, rfl⟩ := List.mem_map.mp field
      exact ⟨rfl, by simp [Member.params, FieldDecl.laid]⟩
    · obtain ⟨_, _, _, rfl, _⟩ := mem_laidMethods method
      refine ⟨rfl, fun param present => ?_⟩
      obtain ⟨_, _, rfl⟩ := List.mem_map.mp present
      rfl

end Assembled

theorem assembled_all {config : BufferConfig} {entries : List (SourceUnit × Nat)}
    {units : List CompilationUnit} {program : Program} {sites : ClassSite → Prop}
    (assembled : Assembled program units sites) :
    ∃ declared final later, entries.foldl (fun (units, program) (source, index) =>
        let (unit, program) := program.declareUnit index source
        let unit := { unit with diagnostics := { config } }
        (units ++ [unit], program)) (units, program) = (declared, final) ∧
          Assembled final declared later := by
  induction entries generalizing sites units program with
  | nil => exact ⟨units, program, sites, rfl, assembled⟩
  | cons entry rest ih =>
    obtain ⟨source, index⟩ := entry
    obtain ⟨middle, assembledCode⟩ := assembled.declareUnit config source index
    exact ih assembledCode

namespace Session

/-- The units of a session are laid out one behind the other. -/
theorem declareUnits_assembled (config : SessionConfig) (sources : List SourceUnit) :
    ∃ sites, Assembled (declareUnits { config, sources }).2
      (declareUnits { config, sources }).1 sites := by
  have nothing : Assembled ({} : Program) [] fun _ => False :=
    { inside := fun _ => False.elim
      members := fun _ listed => absurd listed List.not_mem_nil
      records := fun _ listed => absurd listed List.not_mem_nil
      lookup := fun _ => False.elim
      symbols := fun _ => False.elim
      bounded := fun _ => False.elim
      apart := fun _ _ => False.elim
      unpublished := fun _ listed => absurd listed (Array.not_mem_empty _)
      untyped := fun _ listed => absurd listed List.not_mem_nil }
  obtain ⟨declared, final, sites, same, assembled⟩ :=
    @assembled_all config.diagnostics sources.zipIdx [] {} _ nothing
  have whole : declareUnits { config, sources } = (declared, final) := same
  rw [whole]
  exact ⟨sites, assembled⟩

/-- Each unit of a session has its own part of the table. -/
theorem declareUnits_linked (config : SessionConfig) (sources : List SourceUnit) :
    Linked (declareUnits { config, sources }).2.symbols (declareUnits { config, sources }).1 := by
  obtain ⟨sites, assembled⟩ := declareUnits_assembled config sources
  exact assembled.linked

end Session
end ClassLang
