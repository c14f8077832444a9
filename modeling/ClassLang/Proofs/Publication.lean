import ClassLang.Proofs.Coherence
import ClassLang.Proofs.Order.Exchange
import ClassLang.Proofs.ParameterCount

/-! What is published of declarations. Every member of a unit is announced once, with types that
stand for those that are written; nothing that later members, units and stages do takes that
back. -/

namespace ClassLang

namespace TypePool
variable {before after : TypePool} {type : TypeRef} {tree : TypeTree}

theorem Denotes.within (denotes : before.Denotes type tree) (valid : before.Valid)
    (within : before.Within after) :
    after.Denotes type tree :=
  ⟨within.has denotes.has, fun small =>
    (within.types.tree_eq valid denotes.has).trans
      (denotes.reads (Nat.le_trans within.types.size_le small))⟩

theorem DenotesAll.within {types : List TypeRef} {trees : List TypeTree}
    (denotes : before.DenotesAll types trees) (valid : before.Valid)
    (within : before.Within after) : after.DenotesAll types trees :=
  ⟨fun type member => within.has (denotes.has type member), fun small =>
    (within.types.map_tree_eq valid denotes.has).trans
      (denotes.reads (Nat.le_trans within.types.size_le small))⟩

end TypePool

theorem Member.Reads.within {member : Member} {naming : Naming} {scope : TypeScope}
    {before after : TypePool} (reads : member.Reads naming scope before) (valid : before.Valid)
    (within : before.Within after) :
    member.Reads naming scope after :=
  ⟨reads.type.within valid within, reads.params.within valid within,
    reads.supertypes.within valid within⟩

namespace SymbolTable
variable {table : SymbolTable} {number : Nat} {member : Member}

theorem symbols_announce : (table.announce number member).symbols =
    table.symbols.modify number fun symbol =>
      { symbol with signature := some member.signature } := by
  unfold announce
  split <;> rfl

/-- A member is announced with its own symbol only. -/
theorem lookup_announce (other : Nat) : (table.announce number member).symbols[other]? =
    if number = other then (table.symbols[other]?).map fun symbol =>
      { symbol with signature := some member.signature }
    else table.symbols[other]? := by
  rw [symbols_announce, Array.getElem?_modify]

theorem bare_announce : (table.announce number member).symbols.map Symbol.bare =
    table.symbols.map Symbol.bare := by
  refine Array.ext_getElem? fun other => ?_
  rw [Array.getElem?_map, Array.getElem?_map, lookup_announce]
  split
  · rw [Option.map_map]
    rfl
  · rfl

theorem outline_announce : (table.announce number member).classes.map ClassRecord.outline =
    table.classes.map ClassRecord.outline := by
  unfold announce
  split
  · change (table.publishClass _ _ _).classes.map _ = _
    simp only [publishClass, updateClass, List.map_map]
    refine List.map_congr_left fun record _ => ?_
    simp only [Function.comp_apply]
    split <;> rfl
  · rfl

theorem recordsOf_announce {other : Nat} (apart : number ≠ other) :
    (table.announce number member).recordsOf other = table.recordsOf other := by
  unfold announce
  split
  · exact (recordsOf_publishClass number _ _ other).trans (if_neg apart.symm)
  · rfl

/-- A class is announced with its supertypes. -/
theorem supertypes_announce (isClass : member.isClass = true) :
    ∀ record ∈ (table.announce number member).recordsOf number,
      record.superclass.toList ++ record.interfaces = member.supertypes := by
  unfold announce
  cases detail : member.detail with
  | field | method => simp [Member.isClass, detail] at isClass
  | class_ typeParams superclass interfaces superType interfaceTypes =>
    intro record listed
    replace listed : record ∈ (table.publishClass number superType interfaceTypes).recordsOf
      number := listed
    rw [recordsOf_publishClass, if_pos rfl] at listed
    obtain ⟨_, _, rfl⟩ := List.mem_map.mp listed
    simp [Member.supertypes, detail]

end SymbolTable

/-- Types are entered, and something is published of some symbols. What was declared of symbols and
classes stays. -/
structure Program.Reveals (touched : Nat → Prop) (before after : Program) : Prop where
  pool : before.pool.Within after.pool
  naming : after.naming = before.naming
  named : after.symbols.symbols.map Symbol.bare = before.symbols.symbols.map Symbol.bare
  symbols : ∀ number, ¬ touched number →
    after.symbols.symbols[number]? = before.symbols.symbols[number]?
  classes : after.symbols.classes.map ClassRecord.outline =
    before.symbols.classes.map ClassRecord.outline
  records : ∀ number, ¬ touched number →
    after.symbols.recordsOf number = before.symbols.recordsOf number

namespace Program.Reveals
variable {touched wider : Nat → Prop} {first middle last before after : Program}

theorem refl (touched : Nat → Prop) (program : Program) : program.Reveals touched program :=
  ⟨.refl _, rfl, rfl, fun _ _ => rfl, rfl, fun _ _ => rfl⟩

theorem trans (earlier : first.Reveals touched middle) (later : middle.Reveals touched last) :
    first.Reveals touched last where
  pool := earlier.pool.trans later.pool
  naming := later.naming.trans earlier.naming
  named := later.named.trans earlier.named
  symbols number apart := (later.symbols number apart).trans (earlier.symbols number apart)
  classes := later.classes.trans earlier.classes
  records number apart := (later.records number apart).trans (earlier.records number apart)

theorem mono (reveals : before.Reveals touched after)
    (widen : ∀ number, touched number → wider number) :
    before.Reveals wider after :=
  { reveals with
    symbols := fun number apart => reveals.symbols number (mt (widen number) apart)
    records := fun number apart => reveals.records number (mt (widen number) apart) }

end Program.Reveals

/-- Where types are entered only, nothing is published. -/
theorem Program.Enters.reveals {before after : Program} (enters : before.Enters after)
    (touched : Nat → Prop) : before.Reveals touched after where
  pool := enters.pool.within
  naming := by
    unfold Program.naming
    rw [enters.symbols, enters.pool.grown.params]
  named := by rw [enters.symbols]
  symbols _ _ := by rw [enters.symbols]
  classes := by rw [enters.symbols]
  records _ _ := by rw [enters.symbols]

/-- Announcing a member publishes what belongs to its symbol. -/
theorem StageM.Announces.reveals {before after : Workspace} {id number : Nat}
    {member later : Member} (announces : StageM.Announces before id member later after)
    (publishes : before.Publishes after) (numbered : before.unit.symbols[id]? = some number) :
    before.toProgram.Reveals (· = number) after.toProgram := by
  obtain ⟨_, same, announced⟩ := announces.symbols
  cases numbered.symm.trans same
  constructor
  case pool => exact publishes.pool
  case naming => exact announces.naming
  case named => exact announced ▸ SymbolTable.bare_announce
  case symbols => exact fun other apart =>
    announced ▸ (SymbolTable.lookup_announce other).trans (if_neg (Ne.symm apart))
  case classes => exact announced ▸ SymbolTable.outline_announce
  case records => exact fun other apart =>
    announced ▸ SymbolTable.recordsOf_announce (Ne.symm apart)

/-- The types of a member stand for what is written, and its symbol and class have them. -/
structure Member.Published (member : Member) (number : Nat) (scope : TypeScope)
    (program : Program) : Prop where
  reads : member.Reads program.naming scope program.pool
  signed : ∃ symbol, program.symbols.symbols[number]? = some symbol ∧
    symbol.signature = some member.signature
  supertypes : member.isClass = true → ∀ record ∈ program.symbols.recordsOf number,
    record.superclass.toList ++ record.interfaces = member.supertypes

namespace Member.Published
variable {member later : Member} {number : Nat} {scope : TypeScope} {before after program : Program}

/-- What is published of other symbols takes nothing back. -/
theorem reveal {touched : Nat → Prop} (published : member.Published number scope before)
    (valid : before.pool.Valid) (reveals : before.Reveals touched after)
    (apart : ¬ touched number) : member.Published number scope after where
  reads := reveals.naming ▸ published.reads.within valid reveals.pool
  signed := reveals.symbols number apart ▸ published.signed
  supertypes := reveals.records number apart ▸ published.supertypes

theorem marked (published : member.Published number scope program) (progress : Progress) :
    { member with progress }.Published number scope program :=
  ⟨⟨published.reads.type, published.reads.params, published.reads.supertypes⟩, published.signed,
    published.supertypes⟩

end Member.Published

/-- A member that is announced is published. -/
theorem StageM.Announces.published {before after : Workspace} {id number : Nat}
    {member later : Member} (announces : StageM.Announces before id member later after)
    (sound : before.Sound) (numbered : before.unit.symbols[id]? = some number) :
    later.Published number (before.unit.scopeOf member) after.toProgram := by
  obtain ⟨_, same, announced⟩ := announces.symbols
  cases numbered.symm.trans same
  obtain ⟨symbol, found⟩ : ∃ symbol, before.symbols.symbols[number]? = some symbol :=
    ⟨_, Array.getElem?_eq_getElem (sound.laid.symbols id number numbered)⟩
  refine ⟨announces.naming ▸ announces.reads, ?_, fun isClass =>
    announced ▸ SymbolTable.supertypes_announce isClass⟩
  refine ⟨{ symbol with signature := some later.signature }, ?_, rfl⟩
  rw [announced, SymbolTable.lookup_announce, if_pos rfl, found]
  rfl

namespace CompilationUnit
variable {unit other : CompilationUnit} {member later : Member}

/-- No two members have one symbol. -/
def Distinct (unit : CompilationUnit) : Prop :=
  ∀ (id other number : Nat), unit.symbols[id]? = some number →
    unit.symbols[other]? = some number → id = other

theorem scopeOf_congr (owner : later.owner = member.owner)
    (typeParams : later.typeParams = member.typeParams) :
    unit.scopeOf later = unit.scopeOf member := by
  unfold scopeOf outerParams
  rw [owner, typeParams]

end CompilationUnit

namespace StageM
open CompilationUnit

variable {start after : Workspace} {count : Nat}

/-- What the first stage has brought about once it has announced the first members of a unit. -/
structure PublishesFirst (start : Workspace) (count : Nat) (after : Workspace) : Prop where
  reveals : start.toProgram.Reveals (· ∈ start.unit.symbols) after.toProgram
  symbols : after.unit.symbols = start.unit.symbols
  written : after.unit.members.members.map Member.written = start.unit.members.members.map
    Member.written
  published : ∀ (id number : Nat) (member : Member), id < count →
    after.unit.members.members[id]? = some member → start.unit.symbols[id]? = some number →
    member.Published number (start.unit.scopeOf member) after.toProgram

theorem Announced.publishes (announced : Announced start count after) (sound : start.Sound)
    (distinct : start.unit.Distinct) :
    PublishesFirst start count after := by
  induction announced with
  | none =>
    exact ⟨.refl _ _, rfl, rfl, fun _ _ _ impossible => absurd impossible (Nat.not_lt_zero _)⟩
  | @next count between after member later _ led soundBetween found publishes announces ih =>
    obtain ⟨number, numbered, _⟩ := announces.symbols
    have own : start.unit.symbols[count]? = some number := ih.symbols ▸ numbered
    have reveals := announces.reveals publishes numbered
    obtain ⟨original, started, follows⟩ := led.unit.lookup found
    have scope : between.unit.scopeOf member = start.unit.scopeOf later :=
      (led.unit.scopeOf_eq sound.laid started follows).trans (scopeOf_congr
        (follows.owner.symm.trans announces.follows.owner.symm)
        (follows.typeParams.symm.trans announces.follows.typeParams.symm))
    have publishedIn : later.Published number (start.unit.scopeOf later) after.toProgram :=
      scope ▸ announces.published soundBetween numbered
    constructor
    case reveals =>
      refine ih.reveals.trans (reveals.mono ?_)
      rintro _ rfl
      exact Array.mem_of_getElem? own
    case symbols => exact publishes.unit.symbols.trans ih.symbols
    case written =>
      refine Eq.trans (Array.ext_getElem? fun id => ?_) ih.written
      let marked : Member := { later with progress := Stage.resolveTypes.target }
      have entry : (between.unit.members.set count marked).members[id]? = _ :=
        MemberArena.lookup_set found
      rw [Array.getElem?_map, Array.getElem?_map]
      change Option.map _ ((between.unit.members.set count marked).members[id]?) = _
      rw [entry]
      split
      · subst id
        rw [found]
        exact congrArg some announces.written
      · rfl
    case published =>
      intro id other entry below present declared
      replace present := (MemberArena.lookup_set found).symm.trans present
      split at present
      · subst id
        cases own.symm.trans declared
        cases present
        exact publishedIn.marked _
      · rename_i differs
        have before := ih.published id other entry
          (Nat.lt_of_le_of_ne (Nat.lt_succ_iff.mp below) differs) present declared
        refine before.reveal soundBetween.valid reveals ?_
        rintro rfl
        exact differs (distinct _ _ _ declared own)

end StageM

/-! The stages that follow mark members and look up their annotations. -/

/-- The parameter without its annotations. -/
def Param.unmarked (param : Param) : Param := { param with annotations := [] }

/-- The member without its progress and what is found out about annotations. -/
def Member.unmarked (member : Member) : Member :=
  { member with
    annotations := [], progress := .unresolved
    detail := match member.detail with
      | .method typeParams params body => .method typeParams (params.map Param.unmarked) body
      | detail => detail }

namespace Member
variable {member later : Member} {number : Nat} {scope : TypeScope} {program : Program}

theorem written_unmarked (member : Member) : member.unmarked.written = member.written := by
  unfold written unmarked
  cases member.detail <;> simp [Function.comp_def, Param.unmarked]

@[simp] theorem params_unmarked (member : Member) :
    member.unmarked.params = member.params.map Param.unmarked := by
  unfold params unmarked
  cases member.detail <;> rfl

@[simp] theorem typeParams_unmarked (member : Member) :
    member.unmarked.typeParams = member.typeParams := by
  unfold typeParams unmarked
  cases member.detail <;> rfl

@[simp] theorem supertypes_unmarked (member : Member) :
    member.unmarked.supertypes = member.supertypes := by
  unfold supertypes unmarked
  cases member.detail <;> rfl

@[simp] theorem extended_unmarked (member : Member) :
    member.unmarked.extended = member.extended := by
  unfold extended unmarked
  cases member.detail <;> rfl

@[simp] theorem isClass_unmarked (member : Member) : member.unmarked.isClass = member.isClass := by
  unfold isClass unmarked
  cases member.detail <;> rfl

@[simp] theorem typeTree_unmarked (naming : Naming) (scope : TypeScope) (member : Member) :
    member.unmarked.typeTree naming scope = member.typeTree naming scope := by
  unfold typeTree unmarked
  cases member.detail <;> rfl

@[simp] theorem signature_unmarked (member : Member) :
    member.unmarked.signature = member.signature := by
  simp [signature, ownParams, Function.comp_def, Param.unmarked]
  rfl

theorem published_unmarked : member.unmarked.Published number scope program ↔
    member.Published number scope program := by
  have reads : member.unmarked.Reads program.naming scope program.pool ↔
      member.Reads program.naming scope program.pool := by
    have params : member.unmarked.params.map (·.type) = member.params.map (·.type) ∧
        member.unmarked.params.map (·.declared) = member.params.map (·.declared) := by
      simp [Function.comp_def, Param.unmarked]
    constructor <;> rintro ⟨type, own, supertypes⟩
    · exact ⟨typeTree_unmarked _ _ member ▸ type, params.1 ▸ params.2 ▸ own,
        supertypes_unmarked member ▸ extended_unmarked member ▸ supertypes⟩
    · exact ⟨(typeTree_unmarked _ _ member).symm ▸ type, params.1.symm ▸ params.2.symm ▸ own,
        (supertypes_unmarked member).symm ▸ (extended_unmarked member).symm ▸ supertypes⟩
  constructor <;> rintro ⟨own, signed, supertypes⟩
  · exact ⟨reads.mp own, by simpa using signed, by simpa using supertypes⟩
  · exact ⟨reads.mpr own, by simpa using signed, by simpa using supertypes⟩

end Member

namespace StageM
variable {marks : Array Member}

/-- What keeps the members apart from such marks. -/
abbrev marking (marks : Array Member) : Promise StageM :=
  Keeping fun work => work.unit.members.members.map Member.unmarked = marks

/-- Steps that spare every member. -/
theorem marks_of_confined {α : Type} {stage : Stage} {action : StageM α}
    (confined : ∀ id, Confined stage id action) : (marking marks).holds action fun _ => True := by
  intro work kept result after ran
  have same : after.unit.members.members = work.unit.members.members := by
    refine Array.ext_getElem? fun other => ?_
    exact ((confined (other + 1) work).2 result after ran).1.unit.others other
      (Nat.ne_of_lt (Nat.lt_succ_self other))
  exact ⟨(congrArg (Array.map Member.unmarked) same).trans kept, trivial⟩

theorem set_marks {work : Workspace} {id : Nat} {later : Member}
    (kept : work.unit.members.members.map Member.unmarked = marks)
    (same : marks[id]? = some later.unmarked) :
    (work.unit.members.set id later).members.map Member.unmarked = marks := by
  refine Array.ext_getElem? fun other => ?_
  simp only [MemberArena.set, Array.getElem?_map, Array.getElem?_setIfInBounds]
  rw [← kept, Array.getElem?_map] at same ⊢
  split
  · subst other
    obtain ⟨member, found, equal⟩ := Option.map_eq_some_iff.mp same
    rw [if_pos (Array.getElem?_eq_some_iff.mp found).1, found]
    exact congrArg some equal.symm
  · rfl

theorem resolveAnnotations_marks (id : Nat) : (marking marks).holds
    (resolveAnnotations id) fun _ => True := by
  have looked (annotations : List AnnotationUse) :
      (marking marks).holds (annotations.mapM resolveAnnotationUse) fun _ => True :=
    @marks_of_confined _ _ .resolve _ fun _ => .mapM resolveAnnotationUse_confined
  have setting {later : Member} (same : marks[id]? = some later.unmarked) :
      (marking marks).holds (setMember id later) fun _ => True := by
    intro work kept _ after ran
    cases ran
    exact ⟨set_marks kept same, trivial⟩
  have read : (marking marks).holds (inspect (·.unit.members.get id)) fun member =>
    marks[id]? = some member.unmarked := by
    intro work kept
    refine Ensures.bind (Ensures.get (lift_ensures fun member answered => ?_))
    refine ⟨kept, ?_⟩
    rw [← kept, Array.getElem?_map, MemberArena.lookup_of_get answered]
    rfl
  refine (marking marks).bind read fun member same =>
    (marking marks).andThen (looked member.annotations) fun annotations => ?_
  dsimp only
  split
  · rename_i typeParams params body detail
    have each (param : Param) : (marking marks).holds (do
        return { param with annotations := ← param.annotations.mapM resolveAnnotationUse })
        fun later => later = { param with annotations := later.annotations } :=
      (marking marks).andThen (looked param.annotations) fun annotations => (marking marks).pure rfl
    refine (marking marks).bind ((marking marks).mapM_forall₂ fun param _ => each param)
      fun later paired => ?_
    refine setting (same.trans (congrArg some ?_))
    have params : later.map Param.unmarked = params.map Param.unmarked :=
      Param.map_annotated (fun _ _ => rfl) paired
    simp only [Member.unmarked, detail, params]
  · rename_i detail _
    refine setting (same.trans (congrArg some ?_))
    simp only [Member.unmarked]

/-- The second and the third stage keep all of a member but such marks. -/
theorem runMember_marks {stage : Stage} (later : stage = .resolve ∨ stage = .check) (id : Nat) :
    (marking marks).holds (runMember stage id) fun _ => True := by
  have performs : (marking marks).holds (perform stage id) fun _ => True := by
    rcases later with rfl | rfl
    · exact (marking marks).andThen (resolveAnnotations_marks id) fun _ =>
        marks_of_confined fun _ => resolveOwnBody_confined id
    · exact marks_of_confined fun _ => checkMember_confined id
  refine runMember_keeps (·.members.members.map Member.unmarked = marks) performs
    fun unit member kept found => ?_
  let work : Workspace := { unit }
  refine set_marks (show work.unit.members.members.map Member.unmarked = _ from kept) ?_
  rw [← kept, Array.getElem?_map, found]
  rfl

end StageM

/-! Units. -/

/-- The members of the unit are those of the declared one, and published. -/
structure CompilationUnit.Presents (unit : CompilationUnit) (program : Program)
    (declared : CompilationUnit) : Prop where
  symbols : unit.symbols = declared.symbols
  written : unit.members.members.map Member.written = declared.members.members.map Member.written
  published : ∀ (id number : Nat) (member : Member), unit.members.members[id]? = some member →
    declared.symbols[id]? = some number → member.Published number (declared.scopeOf member) program

namespace CompilationUnit.Presents
variable {unit later declared : CompilationUnit} {before after program : Program}

/-- What is published of the symbols of other units takes nothing back. -/
theorem reveal {touched : Nat → Prop} (presents : unit.Presents before declared)
    (valid : before.pool.Valid) (reveals : before.Reveals touched after)
    (apart : ∀ number ∈ declared.symbols, ¬ touched number) :
    unit.Presents after declared :=
  { presents with
    published := fun id number member found declares =>
      (presents.published id number member found declares).reveal valid reveals
        (apart number (Array.mem_of_getElem? declares)) }

theorem enter (presents : unit.Presents before declared) (valid : before.pool.Valid)
    (enters : before.Enters after) :
    unit.Presents after declared :=
  presents.reveal valid (enters.reveals fun _ => False) fun _ _ => not_false

/-- So it is with members that are marked. -/
theorem mark (presents : unit.Presents program declared) (symbols : later.symbols = unit.symbols)
    (marks : later.members.members.map Member.unmarked = unit.members.members.map Member.unmarked) :
    later.Presents program declared where
  symbols := symbols.trans presents.symbols
  written := by
    have through (members : Array Member) :
        members.map Member.written = (members.map Member.unmarked).map Member.written := by
      rw [Array.map_map]
      exact congrArg (Array.map · members) (funext fun member => member.written_unmarked.symm)
    rw [through, marks, ← through]
    exact presents.written
  published id number member found declares := by
    have read := congrArg (·[id]?) marks
    simp only [Array.getElem?_map, found, Option.map_some] at read
    obtain ⟨original, there, same⟩ := Option.map_eq_some_iff.mp read.symm
    have owner : original.owner = member.owner := (congrArg Member.owner same :)
    have typeParams : original.typeParams = member.typeParams := by
      simpa using congrArg Member.typeParams same
    have publishedIn := presents.published id number original there declares
    rw [scopeOf_congr owner typeParams] at publishedIn
    rw [← Member.published_unmarked, same] at publishedIn
    exact Member.published_unmarked.mp publishedIn

theorem exists_member (presents : unit.Presents program declared) {id : Nat} {original : Member}
    (found : declared.members.members[id]? = some original) :
    ∃ member, unit.members.members[id]? = some member ∧ member.written = original.written := by
  have read := congrArg (·[id]?) presents.written
  simp only [Array.getElem?_map, found, Option.map_some] at read
  exact Option.map_eq_some_iff.mp read

theorem exists_original (presents : unit.Presents program declared) {id : Nat} {member : Member}
    (found : unit.members.members[id]? = some member) :
    ∃ original, declared.members.members[id]? = some original ∧
    member.written = original.written := by
  have read := congrArg (·[id]?) presents.written
  simp only [Array.getElem?_map, found, Option.map_some] at read
  obtain ⟨original, there, same⟩ := Option.map_eq_some_iff.mp read.symm
  exact ⟨original, there, same.symm⟩

end CompilationUnit.Presents

namespace Program
open CompilationUnit

variable {rank : ParamRef → Nat} {config : BufferConfig} {program next : Program}
    {source : SourceUnit}
  {unit done declared : CompilationUnit} {stage : Stage}

/-- The first stage publishes the members of a unit. -/
theorem resolveTypes_presents (sound : program.Sound)
    (stands : unit.Stands False rank config program source)
    (ready : unit.progress = Stage.resolveTypes.required) (distinct : unit.Distinct)
    (ran : program.runStage .resolveTypes unit = .ok (next, done)) :
    done.Presents next unit ∧ program.Reveals (· ∈ unit.symbols) next := by
  have open_ := open_of_ready ready
  have start := stands.sound sound open_
  have ranked : False → program.pool.Ranked rank := False.elim
  obtain ⟨after, ⟨led, _, _, _, _, announced⟩, same⟩ :=
    (runStage_of_members (StageM.resolveTypes_members start (stands.waiting ready)
      (fun sure => stands.descends sure ready) ranked)).ensures _ ran
  cases same
  have publishes := announced.publishes start distinct
  refine ⟨⟨publishes.symbols, publishes.written, fun id number member found declares => ?_⟩,
    publishes.reveals⟩
  have inside : id < after.unit.members.size := (Array.getElem?_eq_some_iff.mp found).1
  exact publishes.published id number member (led.unit.size ▸ inside) found declares

/-- The second and the third stage leave the members of a unit published. -/
theorem runStage_presents (later : stage = .resolve ∨ stage = .check) (sound : program.Sound)
    (stands : unit.Stands False rank config program source) (ready : unit.progress = stage.required)
    (presents : unit.Presents program declared)
    (ran : program.runStage stage unit = .ok (next, done)) :
    done.Presents next declared ∧ program.Enters next := by
  have open_ := open_of_ready ready
  have past := past_of_ready ready (by rcases later with rfl | rfl <;> decide)
  have leads : Runs False (unit.members.ids.forM (StageM.runMember stage))
      { toProgram := program, unit }
      fun _ after => Workspace.Leads Evolves { toProgram := program, unit } after ∧
      after.Sound := by
    rcases later with rfl | rfl
    · exact (StageM.resolve_members (stands.sound sound open_) (stands.typed past open_)
        (stands.ready False.elim) stands.inside (stands.waiting ready)).mono fun _ _ facts =>
          ⟨facts.1, facts.2.1⟩
    · exact (StageM.check_members (stands.sound sound open_) (stands.typed past open_)
        (stands.ready False.elim) stands.inside (stands.waiting ready)).mono fun _ _ holding =>
          ⟨holding.1, holding.2.1⟩
  have marks : Ensures (unit.members.ids.forM (StageM.runMember stage))
      { toProgram := program, unit } fun _ after =>
        after.unit.members.members.map Member.unmarked = unit.members.members.map Member.unmarked :=
    ((StageM.marking _).forM (fun id _ => StageM.runMember_marks later id)
      { toProgram := program, unit } rfl).mono
      fun _ _ known => known.1
  have both := leads.and marks
  obtain ⟨after, ⟨⟨led, soundAfter⟩, marked⟩, same⟩ := (runStage_of_members both).ensures _ ran
  cases same
  have enters : program.Enters after.toProgram := led.enters soundAfter
  exact ⟨(presents.enter sound.pool enters).mark led.unit.symbols marked, enters⟩

end Program
end ClassLang
