import ClassLang.Proofs.Checking
import ClassLang.Proofs.MemberGraph
import ClassLang.Proofs.Order.Exchange
import ClassLang.Proofs.Publication
import ClassLang.Proofs.Stage.Reports
import ClassLang.Proofs.Stage.ScopedMembers

/-! What a session knows at its end of the types that are written, and why something is reported
about inherited methods: a declared member explains it. -/

namespace ClassLang
open CompilationUnit

namespace SymbolTable
variable {table : SymbolTable} {start pool : TypePool} {tree : TypeTree} {name : Name}
    {params : List TypeTree}
  {method : SeenMethod}

theorem overridden?_eq (held : table.HeldBy start) (valid : start.Valid)
    (growth : start.Growth pool) :
    table.overridden? pool tree name params = table.overridden? start tree name params := by
  have each : table.overriddenIn? pool name params = table.overriddenIn? start name params :=
    funext fun ancestor => by rw [overriddenIn?, overriddenIn?, seenMethods_eq held valid growth]
  rw [overridden?, overridden?, (held.hierarchy valid).unfold_eq valid growth, each]

/-- What is seen in a class is in the table. -/
theorem mem_seenMethods (seen : method ∈ table.seenMethods pool tree) :
    ∃ number : Nat, table.symbols[number]? = some method.symbol := by
  unfold seenMethods at seen
  split at seen
  · cases seen
  · obtain ⟨entry, listed, rfl⟩ := List.mem_map.mp seen
    exact ⟨entry.1, mem_findMembers listed⟩

theorem overridden?_symbol (found : table.overridden? pool tree name params = some method) :
    ∃ number : Nat, table.symbols[number]? = some method.symbol := by
  obtain ⟨ancestor, _, answer⟩ := List.exists_of_findSome?_eq_some found
  exact mem_seenMethods (List.mem_of_find?_eq_some answer)

end SymbolTable

namespace Member
variable {member original : Member} {table : SymbolTable} {start pool : TypePool}
    {types : MemberTrees} {report : Diagnostic}

/-- An explanation stays one while types are entered. -/
theorem Explains.grow (explains : member.Explains table start types report)
    (held : table.HeldBy start) (valid : start.Valid) (growth : start.Growth pool) :
    member.Explains table pool types report := by
  cases explains with
  | missing isClass isConcrete lacks same =>
    exact .missing isClass isConcrete
      (SymbolTable.missingMethods_eq held valid growth _ ▸ lacks) same
  | nothing isMethod shared same none =>
    exact .nothing isMethod shared same ((SymbolTable.overridden?_eq held valid growth).trans none)
  | misfit isMethod shared same fails =>
    refine .misfit isMethod shared same fun method nearest fits => ?_
    rw [SymbolTable.overridden?_eq held valid growth] at nearest
    obtain ⟨number, found⟩ := SymbolTable.overridden?_symbol nearest
    refine fails method nearest ⟨fun signature published subst => ?_, fits.access⟩
    rw [← growth.tree_eq valid (held.signatures number _ _ found published).type]
    exact fits.result signature published subst

/-- What stages find out about the member does not matter for it. -/
theorem Explains.of_written (explains : member.Explains table pool types report)
    (same : member.written = original.written) :
    original.Explains table pool types report := by
  have name : member.name = original.name := (congrArg Member.name same :)
  have span : member.span = original.span := (congrArg Member.span same :)
  have access : member.access = original.access := (congrArg Member.access same :)
  have modifiers : member.modifiers = original.modifiers := (congrArg Member.modifiers same :)
  have kinds (member : Member) : member.written.isClass = member.isClass ∧
      member.written.isMethod = member.isMethod := by
    unfold written isClass isMethod
    cases member.detail <;> exact ⟨rfl, rfl⟩
  have isClass : member.isClass = original.isClass :=
    (kinds member).1.symm.trans (same ▸ (kinds original).1)
  have isMethod : member.isMethod = original.isMethod :=
    (kinds member).2.symm.trans (same ▸ (kinds original).2)
  cases explains with
  | missing accepted isConcrete lacks key =>
    refine .missing (isClass ▸ accepted) ?_ lacks ?_
    · rwa [Member.isConcrete, ← modifiers]
    · rw [key, SeenMethod.missing, SeenMethod.missing, name, span]
  | nothing here shared key none =>
    exact .nothing (isMethod ▸ here) (modifiers ▸ shared) (name ▸ span ▸ key) (name ▸ none)
  | misfit here shared key fails =>
    refine .misfit (isMethod ▸ here) (modifiers ▸ shared) (name ▸ span ▸ key)
      fun method nearest fits => ?_
    exact fails method (name ▸ nearest) ⟨fits.result, access ▸ fits.access⟩

theorem typeTree_written (naming : Naming) (scope : TypeScope) (member : Member) :
    member.written.typeTree naming scope = member.typeTree naming scope := by
  unfold typeTree written
  cases member.detail <;> rfl

theorem extended_written (member : Member) : member.written.extended = member.extended := by
  unfold extended written
  cases member.detail <;> rfl

theorem declaredParams_written (member : Member) :
    member.written.params.map (·.declared) = member.params.map (·.declared) := by
  unfold params written
  cases member.detail <;> simp [Function.comp_def]

theorem typeParams_written (member : Member) : member.written.typeParams = member.typeParams := by
  unfold typeParams written
  cases member.detail <;> rfl

end Member

namespace CompilationUnit
variable {unit declared : CompilationUnit} {program next before after : Program}
    {touched : Nat → Prop}

/-- The types of a member as they are written. -/
def treesOf (unit : CompilationUnit) (naming : Naming) (class_ member : Member) : MemberTrees where
  owner := class_.typeTree naming (unit.scopeOf class_)
  params := TypeExpr.trees naming (unit.scopeOf member) (member.params.map (·.declared))
  type := member.typeTree naming (unit.scopeOf member)

theorem scopeOf_written {member original : Member} (same : member.written = original.written) :
    unit.scopeOf member = unit.scopeOf original :=
  scopeOf_congr (congrArg Member.owner same :)
    ((Member.typeParams_written member).symm.trans (same ▸ Member.typeParams_written original))

theorem treesOf_written {naming : Naming} {member original class_ originalClass : Member}
    (same : member.written = original.written)
    (sameClass : class_.written = originalClass.written) :
    unit.treesOf naming class_ member = unit.treesOf naming originalClass original := by
  have type {member original : Member} (same : member.written = original.written) :
      member.typeTree naming (unit.scopeOf member) = original.typeTree naming
        (unit.scopeOf original) := by
    rw [scopeOf_written same, ← Member.typeTree_written, same, Member.typeTree_written]
  unfold treesOf
  rw [type same, type sameClass, scopeOf_written same, ← Member.declaredParams_written member, same,
    Member.declaredParams_written]

/-- The member at `id` explains the report. -/
def ExplainsAt (declared : CompilationUnit) (program : Program) (id : Nat)
    (report : Diagnostic) : Prop :=
  ∃ member class_, declared.members.members[id]? = some member ∧
    declared.members.members[member.owner.getD id]? = some class_ ∧
      member.Explains program.symbols program.pool
        (declared.treesOf program.naming class_ member) report

/-- A member of the unit explains the report. -/
def Explains (declared : CompilationUnit) (program : Program) (report : Diagnostic) : Prop :=
  ∃ id, declared.ExplainsAt program id report

theorem Explains.enter {report : Diagnostic} (explains : declared.Explains program report)
    (sound : program.Sound) (enters : program.Enters next) : declared.Explains next report := by
  obtain ⟨id, member, class_, found, owner, explained⟩ := explains
  refine ⟨id, member, class_, found, owner, ?_⟩
  rw [enters.symbols, (enters.reveals fun _ => False).naming]
  exact explained.grow sound.symbols sound.pool enters.pool

/-- The program has the types that are written in the members of the unit. -/
structure Known (declared : CompilationUnit) (program : Program) : Prop where
  signed : ∀ (id number : Nat) (member : Member), declared.members.members[id]? = some member →
    declared.symbols[id]? = some number → ∃ symbol signature,
      program.symbols.symbols[number]? = some symbol ∧
      symbol.signature = some signature ∧
      program.pool.Denotes signature.type
        (member.typeTree program.naming (declared.scopeOf member)) ∧
      program.pool.DenotesAll signature.params
        (TypeExpr.trees program.naming (declared.scopeOf member) (member.params.map (·.declared)))
  supertypes : ∀ (id number : Nat) (member : Member), declared.members.members[id]? = some member →
    declared.symbols[id]? = some number → member.isClass = true →
    ∀ record ∈ program.symbols.recordsOf number,
      program.pool.DenotesAll (record.superclass.toList ++ record.interfaces)
        (TypeExpr.trees program.naming (declared.scopeOf member) member.extended)

theorem Known.reveal (knownOwn : declared.Known before) (valid : before.pool.Valid)
    (reveals : before.Reveals touched after)
    (apart : ∀ number ∈ declared.symbols, ¬ touched number) : declared.Known after := by
  constructor
  · intro id number member found declares
    obtain ⟨symbol, signature, there, published, type, params⟩ :=
      knownOwn.signed id number member found declares
    refine ⟨symbol, signature, ?_, published, ?_, ?_⟩
    · rw [reveals.symbols number (apart number (Array.mem_of_getElem? declares)), there]
    · exact reveals.naming ▸ type.within valid reveals.pool
    · exact reveals.naming ▸ params.within valid reveals.pool
  · intro id number member found declares isClass record listed
    rw [reveals.records number (apart number (Array.mem_of_getElem? declares))] at listed
    exact reveals.naming ▸ (knownOwn.supertypes id number member found declares isClass record
      listed).within valid reveals.pool

/-- So it is once all members are published. -/
theorem Presents.known (presents : unit.Presents program declared) : declared.Known program := by
  have isClass_written (member : Member) : member.written.isClass = member.isClass := by
    unfold Member.written Member.isClass
    cases member.detail <;> rfl
  constructor
  · intro id number original started declares
    obtain ⟨member, found, same⟩ := presents.exists_member started
    have published := presents.published id number member found declares
    obtain ⟨symbol, there, signed⟩ := published.signed
    let trees := declared.treesOf program.naming member member
    have type : program.pool.Denotes member.type trees.type := published.reads.type
    have params : program.pool.DenotesAll (member.params.map (·.type)) trees.params :=
      published.reads.params
    rw [show trees = declared.treesOf program.naming original original from treesOf_written same
      same] at type params
    exact ⟨symbol, _, there, signed, type, params⟩
  · intro id number original started declares isClass record listed
    obtain ⟨member, found, same⟩ := presents.exists_member started
    have published := presents.published id number member found declares
    have accepted : member.isClass = true := by
      rw [← isClass_written, same, isClass_written, isClass]
    rw [published.supertypes accepted record listed, ← Member.extended_written original, ← same,
      Member.extended_written, ← scopeOf_written same]
    exact published.reads.supertypes

/-- The class that a member stands in is its owner. -/
theorem Laid.classOf_owner {pool : TypePool} {count id : Nat} {member : Member}
    (laid : unit.Laid pool count) (found : unit.members.members[id]? = some member) :
    ∃ class_, unit.classOf id = .ok class_ ∧
    unit.members.members[member.owner.getD id]? = some class_ := by
  cases owned : member.owner with
  | none =>
    refine ⟨member, ?_, found⟩
    unfold classOf
    rw [MemberArena.topLevel_eq found owned, ok_bind, MemberArena.get_eq found]
  | some outer =>
    obtain ⟨class_, there, top⟩ := laid.owners id member found outer owned
    refine ⟨class_, ?_, there⟩
    have inside : 0 < unit.members.size := Nat.zero_lt_of_lt (Array.getElem?_eq_some_iff.mp found).1
    obtain ⟨fuel, same⟩ := Nat.exists_eq_succ_of_ne_zero (Nat.ne_of_gt inside)
    unfold classOf MemberArena.topLevel MemberArena.topLevelWithin
    simp only [MemberArena.get_eq found, ok_bind, owned, same]
    unfold MemberArena.topLevelWithin
    simp [MemberArena.get_eq there, top]

end CompilationUnit

namespace StageM
variable {work : Workspace} {declared : CompilationUnit}

/-- The types of a member of the pool are those that are written. -/
theorem trees_presented {between : Workspace} {id top : Nat} {member class_ : Member}
    (presents : between.unit.Presents between.toProgram declared)
    (laid : between.unit.Laid between.pool between.symbols.size)
    (found : between.unit.members.members[id]? = some member)
    (owner : between.unit.members.members[top]? = some class_) (small : between.pool.Small) :
    member.trees class_ between.pool = declared.treesOf between.naming class_ member := by
  have numbered {id : Nat} {member : Member}
      (found : between.unit.members.members[id]? = some member) :
      ∃ number, declared.symbols[id]? = some number := by
    have inside : id < between.unit.symbols.size :=
      laid.size ▸ (Array.getElem?_eq_some_iff.mp found).1
    rw [← presents.symbols]
    exact ⟨_, Array.getElem?_eq_getElem inside⟩
  obtain ⟨number, declares⟩ := numbered found
  obtain ⟨numberOfClass, declaresClass⟩ := numbered owner
  have own := (presents.published id number member found declares).reads
  have class_ := (presents.published top numberOfClass class_ owner declaresClass).reads
  unfold Member.trees treesOf
  rw [class_.type.reads small, own.type.reads small, ← own.params.reads small, List.map_map]
  rfl

/-- While the members of a unit are checked, they explain what is reported about inherited
methods. -/
theorem check_members_explain (sound : work.Sound) (typed : work.unit.Typed work.pool)
    (waiting : work.unit.members.Advanced .check 0) (sized : work.symbols.Sized)
    (presents : work.unit.Presents work.toProgram declared) :
    Ensures (work.unit.members.ids.forM (runMember .check)) work fun _ after => after.pool.Small →
      after.Reported (fun report => report.code.concernsInherited = true →
        declared.Explains after.toProgram report)
        work.reports := by
  let upTo (_ : Nat) (after : Workspace) : Prop := after.unit.Presents after.toProgram declared ∧
    (after.pool.Small → after.Reported (fun report => report.code.concernsInherited = true →
      declared.Explains after.toProgram report) work.reports)
  have start : upTo 0 work := ⟨presents, fun _ => ⟨[], by simp, by simp⟩⟩
  refine (@check_members_keep work upTo sound typed waiting start ?_).mono fun _ _ holds => holds.2
  rintro id member between after led soundBetween typedBetween found ⟨presentsBetween, reported⟩
    lowers soundAfter ran
  have enters : between.toProgram.Enters after.toProgram :=
    ⟨lowers.growth soundAfter, lowers.symbols⟩
  refine ⟨?_, fun small => ?_⟩
  · have symbols : after.unit.symbols = between.unit.symbols := by rw [lowers.unit.rest]
    refine (presentsBetween.enter soundBetween.valid enters).mark symbols
      (@set_marks _ between id _ rfl ?_)
    rw [Array.getElem?_map, found]
    rfl
  have smallBetween := enters.pool.small small
  obtain ⟨class_, owned, owner⟩ := soundBetween.laid.classOf_owner found
  obtain ⟨_, _, told⟩ :=
    (checkMember_explains (led.symbols ▸ sized) found typedBetween owned soundBetween).ensures _
      after ran
  have earlier := (reported smallBetween).mono fun report explains concerns =>
    (explains concerns).enter soundBetween.program enters
  refine earlier.trans ((told small).mono fun report accounts concerns =>
    Explains.enter ?_ soundBetween.program enters)
  obtain ⟨original, started, same⟩ := presentsBetween.exists_original found
  obtain ⟨originalClass, there, sameClass⟩ := presentsBetween.exists_original owner
  refine ⟨id, original, originalClass, started, ?_, ?_⟩
  · exact (congrArg Member.owner same :) ▸ there
  · rw [← treesOf_written same sameClass, ← trees_presented presentsBetween soundBetween.laid found
      owner smallBetween]
    exact (accounts concerns).of_written same

end StageM

namespace CompilationUnit

/-- What is known of a unit between two stages: its members are published once their types are
resolved, and from the third stage on a declared member explains what is reported about inherited
methods. -/
structure Accountable (unit : CompilationUnit) (program : Program)
    (declared : CompilationUnit) : Prop where
  fresh : unit.progress = .unresolved → unit = declared
  presents : unit.progress ≠ .unresolved → unit.progress ≠ .constantsFolded →
    unit.Presents program declared
  known : unit.progress ≠ .unresolved → declared.Known program
  early : unit.progress.rank < Progress.checked.rank →
    ∀ report ∈ unit.diagnostics.diagnostics, report.IsDiscreet
  explained : Progress.checked.rank ≤ unit.progress.rank → program.pool.Small →
    ∀ report ∈ unit.diagnostics.diagnostics, report.code.concernsInherited = true →
    declared.Explains program report

variable {unit declared : CompilationUnit} {before after : Program} {touched : Nat → Prop}

/-- What later units do takes nothing back. -/
theorem Accountable.reveal (accountable : unit.Accountable before declared) (sound : before.Sound)
    (reveals : before.Reveals touched after) (apart : ∀ number ∈ declared.symbols, ¬ touched number)
    (enters : Progress.checked.rank ≤ unit.progress.rank → before.Enters after) :
    unit.Accountable after declared :=
  { accountable with
    presents := fun past open_ => (accountable.presents past open_).reveal sound.pool reveals apart
    known := fun past => (accountable.known past).reveal sound.pool reveals apart
    explained := fun late small report listed concerns =>
      (accountable.explained late ((enters late).pool.small small) report listed concerns).enter
        sound (enters late) }

end CompilationUnit

namespace DiagnosticBuffer
variable {buffer : DiagnosticBuffer} {holds : Diagnostic → Prop}

/-- A buffer keeps nothing but what it had and what is reported to it, with another severity at
most. -/
theorem forall_reportAll
    (blind : ∀ report other : Diagnostic, holds report → other.key = report.key → holds other)
    {reports : List Diagnostic} (old : ∀ report ∈ buffer.diagnostics, holds report)
    (new : ∀ report ∈ reports, holds report) : ∀ report ∈ (buffer.reportAll reports).diagnostics,
    holds report := by
  induction reports generalizing buffer with
  | nil => exact old
  | cons first rest ih =>
    obtain ⟨promised, later⟩ := List.forall_mem_cons.mp new
    refine ih (fun diagnostic listed => ?_) later
    have added : ∀ diagnostic ∈ buffer.diagnostics ++ [promote buffer.config first],
        holds diagnostic :=
      List.forall_mem_append.mpr ⟨old, by simpa using blind first _ promised (promote_key _ first)⟩
    unfold report at listed
    dsimp only at listed
    split at listed
    · split at listed
      · exact old diagnostic listed
      · exact added diagnostic listed
    · exact added diagnostic listed

end DiagnosticBuffer

theorem Diagnostic.code_eq {report other : Diagnostic} (same : other.key = report.key) :
    other.code = report.code :=
  congrArg Prod.fst same

theorem Diagnostic.IsDiscreet.of_key {report other : Diagnostic} (discreet : report.IsDiscreet)
    (same : other.key = report.key) : other.IsDiscreet :=
  (congrArg Code.concernsInherited (Diagnostic.code_eq same)).trans discreet

/-- Whether a report is explained does not depend on its severity. -/
theorem Member.Explains.of_key {member : Member} {table : SymbolTable} {pool : TypePool}
    {types : MemberTrees} {report other : Diagnostic}
    (explains : member.Explains table pool types report) (same : other.key = report.key) :
    member.Explains table pool types other := by
  cases explains with
  | missing isClass isConcrete lacks key => exact .missing isClass isConcrete lacks (same.trans key)
  | nothing isMethod shared key none => exact .nothing isMethod shared (same.trans key) none
  | misfit isMethod shared key fails => exact .misfit isMethod shared (same.trans key) fails

theorem CompilationUnit.Explains.of_key {declared : CompilationUnit} {program : Program}
    {report other : Diagnostic} (explains : declared.Explains program report)
    (same : other.key = report.key) : declared.Explains program other := by
  obtain ⟨id, member, class_, found, owner, explains⟩ := explains
  exact ⟨id, member, class_, found, owner, explains.of_key same⟩

namespace Program
variable {rank : ParamRef → Nat} {config : BufferConfig} {program next : Program}
    {source : SourceUnit}
  {unit done declared : CompilationUnit} {stage : Stage}

/-- Only the third stage reports anything about inherited methods, and it explains that. -/
theorem runStage_reports_explained (sound : program.Sound)
    (stands : unit.Stands False rank config program source) (ready : unit.progress = stage.required)
    (sized : stage = .check → program.symbols.Sized)
    (accountable : unit.Accountable program declared)
    (ran : program.runStage stage unit = .ok (next, done)) :
    ∃ reports, done.diagnostics = unit.diagnostics.reportAll reports ∧
      (stage ≠ .check → ∀ report ∈ reports, report.IsDiscreet) ∧ (stage = .check → next.pool.Small →
        ∀ report ∈ reports, report.code.concernsInherited = true →
        declared.Explains next report) := by
  obtain ⟨work, acted, rfl, rfl⟩ := runStage_eq_ok ran
  refine ⟨work.reports, congrArg (·.reportAll work.reports) (StageM.runMembers_diagnostics acted),
    fun other => ?_, ?_⟩
  · obtain ⟨added, same, discreet⟩ := StageM.runMembers_reports acted
    intro report listed
    rw [same, List.nil_append] at listed
    exact discreet report listed other
  · rintro rfl small
    have open_ := open_of_ready ready
    have past := past_of_ready ready nofun
    obtain ⟨added, same, explained⟩ :=
      StageM.check_members_explain (stands.sound sound open_) (stands.typed past open_)
      (stands.waiting ready) (sized rfl) (accountable.presents past open_) ⟨⟩ work acted small
    rw [same, List.nil_append]
    exact explained

/-- Only the first stage publishes something, and only of the symbols of the unit. -/
theorem runStage_publishes (sound : program.Sound)
    (stands : unit.Stands False rank config program source) (ready : unit.progress = stage.required)
    (distinct : declared.Distinct) (accountable : unit.Accountable program declared)
    (ran : program.runStage stage unit = .ok (next, done)) :
    (stage ≠ .foldConstants → done.Presents next declared) ∧
    (stage ≠ .resolveTypes → program.Enters next) ∧
      program.Reveals (fun number => stage = .resolveTypes ∧ number ∈ declared.symbols) next := by
  have working (later : stage = .resolve ∨ stage = .check) : done.Presents next declared ∧
      program.Enters next := by
    have past := past_of_ready ready (by rcases later with rfl | rfl <;> decide)
    have open_ := open_of_ready ready
    exact runStage_presents later sound stands ready (accountable.presents past open_) ran
  cases stage with
  | resolveTypes =>
    cases accountable.fresh ready
    obtain ⟨presents, reveals⟩ := resolveTypes_presents sound stands ready distinct ran
    exact ⟨fun _ => presents, absurd rfl, reveals.mono fun _ own => ⟨rfl, own⟩⟩
  | resolve | check =>
    obtain ⟨presents, enters⟩ := working (by simp)
    exact ⟨fun _ => presents, fun _ => enters, enters.reveals _⟩
  | foldConstants =>
    obtain ⟨work, acted, rfl, rfl⟩ := runStage_eq_ok ran
    obtain ⟨_, _, _, rfl, -⟩ := (@StageM.foldConstants_members False { toProgram := program, unit }
      (stands.waiting ready) stands.arena stands.inside).ensures ⟨⟩ work acted
    exact ⟨absurd rfl, fun _ => .refl sound.pool, .refl _ _⟩

/-- A stage keeps a unit accountable. -/
theorem runStage_accountable (sound : program.Sound)
    (stands : unit.Stands False rank config program source) (ready : unit.progress = stage.required)
    (sized : stage = .check → program.symbols.Sized) (distinct : declared.Distinct)
    (accountable : unit.Accountable program declared)
    (ran : program.runStage stage unit = .ok (next, done)) :
    done.Accountable next declared ∧ (stage ≠ .resolveTypes → program.Enters next) ∧
      program.Reveals (fun number => stage = .resolveTypes ∧ number ∈ declared.symbols) next := by
  have reached : done.progress = stage.target := by
    obtain ⟨_, _, closed⟩ := Except.bind_eq_ok ran
    cases closed
    rfl
  obtain ⟨presents, enters, reveals⟩ :=
    runStage_publishes sound stands ready distinct accountable ran
  obtain ⟨reports, same, silent, explained⟩ :=
    runStage_reports_explained sound stands ready sized accountable ran
  refine ⟨?_, enters, reveals⟩
  constructor
  case fresh =>
    rw [reached]
    cases stage <;> exact nofun
  case presents =>
    rw [reached]
    exact fun _ open_ => presents (by rintro rfl; exact open_ rfl)
  case known =>
    intro _
    by_cases folds : stage = .foldConstants
    · have past := past_of_ready ready (by rw [folds]; decide)
      refine (accountable.known past).reveal sound.pool reveals fun number _ own => ?_
      cases folds.symm.trans own.1
    · exact (presents folds).known
  case early =>
    rw [reached, same]
    intro early
    have notCheck : stage ≠ .check := by rintro rfl; exact absurd early (by decide)
    have before : unit.progress.rank < Progress.checked.rank := by
      rw [ready]
      cases stage <;> revert early <;> decide
    exact DiagnosticBuffer.forall_reportAll (fun _ _ => Diagnostic.IsDiscreet.of_key)
      (accountable.early before) (silent notCheck)
  case explained =>
    rw [reached, same]
    intro late small
    have plain (report : Diagnostic) (discreet : report.IsDiscreet) :
        report.code.concernsInherited = true → declared.Explains next report := fun concerns => by
      cases discreet.symm.trans concerns
    refine DiagnosticBuffer.forall_reportAll ?_ (fun report old => ?_) fun report new => ?_
    · intro report other explains key concerns
      rw [Diagnostic.code_eq key] at concerns
      exact (explains concerns).of_key key
    · by_cases before : Progress.checked.rank ≤ unit.progress.rank
      · have later := later_of_checked (.inl ready) before
        have kept := accountable.explained before ((enters later).pool.small small) report old
        exact fun concerns => (kept concerns).enter sound (enters later)
      · exact plain report (accountable.early (Nat.lt_of_not_le before) report old)
    · by_cases checks : stage = .check
      · exact explained checks small report new
      · exact plain report (silent checks report new)

end Program

/-- The units are accountable, and have come to one progress. -/
def AccountAll (program : Program) (progress : Progress) : List CompilationUnit →
    List CompilationUnit → Prop :=
  List.Forall₂ fun declared unit => unit.progress = progress ∧ unit.Accountable program declared

namespace PhaseState
variable {rank : ParamRef → Nat} {config : BufferConfig} {sources : List SourceUnit} {stage : Stage}
  {stages started : List Stage} {progress : Progress} {first last : Program}
  {waiting finished declared : List CompilationUnit} {state final : PhaseState}

/-- A phase keeps all units accountable: what is published of one takes nothing back of another. -/
theorem Turns.accounts (turns : Turns stage first waiting finished last) (sound : first.Sound)
    (stand : StandAll False rank config first stage.required sources waiting)
    (sized : stage = .check → first.symbols.Sized) (apart : declared.Pairwise CompilationUnit.Apart)
    (distinct : ∀ unit ∈ declared, unit.Distinct)
    (account : AccountAll first stage.required declared waiting) :
    AccountAll last stage.target declared finished ∧ (stage ≠ .resolveTypes → first.Enters last) ∧
      first.Reveals (fun number => stage = .resolveTypes ∧ ∃ unit ∈ declared, number ∈ unit.symbols)
        last := by
  induction turns generalizing sources declared with
  | done =>
    cases account
    exact ⟨.nil, fun _ => .refl sound.pool, .refl _ _⟩
  | @next first middle last unit done waiting others ran continues rest ih =>
    cases stand with
    | @cons source _ sources _ own later =>
      cases account with
      | @cons origin _ origins _ facts account =>
        obtain ⟨apartHere, apart⟩ := List.pairwise_cons.mp apart
        obtain ⟨distinctHere, distinct⟩ := List.forall_mem_cons.mp distinct
        have stages := (Program.runStage_stages sound False.elim own.1 own.2).ensures _ ran
        obtain ⟨finishes, enters, reveals⟩ :=
          Program.runStage_accountable sound own.1 own.2 sized distinctHere facts.2 ran
        have waits : AccountAll middle stage.required origins waiting := by
          refine ((List.forall₂_and_left origins waiting).mpr ⟨fun _ => id, account⟩).imp ?_
          rintro other unit ⟨listed, reached, accountable⟩
          refine ⟨reached, accountable.reveal sound reveals (fun number own touched => ?_)
            fun late => enters (later_of_checked (.inl reached) late)⟩
          exact (apartHere other listed).1 number touched.2 own
        have sizedMiddle (checks : stage = .check) : middle.symbols.Sized := by
          rw [(enters (by rw [checks]; decide)).symbols]
          exact sized checks
        obtain ⟨accounts, more, others⟩ :=
          ih stages.sound (StandAll.grow later continues (.inl rfl)) sizedMiddle apart
            distinct waits
        refine ⟨.cons ⟨stages.progress, ?_⟩ accounts, fun later =>
          (enters later).trans (more later), ?_⟩
        · refine finishes.reveal stages.sound others ?_ fun late =>
            more (later_of_checked (.inr stages.progress) late)
          rintro number own ⟨_, other, listed, shared⟩
          exact (apartHere other listed).1 number own shared
        · refine (reveals.mono ?_).trans (others.mono ?_)
          · rintro number ⟨resolves, own⟩
            exact ⟨resolves, origin, List.mem_cons_self, own⟩
          · rintro number ⟨resolves, other, listed, shared⟩
            exact ⟨resolves, other, List.mem_cons_of_mem _ listed, shared⟩

/-- Once types are resolved, symbols stay. -/
theorem Schedule.symbols (schedule : state.Schedule stages started final)
    (chained : Chained progress stages) (holds : state.Holds False rank config sources progress)
    (past : progress ≠ .unresolved) : final.program.symbols = state.program.symbols := by
  induction schedule generalizing progress with
  | done | stop => rfl
  | @start state _ _ stage _ _ free ran _ ih =>
    obtain ⟨rfl, chained⟩ := chained
    obtain ⟨holdsNext, _, turns⟩ := (runPhase_holds holds free).ensures _ ran
    refine (ih chained holdsNext (by cases stage <;> decide)).trans (turns.continues.symbols ?_)
    rintro rfl
    exact past rfl

/-- So do all phases that are started. -/
theorem Schedule.accounts (schedule : state.Schedule stages started final)
    (chained : Chained progress stages) (holds : state.Holds False rank config sources progress)
    (sized : final.program.symbols.Sized) (apart : declared.Pairwise CompilationUnit.Apart)
    (distinct : ∀ unit ∈ declared, unit.Distinct)
    (account : AccountAll state.program progress declared state.units) :
    AccountAll final.program ((started.map Stage.target).getLastD progress) declared final.units ∧
      state.program.Reveals (fun _ => True) final.program := by
  induction schedule generalizing progress with
  | done | stop => exact ⟨account, .refl _ _⟩
  | @start state next final stage _ _ free ran rest ih =>
    obtain ⟨rfl, chained⟩ := chained
    obtain ⟨holdsNext, _, turns⟩ := (runPhase_holds holds free).ensures _ ran
    have sizedHere : stage = .check → state.program.symbols.Sized := by
      rintro rfl
      have same := rest.symbols chained holdsNext nofun
      rwa [← turns.continues.symbols nofun, ← same]
    obtain ⟨accounts, _, reveals⟩ :=
      turns.accounts holds.sound holds.units sizedHere apart distinct account
    obtain ⟨all, more⟩ := ih chained holdsNext sized accounts
    rw [List.map_cons, List.getLastD_cons]
    exact ⟨all, (reveals.mono fun _ _ => trivial).trans more⟩

end PhaseState

/-- Of a record this is known as long as no supertypes are asked for. -/
theorem ClassRecord.StandsFor.of_outline {record later : ClassRecord} {unit : CompilationUnit}
    {id : Nat} {class_ : Member} (stands : record.StandsFor unit id class_)
    (same : later.outline = record.outline) : later.StandsFor unit id class_ := by
  have read {α : Type} (field : ClassRecord → α)
      (plain : ∀ record, field record.outline = field record) : field later = field record :=
    (plain later).symm.trans ((congrArg field same).trans (plain record))
  constructor
  · exact stands.symbol.trans (congrArg some (read ClassRecord.symbol fun _ => rfl).symm)
  · exact (read ClassRecord.name fun _ => rfl).trans stands.name
  · exact (read ClassRecord.order fun _ => rfl).trans stands.order
  · exact (read ClassRecord.typeParams fun _ => rfl).trans stands.typeParams
  · exact (congrArg (List.map some) (read ClassRecord.members fun _ => rfl)).trans stands.members

namespace CompilationUnit

/-- A record with the symbol of a class of the unit is that of the class. -/
def Indexed (unit : CompilationUnit) (program : Program) : Prop :=
  ∀ record ∈ program.symbols.classes, ∀ (id : Nat) (class_ : Member),
    unit.members.members[id]? = some class_ → unit.symbols[id]? = some record.symbol →
    record.StandsFor unit id class_

theorem Indexed.reveal {unit : CompilationUnit} {before after : Program} {touched : Nat → Prop}
    (indexed : unit.Indexed before) (reveals : before.Reveals touched after) :
    unit.Indexed after := by
  intro record listed id class_ found declares
  have member : record.outline ∈ before.symbols.classes.map ClassRecord.outline :=
    reveals.classes ▸ List.mem_map_of_mem listed
  obtain ⟨earlier, present, outline⟩ := List.mem_map.mp member
  have same : earlier.symbol = record.symbol := (congrArg ClassRecord.symbol outline :)
  exact (indexed earlier present id class_ found (same ▸ declares)).of_outline outline.symm

theorem Consistent.report {unit : CompilationUnit} {program : Program}
    (consistent : unit.Consistent program) (diagnostics : DiagnosticBuffer) :
    { unit with diagnostics }.Consistent program :=
  { consistent with
    symbols := fun id member found => by
      obtain ⟨number, symbol, declares, there, stands⟩ := consistent.symbols id member found
      exact ⟨number, symbol, declares, there, { stands with }⟩
    lists := fun id class_ found isClass => by
      obtain ⟨owns, record, listed, stands⟩ := consistent.lists id class_ found isClass
      exact ⟨{ owns with }, record, listed, { stands with }⟩ }

/-- Members, symbols and records belong together whatever is published of them. -/
theorem Consistent.reveal {unit : CompilationUnit} {before after : Program} {touched : Nat → Prop}
    (consistent : unit.Consistent before) (reveals : before.Reveals touched after) :
    unit.Consistent after where
  count := consistent.count
  symbols id member found := by
    obtain ⟨number, symbol, declares, there, stands⟩ := consistent.symbols id member found
    have same := congrArg (·[number]?) reveals.named
    simp only [Array.getElem?_map, there, Option.map_some] at same
    obtain ⟨later, present, bare⟩ := Option.map_eq_some_iff.mp same
    have read {α : Type} (field : Symbol → α) (plain : ∀ symbol, field symbol.bare = field symbol) :
        field later = field symbol :=
      (plain later).symm.trans ((congrArg field bare).trans (plain symbol))
    refine ⟨number, later, declares, present, ⟨?_, ?_⟩, ?_, ?_, ?_, ?_, ?_, ?_, ?_⟩
    · exact (read Symbol.unit fun _ => rfl).trans stands.place.1
    · exact (read Symbol.member fun _ => rfl).trans stands.place.2
    · exact (read Symbol.kind fun _ => rfl).trans stands.kind
    · exact (read Symbol.name fun _ => rfl).trans stands.name
    · exact (read Symbol.access fun _ => rfl).trans stands.access
    · exact (read Symbol.modifiers fun _ => rfl).trans stands.modifiers
    · exact (read Symbol.span fun _ => rfl).trans stands.span
    · exact (read Symbol.arity fun _ => rfl).trans stands.arity
    · exact (read Symbol.owner fun _ => rfl).trans stands.owner
  classes := consistent.classes
  lists id class_ found isClass := by
    obtain ⟨owns, record, listed, stands⟩ := consistent.lists id class_ found isClass
    have member : record.outline ∈ after.symbols.classes.map ClassRecord.outline :=
      reveals.classes ▸ List.mem_map_of_mem listed
    obtain ⟨later, present, outline⟩ := List.mem_map.mp member
    exact ⟨owns, later, present, stands.of_outline outline⟩
  nested := consistent.nested
  topLevel := consistent.topLevel

end CompilationUnit

namespace Session
variable {config : SessionConfig} {sources : List SourceUnit} {done : Session}

/-- What is declared of a source unit among the others. -/
theorem exists_declared {unit : CompilationUnit}
    (listed : unit ∈ (declareUnits { config, sources }).1) : ∃ (index : Nat) (source : SourceUnit),
    sources[index]? = some source ∧
      unit = { source.declared (SourceUnit.place sources index) with
        diagnostics := { config := config.diagnostics } } := by
  obtain ⟨index, found⟩ := List.mem_iff_getElem?.mp listed
  rw [(declareUnits_opening config sources).units] at found
  obtain ⟨source, there, same⟩ := Option.map_eq_some_iff.mp found
  exact ⟨index, source, there, same.symm⟩

theorem opened_consistent {unit : CompilationUnit}
    (listed : unit ∈ (declareUnits { config, sources }).1) :
    unit.Consistent (declareUnits { config, sources }).2 := by
  have opening := declareUnits_opening config sources
  obtain ⟨index, source, there, rfl⟩ := exists_declared listed
  let place := SourceUnit.place sources index
  have consistent : (source.declared place).Consistent (declareUnits { config, sources }).2 := by
    refine SourceUnit.declared_consistent rfl (fun offset symbol laid => ?_) fun record laid => ?_
    · have inside : offset < source.memberCount := by
        have := (List.getElem?_eq_some_iff.mp laid).1
        rwa [layoutAll_symbols_length] at this
      exact (opening.symbols index source there offset inside).trans laid
    · have lower := layoutAll_records_symbol place source.classes record laid
      have upper := ((layoutAll_fits source.classes place).records record laid).1
      simp only [Position.after, layoutAll_symbols_length] at upper
      obtain ⟨offset, same⟩ := Nat.exists_eq_add_of_le lower
      have member : record ∈ (declareUnits { config, sources }).2.symbols.recordsOf
          (place.symbol + offset) := by
        rw [opening.records index source there offset
          (by rw [same] at upper; exact Nat.lt_of_add_lt_add_left upper)]
        exact List.mem_filter.mpr ⟨laid, beq_iff_eq.mpr same⟩
      exact (List.mem_filter.mp member).1
  exact consistent.report _

theorem opened_indexed {unit : CompilationUnit}
    (listed : unit ∈ (declareUnits { config, sources }).1) :
    unit.Indexed (declareUnits { config, sources }).2 := by
  have opening := declareUnits_opening config sources
  obtain ⟨index, source, there, rfl⟩ := exists_declared listed
  intro record recorded id class_ found declares
  have symbol : (source.declared (SourceUnit.place sources index)).symbols[id]? =
      some record.symbol := declares
  have laid : record ∈ (layoutAll (SourceUnit.place sources index) source.classes).records := by
    rw [SourceUnit.declared_symbols, List.getElem?_toArray] at symbol
    obtain ⟨inside, same⟩ := List.getElem?_eq_some_iff.mp symbol
    rw [List.getElem_range', Nat.one_mul] at same
    rw [List.length_range'] at inside
    have listed := SymbolTable.mem_recordsOf.mpr recorded
    rw [← same, opening.records index source there id inside] at listed
    exact (List.mem_filter.mp listed).1
  have stands := SourceUnit.stands_of_symbol rfl laid found symbol
  exact { stands with }

theorem opened_distinct {unit : CompilationUnit}
    (listed : unit ∈ (declareUnits { config, sources }).1) : unit.Distinct := by
  obtain ⟨index, source, -, rfl⟩ := exists_declared listed
  intro id other number earlier later
  change (source.declared (SourceUnit.place sources index)).symbols[id]? = some number at earlier
  change (source.declared (SourceUnit.place sources index)).symbols[other]? = some number at later
  rw [SourceUnit.declared_symbols, List.getElem?_toArray] at earlier later
  obtain ⟨insideOne, former⟩ := List.getElem?_eq_some_iff.mp earlier
  obtain ⟨insideTwo, latter⟩ := List.getElem?_eq_some_iff.mp later
  rw [List.getElem_range'] at former latter
  omega

/-- Before the first stage nothing is reported. -/
theorem opened_accounts : AccountAll (declareUnits { config, sources }).2 .unresolved
    (declareUnits { config, sources }).1 (declareUnits { config, sources }).1 := by
  obtain ⟨_, declares⟩ := @declareUnits_declares False sources config nofun
  refine List.forall₂_same.mpr fun unit listed => ?_
  obtain ⟨_, _, _, reached⟩ := declares.units.exists_source listed
  refine ⟨reached, fun _ => rfl, absurd reached, absurd reached, fun _ => ?_, fun late =>
    absurd (reached ▸ late) (by decide)⟩
  rw [declareUnits_diagnostics unit listed]
  exact nofun

/-- Whatever stages were started, the units of a session are accountable at its end, and the program
has kept all that was declared. -/
theorem run_accounts (ran : compile { config, sources } = .ok (.ok done)) : done.program.Sound ∧
    (∃ progress, AccountAll done.program progress (declareUnits { config, sources }).1 done.units) ∧
      ∀ unit ∈ (declareUnits { config, sources }).1, unit.Consistent done.program ∧
      unit.Indexed done.program := by
  obtain ⟨_, opens⟩ := @opened_holds False sources config nofun
  obtain ⟨_, _, started, schedule, heldAfter, _⟩ :=
    (@run_holds False sources config nofun).ensures done (Except.ok.inj ran)
  have chained : PhaseState.Chained .unresolved Stage.all := ⟨rfl, rfl, rfl, rfl, trivial⟩
  obtain ⟨accounts, reveals⟩ := schedule.accounts chained opens (Passes.compiled ran).sized
    (declareUnits_opening config sources).apart (fun _ => opened_distinct) opened_accounts
  exact ⟨heldAfter.sound, ⟨_, accounts⟩, fun unit listed =>
    ⟨(opened_consistent listed).reveal reveals, (opened_indexed listed).reveal reveals⟩⟩

end Session
end ClassLang
