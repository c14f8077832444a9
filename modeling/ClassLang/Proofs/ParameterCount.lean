import ClassLang.Proofs.Accounts
import ClassLang.Proofs.Linkage
import ClassLang.Proofs.Stage.Folding

/-! Signatures have as many parameters as the declarations they are published for, in every state
that a session passes through. -/

namespace ClassLang

namespace SymbolTable

/-- What is published has as many parameters as it was declared with. -/
def Sized (table : SymbolTable) : Prop :=
  ∀ (number : Nat) (symbol : Symbol) (signature : Signature), table.symbols[number]? = some symbol →
    symbol.signature = some signature → signature.params.length = symbol.arity

/-- Declarations have these numbers of parameters, and what is published of them has too. -/
structure Counts (table : SymbolTable) (arities : Nat → Option Nat) : Prop where
  declared : ∀ number : Nat, (table.symbols[number]?).map (·.arity) = arities number
  published : table.Sized

variable {table after : SymbolTable} {arities : Nat → Option Nat} {number : Nat}
    {signature : Signature}

theorem Counts.publishSignature (counts : table.Counts arities)
    (counted : ∀ count, arities number = some count → signature.params.length = count)
    (ran : table.publishSignature number signature = .ok after) : after.Counts arities := by
  obtain ⟨symbol, read, same⟩ := Except.bind_eq_ok ran
  cases same
  have found : table.symbols[number]? = some symbol := by
    unfold SymbolTable.get at read
    split at read <;> cases read
    assumption
  have arity : arities number = some symbol.arity := by
    rw [← counts.declared, found, Option.map_some]
  have inside : number < table.symbols.size := (Array.getElem?_eq_some_iff.mp found).1
  constructor
  case declared =>
    intro other
    rw [Array.getElem?_setIfInBounds]
    split
    · rename_i same
      rw [← same, arity, Option.map_some]
    · exact counts.declared other
  case published =>
    intro other entry given present published
    rw [Array.getElem?_setIfInBounds] at present
    split at present
    · cases present
      cases published
      exact counted _ arity
    · exact counts.published other entry given present published

end SymbolTable

namespace StageM
variable {arities : Nat → Option Nat} {α : Type}

/-- What keeps the numbers of parameters. -/
abbrev counting (arities : Nat → Option Nat) : Promise StageM := Keeping fun work =>
  work.symbols.Counts arities

/-- Steps that any stage may take publish nothing. -/
theorem counts_of_confined (id : Nat) {action : StageM α} (confined : Confined .resolve id action) :
    (counting arities).holds action fun _ => True := by
  intro work counts result after ran
  have same := ((confined work).2 result after ran).1.symbols (by decide)
  exact ⟨(same ▸ counts : after.symbols.Counts arities), trivial⟩

theorem resolveArgs_length (site : TypeSite) (args : List TypeExpr) :
    (counting arities).holds (site.resolveArgs args) fun types => types.length = args.length := by
  induction args with
  | nil => exact (counting arities).pure rfl
  | cons arg args ih =>
    exact (counting arities).bind (counts_of_confined 0 (TypeSite.resolve_confined arg)) fun _ _ =>
      (counting arities).bind ih fun _ length => (counting arities).pure (congrArg (· + 1) length)

theorem publishSignature_counts {number : Nat} {signature : Signature}
    (counted : ∀ count, arities number = some count → signature.params.length = count) :
    (counting arities).holds (publishSignature number signature) fun _ => True := by
  intro work counts
  refine Ensures.bind (Ensures.bind (Ensures.get (lift_ensures fun symbols ran => ?_)))
  intro _ after changed
  cases changed
  exact ⟨counts.publishSignature counted ran, trivial⟩

end StageM

/-- A member that waits for its types has as many parameters as its symbol was declared with. -/
def CompilationUnit.Awaits (unit : CompilationUnit) (arities : Nat → Option Nat) : Prop :=
  ∀ (id number : Nat) (member : Member), unit.members.members[id]? = some member →
    member.progress = .unresolved → unit.symbols[id]? = some number → ∀ count,
      arities number = some count → member.params.length = count

namespace StageM
variable {arities : Nat → Option Nat} {id : Nat} {α : Type} {work : Workspace}

theorem ensures_counts {action : StageM α} (kept : (counting arities).holds action fun _ => True)
    (counts : work.symbols.Counts arities) : Ensures action work fun _ after =>
      after.symbols.Counts arities :=
  (kept work counts).mono fun _ _ facts => facts.1

/-- The first stage publishes the parameters that were declared. -/
theorem resolveTypes_counts {member : Member} (counts : work.symbols.Counts arities)
    (found : work.unit.members.members[id]? = some member)
    (counted : ∀ number, work.unit.symbols[id]? = some number → ∀ count,
      arities number = some count → member.params.length = count) :
    Ensures (resolveTypes id) work fun _ after => after.symbols.Counts arities := by
  refine Ensures.bind (Ensures.get (Ensures.bind (lift_ensures fun scope _ => ?_)))
  refine Ensures.bind (lift_ensures fun number symbol => ?_)
  refine Ensures.bind (lift_ensures fun known read => ?_)
  cases (MemberArena.lookup_of_get read).symm.trans found
  have declares : work.unit.symbols[id]? = some number := by
    unfold CompilationUnit.symbol at symbol
    split at symbol <;> cases symbol
    assumption
  have publishes (signature : Signature) (later : Member)
      (same : member.params.length = signature.params.length) : (counting arities).holds (do
        publishSignature number signature
        setMember id later) fun _ => True :=
    (counting arities).andThen
      (publishSignature_counts fun count answer => same ▸ counted number declares count answer)
      fun _ => counts_of_confined id (setMember_confined later)
  refine ensures_counts ?_ counts
  cases detail : member.detail with
  | class_ typeParams superclass interfaces =>
    have bare : member.params.length = 0 := by simp [Member.params, detail]
    refine (counting arities).andThen
      (counts_of_confined id (TypeSite.resolveBounds_confined typeParams)) fun _ => ?_
    refine (counting arities).andThen ?_ fun superType => ?_
    · cases superclass with
      | none => exact (counting arities).pure trivial
      | some written => exact counts_of_confined id (.map (TypeSite.resolve_confined written))
    refine (counting arities).andThen
      (counts_of_confined id (TypeSite.resolveArgs_confined interfaces))
      fun interfaceTypes => ?_
    refine (counting arities).andThen
      (counts_of_confined id (withClasses_confined fun _ _ closed =>
        ClassHierarchy.selfType_keeps closed member.name)) fun type => ?_
    refine (counting arities).andThen ?_ fun _ => publishes _ _ bare
    intro between kept _ after changed
    cases changed
    exact ⟨⟨kept.declared, kept.published⟩, trivial⟩
  | field =>
    have bare : member.params.length = 0 := by simp [Member.params, detail]
    exact (counting arities).andThen
      (counts_of_confined id (TypeSite.resolve_confined member.declared))
      fun type => publishes _ _ bare
  | method typeParams params =>
    refine (counting arities).andThen
      (counts_of_confined id (TypeSite.resolveBounds_confined typeParams)) fun _ => ?_
    refine (counting arities).bind (resolveArgs_length _ _) fun paramTypes length => ?_
    have full : member.params.length = paramTypes.length := by simp [Member.params, detail, length]
    dsimp only
    split
    · exact publishes _ _ full
    · exact (counting arities).andThen (counts_of_confined id (TypeSite.resolve_confined _))
        fun type => publishes _ _ full

theorem complete_counts {member : Member} {stage : Stage} (counts : work.symbols.Counts arities)
    (awaits : work.unit.Awaits arities) (found : work.unit.members.members[id]? = some member)
    (ready : member.progress = stage.required) :
    Ensures (complete stage id) work fun _ after => after.symbols.Counts arities := by
  by_cases first : stage = .resolveTypes
  · subst first
    refine Ensures.bind
      ((resolveTypes_counts counts found fun number => awaits id number member found ready).mono ?_)
    intro _ between kept
    refine ensures_counts (counts_of_confined id ?_) kept
    exact .bind (inspect_confined fun work => work.unit.members.get_orderly id) fun _ =>
      setMember_confined _
  · intro _ after ran
    rw [((complete_confined work).2 () after ran).1.symbols first]
    exact counts

/-- Stages keep the numbers of parameters. A member that has its types waits no more. -/
theorem runMember_counts {stage : Stage} {final : Workspace} (counts : work.symbols.Counts arities)
    (awaits : work.unit.Awaits arities) (ran : (runMember stage id).run work = .ok ((), final)) :
    final.symbols.Counts arities ∧ final.unit.Awaits arities := by
  obtain ⟨member, found, ⟨_, rfl⟩ | ⟨ready, spared, later, present, marked⟩⟩ := runMember_ok ran
  · exact ⟨counts, awaits⟩
  constructor
  · rcases runMember_cases ran with ⟨_, rfl⟩ | completed
    · exact counts
    · exact complete_counts counts awaits found ready () final completed
  · intro other number waiting there unresolved declared
    rw [spared.symbols] at declared
    by_cases same : other = id
    · subst same
      cases present.symm.trans there
      rw [marked] at unresolved
      cases stage <;> cases unresolved
    · rw [spared.others other same] at there
      exact awaits other number waiting there unresolved declared

end StageM

/-- The shared table keeps the numbers of parameters, and so do the units. -/
structure Program.Counts (arities : Nat → Option Nat) (program : Program)
    (units : List OpenUnit) : Prop where
  symbols : program.symbols.Counts arities
  awaits : ∀ entry ∈ units, entry.1.Awaits arities

namespace Session
variable {config : SessionConfig} {sources : List SourceUnit}

theorem declared_counts (config : SessionConfig) (sources : List SourceUnit) :
    ∃ arities, (declareUnits { config, sources }).2.Counts arities
      ((declareUnits { config, sources }).1.map (·, [])) := by
  obtain ⟨sites, assembled⟩ := declareUnits_assembled config sources
  refine ⟨fun number => ((declareUnits { config, sources }).2.symbols.symbols[number]?).map
    (·.arity), ⟨⟨fun _ => rfl, ?_⟩, ?_⟩⟩
  · intro number symbol signature found published
    rw [assembled.unpublished symbol (Array.mem_of_getElem? found)] at published
    cases published
  · intro entry listed id number member found _ declared count answer
    obtain ⟨unit, inUnits, rfl⟩ := List.mem_map.mp listed
    obtain ⟨symbol, published, rfl⟩ := Option.map_eq_some_iff.mp answer
    obtain ⟨site, index, laid, own⟩ := assembled.exists_layout inUnits found declared published
    exact (ClassDecl.layout_symbol laid own).2.symm

theorem Passes.counts {program : Program} {units : List OpenUnit}
    (passes : Passes { config, sources } program units) :
    ∃ arities, program.Counts arities units := by
  induction passes with
  | declared => exact declared_counts config sources
  | member _ ran ih =>
    obtain ⟨arities, counts⟩ := ih
    have own := counts.awaits _ (List.mem_append_right _ List.mem_cons_self)
    obtain ⟨symbols, own⟩ := StageM.runMember_counts counts.symbols own ran
    exact ⟨arities, symbols, forall_mem_replace counts.awaits own⟩
  | closed stage _ ih =>
    obtain ⟨arities, counts⟩ := ih
    have own := counts.awaits _ (List.mem_append_right _ List.mem_cons_self)
    exact ⟨arities, counts.symbols, forall_mem_replace counts.awaits own⟩

/-- In every state that a session passes through signatures have as many parameters as their
declarations. -/
theorem Passes.sized {program : Program} {units : List OpenUnit}
    (passes : Passes { config, sources } program units) :
    program.symbols.Sized := by
  obtain ⟨_, counts⟩ := passes.counts
  exact counts.symbols.published

end Session
end ClassLang
