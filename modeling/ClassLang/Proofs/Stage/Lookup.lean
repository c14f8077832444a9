import ClassLang.Proofs.Invariance
import ClassLang.Proofs.Session
import ClassLang.Proofs.Stage.Expressions
import ClassLang.Proofs.Type.BreadthFirst
import ClassLang.Proofs.Type.Walks

/-! Looking up the members of a value. The lookup walks the ancestors of one class type; of a type
variable it takes the first bound, so it agrees with subclassing there: what a class above the first
bound declares is found. -/

namespace ClassLang

namespace SymbolTable
open TypePool PoolM.Builds

variable {table : SymbolTable} {pool : TypePool} {type : TypeRef} {name : Name} {kind : SymbolKind}

/-- A class among the ancestors of the type declares a member of the name and kind. -/
def Exposes (table : SymbolTable) (pool : TypePool) (type : TypeRef) (name : Name)
    (kind : SymbolKind) : Prop :=
  ∃ class_, table.hierarchy.HasAncestor pool type class_ ∧ table.membersNamed class_ name kind ≠ []

/-- The class of the type itself declares one. -/
def Declares (table : SymbolTable) (pool : TypePool) (name : Name) (kind : SymbolKind)
    (type : TypeRef) : Prop :=
  ∃ class_, pool.OfClass type class_ ∧ table.membersNamed class_ name kind ≠ []

theorem declares_grow {after : TypePool} (growth : pool.Growth after) (held : pool.Has type) :
    table.Declares after name kind type ↔ table.Declares pool name kind type :=
  exists_congr fun _ => and_congr_left fun _ =>
    ⟨fun ofClass => ofClass.shrink growth held, fun ofClass => ofClass.grow growth⟩

theorem ancestors_exposes (inPool : pool.Has type) (held : table.hierarchy.HeldBy pool) :
    PoolM.Builds (table.hierarchy.ancestors type) pool fun types after =>
      (∀ ancestor ∈ types, after.Has ancestor) ∧
      (table.Exposes pool type name kind ↔ ∃ ancestor ∈ types,
        table.Declares after name kind ancestor) := by
  refine (ClassHierarchy.ancestors_hasAncestor inPool held).mono ?_
  rintro types after _ ⟨inside, listed⟩
  refine ⟨inside, ?_⟩
  simp only [Exposes, Declares, listed]
  exact ⟨fun ⟨class_, ⟨ancestor, member, ofClass⟩, declared⟩ =>
    ⟨ancestor, member, class_, ofClass, declared⟩,
    fun ⟨ancestor, member, class_, ofClass, declared⟩ =>
      ⟨class_, ⟨ancestor, member, ofClass⟩, declared⟩⟩

/-- The bindings of an ancestor are there if it is a class type, with its class. -/
theorem ancestorBindings_ofBase (held : pool.Has type) :
    PoolM.Builds (table.ancestorBindings type) pool fun found after =>
      pool.OfBase type (found.map Prod.fst) ∧ ∀ entry ∈ found, entry.2.HeldBy after := by
  refine ofValid fun valid => inspect (valid.baseName?_eq held) ?_
  have ofBase := valid.ofBase held
  cases base : (pool.tree type).base? with
  | none =>
    rw [base] at ofBase
    exact PoolM.Builds.pure ⟨ofBase, by simp⟩
  | some class_ =>
    rw [base] at ofBase
    refine readArgs held fun args argsHere => PoolM.Builds.pure ⟨ofBase, fun entry same => ?_⟩
    cases same
    exact Substitution.ofArgs_heldBy _ argsHere

theorem declares_iff {base? : Option Name} (ofBase : pool.OfBase type base?) :
    table.Declares pool name kind type ↔ ∃ class_, base? = some class_ ∧
    table.membersNamed class_ name kind ≠ [] := by
  refine exists_congr fun class_ => and_congr_left fun _ => ⟨fun isClass => ?_, fun same => ?_⟩
  · exact Except.ok.inj (ofBase.symm.trans isClass)
  · subst same
    exact ofBase

/-- A list of candidates only grows, and does if there is a method to add to none. -/
theorem addCandidates_ne_nil {ancestor : TypeRef} {subst : Substitution} :
    ∀ (found : List Candidate) (entries : List (Nat × Symbol)) (pool : TypePool),
      Ensures (addCandidates ancestor subst found entries) pool fun candidates _ =>
        candidates ≠ [] ↔ found ≠ [] ∨ entries ≠ []
  | _, [], _ => Ensures.pure (by simp)
  | found, (id, symbol) :: rest, pool => by
    refine Ensures.after fun params between => ?_
    split
    · rename_i overridden
      refine (addCandidates_ne_nil found rest between).mono fun candidates _ decides => ?_
      have some_ : found ≠ [] := by
        rintro rfl
        simp at overridden
      simp [decides, some_]
    · exact (addCandidates_ne_nil _ rest between).mono fun candidates _ decides => by simp [decides]

/-- A disjunction that is collected along a list. -/
theorem foldl_or {holds : TypeRef → Prop} {first : Prop} :
    ∀ types : List TypeRef, types.foldl (fun passed type => passed ∨ holds type) first ↔
    first ∨ ∃ type ∈ types, holds type
  | [] => by simp
  | type :: rest => by rw [List.foldl_cons, foldl_or rest, or_assoc, List.exists_mem_cons_iff]

/-- A receiver has methods of a name in sight if a class among its ancestors declares one. -/
theorem visibleMethods_exposes (held : table.HeldBy pool) {receiver : TypeRef}
    (inPool : pool.Has receiver) (name : Name) :
    PoolM.Builds (table.visibleMethods receiver name) pool fun candidates _ =>
      candidates ≠ [] ↔ table.Exposes pool receiver name .method := by
  refine ofValid fun valid => ?_
  refine bind (@ancestors_exposes table pool receiver name .method inPool (held.hierarchy valid))
    fun ancestors between growth ⟨inside, exposed⟩ => ?_
  -- the fold has found a method so far if one of the ancestors it has passed declares one
  have initial : (∀ candidate ∈ ([] : List Candidate), candidate.HeldBy table between) ∧
      (([] : List Candidate) ≠ [] ↔ False) := by
    simp
  refine (foldlM_follows (fun passed ancestor =>
    passed ∨ table.Declares between name .method ancestor) (fun candidates passed after =>
      (∀ candidate ∈ candidates, candidate.HeldBy table after) ∧ (candidates ≠ [] ↔ passed))
    initial ?each).mono fun candidates _ _ facts => ?_
  case each =>
    rintro ancestor member found passed later grown ⟨heldBy, some_⟩
    have ancestorHere := grown.has (inside ancestor member)
    refine bind (ancestorBindings_ofBase ancestorHere) fun bindings after more ⟨ofBase, bound⟩ => ?_
    have knownNow : ∀ candidate ∈ found, candidate.HeldBy table after :=
      fun candidate present => (heldBy candidate present).grow more
    rw [← declares_grow grown (inside ancestor member), declares_iff ofBase]
    cases bindings with
    | none => exact pure ⟨knownNow, by simp [some_]⟩
    | some entry =>
      refine ((addCandidates_builds found _ after
        (held.grow (growth.trans (grown.trans more)).within) (more.has ancestorHere)
        (bound entry rfl) knownNow fun entry present => mem_findMembers present).strengthen
        (addCandidates_ne_nil _ _ _)).mono fun candidates last _ both => ⟨both.1, both.2.trans ?_⟩
      simp [membersNamed, some_]
  rw [facts.2, exposed, foldl_or, false_or]

/-- A call fails for want of a method exactly if no class among the ancestors of the receiver
declares one. -/
theorem selectOverload_noSuchMethod (held : table.HeldBy pool) {receiver : TypeRef}
    (inPool : pool.Has receiver) (name : Name) {args : List TypeRef} (valid : pool.Valid) :
    Ensures (table.selectOverload receiver name args) pool fun outcome _ =>
      outcome = .error .noSuchMethod ↔ ¬ table.Exposes pool receiver name .method := by
  refine Ensures.bind (((visibleMethods_exposes held inPool name).ensures valid).mono
    fun visible between facts => ?_)
  have exposes := facts.2
  dsimp only
  split
  · rename_i none
    exact Ensures.pure (iff_of_true rfl fun exposed =>
      exposes.mpr exposed (List.isEmpty_iff.mp none))
  · rename_i some_
    have exposed : table.Exposes pool receiver name .method := exposes.mp fun none =>
      some_ (List.isEmpty_iff.mpr none)
    have otherwise {outcome : Except OverloadFault Selection}
        (differs : outcome ≠ .error .noSuchMethod) : outcome = .error .noSuchMethod ↔
        ¬ table.Exposes pool receiver name .method :=
      iff_of_false differs (not_not_intro exposed)
    refine Ensures.after fun applicable later => ?_
    split
    · exact Ensures.pure (otherwise nofun)
    · exact Ensures.pure (otherwise nofun)
    · split
      · exact Ensures.pure (otherwise nofun)
      · refine Ensures.after fun best last => ?_
        split
        · exact Ensures.pure (otherwise nofun)
        · exact Ensures.pure (otherwise nofun)

end SymbolTable

/-- The action ends, and all that it does is to enter types. -/
def StageM.Enters (action : StageM α) (work : Workspace) (post : α → TypePool → Prop) : Prop :=
  work.pool.Valid → Completes action work fun result after =>
    ∃ pool, after = { work with pool } ∧ work.pool.Growth pool ∧ post result pool

namespace StageM.Enters
variable {work : Workspace} {post : β → TypePool → Prop}

theorem pure {result : β} (holds : post result work.pool) : Enters (Pure.pure result) work post :=
  fun valid => Completes.pure ⟨work.pool, rfl, valid.growth, holds⟩

theorem bind {action : StageM α} {next : α → StageM β} {middle : α → TypePool → Prop}
    (first : Enters action work middle)
    (rest : ∀ result pool, work.pool.Growth pool → middle result pool →
      Enters (next result) { work with pool } post) :
    Enters (action >>= next) work post := by
  intro valid
  refine Completes.bind ((first valid).mono ?_)
  rintro result _ ⟨pool, rfl, growth, promised⟩
  refine (rest result pool growth promised growth.valid).mono ?_
  rintro value _ ⟨last, rfl, more, holds⟩
  exact ⟨last, rfl, growth.trans more, holds⟩

theorem onPool {action : PoolM β} (builds : PoolM.Builds action work.pool post) :
    Enters (StageM.onPool action) work post := by
  intro valid
  obtain ⟨result, pool, ran, growth, holds⟩ := builds valid
  refine ⟨result, { work with pool }, ?_, pool, rfl, growth, holds⟩
  change (action.run work.pool >>= fun result => _) = _
  rw [ran]
  rfl

theorem get {next : Workspace → StageM β} (rest : Enters (next work) work post) :
    Enters (MonadState.get >>= next) work post :=
  rest

theorem mono {action : StageM β} {strong : β → TypePool → Prop} (enters : Enters action work strong)
    (weaken : ∀ result pool, work.pool.Growth pool → strong result pool → post result pool) :
    Enters action work post := by
  intro valid
  refine (enters valid).mono ?_
  rintro result after ⟨pool, same, growth, holds⟩
  exact ⟨pool, same, growth, weaken result pool growth holds⟩

/-- The first element that gives something; none does if there is nothing. -/
theorem findSomeM? {search : α → StageM (Option β)} {elements : List α} {gives : α → Prop}
    {holds : β → Prop} (each : ∀ element ∈ elements, ∀ pool, work.pool.Growth pool →
      Enters (search element) { work with pool } fun found _ =>
        (found.isSome = true ↔ gives element) ∧ ∀ result ∈ found, holds result) :
    Enters (elements.findSomeM? search) work fun found _ =>
      (found.isSome = true ↔ ∃ element ∈ elements, gives element) ∧ ∀ result ∈ found,
        holds result := by
  induction elements generalizing work with
  | nil => exact pure (by simp)
  | cons first rest ih =>
    intro valid
    refine bind (each first List.mem_cons_self work.pool valid.growth) ?_ valid
    rintro found pool growth ⟨given, all⟩
    cases found with
    | some result => exact pure ⟨by simpa using .inl (given.mp rfl), all⟩
    | none =>
      have notFirst : ¬ gives first := fun gives => nomatch given.mpr gives
      have later := @ih { work with pool } fun element member last more =>
        each element (List.mem_cons_of_mem _ member) last (growth.trans more)
      exact later.mono fun found last _ ⟨some_, holds⟩ => ⟨some_.trans (by simp [notFirst]), holds⟩

end StageM.Enters

namespace BodyM
open StageM TypePool

variable {work : Workspace} {receiver classType : TypeRef} {name : Name} {site : BodySite}
    {index : Nat} {span : Span}

/-- A field is found if a class among the ancestors of the class type declares it, and one of that
name is. -/
theorem findField?_exposes (sound : work.Sound) (held : work.pool.Has classType)
    (looked : (classTypeOf receiver).run work = .ok (classType, work)) (name : Name) :
    Enters (findField? receiver name) work fun found _ =>
      (found.isSome = true ↔ work.symbols.Exposes work.pool classType name .field) ∧
        ∀ entry ∈ found, ∃ class_,
          (entry.1, entry.2.1) ∈ work.symbols.membersNamed class_ name .field := by
  have first : Enters (classTypeOf receiver) work fun result pool =>
    result = classType ∧ pool = work.pool :=
    fun valid => ⟨classType, work, looked, work.pool, rfl, valid.growth, rfl, rfl⟩
  refine Enters.bind first ?_
  rintro result _ _ ⟨rfl, rfl⟩
  refine Enters.get ?_
  have listing := @SymbolTable.ancestors_exposes work.symbols work.pool result name .field held
    sound.hierarchy
  refine Enters.bind (Enters.get (Enters.onPool listing))
    fun ancestors pool growth ⟨inside, listed⟩ => ?_
  rw [listed]
  refine Enters.findSomeM? fun ancestor member later more => ?_
  have whole := growth.trans more
  have bindings := @SymbolTable.ancestorBindings_ofBase work.symbols later ancestor
    (more.has (inside ancestor member))
  refine Enters.bind (Enters.onPool bindings) fun found last further ⟨ofBase, bound⟩ => ?_
  rw [← SymbolTable.declares_grow more (inside ancestor member), SymbolTable.declares_iff ofBase]
  cases found with
  | none => exact Enters.pure (by simp)
  | some entry =>
    dsimp only
    split
    · rename_i none
      exact Enters.pure (by simp [none])
    · rename_i id symbol rest members
      have listedHere : (id, symbol) ∈ work.symbols.membersNamed entry.1 name .field :=
        members ▸ List.mem_cons_self
      have all := whole.trans further
      have typeHere := (sound.program.symbols.grow all.within).has_type all.valid
        (SymbolTable.mem_findMembers listedHere)
      refine Enters.bind (Enters.onPool (PoolM.Builds.instantiated typeHere (bound entry rfl)))
        fun type _ _ _ => ?_
      refine Enters.pure ⟨by simp [members], fun other same => ?_⟩
      cases same
      exact ⟨entry.1, listedHere⟩

end BodyM

/-- Nothing was reported after `floor` about an unknown member. -/
def Workspace.Finds (floor : List Diagnostic) (work : Workspace) : Prop :=
  ∃ added, work.reports = floor ++ added ∧ ∀ report ∈ added, report.code ≠ .unknownMember

namespace StageM
variable {floor : List Diagnostic}

/-- The action reports no unknown member. -/
abbrev finding (floor : List Diagnostic) : Promise StageM := Keeping (Workspace.Finds floor)

abbrev Finds (floor : List Diagnostic) (action : StageM α) : Prop :=
  (finding floor).holds action fun _ => True

/-- A question that has an answer. -/
theorem completes_inspect {query : Workspace → Except Abort α} {next : α → StageM β}
    {work : Workspace} {answer : α} {post : β → Workspace → Prop}
    (answered : query work = .ok answer) (rest : Completes (next answer) work post) :
    Completes (StageM.inspect query >>= next) work post := by
  obtain ⟨result, final, ran, holds⟩ := rest
  refine ⟨result, final, ?_, holds⟩
  change ((liftM (query work) : StageM α) >>= next).run work = _
  rw [answered]
  exact ran

theorem report_finds {diagnostic : Diagnostic} (other : diagnostic.code ≠ .unknownMember) :
    Finds floor (report diagnostic) := by
  rintro start ⟨added, same, ne⟩ _ _ ran
  cases ran
  refine ⟨⟨added ++ [diagnostic], by simp [same], fun report member => ?_⟩, trivial⟩
  rcases List.mem_append.mp member with old | new
  · exact ne report old
  · exact List.mem_singleton.mp new ▸ other

theorem modifyUnit_finds (change : CompilationUnit → CompilationUnit) : Finds floor
    (modifyUnit change) := by
  rintro start found _ _ ran
  cases ran
  exact ⟨found, trivial⟩

theorem lift_finds {answer : Except Abort α} : Finds floor (liftM answer) := by
  rintro start found result final ran
  obtain ⟨_, rfl⟩ := lift_eq_ok ran
  exact ⟨found, trivial⟩

theorem display_finds {type : TypeRef} : Finds floor (display type) := fun start found =>
  lift_finds start found

theorem reportFault_finds (span : Span) (fault : TypeFault) : Finds floor
    (reportFault span fault) := by
  refine (finding floor).bind (fun start found result final ran => ?_) fun report other =>
    report_finds other
  obtain ⟨made, rfl⟩ := lift_eq_ok ran
  refine ⟨found, ?_⟩
  rw [TypeFault.toDiagnostic_code made]
  cases fault <;> exact nofun

end StageM

namespace BodyM
open StageM TypePool

variable {work : Workspace} {floor : List Diagnostic} {receiver classType : TypeRef}
    {site : BodySite} {index : Nat}
  {span : Span}

theorem useSymbol_finds (resolution : Resolution) (symbol : Symbol) :
    Finds floor (useSymbol site index resolution symbol span) := by
  refine (finding floor).andThen (modifyUnit_finds _) fun _ => ?_
  dsimp only
  split
  · exact report_finds nofun
  · exact (finding floor).pure trivial

/-- The use is recorded. -/
theorem useSymbol_records (resolution : Resolution) (symbol : Symbol) :
    Completes (useSymbol site index resolution symbol span) work fun _ after =>
      after.unit.resolutions.get? index = some resolution ∧ after.Finds work.reports := by
  have finds := @useSymbol_finds work.reports site index span resolution symbol work
    ⟨[], by simp, by simp⟩
  have records : Completes (useSymbol site index resolution symbol span) work fun _ after =>
      after.unit.resolutions = work.unit.resolutions.insert index resolution := by
    refine Completes.bind (Completes.modify ?_)
    dsimp only
    split
    · exact Completes.modify rfl
    · exact Completes.pure rfl
  obtain ⟨_, after, ran, recorded⟩ := records
  refine ⟨_, after, ran, ?_, (finds _ _ ran).1⟩
  rw [recorded, IdMap.get?_insert, if_pos rfl]

/-- What is missing is reported with the type of the receiver. -/
theorem noMember_reports (valid : work.pool.Valid) (held : work.pool.Has receiver) (name : Name) :
    Completes (noMember receiver name span) work fun _ after => ∃ text,
      after.reports = work.reports ++ [{ code := .unknownMember, span, args := [text, name] }] := by
  obtain ⟨text, shown⟩ := valid.display_ok held
  exact completes_inspect shown (Completes.modify ⟨text, rfl⟩)

variable (sound : work.Sound) (receiverHere : work.pool.Has receiver)
    (plain : work.pool.isLenient receiver = .ok false)
  (looked : (classTypeOf receiver).run work = .ok (classType, work))
  (inPool : work.pool.Has classType)
include sound receiverHere plain looked inPool

/-- A field access finds a field of the name exactly if a class among the ancestors declares one. -/
theorem field_exposes (name : Name) : Completes
    (field site index receiver name span) work fun _ after =>
      (work.symbols.Exposes work.pool classType name .field → after.Finds work.reports ∧
      ∃ id symbol class_, after.unit.resolutions.get? index = some (.field id) ∧
        (id, symbol) ∈ work.symbols.membersNamed class_ name .field) ∧
    (¬ work.symbols.Exposes work.pool classType name .field → ∃ text,
      after.reports = work.reports ++
        [{ code := .unknownMember, span, args := [text, name] }]) := by
  refine completes_inspect plain (Completes.bind ?_)
  refine (findField?_exposes sound inPool looked name sound.valid).mono ?_
  rintro found _ ⟨pool, rfl, growth, exposed, listed⟩
  cases found with
  | none =>
    have missing : ¬ work.symbols.Exposes work.pool classType name .field := fun exposes =>
      nomatch exposed.mpr exposes
    refine Completes.bind ((noMember_reports growth.valid (growth.has receiverHere) name).mono ?_)
    rintro _ after reported
    exact Completes.pure ⟨fun exposes => absurd exposes missing, fun _ => reported⟩
  | some entry =>
    obtain ⟨class_, member⟩ := listed entry rfl
    refine Completes.bind ((useSymbol_records (.field entry.1) entry.2.1).mono ?_)
    rintro _ after ⟨recorded, finds⟩
    exact Completes.pure ⟨fun _ => ⟨finds, entry.1, entry.2.1, class_, recorded, member⟩,
      fun missing => absurd (exposed.mp rfl) missing⟩

/-- A call reports that there is no such method exactly if no class among the ancestors declares
one. -/
theorem call_exposes (name : Name) {args : List TypeRef}
    (argsHere : ∀ arg ∈ args, work.pool.Has arg) :
    Completes (call site index receiver name args span) work fun _ after =>
      (work.symbols.Exposes work.pool classType name .method → after.Finds work.reports) ∧
      (¬ work.symbols.Exposes work.pool classType name .method → ∃ text,
        after.reports = work.reports ++
          [{ code := .unknownMember, span, args := [text, name] }]) := by
  have ends : ∃ result final, (call site index receiver name args span).run work =
      .ok (result, final) :=
    (call_works receiverHere name argsHere sound).ends trivial
  suffices ensures : Ensures (call site index receiver name args span) work fun _ after =>
      (work.symbols.Exposes work.pool classType name .method → after.Finds work.reports) ∧
      (¬ work.symbols.Exposes work.pool classType name .method → ∃ text,
        after.reports = work.reports ++ [{ code := .unknownMember, span, args := [text, name] }]) by
    obtain ⟨result, final, ran⟩ := ends
    exact ⟨result, final, ran, ensures result final ran⟩
  have lenient : Completes (isLenient receiver) work fun answer after =>
    answer = false ∧ work = after := by
    unfold isLenient
    rw [← bind_pure (StageM.inspect _)]
    exact completes_inspect plain (Completes.pure ⟨rfl, rfl⟩)
  refine Ensures.bind ((lenient.runs True).ensures.mono ?_)
  rintro _ _ ⟨rfl, rfl⟩
  have classes : Completes (classTypeOf receiver) work fun result after =>
    classType = result ∧ work = after :=
    ⟨classType, work, looked, rfl, rfl⟩
  refine Ensures.bind ((classes.runs True).ensures.mono ?_)
  rintro _ _ ⟨rfl, rfl⟩
  have selected : Ensures (StageM.onPool (work.symbols.selectOverload classType name args)) work
      fun outcome after => ∃ pool, after = { work with pool } ∧ work.pool.Growth pool ∧
        (outcome = .error .noSuchMethod ↔
          ¬ work.symbols.Exposes work.pool classType name .method) := by
    intro outcome after ran
    obtain ⟨⟨_, pool⟩, chose, same⟩ := Except.bind_eq_ok ran
    cases same
    have held := sound.program.symbols
    exact ⟨pool, rfl,
      ((SymbolTable.selectOverload_builds held inPool name argsHere).ensures sound.valid
        _ _ chose).1,
      SymbolTable.selectOverload_noSuchMethod held inPool name sound.valid _ _ chose⟩
  refine Ensures.bind (Ensures.get (Ensures.bind (selected.mono ?_)))
  rintro outcome _ ⟨pool, rfl, growth, missing⟩
  have quiet {rest : StageM TypeRef} (differs : outcome ≠ .error .noSuchMethod)
      (finds : Finds work.reports rest) : Ensures rest { work with pool } fun _ after =>
        (work.symbols.Exposes work.pool classType name .method → after.Finds work.reports) ∧
        (¬ work.symbols.Exposes work.pool classType name .method → ∃ text,
          after.reports = work.reports ++
            [{ code := .unknownMember, span, args := [text, name] }]) :=
    (finds _ ⟨[], by simp, by simp⟩).mono fun _ _ found =>
      ⟨fun _ => found.1, fun none => absurd (missing.mpr none) differs⟩
  have returns {type : TypeRef} : Finds work.reports (pure type : StageM TypeRef) :=
    (finding _).pure trivial
  have unresolved : Finds work.reports (do
      resolveAs index .unresolved
      return .any : StageM TypeRef) := (finding _).andThen (modifyUnit_finds _) fun _ => returns
  cases outcome with
  | ok selection =>
    refine quiet nofun
      ((finding _).andThen ((finding _).forM fun fault _ => reportFault_finds span fault)
        fun _ => ?_)
    refine (finding _).andThen lift_finds fun symbol => ?_
    exact (finding _).andThen (useSymbol_finds _ symbol) fun _ => returns
  | error fault =>
    cases fault with
    | noSuchMethod =>
      have reported := @noMember_reports { work with pool } receiver span growth.valid
        (growth.has receiverHere) name
      refine Ensures.bind (((reported.runs True).ensures).mono fun _ after made => Ensures.pure ?_)
      exact ⟨fun exposes => absurd exposes (missing.mp rfl), fun _ => made⟩
    | noneApplicable =>
      refine quiet nofun ((finding _).bind ((finding _).mapM fun _ _ => display_finds)
        fun shown _ => ?_)
      exact (finding _).andThen (report_finds nofun) fun _ => unresolved
    | ambiguous count =>
      exact quiet nofun ((finding _).andThen (report_finds nofun) fun _ => unresolved)

end BodyM

namespace ClassHierarchy
open TypePool PoolM.Builds

theorem triviallyRelated_asks {pool : TypePool} {first second : TypeRef}
    (firstHere : pool.Has first) (secondHere : pool.Has second) :
    PoolM.Builds (triviallyRelated first second) pool fun _ after => after = pool := by
  unfold triviallyRelated
  split
  · exact pure rfl
  · obtain ⟨lenient, asked⟩ := firstHere.isLenient_eq
    obtain ⟨other, also⟩ := secondHere.isLenient_eq
    refine inspect asked ?_
    cases lenient with
    | true => exact pure rfl
    | false => exact answer also rfl

variable {hierarchy : ClassHierarchy} {pool : TypePool} {type above first : TypeRef}
    {param : ParamRef}
  {variance : Variance} {base class_ : Name}

/-- A class above the first bound of a variable is above the variable. -/
theorem isSuperclass_of_first_bound (held : hierarchy.HeldBy pool)
    (isVariable : pool.types[type.raw]? = some (.var param variance))
    (asked : pool.upperBound param = .ok first) (isClass : pool.OfClass first base)
    (ofClass : pool.OfClass above class_) (inherits : hierarchy.HasAncestor pool first class_) :
    PoolM.Builds (hierarchy.isSuperclass above type) pool fun answer _ => answer = true := by
  refine ofValid fun valid => bind (triviallyRelated_asks ofClass.has (has_of_lookup isVariable)) ?_
  rintro related between _ rfl
  cases related with
  | true => exact pure rfl
  | false =>
    refine bind (erasure_ofClass ofClass) ?_
    rintro _ between _ ⟨rfl, rfl⟩
    obtain ⟨declared, found⟩ := (valid.named _ _ _ isVariable).lookup
    have firstOf : declared.bounds.headD .any = first := by
      rw [upperBound, param_eq found] at asked
      exact Except.ok.inj asked
    refine inspect (node_eq isVariable) (inspect (param_eq found) ?_)
    -- no bound at all would leave `any`, which is no class type
    cases bounds : declared.bounds with
    | nil =>
      rw [bounds] at firstOf
      cases firstOf
      cases valid.isLenient_ofClass isClass
    | cons one rest =>
      rw [bounds] at firstOf
      cases firstOf
      refine bind (isSuperclassWithin_hasAncestor valid held ofClass isClass 63)
        fun answer _ _ decides => ?_
      rw [decides.mpr inherits]
      exact pure rfl

end ClassHierarchy

namespace BodyM
open StageM TypePool

section
variable {work : Workspace} {receiver first : TypeRef} {param : ParamRef} {variance : Variance}

/-- The members of a type variable are looked for in its first bound. -/
theorem classTypeOf_variable
    (isVariable : work.pool.types[receiver.raw]? = some (.var param variance))
    (asked : work.pool.upperBound param = .ok first) :
    (classTypeOf receiver).run work = .ok (first, work) := by
  obtain ⟨_, _, ran, rfl, rfl⟩ : Completes (classTypeOf receiver) work fun result after =>
    result = first ∧ after = work := by
    refine completes_inspect (node_eq isVariable) ?_
    change Completes (StageM.inspect (·.pool.upperBound param)) work _
    rw [← bind_pure (StageM.inspect _)]
    exact completes_inspect asked (Completes.pure ⟨rfl, rfl⟩)
  exact ran

theorem isLenient_variable {pool : TypePool} (valid : pool.Valid)
    (isVariable : pool.types[receiver.raw]? = some (.var param variance)) :
    pool.isLenient receiver = .ok false := by
  have notAny : receiver ≠ .any := by
    rintro rfl
    cases isVariable.symm.trans (valid.primitives.entries 0 .any rfl)
  unfold TypePool.isLenient isUnresolved
  rw [if_neg notAny, node_eq isVariable]
  rfl

/-- What the class types above the first bound of a type variable declare is found on an expression
of the variable, and they are above the variable; a name is reported as unknown exactly if no class
among the ancestors of the first bound declares it. -/
theorem variable_members_found (sound : work.Sound)
    (isVariable : work.pool.types[receiver.raw]? = some (.var param variance))
    (asked : work.pool.upperBound param = .ok first) (site : BodySite) (index : Nat) (span : Span)
    (name : Name) :
    (∀ above base class_ grown, work.pool.OfClass first base → work.pool.OfClass above class_ →
      (work.hierarchy.isSuperclass above first).run work.pool = .ok (true, grown) →
      (∃ after, (work.hierarchy.isSuperclass above receiver).run work.pool = .ok (true, after)) ∧
      (work.symbols.membersNamed class_ name .field ≠ [] →
        Completes (field site index receiver name span) work fun _ after =>
          after.Finds work.reports ∧
          ∃ id symbol owner, after.unit.resolutions.get? index = some (.field id) ∧
            (id, symbol) ∈ work.symbols.membersNamed owner name .field) ∧
      (work.symbols.membersNamed class_ name .method ≠ [] → ∀ args : List TypeRef,
        (∀ arg ∈ args, work.pool.Has arg) → Completes (call site index receiver name args span) work
          fun _ after => after.Finds work.reports)) ∧
    (¬ work.symbols.Exposes work.pool first name .field →
      Completes (field site index receiver name span) work fun _ after => ∃ text,
        after.reports = work.reports ++ [{ code := .unknownMember, span, args := [text, name] }]) ∧
    (¬ work.symbols.Exposes work.pool first name .method → ∀ args : List TypeRef,
      (∀ arg ∈ args, work.pool.Has arg) → Completes (call site index receiver name args span) work
        fun _ after => ∃ text, after.reports =
        work.reports ++ [{ code := .unknownMember, span, args := [text, name] }]) := by
  have valid := sound.valid
  have receiverHere := has_of_lookup isVariable
  have plain := isLenient_variable valid isVariable
  have looked := classTypeOf_variable isVariable asked
  have held : work.pool.Has first := valid.has_upperBound asked
  have fields := @field_exposes work receiver first site index span sound receiverHere plain
    looked held name
  have calls := @call_exposes work receiver first site index span sound receiverHere plain
    looked held name
  refine ⟨fun above base class_ grown isClass ofClass related => ?_, fun missing => ?_,
    fun missing args argsHere => ?_⟩
  · have inherits : work.hierarchy.HasAncestor work.pool first class_ := by
      obtain ⟨answer, _, ran, _, facts⟩ :=
        ClassHierarchy.isSuperclassWithin_hasAncestor valid sound.hierarchy ofClass isClass 64 valid
      cases ran.symm.trans related
      exact facts.mp rfl
    refine ⟨?_, fun declared => ?_, fun declared args argsHere => ?_⟩
    · obtain ⟨_, after, ran, _, rfl⟩ :=
        ClassHierarchy.isSuperclass_of_first_bound sound.hierarchy isVariable asked isClass ofClass
          inherits valid
      exact ⟨after, ran⟩
    · exact fields.mono fun _ _ facts => facts.1 ⟨class_, inherits, declared⟩
    · exact (calls argsHere).mono fun _ _ facts => facts.1 ⟨class_, inherits, declared⟩
  · exact fields.mono fun _ _ facts => facts.2 missing
  · exact (calls argsHere).mono fun _ _ facts => facts.2 missing

end

/-- A type variable `T` that is bounded by `Sub`, and a class `Base`. -/
def boundedPool : TypePool :=
  .ofEntries
    #[.any, .void, .int, .float, .bool, .char, .string, .var ⟨0⟩ .invariant, .class_ "Sub",
      .class_ "Base"]
    #[⟨"T", "pick", .invariant, [⟨8⟩]⟩]

def classSymbol (name : Name) (member : Nat) : Symbol :=
  { name, kind := .class_, unit := 0, member, access := .public_, span := .dummy }

/-- An integer member of `Base`. -/
def memberSymbol (name : Name) (kind : SymbolKind) (member : Nat) : Symbol :=
  { name, kind, unit := 0, member, owner := some "Base", access := .public_, span := .dummy,
    signature := some { type := .int } }

/-- `Base` has a field and a method, and `Sub` inherits them. -/
def boundedTable : SymbolTable where
  symbols := #[classSymbol "Base" 0, memberSymbol "x" .field 1, memberSymbol "m" .method 2,
    classSymbol "Sub" 3]
  classes := [{ symbol := 0, name := "Base", order := (0, 0), members := [1, 2] },
    { symbol := 3, name := "Sub", order := (0, 3), superclass := some ⟨9⟩ }]

theorem boundedTable_cases {number : Nat} {symbol : Symbol}
    (found : boundedTable.symbols[number]? = some symbol) :
    number = 0 ∧ symbol = classSymbol "Base" 0 ∨ number = 1 ∧ symbol = memberSymbol "x" .field 1 ∨
      number = 2 ∧ symbol = memberSymbol "m" .method 2 ∨ number = 3 ∧
      symbol = classSymbol "Sub" 3 := by
  match number with
  | 0 => exact .inl ⟨rfl, (Option.some.inj found).symm⟩
  | 1 => exact .inr (.inl ⟨rfl, (Option.some.inj found).symm⟩)
  | 2 => exact .inr (.inr (.inl ⟨rfl, (Option.some.inj found).symm⟩))
  | 3 => exact .inr (.inr (.inr ⟨rfl, (Option.some.inj found).symm⟩))
  | _ + 4 => cases found

/-- A body of a unit without members. -/
def boundedWork : Workspace where
  pool := boundedPool
  symbols := boundedTable
  unit := { id := 0, name := "main" }

theorem sound_boundedWork : boundedWork.Sound where
  program := {
    pool := (by decide : boundedPool.Valid)
    symbols := by
      refine ⟨fun record member => ?_, fun number symbol signature found published => ?_⟩
      · rcases List.mem_pair.mp (show record ∈ [_, _] from member) with rfl | rfl
        · exact ⟨by decide, by simp, by simp, by simp⟩
        · exact ⟨by decide, by simp, by simpa using (by decide : boundedWork.pool.Has ⟨9⟩), by simp⟩
      · have ofInt : signature = { type := .int } := by
          rcases boundedTable_cases found with ⟨_, rfl⟩ | ⟨_, rfl⟩ | ⟨_, rfl⟩ | ⟨_, rfl⟩ <;>
            cases published <;> rfl
        subst ofInt
        exact ⟨(by decide : boundedPool.Has .int), by simp, by simp⟩ }
  laid := ⟨rfl, by simp [boundedWork], by simp [boundedWork], by simp [boundedWork], by
    simp [boundedWork]⟩
  recorded := {
    patterns := PatternStore.sound_empty boundedPool
    types := by simp [boundedWork, IdMap.get?]
    resolutions := by simp [boundedWork, IdMap.get?]
    groups := by simp [boundedWork, IdMap.get?]
    copies := by simp [boundedWork, IdMap.get?]
    boundUses := by simp [boundedWork] }

/-- On an expression of the type `T`, the field and the method of `Base` are found, and no field `y`
is. -/
theorem variable_members_found_below :
    (∃ after, (boundedWork.hierarchy.isSuperclass ⟨9⟩ ⟨7⟩).run boundedWork.pool =
      .ok (true, after)) ∧
    ∀ site index span,
      (Completes (field site index ⟨7⟩ "x" span) boundedWork fun _ after => after.Finds [] ∧
        after.unit.resolutions.get? index = some (.field 1)) ∧
      (Completes (call site index ⟨7⟩ "m" [] span) boundedWork fun _ after => after.Finds []) ∧
      Completes (field site index ⟨7⟩ "y" span) boundedWork fun _ after => ∃ text,
        after.reports = [{ code := .unknownMember, span, args := [text, "y"] }] := by
  have isVariable : boundedWork.pool.types[7]? = some (.var ⟨0⟩ .invariant) := rfl
  have asked : boundedWork.pool.upperBound ⟨0⟩ = .ok ⟨8⟩ := rfl
  have isClass : boundedWork.pool.OfClass ⟨8⟩ "Sub" := rfl
  have ofClass : boundedWork.pool.OfClass ⟨9⟩ "Base" := rfl
  have related : (boundedWork.hierarchy.isSuperclass ⟨9⟩ ⟨8⟩).run boundedWork.pool =
      .ok (true, boundedWork.pool) := rfl
  have missing : ¬ boundedTable.Exposes boundedPool ⟨8⟩ "y" .field := by
    rintro ⟨class_, _, some_⟩
    obtain ⟨entry, member⟩ := List.exists_mem_of_ne_nil _ some_
    rcases boundedTable_cases (SymbolTable.mem_findMembers member) with ⟨_, same⟩ | ⟨_, same⟩ |
      ⟨_, same⟩ | ⟨_, same⟩ <;>
      simpa [same, classSymbol, memberSymbol] using SymbolTable.findMembers_passes member
  refine ⟨((variable_members_found sound_boundedWork isVariable asked default 0 .dummy "x").1
    ⟨9⟩ "Sub" "Base" _ isClass ofClass related).1, fun site index span => ⟨?_, ?_, ?_⟩⟩
  · refine (((variable_members_found sound_boundedWork isVariable asked site index span "x").1
      ⟨9⟩ "Sub" "Base" _ isClass ofClass related).2.1 (by decide)).mono ?_
    rintro _ after ⟨finds, id, symbol, owner, recorded, member⟩
    have passed := SymbolTable.findMembers_passes member
    rcases boundedTable_cases (SymbolTable.mem_findMembers member) with
      ⟨_, rfl⟩ | ⟨rfl, _⟩ | ⟨_, rfl⟩ | ⟨_, rfl⟩
    · simp [classSymbol] at passed
    · exact ⟨finds, recorded⟩
    · simp [memberSymbol] at passed
    · simp [classSymbol] at passed
  · exact ((variable_members_found sound_boundedWork isVariable asked site index span "m").1
      ⟨9⟩ "Sub" "Base" _ isClass ofClass related).2.2 (by decide) [] (by simp)
  · exact (variable_members_found sound_boundedWork isVariable asked site index span "y").2.1
      missing

end BodyM

namespace Session

/-- `B` has a field and a method. `T` is bounded by another variable in one method, whose bound is
`B`, and in the other method by `A` first and then by `B`. -/
def boundsUnit : SourceUnit where
  name := "main"
  classes := [
    { name := "A", span := ⟨0, 1⟩ },
    { name := "B", span := ⟨2, 3⟩
      fields := [{ name := "x", type := .named "int" [] ⟨4, 7⟩, span := ⟨8, 9⟩ }]
      methods := [
        { name := "m", returns := .named "int" [] ⟨10, 13⟩, body := some (.node 4)
          span := ⟨14, 15⟩ }] },
    { name := "Main", span := ⟨20, 21⟩
      methods := [
        { name := "chain", returns := .named "int" [] ⟨24, 27⟩, body := some (.node 1),
          span := ⟨22, 23⟩
          typeParams := [{ name := "T", bounds := [.named "U" [] ⟨30, 31⟩], span := ⟨28, 29⟩ },
            { name := "U", bounds := [.named "B" [] ⟨34, 35⟩], span := ⟨32, 33⟩ }]
          params := [{ name := "t", type := .named "T" [] ⟨36, 37⟩, span := ⟨38, 39⟩ }] },
        { name := "second", returns := .named "int" [] ⟨56, 59⟩, body := some (.node 3),
          span := ⟨40, 41⟩
          typeParams := [
            { name := "T", bounds := [.named "A" [] ⟨44, 45⟩, .named "B" [] ⟨46, 47⟩]
              span := ⟨42, 43⟩ }]
          params := [{ name := "t", type := .named "T" [] ⟨48, 49⟩, span := ⟨54, 55⟩ }] }] }]
  arena := { exprs := #[
    ⟨.ident "t", ⟨50, 51⟩⟩, ⟨.field (.node 0) "x", ⟨50, 53⟩⟩, ⟨.ident "t", ⟨60, 61⟩⟩,
    ⟨.call (some (.node 2)) "m" [], ⟨60, 65⟩⟩, ⟨.literal (.int 0), ⟨16, 17⟩⟩] }

/-- The receiver has the type of the variable and the class is above it and declares a member of the
name, but the unit reports that the variable has none. -/
def Misses (done : Session) (receiver : Nat) (param : ParamRef) (above : TypeRef)
    (class_ name : Name) (kind : SymbolKind) :
    Prop :=
  done.program.pool.OfClass above class_ ∧ done.program.symbols.membersNamed class_ name kind ≠ [] ∧
  ∃ unit ∈ done.units, (∃ type ∈ unit.exprTypes.get? receiver,
    done.program.pool.types[type.raw]? = some (.var param .invariant) ∧
    ((done.program.symbols.hierarchy.isSuperclass above type).run done.program.pool).map
      Prod.fst = .ok true) ∧
  ∃ report ∈ unit.diagnostics.diagnostics, report.code = .unknownMember ∧ report.args = ["T", name]

instance (done : Session) (receiver : Nat) (param : ParamRef) (above : TypeRef) (class_ name : Name)
    (kind : SymbolKind) : Decidable (done.Misses receiver param above class_ name kind) :=
  inferInstanceAs (Decidable (_ ∧ _))

/-- If the first bound of a variable is a variable, what the bound of that one declares is missed,
and so is what a later bound declares. -/
theorem variable_members_missed : ∃ done, compile { sources := [boundsUnit] } = .ok (.ok done) ∧
    done.Misses 0 ⟨0⟩ ⟨8⟩ "B" "x" .field ∧ done.Misses 2 ⟨2⟩ ⟨8⟩ "B" "m" .method := by
  obtain ⟨done, ran, misses⟩ := exists_run { sources := [boundsUnit] }
    (fun done => done.Misses 0 ⟨0⟩ ⟨8⟩ "B" "x" .field ∧ done.Misses 2 ⟨2⟩ ⟨8⟩ "B" "m" .method)
    (by decide +kernel)
  exact ⟨done, congrArg Except.ok ran, misses⟩

end Session
end ClassLang
