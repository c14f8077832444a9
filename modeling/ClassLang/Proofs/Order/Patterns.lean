import ClassLang.Proofs.Order.Hierarchy
import ClassLang.Proofs.Pattern.Typing

/-! Patterns in two runs: typing renamed patterns makes renamed copies, the values that patterns
leave out are the same, and so is the code of a match. -/

namespace ClassLang

instance : Renamable PatternNode :=
  ⟨fun rename node => { node with type := rename.on node.type, subject := rename.on node.subject },
    fun rename node => by simp⟩

instance : Renamable PatternStore where
  apply rename store := ⟨store.nodes.map rename.on⟩
  cancel rename store := by simp [Function.comp_def]

instance : Renamable CompileState :=
  ⟨fun rename state => { state with store := rename.on state.store }, fun rename state => by simp⟩

instance : Renamable MatchGroup :=
  ⟨fun rename group => { group with subject := rename.on group.subject },
    fun rename group => by simp⟩

def PatternFault.renamed (rename : Renaming) : PatternFault → PatternFault
  | .impossible pattern subject span => .impossible (rename.on pattern) (rename.on subject) span
  | .arity class_ expected found span => .arity class_ expected found span

instance : Renamable PatternFault :=
  ⟨PatternFault.renamed, fun rename fault => by cases fault <;> simp [PatternFault.renamed]⟩

instance : Plain Head := .fixed Head
instance : Plain Slot := .fixed Slot
instance : Plain JumpLabel := .fixed JumpLabel
instance : Plain Instruction := .fixed Instruction
instance : Plain Strategy := .fixed Strategy
instance : Plain PatternKind := .fixed PatternKind

/-! The store. -/

namespace PatternStore

variable (rename : Renaming) (store : PatternStore)

@[simp] theorem size_on : (rename.on store).size = store.size := Array.size_map

theorem node_on (id : Nat) : (rename.on store).node id = (store.node id).map rename.on := by
  unfold PatternStore.node
  rw [show (rename.on store).nodes = store.nodes.map rename.on from rfl, Array.getElem?_map]
  cases store.nodes[id]? <;> rfl

theorem kind_on (id : Nat) : (rename.on store).kind id = store.kind id := by
  unfold PatternStore.kind
  rw [node_on]
  cases store.node id <;> rfl

theorem isWildcard_on (id : Nat) : (rename.on store).isWildcard id = store.isWildcard id := by
  unfold PatternStore.isWildcard
  rw [kind_on]

theorem isIrrefutableWithin_on (depth : Nat) :
    (rename.on store).isIrrefutableWithin depth = store.isIrrefutableWithin depth := by
  induction depth with
  | zero => rfl
  | succ depth ih =>
    funext id
    unfold PatternStore.isIrrefutableWithin
    rw [node_on, ih]
    cases store.node id <;> rfl

theorem isIrrefutable_on : (rename.on store).isIrrefutable = store.isIrrefutable := by
  funext id
  unfold PatternStore.isIrrefutable
  rw [isIrrefutableWithin_on, size_on]

theorem isSwitchable_on (id : Nat) : (rename.on store).isSwitchable id = store.isSwitchable id := by
  unfold PatternStore.isSwitchable
  simp only [kind_on, isIrrefutable_on]

theorem deconstructedWithin_on (depth : Nat) :
    (rename.on store).deconstructedWithin depth = store.deconstructedWithin depth := by
  induction depth with
  | zero => rfl
  | succ depth ih =>
    funext id
    unfold PatternStore.deconstructedWithin
    rw [node_on, ih]
    cases store.node id <;> rfl

theorem deconstructed_on (id : Nat) :
    (rename.on store).deconstructed id = store.deconstructed id := by
  unfold PatternStore.deconstructed
  rw [deconstructedWithin_on, size_on]

theorem ofStoreWithin_on (depth : Nat) :
    Shape.ofStoreWithin (rename.on store) depth = Shape.ofStoreWithin store depth := by
  induction depth with
  | zero => rfl
  | succ depth ih =>
    funext id
    unfold Shape.ofStoreWithin
    rw [kind_on, ih]

theorem ofStore_on (id : Nat) : Shape.ofStore (rename.on store) id = Shape.ofStore store id := by
  unfold Shape.ofStore
  rw [ofStoreWithin_on, size_on]

/-- The names that a pattern binds have renamed types. -/
theorem bindingsWithin_on : ∀ (depth id : Nat),
    Corresponds rename.on (store.bindingsWithin depth id)
      ((rename.on store).bindingsWithin depth id)
  | 0, _ => .failLeft _
  | depth + 1, id => by
    unfold PatternStore.bindingsWithin
    rw [node_on]
    cases store.node id with
    | error fault => exact .failLeft fault
    | ok node =>
      have bound :
          (if (rename.on node.subject).isAbsent then TypeRef.any else rename.on node.subject) =
          rename.on (if node.subject.isAbsent then .any else node.subject) := by
        rw [rename.isAbsent_on]
        split
        · exact rename.on_any.symm
        · rfl
      simp only [Except.map, ok_bind]
      rw [show (rename.on node).kind = node.kind from rfl]
      cases node.kind with
      | wildcard => exact .ok rfl
      | constant value => exact .ok rfl
      | binding name inner =>
        cases inner with
        | none => exact .ok (congrArg (fun type => [(name, type)]) bound)
        | some inner =>
          exact (bindingsWithin_on depth inner).bind fun found =>
            .ok (congrArg (fun type => (name, type) :: rename.on found) bound)
      | deconstruct name fields =>
        exact (Corresponds.mapM_plain fun field _ => bindingsWithin_on depth field).bind
          fun found => .ok (rename.flatten_on found)

theorem bindings_on (id : Nat) :
    Corresponds rename.on (store.bindings id) ((rename.on store).bindings id) := by
  unfold PatternStore.bindings
  rw [size_on]
  exact bindingsWithin_on rename store _ id

theorem push_on (node : PatternNode) :
    (rename.on store).push (rename.on node) = rename.on (store.push node) := by
  unfold PatternStore.push
  rw [size_on]
  exact congrArg (fun nodes => (store.size, PatternStore.mk nodes)) Array.map_push.symm

theorem renamed_node (kind : PatternKind) (span : Span) (type subject : TypeRef)
    (ownClass : Option Name) (state : PatternState) :
    rename.on (PatternNode.mk kind span type subject ownClass state) =
      PatternNode.mk kind span (rename.on type) (rename.on subject) ownClass state := rfl

theorem alloc_on (kind : PatternKind) (span : Span) :
    (rename.on store).alloc kind span = rename.on (store.alloc kind span) := by
  have wild := push_on rename store { kind := .wildcard, span, type := .any, state := .typed }
  have other := push_on rename store { kind, span }
  rw [renamed_node, rename.on_any, rename.on_absent] at wild
  rw [renamed_node, rename.on_absent] at other
  cases kind with
  | wildcard => exact wild
  | _ => exact other

theorem markCompiled_on (id : Nat) :
    (rename.on store).markCompiled id = rename.on (store.markCompiled id) := by
  unfold PatternStore.markCompiled
  rw [show (rename.on store).nodes = store.nodes.map rename.on from rfl, Array.getElem?_map]
  cases store.nodes[id]? with
  | none => rfl
  | some node =>
    refine congrArg PatternStore.mk ?_
    exact (Array.map_setIfInBounds (a := { node with state := .compiled })).symm

/-- Copying a written pattern does not look at types. -/
theorem importWithin_on (arena : Arena) : ∀ (depth index : Nat),
    (rename.states PatternStore).Agree rename.on (importWithin arena depth index)
      (importWithin arena depth index)
  | 0, _ => .throw _ _
  | depth + 1, index => by
    refine (Setting.Agree.lift (Corresponds.refl (arena.pattern index))).bind fun pattern => ?_
    have enter : ∀ kind : PatternKind, (rename.states PatternStore).Agree rename.on
        (modifyGet (·.alloc kind pattern.span) : StoreM Nat)
        (modifyGet (·.alloc kind pattern.span)) := fun kind =>
      Renaming.states.modifyGet fun store => alloc_on rename store kind pattern.span
    obtain ⟨kind, span⟩ := pattern
    cases kind with
    | binding name inner =>
      cases inner with
      | none => exact enter (.binding name none)
      | some inner =>
        exact (importWithin_on arena depth inner).bindPlain fun inner =>
          enter (.binding name (some inner))
    | deconstruct name fields =>
      exact (Setting.Agree.mapM_plain fun field _ => importWithin_on arena depth field).bindPlain
        fun fields => enter (.deconstruct name fields)
    | wildcard => exact enter .wildcard
    | constant value => exact enter (.constant value)

theorem importFrom_on (arena : Arena) (index : Nat) :
    Corresponds rename.on ((importFrom arena index).run store)
      ((importFrom arena index).run (rename.on store)) :=
  Renaming.states.run (importWithin_on rename arena _ index) store

end PatternStore

/-! Typing. -/

namespace Comparison

variable {compare : Comparison} {hierarchy hierarchy' : ClassHierarchy}

/-- Typing that starts from renamed patterns comes to renamed results and patterns. -/
def Types {α : Type} [Renamable α] (compare : Comparison) (first second : TypingM α) : Prop :=
  ∀ store : PatternStore, compare.Agrees (first.run.run store)
    (second.run.run (compare.rename.on store))

namespace Types

variable {α β : Type} [Renamable α] [Renamable β]

theorem pure {value value' : α} (same : value' = compare.rename.on value) :
    compare.Types (Pure.pure value) (Pure.pure value') :=
  fun store => Setting.Agree.pure
    (congrArg (fun value => (Except.ok value, compare.rename.on store)) same)

theorem throw {fault fault' : PatternFault} (same : fault' = compare.rename.on fault) :
    compare.Types (MonadExcept.throw fault : TypingM α) (MonadExcept.throw fault') :=
  fun store => Setting.Agree.pure
    (congrArg (fun fault => (Except.error fault, compare.rename.on store)) same)

theorem bind {first second : TypingM α} {rest rest' : α → TypingM β}
    (done : compare.Types first second)
    (goesOn : ∀ value, compare.Types (rest value) (rest' (compare.rename.on value))) :
    compare.Types (first >>= rest) (second >>= rest') := by
  intro store
  rw [TypingM.Works.run_bind, TypingM.Works.run_bind]
  refine Setting.Agree.bind (done store) fun result => ?_
  obtain ⟨outcome, after⟩ := result
  cases outcome with
  | error fault => exact .pure rfl
  | ok value => exact goesOn value after

theorem onPool {action action' : PoolM α} (same : compare.Agrees action action') :
    compare.Types (PatternStore.onPool action) (PatternStore.onPool action') := by
  intro store
  rw [TypingM.Works.run_onPool, TypingM.Works.run_onPool]
  exact same.bind fun value => .pure rfl

theorem get {rest rest' : PatternStore → TypingM α}
    (each : ∀ store, compare.Types (rest store) (rest' (compare.rename.on store))) :
    compare.Types (MonadState.get >>= rest) (MonadState.get >>= rest') :=
  fun store => each store store

theorem modifyGet {change change' : PatternStore → α × PatternStore}
    (each : ∀ store, change' (compare.rename.on store) = compare.rename.on (change store)) :
    compare.Types (modifyGetThe PatternStore change : TypingM α)
      (modifyGetThe PatternStore change') := by
  intro store
  refine Setting.Agree.pure ?_
  rw [each]
  rfl

end Types

section
variable (bounded : compare.rename.Bounds compare.params compare.params')
  (classes : compare.rename.Classes hierarchy hierarchy')
include bounded classes

theorem couldMatchWithin_agrees (depth depth' : Nat) :
    compare.Tests (couldMatchWithin hierarchy depth) (couldMatchWithin hierarchy' depth') := by
  intro subject pattern
  refine Setting.Agree.fuel (fun depth (entry : TypeRef × TypeRef) =>
      couldMatchWithin hierarchy depth entry.1 entry.2)
    (fun depth entry => couldMatchWithin hierarchy' depth (compare.rename.on entry.1)
      (compare.rename.on entry.2))
    (fun _ => .inl ⟨_, rfl, rfl⟩) (fun depth depth' ih entry => ?_) depth depth' (subject, pattern)
  obtain ⟨subject, pattern⟩ := entry
  refine .branch (isLenient_agrees subject) (.pure rfl) ?_
  refine .branch (isLenient_agrees pattern) (.pure rfl) ?_
  refine (node_agrees subject).bind fun node => ?_
  cases node with
  | var param variance =>
    exact (upperBound_agrees bounded param).bind fun bound => ih (bound, pattern)
  | wildcard variance bound =>
    cases variance with
    | covariant => exact ih (bound, pattern)
    | _ => exact .pure rfl
  | _ =>
    exact .branch (isSuperclass_agrees bounded classes subject pattern) (.pure rfl)
      (isSuperclass_agrees bounded classes pattern subject)

theorem couldMatch_agrees : compare.Tests (couldMatch hierarchy) (couldMatch hierarchy') :=
  fun subject pattern => .get fun _ _ _ _ _ =>
    couldMatchWithin_agrees bounded classes _ _ subject pattern

omit bounded classes in
theorem pushTyped_types (kind : PatternKind) (span : Span) (type subject : TypeRef) :
    compare.Types (PatternStore.pushTyped kind span type subject)
      (PatternStore.pushTyped kind span (compare.rename.on type) (compare.rename.on subject)) := by
  refine (Types.onPool (baseName?_agrees subject)).bind fun ownClass => ?_
  rw [compare.rename.on_plain]
  exact .modifyGet fun store => PatternStore.push_on compare.rename store
    { kind, span, type, subject, ownClass, state := .typed }

omit bounded classes in
theorem typeFields_types {typeField typeField' : Nat → TypeRef → TypingM Nat}
    (each : ∀ field component, compare.Types (typeField field component)
      (typeField' field (compare.rename.on component))) :
    ∀ (fields : List Nat) (components : List TypeRef),
      compare.Types (PatternStore.typeFields typeField fields components)
        (PatternStore.typeFields typeField' fields (compare.rename.on components))
  | [], _ => .pure rfl
  | _ :: _, [] => .pure rfl
  | field :: fields, component :: components =>
    (each field component).bind fun _ =>
      (typeFields_types each fields components).bind fun _ => .pure rfl

theorem typeWithin_types : ∀ (depth id : Nat) (subject : TypeRef),
    compare.Types (PatternStore.typeWithin hierarchy depth id subject)
      (PatternStore.typeWithin hierarchy' depth id (compare.rename.on subject))
  | 0, _, _ => .onPool (.throw _ _)
  | depth + 1, id, subject => by
    have fixed := compare.rename.on_literal
    refine .get fun store => ?_
    refine (Types.onPool (.lift ?_)).bind fun node => ?_
    · rw [PatternStore.node_on]
      cases store.node id with
      | error fault => exact .failLeft fault
      | ok node => exact .ok rfl
    obtain ⟨kind, span, type, own, ownClass, state⟩ := node
    cases kind with
    | wildcard => exact .pure rfl
    | constant value =>
      have could := couldMatch_agrees bounded classes subject value.type
      have push : compare.Types (PatternStore.pushTyped (.constant value) span value.type subject)
          (PatternStore.pushTyped (.constant value) span (compare.rename.on value.type)
            (compare.rename.on subject)) := pushTyped_types _ span _ subject
      rw [fixed] at could push
      refine (Types.onPool could).bind fun possible => ?_
      cases possible with
      | true => exact push
      | false =>
        refine .throw (congrArg (PatternFault.impossible · _ span) (fixed value).symm)
    | binding name inner =>
      cases inner with
      | none => exact pushTyped_types _ span subject subject
      | some inner =>
        exact (typeWithin_types depth inner subject).bind fun inner =>
          pushTyped_types (.binding name (some inner)) span subject subject
    | deconstruct name fields =>
      refine (Types.onPool (class_agrees name)).bind fun classType => ?_
      refine (Types.onPool (couldMatch_agrees bounded classes subject classType)).bind
        fun possible => ?_
      cases possible with
      | false => exact fun store => .pure rfl
      | true =>
        refine (Types.onPool (narrow_agrees classes name subject)).bind fun type => ?_
        refine (Types.onPool (componentsOf_agrees classes type)).bind fun components => ?_
        dsimp only
        rw [compare.rename.length_on]
        by_cases fits : components.length = fields.length
        · rw [if_neg (not_not.mpr fits), if_neg (not_not.mpr fits)]
          refine (typeFields_types (typeWithin_types depth) fields components).bind fun typed => ?_
          rw [compare.rename.on_plain]
          exact pushTyped_types (.deconstruct name typed) span type subject
        · rw [if_pos fits, if_pos fits]
          exact fun store => .pure rfl

theorem typeAgainst_types (id : Nat) (subject : TypeRef) :
    compare.Types (PatternStore.typeAgainst hierarchy id subject)
      (PatternStore.typeAgainst hierarchy' id (compare.rename.on subject)) := by
  refine .get fun store => ?_
  rw [PatternStore.size_on]
  exact typeWithin_types bounded classes _ id subject

end

/-- The report of a fault is the same. -/
theorem Holds.patternDiagnostic {pool pool' : TypePool} (holds : compare.Holds pool pool')
    (fault : PatternFault) :
    Corresponds compare.rename.on (fault.toDiagnostic pool)
      ((compare.rename.on fault).toDiagnostic pool') := by
  cases fault with
  | impossible pattern subject span =>
    exact (holds.display pattern).bind fun _ => (holds.display subject).bind fun _ => .ok rfl
  | arity class_ expected found span => exact .ok rfl

/-! Coverage. -/

/-- A usefulness test has the same answers. -/
def Uses (compare : Comparison) (test test' : UsefulTest) : Prop :=
  ∀ rows row types, compare.Agrees (test rows row types) (test' rows row (compare.rename.on types))

section
variable (bounded : compare.rename.Bounds compare.params compare.params')
  (classes : compare.rename.Classes hierarchy hierarchy')
include bounded classes

theorem Holds.domainWithin {pool pool' : TypePool} (holds : compare.Holds pool pool') :
    ∀ (depth depth' : Nat) (type : TypeRef),
      Corresponds compare.rename.on (hierarchy.domainWithin pool depth type)
        (hierarchy'.domainWithin pool' depth' (compare.rename.on type))
  | 0, _, _ => .failLeft _
  | _, 0, _ => .failRight _
  | depth + 1, depth' + 1, type => by
    refine (holds.isLenient type).bind fun lenient => ?_
    refine .ite Iff.rfl (fun _ => .ok rfl) fun _ => (holds.node type).bind fun node => ?_
    cases node with
    | class_ name =>
      rw [show compare.rename.on (TypeNode.class_ name) = .class_ name from rfl]
      simp only [classes.variants, classes.isAbstract]
      exact .same rfl
    | applied base args =>
      rw [show compare.rename.on (TypeNode.applied base args) =
        .applied base (compare.rename.on args) from rfl]
      simp only [classes.variants, classes.isAbstract]
      exact .same rfl
    | var param variance =>
      exact (holds.upperBound bounded param).bind fun bound => domainWithin holds depth depth' bound
    | wildcard variance bound =>
      cases variance with
      | covariant => exact domainWithin holds depth depth' bound
      | _ => exact .ok rfl
    | _ => exact .ok rfl

theorem domain_agrees (type : TypeRef) :
    compare.Agrees (PoolM.inspect (hierarchy.domain · type))
      (PoolM.inspect (hierarchy'.domain · (compare.rename.on type))) :=
  inspect fun _ _ holds => Holds.domainWithin bounded classes holds _ _ type

omit bounded in
theorem argTypes_agrees (head : Head) (type : TypeRef) :
    compare.Agrees (hierarchy.argTypes head type)
      (hierarchy'.argTypes head (compare.rename.on type)) := by
  cases head with
  | class_ name =>
    exact (narrow_agrees classes name type).bind fun narrowed =>
      componentsOf_agrees classes narrowed
  | _ => exact .pure rfl

omit bounded in
theorem usefulHead_agrees {deeper deeper' : UsefulTest} (uses : compare.Uses deeper deeper')
    (rows : List Row) (head : Head) (args : List Shape) (rest : Row) (type : TypeRef)
    (restTypes : List TypeRef) :
    compare.Agrees (hierarchy.usefulHead deeper rows head args rest type restTypes)
      (hierarchy'.usefulHead deeper' rows head args rest (compare.rename.on type)
        (compare.rename.on restTypes)) := by
  refine (argTypes_agrees classes head type).bind fun argTypes => ?_
  have types : (compare.rename.on argTypes).take args.length ++
      List.replicate (args.length - (compare.rename.on argTypes).length) TypeRef.any ++
        compare.rename.on restTypes =
      compare.rename.on (argTypes.take args.length ++
        List.replicate (args.length - argTypes.length) .any ++ restTypes) := by
    simp [compare.rename.on_list]
  dsimp only
  rw [types]
  refine (uses _ (args ++ rest) _).bindPlain fun witness => ?_
  cases witness with
  | none => exact .pure rfl
  | some witness => exact .pure (compare.rename.on_plain _).symm

omit bounded in
theorem missingHead_agrees (domain : Domain) (used : List Head) (type : TypeRef) :
    compare.Agrees (hierarchy.missingHead domain used type)
      (hierarchy'.missingHead domain used (compare.rename.on type)) := by
  cases domain with
  | infinite => exact .pure rfl
  | finite heads =>
    refine .ite Iff.rfl (fun _ => .pure rfl) fun _ => ?_
    cases heads.find? (!used.contains ·) with
    | none => exact .pure rfl
    | some head =>
      refine (argTypes_agrees classes head type).bind fun argTypes => ?_
      rw [compare.rename.length_on]
      exact .pure rfl

theorem usefulStep_agrees {deeper deeper' : UsefulTest} (uses : compare.Uses deeper deeper') :
    compare.Uses (hierarchy.usefulStep deeper) (hierarchy'.usefulStep deeper') := by
  intro rows row
  induction row generalizing rows with
  | nil => exact fun types => .pure (compare.rename.on_plain _).symm
  | cons shape rest ih =>
    intro types
    have headType := compare.rename.headD_any_on types
    have tail : (compare.rename.on types).tail = compare.rename.on types.tail := by
      cases types <;> rfl
    cases shape with
    | node head args =>
      unfold ClassHierarchy.usefulStep
      rw [headType, tail]
      exact usefulHead_agrees classes uses rows head args rest _ _
    | wild =>
      unfold ClassHierarchy.usefulStep
      dsimp only
      rw [headType, tail]
      refine (domain_agrees bounded classes (types.headD .any)).bindPlain fun domain => ?_
      have missing := missingHead_agrees classes domain (rows.filterMap Row.leading?)
        (types.headD .any)
      have others := ih (rows.filterMap Row.default?) types.tail
      cases domain with
      | infinite =>
        refine others.bindPlain fun witness => ?_
        cases witness with
        | none => exact .pure rfl
        | some witness => exact missing.bindPlain fun head => .pure (compare.rename.on_plain _).symm
      | finite heads =>
        refine .ite Iff.rfl (fun _ => .findSomeM?_plain fun head _ => ?_) fun _ => ?_
        · refine (argTypes_agrees classes head (types.headD .any)).bind fun argTypes => ?_
          rw [compare.rename.length_on]
          exact usefulHead_agrees classes uses rows head _ rest _ _
        · refine others.bindPlain fun witness => ?_
          cases witness with
          | none => exact .pure rfl
          | some witness =>
            exact missing.bindPlain fun head => .pure (compare.rename.on_plain _).symm

theorem usefulWithin_agrees : ∀ constructors : Nat,
    compare.Uses (hierarchy.usefulWithin constructors) (hierarchy'.usefulWithin constructors)
  | 0 => usefulStep_agrees bounded classes fun _ _ _ => .throw _ _
  | constructors + 1 => usefulStep_agrees bounded classes (usefulWithin_agrees constructors)

theorem useful_agrees : compare.Uses hierarchy.useful hierarchy'.useful :=
  fun rows row types => usefulWithin_agrees bounded classes _ rows row types

theorem missingValues_agrees (rows : List Row) (subject : TypeRef) :
    compare.Agrees (hierarchy.missingValues rows subject)
      (hierarchy'.missingValues rows (compare.rename.on subject)) := by
  refine (useful_agrees bounded classes rows [.wild] [subject]).bindPlain fun first => ?_
  cases first with
  | none => exact .pure rfl
  | some first =>
    refine (domain_agrees bounded classes subject).bindPlain fun domain => ?_
    cases domain with
    | infinite => exact .pure (compare.rename.on_plain _).symm
    | finite heads =>
      refine bindPlain (.filterMapM_plain fun head _ => ?_) fun missing =>
        .pure (compare.rename.on_plain _).symm
      refine (argTypes_agrees classes head subject).bind fun argTypes => ?_
      rw [compare.rename.length_on]
      exact (useful_agrees bounded classes rows _ [subject]).bindPlain fun witness =>
        .pure (compare.rename.on_plain _).symm

theorem armRows_agrees (store : PatternStore) (subject : TypeRef) :
    ∀ (before : List Row) (arms : List (Nat × Nat)),
      compare.Agrees (hierarchy.armRows store subject before arms)
        (hierarchy'.armRows (compare.rename.on store) (compare.rename.on subject) before arms)
  | before, [] => .pure (compare.rename.on_plain _).symm
  | before, (index, id) :: rest => by
    unfold ClassHierarchy.armRows
    rw [PatternStore.ofStore_on]
    refine (Setting.Agree.lift (.refl _)).bind fun shape => ?_
    refine (useful_agrees bounded classes before [shape] [subject]).bindPlain fun witness => ?_
    exact (armRows_agrees store subject (before ++ [[shape]]) rest).bindPlain fun result =>
      .pure (compare.rename.on_plain _).symm

theorem analyzeArms_agrees (store : PatternStore) (arms : List (Option Nat)) (subject : TypeRef) :
    compare.Agrees (analyzeArms hierarchy store arms subject)
      (analyzeArms hierarchy' (compare.rename.on store) arms (compare.rename.on subject)) := by
  refine (armRows_agrees bounded classes store subject [] _).bindPlain fun result => ?_
  exact (missingValues_agrees bounded classes result.1 subject).bindPlain fun missing =>
    .pure (compare.rename.on_plain _).symm

theorem check_agrees (group : MatchGroup) (store : PatternStore) :
    compare.Agrees (group.check hierarchy store)
      ((compare.rename.on group).check hierarchy' (compare.rename.on store)) := by
  refine (analyzeArms_agrees bounded classes store _ group.subject).bindPlain fun coverage => ?_
  refine bindPlain (inspect fun _ _ holds => holds.containsUnresolved group.subject)
    fun excused => ?_
  refine bindPlain (.allM_plain fun arm _ => ?_) fun switchable =>
    .pure (compare.rename.on_plain _).symm
  cases arm.pattern with
  | none => exact .pure rfl
  | some id =>
    dsimp only
    rw [PatternStore.isSwitchable_on]
    exact .lift (.same rfl)

end
end Comparison
end ClassLang
