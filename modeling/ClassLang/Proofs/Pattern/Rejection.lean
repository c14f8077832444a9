import ClassLang.Proofs.Pattern.Typing
import ClassLang.Proofs.Type.BreadthFirst

/-! Patterns rejected as impossible. The test looks at the class of the subject and that of the
pattern only, so a third class may inherit from both all the same; it does exactly where a class it
inherits from declares two supertypes that lead to them on separate ways. -/

namespace ClassLang
open Relation

/-- Two ways from one place part somewhere, unless one of their ends leads to the other. -/
theorem exists_parting {step : α → α → Prop} {start left right : α}
    (toLeft : ReflTransGen step start left) (toRight : ReflTransGen step start right)
    (notRight : ¬ ReflTransGen step left right) (notLeft : ¬ ReflTransGen step right left) :
    ∃ middle first second, ReflTransGen step start middle ∧ step middle first ∧ step middle second ∧
      first ≠ second ∧ ReflTransGen step first left ∧ ReflTransGen step second right := by
  induction toLeft using ReflTransGen.head_induction_on with
  | refl => exact absurd toRight notRight
  | @head start first holds rest ih =>
    rcases toRight.cases_head with rfl | ⟨second, other, further⟩
    · exact absurd (.head holds rest) notLeft
    · by_cases same : first = second
      · subst same
        obtain ⟨middle, left, right, reaches, parting⟩ := ih further
        exact ⟨middle, left, right, .head holds reaches, parting⟩
      · exact ⟨start, first, second, .refl, holds, other, same, rest, further⟩

namespace ClassHierarchy
open TypePool PoolM.Builds

variable {hierarchy : ClassHierarchy} {pool : TypePool} {subject pattern : TypeRef}
    {name base class_ : Name}

/-- The class or one that it inherits from declares two supertypes, of which one leads to `left` and
the other to `right`. -/
def Forks (hierarchy : ClassHierarchy) (pool : TypePool) (name left right : Name) : Prop :=
  ∃ middle first second, ReflTransGen (hierarchy.Inherits pool) name middle ∧
    hierarchy.Inherits pool middle first ∧ hierarchy.Inherits pool middle second ∧ first ≠ second ∧
    ReflTransGen (hierarchy.Inherits pool) first left ∧
    ReflTransGen (hierarchy.Inherits pool) second right

/-- Of two classes that do not inherit from each other, a class inherits from both exactly where its
ancestors fork. -/
theorem inherits_both_iff (notLeft : ¬ ReflTransGen (hierarchy.Inherits pool) base class_)
    (notRight : ¬ ReflTransGen (hierarchy.Inherits pool) class_ base) :
    ReflTransGen (hierarchy.Inherits pool) name base ∧
    ReflTransGen (hierarchy.Inherits pool) name class_ ↔
      hierarchy.Forks pool name base class_ := by
  constructor
  · rintro ⟨toBase, toClass⟩
    exact exists_parting toBase toClass notLeft notRight
  · rintro ⟨middle, first, second, reaches, inherits, other, _, toBase, toClass⟩
    exact ⟨reaches.trans (.head inherits toBase), reaches.trans (.head other toClass)⟩

theorem selfType_ofClass (held : hierarchy.HeldBy pool) (name : Name) :
    PoolM.Builds (hierarchy.selfType name) pool fun type after => after.OfClass type name := by
  have each : ∀ param ∈ hierarchy.typeParams name, ∀ between, pool.Growth between →
      PoolM.Builds (PoolM.var param) between fun type after => after.Has type := by
    intro param member between growth
    obtain ⟨declared, found⟩ := (growth.declares (held.params name param member)).lookup
    exact (var found).mono fun _ _ _ denotes => denotes.has
  have stable : ∀ (type : TypeRef) (before after : TypePool), before.Growth after →
      before.Has type → after.Has type :=
    fun _ _ _ growth inPool => growth.has inPool
  refine bind (mapEach stable each) fun vars between growth inPool => ?_
  unfold PoolM.applied
  split
  · have admits : between.Admits (.class_ name) := ⟨by simp [TypeNode.parts], by simp⟩
    exact (entry admits).mono fun _ _ _ entered => ofClass_iff.mpr ⟨_, entered, .inl rfl⟩
  · have admits : between.Admits (.applied name vars) := ⟨inPool, by simp⟩
    exact (entry admits).mono fun _ _ _ entered => ofClass_iff.mpr ⟨_, entered, .inr ⟨vars, rfl⟩⟩

section
variable (held : hierarchy.HeldBy pool)
    (fixed : ∀ name, ∀ type ∈ hierarchy.supertypes name, pool.Fixed type)
include held fixed

/-- What a class inherits from, of all the types its own is an instance of. -/
theorem ancestors_selfType (name : Name) :
    PoolM.Builds (hierarchy.selfType name >>= hierarchy.ancestors) pool fun types after =>
      ∃ names, List.Forall₂ after.OfClass types names ∧
        ∀ other, other ∈ names ↔ ReflTransGen (hierarchy.Inherits pool) name other := by
  refine bind (selfType_ofClass held name) fun type between growth ofClass => ?_
  refine (ancestors_search_of_fixed growth.valid (held.grow growth) (held.fixed_grow fixed growth)
    ofClass).mono ?_
  rintro types after _ ⟨names, found, search, _⟩
  refine ⟨names, found, fun other => ?_⟩
  rw [← held.inherits_eq growth]
  exact (search.complete mem_superNames).1 other

/-- A class type could match another one exactly if one of the classes inherits from the other. -/
theorem couldMatch_reaches (isSubject : pool.OfClass subject base)
    (isPattern : pool.OfClass pattern class_) :
    PoolM.Builds (couldMatch hierarchy subject pattern) pool fun answer _ => answer = true ↔
      ReflTransGen (hierarchy.Inherits pool) class_ base ∨
      ReflTransGen (hierarchy.Inherits pool) base class_ := by
  refine ofValid fun valid => get ?_
  unfold couldMatchWithin
  refine inspect (valid.isLenient_ofClass isSubject)
    (inspect (valid.isLenient_ofClass isPattern) ?_)
  refine readNode isSubject.has fun node found => ?_
  have classes : PoolM.Builds (do
      if ← hierarchy.isSuperclass subject pattern then return true
      hierarchy.isSuperclass pattern subject) pool fun answer _ => answer = true ↔
        ReflTransGen (hierarchy.Inherits pool) class_ base ∨
        ReflTransGen (hierarchy.Inherits pool) base class_ := by
    refine bind (isSuperclass_reaches_of_fixed valid held fixed isPattern isSubject)
      fun above between growth reaches => ?_
    cases above with
    | true => exact pure (iff_of_true rfl (.inl (reaches.mp rfl)))
    | false =>
      refine (isSuperclass_reaches_of_fixed growth.valid (held.grow growth)
        (held.fixed_grow fixed growth) (isSubject.grow growth) (isPattern.grow growth)).mono
        fun below _ _ also => ?_
      rw [also, held.inherits_eq growth]
      exact (or_iff_right fun yes => Bool.false_ne_true (reaches.mpr yes)).symm
  obtain ⟨_, stored, kind⟩ := ofClass_iff.mp isSubject
  cases stored.symm.trans found
  rcases kind with rfl | ⟨args, rfl⟩ <;> exact classes

end

end ClassHierarchy

/-- The test that a fault reports the answer of, in a pool grown from `start`. -/
def PatternFault.Answers (hierarchy : ClassHierarchy) (start pool : TypePool) : PatternFault → Prop
  | impossible pattern subject _ => ∃ asked, start.Growth asked ∧ asked.Has pattern ∧
      asked.Has subject ∧
      (couldMatch hierarchy subject pattern).run asked = .ok (false, pool)
  | arity .. => True

/-- A fault of the action has its grounds in the pool that is left. -/
def TypingM.Blames (grounds : TypePool → PatternFault → Prop) (action : TypingM α)
    (store : PatternStore) (pool : TypePool) : Prop :=
  ∀ fault after pool', action.run.run store pool = .ok ((.error fault, after), pool') →
    grounds pool' fault

namespace TypingM.Blames
open TypingM.Works (run_bind run_onPool)

variable {grounds : TypePool → PatternFault → Prop} {store : PatternStore} {pool : TypePool}

theorem pure (result : α) : TypingM.Blames grounds (Pure.pure result) store pool := by
  intro fault after pool' ran
  cases ran

theorem fault {fault : PatternFault} (holds : grounds pool fault) :
    TypingM.Blames grounds (throw fault : TypingM α) store pool := by
  intro other after pool' ran
  cases ran
  exact holds

theorem bind {action : TypingM α} {next : α → TypingM β}
    (first : TypingM.Blames grounds action store pool)
    (rest : ∀ result between pool', action.run.run store pool = .ok ((.ok result, between), pool') →
      TypingM.Blames grounds (next result) between pool') :
    TypingM.Blames grounds (action >>= next) store pool := by
  intro fault after last ran
  rw [run_bind] at ran
  obtain ⟨⟨⟨outcome, between⟩, pool'⟩, done, ran⟩ := Except.bind_eq_ok ran
  cases outcome with
  | error other =>
    cases ran
    exact first _ _ _ done
  | ok value => exact rest value between pool' done fault after last ran

theorem get {next : PatternStore → TypingM β}
    (rest : TypingM.Blames grounds (next store) store pool) :
    TypingM.Blames grounds (MonadState.get >>= next) store pool :=
  rest

theorem onPool {action : PoolM α} {next : α → TypingM β}
    (rest : ∀ result pool', action.run pool = .ok (result, pool') →
      TypingM.Blames grounds (next result) store pool') :
    TypingM.Blames grounds (PatternStore.onPool action >>= next) store pool := by
  intro fault after last ran
  rw [run_bind, run_onPool] at ran
  obtain ⟨⟨⟨outcome, between⟩, pool'⟩, done, ran⟩ := Except.bind_eq_ok ran
  obtain ⟨⟨value, middle⟩, asked, same⟩ := Except.bind_eq_ok done
  cases same
  exact rest value pool' asked fault after last ran

end TypingM.Blames

namespace PatternStore
open TypePool TypingM

variable {hierarchy : ClassHierarchy} {start pool : TypePool} {store : PatternStore}

theorem pushTyped_blames {grounds : TypePool → PatternFault → Prop} (kind : PatternKind)
    (span : Span) (type subject : TypeRef) :
    TypingM.Blames grounds (pushTyped kind span type subject) store pool := by
  refine Blames.onPool fun own pool' _ fault after last ran => ?_
  cases ran

theorem couldMatch_growth {subject pattern : TypeRef} {answer : Bool} {after : TypePool}
    (held : hierarchy.HeldBy pool) (subjectHere : pool.Has subject) (patternHere : pool.Has pattern)
    (valid : pool.Valid) (asked : (couldMatch hierarchy subject pattern).run pool =
      .ok (answer, after)) : pool.Growth after := by
  have works : PoolM.Works False (couldMatch hierarchy subject pattern) pool fun _ _ => True :=
    couldMatch_works held False.elim subjectHere patternHere
  exact ((works valid).1 _ _ asked).1

/-- Typing below some depth blames the answers of the test. -/
abbrev BlamesWithin (hierarchy : ClassHierarchy) (start : TypePool) (depth : Nat) : Prop :=
  ∀ (id : Nat) (subject : TypeRef) (store : PatternStore) (pool : TypePool), start.Growth pool →
    store.Sound pool → id < store.size → id < depth → pool.Has subject →
    TypingM.Blames (PatternFault.Answers hierarchy start)
      (typeWithin hierarchy depth id subject) store pool

theorem typeFields_blames (held : hierarchy.HeldBy start) {depth : Nat}
    (deeper : BlamesWithin hierarchy start depth) :
    ∀ (fields : List Nat) (components : List TypeRef) (store : PatternStore) (pool : TypePool),
      start.Growth pool → store.Sound pool →
      (∀ field ∈ fields, field < store.size ∧ field < depth) →
      (∀ component ∈ components, pool.Has component) →
      TypingM.Blames (PatternFault.Answers hierarchy start)
        (typeFields (typeWithin hierarchy depth) fields components) store pool
  | [], _, _, _, _, _, _, _ => Blames.pure _
  | _ :: _, [], _, _, _, _, _, _ => Blames.pure _
  | field :: fields, component :: components, store, pool, growth, sound, inside, inPool => by
    obtain ⟨present, below⟩ := inside field List.mem_cons_self
    have componentHere := inPool component List.mem_cons_self
    refine Blames.bind (deeper field component store pool growth sound present below componentHere)
      ?_
    intro copy between pool' ran
    have works : TypingM.Works False (typeWithin hierarchy depth field component) store pool
        fun copy after _ =>
        CopyOf store field after copy :=
      typeWithin_works depth field component store pool (held.grow growth) False.elim present below
        componentHere
    obtain ⟨grown, grows, soundBetween, _⟩ := (works sound growth.valid).1 _ _ ran
    refine Blames.bind (typeFields_blames held deeper fields components between pool'
      (growth.trans grown) soundBetween ?_ ?_) fun _ _ _ _ => Blames.pure _
    · intro other member
      obtain ⟨there, lower⟩ := inside other (List.mem_cons_of_mem _ member)
      exact ⟨Nat.lt_of_lt_of_le there grows.keeps.size_le, lower⟩
    · exact fun other member => grown.has (inPool other (List.mem_cons_of_mem _ member))

/-- Taking a value apart blames the class named or the number of its fields. -/
theorem deconstruct_blames (held : hierarchy.HeldBy start) {depth : Nat}
    (deeper : BlamesWithin hierarchy start depth) (name : Name) {fields : List Nat} (span : Span)
    {subject : TypeRef} (growth : start.Growth pool) (sound : store.Sound pool)
    (inside : ∀ field ∈ fields, field < store.size ∧ field < depth) (inPool : pool.Has subject) :
    TypingM.Blames (PatternFault.Answers hierarchy start) (do
      let classType ← onPool (PoolM.class_ name)
      unless ← onPool (couldMatch hierarchy subject classType) do
        throw (.impossible classType subject span)
      let type ← onPool (hierarchy.narrow name subject)
      let components ← onPool (hierarchy.componentsOf type)
      if components.length ≠ fields.length then
        throw (.arity name components.length fields.length span)
      let fields ← typeFields (typeWithin hierarchy depth) fields components
      pushTyped (.deconstruct name fields) span type subject) store pool := by
  refine Blames.onPool fun classType first entered => ?_
  obtain ⟨grown, denotes⟩ := (PoolM.Builds.class_ name).ensures growth.valid _ _ entered
  have whole := growth.trans grown
  refine Blames.onPool fun possible second asked => ?_
  cases possible with
  | false => exact Blames.fault ⟨first, whole, denotes.has, grown.has inPool, asked⟩
  | true =>
    have heldFirst := held.grow whole
    have more := couldMatch_growth heldFirst (grown.has inPool) denotes.has grown.valid asked
    have subjectHere := more.has (grown.has inPool)
    have heldSecond := held.grow (whole.trans more)
    refine Blames.onPool fun type third narrowed => ?_
    obtain ⟨further, typed⟩ :=
      (PoolM.Builds.narrow name heldSecond subjectHere).ensures more.valid _ _ narrowed
    refine Blames.onPool fun components last listed => ?_
    have heldThird := heldSecond.grow further
    obtain ⟨final, taken, _⟩ :=
      (PoolM.Builds.componentsOf typed.has heldThird).ensures further.valid _ _ listed
    dsimp only
    split
    · exact Blames.fault trivial
    · have all := (more.trans further).trans final
      have soundLast : store.Sound last := (sound.grow grown.grown.types).grow all.grown.types
      have fieldsBlame := typeFields_blames held deeper fields components store last
        (whole.trans all) soundLast inside taken.has
      exact Blames.bind fieldsBlame fun _ _ _ _ => pushTyped_blames _ _ _ _

theorem typeWithin_blames (held : hierarchy.HeldBy start) :
    ∀ depth, BlamesWithin hierarchy start depth
  | 0, _, _, _, _, _, _, _, deep, _ => absurd deep (Nat.not_lt_zero _)
  | depth + 1, id, subject, store, pool, growth, sound, inside, deep, inPool => by
    obtain ⟨node, found⟩ := lookup_of_lt inside
    have partBelow : ∀ part ∈ node.kind.parts, part < store.size ∧ part < depth :=
      fun part member => sound.part_below found deep member
    refine Blames.get (Blames.onPool fun answer pool' ran => ?_)
    cases (show Except.ok (node, pool) = .ok (answer, pool') by rw [← ran, node_eq found]; rfl)
    cases kind : node.kind with
    | wildcard => exact Blames.pure id
    | constant value =>
      have valueHere : pool.Has value.type := growth.valid.has_primitive (by cases value <;> rfl)
      refine Blames.onPool fun possible after asked => ?_
      cases possible with
      | true => exact pushTyped_blames _ _ _ _
      | false => exact Blames.fault ⟨pool, growth, valueHere, inPool, asked⟩
    | binding name inner =>
      cases inner with
      | none => exact pushTyped_blames _ _ _ _
      | some inner =>
        obtain ⟨innerInside, innerDeep⟩ := partBelow inner (by simp [kind, PatternKind.parts])
        have innerBlames := typeWithin_blames held depth inner subject store pool growth sound
          innerInside innerDeep inPool
        exact Blames.bind innerBlames fun _ _ _ _ => pushTyped_blames _ _ _ _
    | deconstruct name fields =>
      rw [kind] at partBelow
      have deeper := typeWithin_blames held depth
      exact deconstruct_blames held deeper name node.span growth sound partBelow inPool

/-- A pattern for a class is rejected against a subject of another one when neither inherits from
the other. A value could match after all if it is of a third class with both among its ancestors,
and these are exactly the classes whose ancestors fork on the way to the two: they inherit from a
class, or are one, with two supertypes declared that lead there. -/
theorem rejected_match_forks (valid : pool.Valid) (held : hierarchy.HeldBy pool)
    (fixed : ∀ name, ∀ type ∈ hierarchy.supertypes name, pool.Fixed type)
    (sound : store.Sound pool) {id : Nat} (inside : id < store.size)
    {subject pattern scrutinee : TypeRef} (inPool : pool.Has subject) {span : Span}
    {after : PatternStore} {last : TypePool}
    (rejected : runTyping hierarchy id subject store pool =
      .ok (.error (.impossible pattern scrutinee span), after, last))
    {class_ base : Name} (isPattern : last.OfClass pattern class_)
    (isSubject : last.OfClass scrutinee base) (name : Name) :
    ∃ types final names, (hierarchy.selfType name >>= hierarchy.ancestors).run last =
      .ok (types, final) ∧
      List.Forall₂ final.OfClass types names ∧
      (base ∈ names ∧ class_ ∈ names ↔ hierarchy.Forks pool name base class_) := by
  obtain ⟨⟨⟨outcome, between⟩, pool'⟩, typed, same⟩ := Except.bind_eq_ok rejected
  cases same
  have blames : TypingM.Blames (PatternFault.Answers hierarchy pool)
      (typeAgainst hierarchy id subject) store pool :=
    Blames.get (typeWithin_blames held _ id subject store pool valid.growth sound inside
      (Nat.lt_succ_of_lt inside) inPool)
  obtain ⟨asked, growth, patternHere, subjectHere, answered⟩ := blames _ _ _ typed
  have heldAsked := held.grow growth
  have fixedAsked := held.fixed_grow fixed growth
  have grown := couldMatch_growth heldAsked subjectHere patternHere growth.valid answered
  obtain ⟨-, reaches⟩ :=
    (ClassHierarchy.couldMatch_reaches heldAsked fixedAsked (isSubject.shrink grown subjectHere)
    (isPattern.shrink grown patternHere)).ensures growth.valid _ _ answered
  rw [held.inherits_eq growth] at reaches
  have apart := not_or.mp fun either => Bool.false_ne_true (reaches.mpr either)
  have whole := growth.trans grown
  obtain ⟨types, final, ran, _, names, classes, listed⟩ :=
    ClassHierarchy.ancestors_selfType (held.grow whole) (held.fixed_grow fixed whole)
      name whole.valid
  refine ⟨types, final, names, ran, classes, ?_⟩
  rw [listed, listed, held.inherits_eq whole]
  exact ClassHierarchy.inherits_both_iff apart.2 apart.1

/-- A pool for classes `Base`, `Left` and `Right`. -/
def siblingPool : TypePool :=
  .ofEntries
    #[.any, .void, .int, .float, .bool, .char, .string, .class_ "Base", .class_ "Left",
      .class_ "Right"]

/-- `Left` and `Right` both extend `Base`. -/
def siblingHeaders : List ClassHeader := [
  { name := "Base" }, { name := "Left", superclass := some ⟨7⟩ },
  { name := "Right", superclass := some ⟨7⟩ }]

/-- A pattern that takes a `Left` apart. -/
def leftPattern : PatternStore := (({} : PatternStore).alloc (.deconstruct "Left" []) ⟨0, 4⟩).2

/-- No class is both a `Left` and a `Right`. -/
theorem rejected_match_forks_siblings : ∃ after last,
    runTyping (.ofHeaders siblingHeaders) 0 ⟨9⟩ leftPattern siblingPool =
      .ok (.error (.impossible ⟨8⟩ ⟨9⟩ ⟨0, 4⟩), after, last) ∧
    ∀ name, ∃ types final names,
      ((ClassHierarchy.ofHeaders siblingHeaders).selfType name >>=
        (ClassHierarchy.ofHeaders siblingHeaders).ancestors).run last = .ok (types, final) ∧
      List.Forall₂ final.OfClass types names ∧ ¬ ("Right" ∈ names ∧ "Left" ∈ names) := by
  have held : (ClassHierarchy.ofHeaders siblingHeaders).HeldBy siblingPool :=
    ClassHierarchy.heldBy_ofHeaders (by decide)
  have onlyBase : ∀ name, ∀ type ∈ (ClassHierarchy.ofHeaders siblingHeaders).supertypes name,
      type = ⟨7⟩ := by
    intro name type member
    rw [ClassHierarchy.supertypes_ofHeaders] at member
    obtain ⟨header, listed, _, _, declared⟩ := ClassHierarchy.exists_header member
    have each : ∀ header ∈ siblingHeaders, ∀ type ∈ header.supertypes, type = ⟨7⟩ := by decide
    exact each header listed type declared
  have isBase : siblingPool.OfClass ⟨7⟩ "Base" := by decide
  have fixed : ∀ name, ∀ type ∈ (ClassHierarchy.ofHeaders siblingHeaders).supertypes name,
      siblingPool.Fixed type :=
    fun name type member => onlyBase name type member ▸ isBase.fixed
  refine ⟨_, _, rfl, fun name => ?_⟩
  have sound : leftPattern.Sound siblingPool :=
    (sound_empty _).push (by simp [PatternKind.parts]) (by simp) (.inl rfl)
  have inside : 0 < leftPattern.size := by decide
  have inPool : siblingPool.Has ⟨9⟩ := by decide
  have isLeft : siblingPool.OfClass ⟨8⟩ "Left" := by decide
  have isRight : siblingPool.OfClass ⟨9⟩ "Right" := by decide
  obtain ⟨types, final, names, ran, classes, both⟩ :=
    rejected_match_forks (by decide) held fixed sound inside inPool rfl isLeft isRight name
  refine ⟨types, final, names, ran, classes, fun bothListed => ?_⟩
  obtain ⟨middle, first, second, _, ⟨one, oneIn, isOne⟩, ⟨other, otherIn, isOther⟩, differ, _⟩ :=
    both.mp bothListed
  rw [onlyBase middle one oneIn] at isOne
  rw [onlyBase middle other otherIn] at isOther
  cases isOne.symm.trans isOther
  exact differ rfl

/-- `Both` extends `Left` and implements `Right`. -/
def forkedHeaders : List ClassHeader := [
  { name := "Left" }, { name := "Right" },
  { name := "Both", superclass := some ⟨8⟩, interfaces := [⟨9⟩] }]

/-- The rejected pattern matches the instances of `Both`, which may stand where a `Right` is
expected. -/
theorem rejected_match_possible : ∃ after last types final,
    runTyping (.ofHeaders forkedHeaders) 0 ⟨9⟩ leftPattern siblingPool =
      .ok (.error (.impossible ⟨8⟩ ⟨9⟩ ⟨0, 4⟩), after, last) ∧
    ((ClassHierarchy.ofHeaders forkedHeaders).selfType "Both" >>=
      (ClassHierarchy.ofHeaders forkedHeaders).ancestors).run last = .ok (types, final) ∧
    List.Forall₂ final.OfClass types ["Both", "Left", "Right"] := by
  refine ⟨_, _, _, _, rfl, rfl, ?_⟩
  exact .cons (by decide) (.cons (by decide) (.cons (by decide) .nil))

end PatternStore
end ClassLang
