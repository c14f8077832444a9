import ClassLang.Pattern.Group
import ClassLang.Proofs.Pattern.Orderly
import ClassLang.Proofs.Type.Entries

/-! Which types typing a pattern and analysing a match enter: no others than asking about
classes does. -/

namespace ClassLang
open PoolM

variable {kind : TypeNode → Prop} {hierarchy : ClassHierarchy} (closed : Inheritable hierarchy kind)

section
include closed

theorem couldMatchWithin_keeps : ∀ (depth : Nat) (subject pattern : TypeRef),
    Keeps kind (couldMatchWithin hierarchy depth subject pattern)
  | 0, _, _ => .fails rfl
  | depth + 1, subject, pattern => by
    apply Keeps.andThen (.inspect (by simp))
    intro lenient
    split
    · exact .pure trivial
    apply Keeps.andThen (.inspect (by simp))
    intro lenient
    split
    · exact .pure trivial
    apply Keeps.andThen (.inspect (by simp))
    intro node
    split
    · exact .andThen (.inspect (by simp)) fun bound => couldMatchWithin_keeps depth bound pattern
    · exact couldMatchWithin_keeps depth _ pattern
    · exact .pure trivial
    · apply Keeps.andThen (ClassHierarchy.isSuperclass_keeps closed subject pattern)
      intro above
      split
      · exact .pure trivial
      · exact ClassHierarchy.isSuperclass_keeps closed pattern subject

theorem couldMatch_keeps (subject pattern : TypeRef) :
    Keeps kind (couldMatch hierarchy subject pattern) :=
  .andThen .get fun _ => couldMatchWithin_keeps closed _ subject pattern

end

namespace TypingM

/-- Typing enters types of the kind only, whatever becomes of the patterns. -/
abbrev keeping (kind : TypeNode → Prop) : Promise TypingM :=
  ((PoolM.keeping kind).underState PatternStore).underFault PatternFault

def Keeps (kind : TypeNode → Prop) (action : TypingM α) : Prop :=
  (keeping kind).holds action fun _ => True

namespace Keeps

theorem pure {result : α} : Keeps kind (Pure.pure result) := (keeping kind).pure trivial

theorem andThen {first : TypingM α} {next : α → TypingM β} (done : Keeps kind first)
    (rest : ∀ result, Keeps kind (next result)) : Keeps kind (first >>= next) :=
  (keeping kind).andThen done rest

theorem fails {fault : PatternFault} : Keeps kind (throw fault : TypingM α) :=
  fun _ => PoolM.Keeps.pure fun _ same => nomatch same

theorem onPool {action : PoolM α} (done : PoolM.Keeps kind action) :
    Keeps kind (PatternStore.onPool action) := by
  intro store
  change PoolM.Keeps kind ((action >>= fun value => Pure.pure (value, store)) >>= fun result =>
    Pure.pure (Except.ok result.1, result.2)) _
  apply PoolM.Keeps.andThen (.andThen done fun _ => .pure trivial)
  exact fun _ => .pure fun _ _ => trivial

theorem get : Keeps kind (MonadState.get : TypingM PatternStore) :=
  fun _ => PoolM.Keeps.pure fun _ _ => trivial

theorem modifyGet {change : PatternStore → α × PatternStore} :
    Keeps kind (modifyGet change : TypingM α) :=
  fun _ => PoolM.Keeps.pure fun _ _ => trivial

end Keeps
end TypingM

namespace PatternStore
open TypingM

theorem pushTyped_keeps (pattern : PatternKind) (span : Span) (type subject : TypeRef) :
    TypingM.Keeps kind (pushTyped pattern span type subject) :=
  .andThen (.onPool (.inspect (by simp))) fun _ => .modifyGet

theorem typeFields_keeps {typeField : Nat → TypeRef → TypingM Nat}
    (each : ∀ field component, TypingM.Keeps kind (typeField field component)) :
    ∀ (fields : List Nat) (components : List TypeRef),
      TypingM.Keeps kind (typeFields typeField fields components)
  | [], _ => .pure
  | _ :: _, [] => .pure
  | field :: fields, component :: components =>
    .andThen (each field component) fun _ =>
      .andThen (typeFields_keeps each fields components) fun _ => .pure

include closed

theorem typeWithin_keeps : ∀ (depth id : Nat) (subject : TypeRef),
    TypingM.Keeps kind (typeWithin hierarchy depth id subject)
  | 0, _, _ => .onPool (.fails rfl)
  | depth + 1, id, subject => by
    apply TypingM.Keeps.andThen .get
    intro store
    apply TypingM.Keeps.andThen (.onPool (.lift (by simp)))
    intro node
    split
    · exact .pure
    · apply TypingM.Keeps.andThen (.onPool (couldMatch_keeps closed _ _))
      intro possible
      split
      · exact pushTyped_keeps _ _ _ _
      · exact .fails
    · exact pushTyped_keeps _ _ _ _
    · exact .andThen (typeWithin_keeps depth _ subject) fun _ => pushTyped_keeps _ _ _ _
    · rename_i name fields _
      apply TypingM.Keeps.andThen (.onPool (class_keeps closed name))
      intro classType
      apply TypingM.Keeps.andThen (.onPool (couldMatch_keeps closed _ _))
      intro possible
      have typed : TypingM.Keeps kind (do
          let type ← onPool (hierarchy.narrow name subject)
          let components ← onPool (hierarchy.componentsOf type)
          if components.length ≠ fields.length then
            throw (.arity name components.length fields.length node.span)
          let fields ← typeFields (typeWithin hierarchy depth) fields components
          pushTyped (.deconstruct name fields) node.span type subject) := by
        apply TypingM.Keeps.andThen (.onPool (ClassHierarchy.narrow_keeps closed name subject))
        intro type
        apply TypingM.Keeps.andThen (.onPool (ClassHierarchy.componentsOf_keeps closed type))
        intro components
        have rest : TypingM.Keeps kind (do
            let fields ← typeFields (typeWithin hierarchy depth) fields components
            pushTyped (.deconstruct name fields) node.span type subject) :=
          .andThen (typeFields_keeps (typeWithin_keeps depth) fields components)
            fun _ => pushTyped_keeps _ _ _ _
        split
        · exact .andThen .fails fun _ => rest
        · exact rest
      split
      · exact typed
      · exact .andThen .fails fun _ => typed

theorem typeAgainst_keeps (id : Nat) (subject : TypeRef) :
    TypingM.Keeps kind (typeAgainst hierarchy id subject) :=
  .andThen .get fun _ => typeWithin_keeps closed _ id subject

/-- Typing a pattern, as a function on store and pool. -/
theorem runTyping_only {id : Nat} {subject : TypeRef} {store after : PatternStore}
    {pool final : TypePool} {outcome : Except PatternFault Nat} (only : pool.Only kind)
    (ran : runTyping hierarchy id subject store pool = .ok (outcome, after, final)) :
    final.Only kind := by
  obtain ⟨⟨⟨_, _⟩, _⟩, typed, same⟩ := Except.bind_eq_ok ran
  cases same
  exact (PoolM.Keeps.run (typeAgainst_keeps closed id subject store) only typed).2.1

omit closed in
theorem runTyping_orderly (hierarchy : ClassHierarchy) (id : Nat) (subject : TypeRef)
    (store : PatternStore) (pool : TypePool) :
    Orderly (runTyping hierarchy id subject store pool) := by
  refine Promise.Meets.bind (m := Except Abort) ?_ fun _ => .pure
  exact PoolM.Keeps.orderly (typeAgainst_keeps (inheritable_any hierarchy) id subject store) pool

end PatternStore

namespace ClassHierarchy
include closed

theorem argTypes_keeps (head : Head) (type : TypeRef) : Keeps kind
    (hierarchy.argTypes head type) := by
  cases head with
  | class_ name => exact .andThen (narrow_keeps closed name type) fun _ =>
    componentsOf_keeps closed _
  | _ => exact .pure trivial

theorem missingHead_keeps (domain : Domain) (used : List Head) (type : TypeRef) :
    Keeps kind (hierarchy.missingHead domain used type) := by
  cases domain with
  | infinite => exact .pure trivial
  | finite heads =>
    unfold missingHead
    dsimp only
    split
    · exact .pure trivial
    split
    · exact .pure trivial
    · exact .andThen (argTypes_keeps closed _ type) fun _ => .pure trivial

section
variable {deeper : UsefulTest} (below : ∀ rows row types, Keeps kind (deeper rows row types))
include below

theorem usefulHead_keeps (rows : List Row) (head : Head) (args : List Shape) (rest : Row)
    (type : TypeRef) (restTypes : List TypeRef) :
    Keeps kind (hierarchy.usefulHead deeper rows head args rest type restTypes) := by
  apply Keeps.andThen (argTypes_keeps closed head type)
  intro argTypes
  apply Keeps.andThen (below _ _ _)
  intro answer
  split <;> exact .pure trivial

theorem usefulStep_keeps : ∀ (row : Row) (rows : List Row) (types : List TypeRef),
    Keeps kind (hierarchy.usefulStep deeper rows row types)
  | [], _, _ => .pure trivial
  | .node head args :: rest, rows, types => usefulHead_keeps closed below rows head args rest _ _
  | .wild :: rest, rows, types => by
    apply Keeps.andThen (.inspect (by simp))
    intro domain
    have byDefault : Keeps kind (hierarchy.withMissingHead domain (rows.filterMap Row.leading?)
        (types.headD .any)
        (usefulStep hierarchy deeper (rows.filterMap Row.default?) rest types.tail)) := by
      apply Keeps.andThen (usefulStep_keeps rest _ _)
      intro answer
      split
      · exact Keeps.pure trivial
      · exact Keeps.andThen (missingHead_keeps closed domain _ _) fun _ => .pure trivial
    cases domain with
    | infinite => exact byDefault
    | finite heads =>
      dsimp only
      split
      · apply (keeping kind).findSomeM?
        intro head _
        exact Keeps.andThen (argTypes_keeps closed head _) fun _ =>
          usefulHead_keeps closed below rows head _ rest _ _
      · exact byDefault

end

theorem usefulWithin_keeps : ∀ (constructors : Nat) (rows : List Row) (row : Row)
    (types : List TypeRef), Keeps kind (hierarchy.usefulWithin constructors rows row types)
  | 0, rows, row, types => usefulStep_keeps closed (fun _ _ _ => .fails rfl) row rows types
  | constructors + 1, rows, row, types =>
    usefulStep_keeps closed (usefulWithin_keeps constructors) row rows types

theorem useful_keeps (rows : List Row) (row : Row) (types : List TypeRef) :
    Keeps kind (hierarchy.useful rows row types) :=
  usefulWithin_keeps closed _ rows row types

theorem missingValues_keeps (rows : List Row) (subject : TypeRef) :
    Keeps kind (hierarchy.missingValues rows subject) := by
  apply Keeps.andThen (useful_keeps closed rows _ _)
  intro answer
  cases answer with
  | none => exact .pure trivial
  | some first =>
    apply Keeps.andThen (.inspect (by simp))
    intro domain
    cases domain with
    | infinite => exact .pure trivial
    | finite heads =>
      apply Keeps.andThen ((keeping kind).filterMapM fun head _ => ?_)
      · intro missing
        exact .pure trivial
      · apply Keeps.andThen (argTypes_keeps closed head subject)
        intro args
        exact .andThen (useful_keeps closed rows _ _) fun _ => .pure trivial

theorem armRows_keeps (store : PatternStore) (subject : TypeRef) :
    ∀ (before : List Row) (arms : List (Nat × Nat)),
      Keeps kind (hierarchy.armRows store subject before arms)
  | _, [] => .pure trivial
  | before, (index, id) :: rest => by
    apply Keeps.andThen (.lift (by simp))
    intro shape
    apply Keeps.andThen (useful_keeps closed before _ _)
    intro witness
    exact .andThen (armRows_keeps store subject _ rest) fun _ => .pure trivial

end ClassHierarchy

include closed

theorem analyzeArms_keeps (store : PatternStore) (arms : List (Option Nat)) (subject : TypeRef) :
    Keeps kind (analyzeArms hierarchy store arms subject) := by
  apply Keeps.andThen (ClassHierarchy.armRows_keeps closed store subject [] _)
  intro result
  exact .andThen (ClassHierarchy.missingValues_keeps closed result.1 subject) fun _ => .pure trivial

/-- The reports of a check are those of the coverage it returns. -/
theorem MatchGroup.check_keeps (group : MatchGroup) (store : PatternStore) :
    Keeps kind (group.check hierarchy store) fun result =>
      result.2 = group.coverageReports result.1.coverage := by
  apply Keeps.andThen (analyzeArms_keeps closed store _ group.subject)
  intro coverage
  apply Keeps.andThen (.inspect (by simp))
  intro excused
  apply Keeps.andThen ((keeping kind).allM fun arm _ => ?_)
  · intro switchable
    exact .pure rfl
  · split
    · exact Keeps.lift (by simp)
    · exact Keeps.pure trivial

theorem MatchGroup.compile_keeps (group : MatchGroup) (store : PatternStore) :
    Keeps kind (group.compile hierarchy store) fun result =>
      result.1.2 = group.coverageReports result.1.1.coverage := by
  apply Keeps.bind (MatchGroup.check_keeps closed group store)
  intro result same
  exact .andThen (.lift (by simp)) fun _ => .pure same

end ClassLang
