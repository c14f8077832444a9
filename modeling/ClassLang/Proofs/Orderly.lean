import ClassLang.Abort
import ClassLang.Proofs.Invariance

/-! Which breaches the parts of a stage can raise. Reading an arena, asking about types, typing and
compiling patterns, choosing methods and folding constants may all breach an invariant, but none of
them raises the breach of a stage that is run out of its order. -/

namespace ClassLang

namespace Promise

/-- The promise about the action alone, whatever it returns. -/
def Meets {m : Type → Type} [Monad m] (promise : Promise m) {α : Type} (action : m α) : Prop :=
  promise.holds action fun _ => True

namespace Meets

section
variable {m : Type → Type} [Monad m] {promise : Promise m} {α β : Type} {elements : List α}

theorem pure {value : α} : promise.Meets (Pure.pure value : m α) := promise.pure trivial

theorem bind {first : m α} {next : α → m β} (done : promise.Meets first)
    (rest : ∀ result, promise.Meets (next result)) : promise.Meets (first >>= next) :=
  promise.andThen done rest

theorem map [LawfulMonad m] {action : m α} {change : α → β} (done : promise.Meets action) :
    promise.Meets (change <$> action) := by
  rw [← bind_pure_comp]
  exact bind done fun _ => pure

theorem mapM [LawfulMonad m] {build : α → m β} (each : ∀ element, promise.Meets (build element)) :
    promise.Meets (elements.mapM build) :=
  promise.mono (promise.mapM fun element _ => each element) fun _ _ => trivial

theorem foldlM {step : β → α → m β} {start : β}
    (each : ∀ value element, promise.Meets (step value element)) :
    promise.Meets (elements.foldlM step start) :=
  promise.foldlM trivial fun element _ value _ => each value element

theorem allM {test : α → m Bool} (each : ∀ element, promise.Meets (test element)) :
    promise.Meets (elements.allM test) :=
  promise.allM fun element _ => each element

theorem anyM {test : α → m Bool} (each : ∀ element, promise.Meets (test element)) :
    promise.Meets (elements.anyM test) :=
  promise.anyM fun element _ => each element

theorem findM? {test : α → m Bool} (each : ∀ element, promise.Meets (test element)) :
    promise.Meets (elements.findM? test) :=
  promise.findM? fun element _ => each element

theorem findSomeM? {search : α → m (Option β)} (each : ∀ element, promise.Meets (search element)) :
    promise.Meets (elements.findSomeM? search) :=
  promise.findSomeM? fun element _ => each element

theorem filterMapM [LawfulMonad m] {search : α → m (Option β)}
    (each : ∀ element, promise.Meets (search element)) :
    promise.Meets (elements.filterMapM search) :=
  promise.filterMapM fun element _ => each element

theorem filterM {test : α → m Bool} (each : ∀ element, promise.Meets (test element)) :
    promise.Meets (elements.filterM test) :=
  promise.filterM fun element _ => each element

theorem forM {action : α → m PUnit} (each : ∀ element, promise.Meets (action element)) :
    promise.Meets (elements.forM action) :=
  promise.forM fun element _ => each element

end

/-! Steps of the computations with a state of their own. -/

section
variable {m : Type → Type} [Monad m] {promise : Promise m} {σ ε α : Type}

theorem get : (promise.underState σ).Meets (MonadState.get : StateT σ m σ) :=
  fun _ => promise.pure trivial

theorem set {state : σ} : (promise.underState σ).Meets (MonadState.set state : StateT σ m PUnit) :=
  fun _ => promise.pure trivial

theorem modify {change : σ → σ} : (promise.underState σ).Meets
    (modifyThe σ change : StateT σ m PUnit) :=
  fun _ => promise.pure trivial

theorem modifyGet {change : σ → α × σ} :
    (promise.underState σ).Meets (StateT.modifyGet change : StateT σ m α) :=
  fun _ => promise.pure trivial

theorem lift {action : m α} (done : promise.Meets action) :
    (promise.underState σ).Meets (liftM action : StateT σ m α) :=
  fun _ => bind done fun _ => pure

end
end Meets
end Promise

/-- The breach of a stage that is run on a member before or after its turn. -/
def Abort.isStageOrder : Abort → Bool
  | stageOrder .. => true
  | _ => false

/-- Computations that may be asked whether they keep the order of stages. -/
class Ordered (m : Type → Type) [Monad m] where
  promise : Promise m

/-- An answer is not the breach of the order, and a value is as promised. -/
instance : Ordered (Except Abort) where
  promise :=
    { holds answer post := (∀ fault, answer = .error fault → fault.isStageOrder = false) ∧
        ∀ value, answer = .ok value → post value
      pure promised := ⟨nofun, fun _ same => Except.ok.inj same ▸ promised⟩
      bind := by
        rintro _ _ (fault | value) next middle post ⟨raised, answered⟩ rest
        · exact ⟨fun other same => Except.error.inj same ▸ raised fault rfl, nofun⟩
        · exact rest value (answered value rfl) }

instance {m : Type → Type} [Monad m] [Ordered m] {σ : Type} : Ordered (StateT σ m) :=
  ⟨Ordered.promise.underState σ⟩

instance {m : Type → Type} [Monad m] [Ordered m] {ε : Type} : Ordered (ExceptT ε m) :=
  ⟨Ordered.promise.underFault ε⟩

/-- The computation raises no breach of the order of stages. -/
abbrev Orderly {m : Type → Type} [Monad m] [Ordered m] {α : Type} (action : m α) : Prop :=
  (Ordered.promise (m := m)).Meets action

/-- What the computation does is orderly, and from every state that has the invariant it ends in a
state that has it, if it ends. -/
def OrderlyKeeping {σ : Type} (invariant : σ → Prop) : Promise (StateT σ (Except Abort)) where
  holds action post := ∀ start, invariant start →
    Ordered.promise.holds (action.run start) fun answer => invariant answer.2 ∧ post answer.1
  pure promised _ kept := Ordered.promise.pure ⟨kept, promised⟩
  bind done rest start kept :=
    Ordered.promise.bind (done start kept) fun answer facts =>
      rest answer.1 facts.2 answer.2 facts.1

/-- A breach of another kind. -/
theorem orderly_error {α : Type} {fault : Abort} (other : fault.isStageOrder = false) :
    Orderly (.error fault : Except Abort α) :=
  ⟨fun _ same => Except.error.inj same ▸ other, nofun⟩

/-- A breach of another kind, whatever stands after it. -/
theorem throw_bind_orderly {σ α β : Type} {fault : Abort} (other : fault.isStageOrder = false)
    (next : α → StateT σ (Except Abort) β) :
    Orderly ((throw fault : StateT σ (Except Abort) α) >>= next) :=
  fun _ => ⟨fun _ same => Except.error.inj same ▸ other, nofun⟩

theorem orderly_ok {α : Type} {value : α} : Orderly (.ok value : Except Abort α) := .pure

end ClassLang
