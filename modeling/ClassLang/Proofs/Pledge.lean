import ClassLang.Proofs.Completion
import Mathlib.Data.List.Forall2

/-! Promises that look back from the end of a computation. What holds of the last state is known of
every state before it, so that results can be judged by what the whole computation leaves behind. -/

namespace ClassLang

/-- A way to promise something about what computations return when something is given. A sequence
meets it if its last part does once the promise of the first is given as well; the last part need
not be known to meet anything otherwise. -/
structure Pledge (m : Type → Type) [Monad m] where
  holds : {α : Type} → Prop → m α → (α → Prop) → Prop
  pure : ∀ {α : Type} {given : Prop} {value : α} {post : α → Prop}, (given → post value) →
    holds given (Pure.pure value) post
  bind : ∀ {α β : Type} {given : Prop} {first : m α} {next : α → m β} {middle : α →
    Prop} {post : β → Prop}, holds given first middle →
    (∀ result, holds (given ∧ middle result) (next result) post) →
      holds given (first >>= next) post
  assume : ∀ {α : Type} {given other : Prop} {action : m α} {post : α → Prop}, (other → given) →
    holds given action post → holds other action post

namespace Pledge
variable {m : Type → Type} [Monad m] (pledge : Pledge m)
variable {α β : Type} {given : Prop} {elements : List α}

theorem mono [LawfulMonad m] {action : m α} {strong weak : α → Prop}
    (done : pledge.holds given action strong) (weaken : ∀ result, given → strong result →
      weak result) : pledge.holds given action weak := by
  rw [← bind_pure action]
  exact pledge.bind done fun result => pledge.pure fun facts => weaken result facts.1 facts.2

/-- What the first part returns does not matter. -/
theorem andThen {first : m α} {next : α → m β} {post : β → Prop}
    (done : pledge.holds given first fun _ => True)
    (rest : ∀ result, pledge.holds given (next result) post) :
    pledge.holds given (first >>= next) post :=
  pledge.bind done fun result => pledge.assume And.left (rest result)

theorem forM {action : α → m PUnit}
    (each : ∀ element ∈ elements, pledge.holds given (action element) fun _ => True) :
    pledge.holds given (elements.forM action) fun _ => True := by
  induction elements with
  | nil => exact pledge.pure fun _ => trivial
  | cons first rest ih =>
    exact pledge.andThen (each first List.mem_cons_self) fun _ =>
      ih fun element member => each element (List.mem_cons_of_mem _ member)

/-- There is one result for each element. -/
theorem mapM_forall₂ [LawfulMonad m] {build : α → m β} {relation : α → β → Prop}
    (each : ∀ element ∈ elements, pledge.holds given (build element) (relation element)) :
    pledge.holds given (elements.mapM build) (List.Forall₂ relation elements) := by
  induction elements with
  | nil => exact pledge.pure fun _ => .nil
  | cons first rest ih =>
    rw [List.mapM_cons]
    apply pledge.bind (each first List.mem_cons_self)
    intro result
    apply pledge.bind (pledge.assume And.left
      (ih fun element member => each element (List.mem_cons_of_mem _ member)))
    intro results
    exact pledge.pure fun facts => .cons facts.1.2 facts.2

theorem mapM [LawfulMonad m] {build : α → m β} {post : β → Prop}
    (each : ∀ element ∈ elements, pledge.holds given (build element) post) :
    pledge.holds given (elements.mapM build) fun results =>
      results.length = elements.length ∧ ∀ result ∈ results, post result := by
  refine pledge.mono (pledge.mapM_forall₂ each) fun results _ paired =>
    ⟨paired.length_eq.symm, fun result member => ?_⟩
  obtain ⟨index, inside, rfl⟩ := List.getElem_of_mem member
  exact (List.forall₂_iff_get.mp paired).2 index (paired.length_eq ▸ inside) inside

theorem foldlM {step : β → α → m β} {start : β} {post : β → Prop} (first : given → post start)
    (each : ∀ element ∈ elements, ∀ value,
      pledge.holds (given ∧ post value) (step value element) post) :
    pledge.holds given (elements.foldlM step start) post := by
  induction elements generalizing given start with
  | nil => exact pledge.pure first
  | cons element rest ih =>
    rw [List.foldlM_cons]
    apply pledge.bind
      (pledge.assume (fun holds => ⟨holds, first holds⟩) (each element List.mem_cons_self start))
    intro value
    apply ih And.right
    intro other member next
    exact pledge.assume (fun facts => ⟨facts.1.1, facts.2⟩)
      (each other (List.mem_cons_of_mem _ member) next)

/-- What is found is one of the elements. -/
theorem findM? [LawfulMonad m] {test : α → m Bool}
    (each : ∀ element ∈ elements, pledge.holds given (test element) fun _ => True) :
    pledge.holds given (elements.findM? test) fun found => ∀ element, found = some element →
    element ∈ elements := by
  induction elements with
  | nil => exact pledge.pure fun _ => nofun
  | cons first rest ih =>
    apply pledge.andThen (each first List.mem_cons_self)
    intro found
    cases found with
    | true => exact pledge.pure fun _ _ same => Option.some.inj same ▸ List.mem_cons_self
    | false =>
      have later := ih fun element member => each element (List.mem_cons_of_mem _ member)
      exact pledge.mono later fun _ _ listed element same =>
        List.mem_cons_of_mem _ (listed element same)

theorem findSomeM? {search : α → m (Option β)} {post : β → Prop}
    (each : ∀ element ∈ elements, pledge.holds given (search element) fun found =>
      ∀ result, found = some result → post result) :
    pledge.holds given (elements.findSomeM? search) fun found => ∀ result, found = some result →
    post result := by
  induction elements with
  | nil => exact pledge.pure fun _ => nofun
  | cons first rest ih =>
    apply pledge.bind (each first List.mem_cons_self)
    intro found
    cases found with
    | none =>
      exact pledge.assume And.left
        (ih fun element member => each element (List.mem_cons_of_mem _ member))
    | some result => exact pledge.pure fun facts => facts.2

theorem filterMapM [LawfulMonad m] {search : α → m (Option β)} {post : β → Prop}
    (each : ∀ element ∈ elements, pledge.holds given (search element) fun found =>
      ∀ result, found = some result → post result) :
    pledge.holds given (elements.filterMapM search) fun results =>
      ∀ result ∈ results, post result := by
  induction elements with
  | nil => exact pledge.pure fun _ => by simp
  | cons first rest ih =>
    rw [List.filterMapM_cons]
    apply pledge.bind (each first List.mem_cons_self)
    intro found
    have later := ih fun element member => each element (List.mem_cons_of_mem _ member)
    cases found with
    | none => exact pledge.assume And.left later
    | some result =>
      apply pledge.bind (pledge.assume And.left later)
      intro results
      apply pledge.pure
      rintro ⟨⟨_, promised⟩, all⟩ other member
      rcases List.mem_cons.mp member with rfl | earlier
      · exact promised other rfl
      · exact all other earlier

/-- What is kept is among the elements. -/
theorem filterM {test : α → m Bool}
    (each : ∀ element ∈ elements, pledge.holds given (test element) fun _ => True) :
    pledge.holds given (elements.filterM test) fun kept =>
      ∀ element ∈ kept, element ∈ elements := by
  have accumulate : ∀ (rest chosen : List α), (∀ element ∈ rest, element ∈ elements) →
      (∀ element ∈ chosen, element ∈ elements) →
        pledge.holds given (rest.filterAuxM test chosen) fun kept =>
          ∀ element ∈ kept, element ∈ elements := by
    intro rest
    induction rest with
    | nil => exact fun chosen _ listed => pledge.pure fun _ => listed
    | cons first rest ih =>
      intro chosen inside listed
      apply pledge.andThen (each first (inside first List.mem_cons_self))
      intro passed
      refine ih _ (fun element member => inside element (List.mem_cons_of_mem _ member)) ?_
      cases passed with
      | false => exact listed
      | true => exact List.forall_mem_cons.mpr ⟨inside first List.mem_cons_self, listed⟩
  apply pledge.bind (accumulate elements [] (fun _ => id) (by simp))
  exact fun kept => pledge.pure fun facts element member =>
    facts.2 element (List.mem_reverse.mp member)

/-- The promise for computations with a state of their own that stays as it should. -/
def underState {σ : Type} (keeps : σ → Prop) : Pledge (StateT σ m) where
  holds given action post := ∀ own, pledge.holds (given ∧ keeps own) (action.run own) fun result =>
    keeps result.2 ∧ post result.1
  pure all _ := pledge.pure fun given => ⟨given.2, all given.1⟩
  bind first rest own := pledge.bind (first own) fun result =>
    pledge.assume (fun facts => ⟨⟨facts.1.1, facts.2.2⟩, facts.2.1⟩) (rest result.1 result.2)
  assume weaken done own := pledge.assume (And.imp_left weaken) (done own)

/-- The promise for computations that may fail with a fault, about those that do not. -/
def underFault (ε : Type) : Pledge (ExceptT ε m) where
  holds given action post := pledge.holds given action.run fun result =>
    ∀ value, result = .ok value → post value
  pure all := pledge.pure fun given _ same => Except.ok.inj same ▸ all given
  bind first rest := pledge.bind first fun result => by
    cases result with
    | ok value => exact pledge.assume (And.imp_right fun all => all value rfl) (rest value)
    | error fault => exact pledge.pure fun _ _ same => nomatch same
  assume := pledge.assume

end Pledge

/-- If the last state shows something, so does the first; and if the first is as it should be, the
last is, and the result is as promised. -/
def Hindsight {σ ε : Type} (shows keeps : σ → Prop) : Pledge (StateT σ (Except ε)) where
  holds given action post := ∀ start result final, action.run start = .ok (result, final) →
    shows final → shows start ∧ (given → keeps start → keeps final ∧ post result)
  pure all start result final ran shown := by
    cases ran
    exact ⟨shown, fun given kept => ⟨kept, all given⟩⟩
  bind first rest start result final ran shown := by
    rw [StateT.run_bind] at ran
    obtain ⟨⟨value, middle⟩, began, ended⟩ := Except.bind_eq_ok ran
    obtain ⟨between, last⟩ := rest value middle result final ended shown
    obtain ⟨before, both⟩ := first start value middle began between
    refine ⟨before, fun given kept => ?_⟩
    obtain ⟨keptMiddle, promised⟩ := both given kept
    exact last ⟨given, promised⟩ keptMiddle
  assume weaken done start result final ran shown := by
    obtain ⟨before, facts⟩ := done start result final ran shown
    exact ⟨before, facts ∘ weaken⟩

namespace Hindsight
variable {σ ε α β : Type} {shows keeps : σ → Prop} {given : Prop} {post : β → Prop}

theorem fails {fault : ε} :
    (Hindsight shows keeps).holds given (throw fault : StateT σ (Except ε) β) post :=
  fun _ _ _ ran => nomatch ran

/-- An answer that does not depend on the state. -/
theorem lift {answer : Except ε β} (all : ∀ result, answer = .ok result → given → post result) :
    (Hindsight shows keeps).holds given (liftM answer : StateT σ (Except ε) β) post := by
  intro start result final ran shown
  obtain ⟨value, answered, same⟩ := Except.bind_eq_ok ran
  cases same
  exact ⟨shown, fun given kept => ⟨kept, all result answered given⟩⟩

/-- What is known of a state that is read may be used. -/
theorem get {next : σ → StateT σ (Except ε) β}
    (rest : ∀ state, (Hindsight shows keeps).holds (given ∧ shows state ∧ keeps state)
      (next state) post) :
    (Hindsight shows keeps).holds given (MonadState.get >>= next) post := by
  intro start result final ran shown
  obtain ⟨before, facts⟩ := rest start start result final ran shown
  exact ⟨before, fun given kept => facts ⟨given, before, kept⟩ kept⟩

theorem modify {change : σ → σ} (back : ∀ state, shows (change state) → shows state)
    (kept : ∀ state, given → shows (change state) → keeps state → keeps (change state)) :
    (Hindsight shows keeps).holds given (modifyThe σ change : StateT σ (Except ε) PUnit) fun _ =>
      True := by
  intro start result final ran shown
  cases ran
  exact ⟨back start shown, fun given holds => ⟨kept start given shown holds, trivial⟩⟩

end Hindsight
end ClassLang
