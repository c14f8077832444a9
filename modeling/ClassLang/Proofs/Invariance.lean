import ClassLang.Proofs.Completion

/-! Promises about the results of computations that sequences pass on, and what they say of the
walks through a list. -/

namespace ClassLang

/-- A way to promise something about what computations return: values that have it meet the
promise, and a sequence meets it if its last part does for whatever the first promises. -/
structure Promise (m : Type → Type) [Monad m] where
  holds : {α : Type} → m α → (α → Prop) → Prop
  pure : ∀ {α : Type} {value : α} {post : α → Prop}, post value → holds (Pure.pure value) post
  bind : ∀ {α β : Type} {first : m α} {next : α → m β} {middle : α → Prop} {post : β → Prop},
    holds first middle → (∀ result, middle result → holds (next result) post) →
      holds (first >>= next) post

namespace Promise
variable {m : Type → Type} [Monad m] (promise : Promise m)
variable {α β : Type} {elements : List α}

theorem mono [LawfulMonad m] {action : m α} {strong weak : α → Prop}
    (done : promise.holds action strong) (weaken : ∀ result, strong result → weak result) :
    promise.holds action weak := by
  rw [← bind_pure action]
  exact promise.bind done fun result holds => promise.pure (weaken result holds)

/-- What the first part returns does not matter. -/
theorem andThen {first : m α} {next : α → m β} {post : β → Prop}
    (done : promise.holds first fun _ => True) (rest : ∀ result, promise.holds (next result) post) :
    promise.holds (first >>= next) post :=
  promise.bind done fun result _ => rest result

theorem forM {action : α → m PUnit}
    (each : ∀ element ∈ elements, promise.holds (action element) fun _ => True) :
    promise.holds (elements.forM action) fun _ => True := by
  induction elements with
  | nil => exact promise.pure trivial
  | cons first rest ih =>
    exact promise.andThen (each first List.mem_cons_self) fun _ =>
      ih fun element member => each element (List.mem_cons_of_mem _ member)

/-- There is one result for each element. -/
theorem mapM [LawfulMonad m] {build : α → m β} {post : β → Prop}
    (each : ∀ element ∈ elements, promise.holds (build element) post) :
    promise.holds (elements.mapM build) fun results =>
      results.length = elements.length ∧ ∀ result ∈ results, post result := by
  induction elements with
  | nil => exact promise.pure ⟨rfl, by simp⟩
  | cons first rest ih =>
    rw [List.mapM_cons]
    apply promise.bind (each first List.mem_cons_self)
    intro result holds
    apply promise.bind (ih fun element member => each element (List.mem_cons_of_mem _ member))
    rintro results ⟨length, all⟩
    apply promise.pure
    constructor
    · exact congrArg (· + 1) length
    · intro other member
      rcases List.mem_cons.mp member with rfl | later
      · exact holds
      · exact all other later

theorem foldlM {step : β → α → m β} {start : β} {post : β → Prop} (first : post start)
    (each : ∀ element ∈ elements, ∀ value, post value → promise.holds (step value element) post) :
    promise.holds (elements.foldlM step start) post := by
  induction elements generalizing start with
  | nil => exact promise.pure first
  | cons element rest ih =>
    rw [List.foldlM_cons]
    apply promise.bind (each element List.mem_cons_self start first)
    exact fun value holds => ih holds fun other member => each other (List.mem_cons_of_mem _ member)

theorem allM {test : α → m Bool}
    (each : ∀ element ∈ elements, promise.holds (test element) fun _ => True) :
    promise.holds (elements.allM test) fun _ => True := by
  induction elements with
  | nil => exact promise.pure trivial
  | cons first rest ih =>
    apply promise.bind (each first List.mem_cons_self)
    intro passed _
    cases passed with
    | false => exact promise.pure trivial
    | true => exact ih fun element member => each element (List.mem_cons_of_mem _ member)

theorem anyM {test : α → m Bool}
    (each : ∀ element ∈ elements, promise.holds (test element) fun _ => True) :
    promise.holds (elements.anyM test) fun _ => True := by
  induction elements with
  | nil => exact promise.pure trivial
  | cons first rest ih =>
    apply promise.bind (each first List.mem_cons_self)
    intro passed _
    cases passed with
    | false => exact ih fun element member => each element (List.mem_cons_of_mem _ member)
    | true => exact promise.pure trivial

theorem findM? {test : α → m Bool}
    (each : ∀ element ∈ elements, promise.holds (test element) fun _ => True) :
    promise.holds (elements.findM? test) fun _ => True := by
  induction elements with
  | nil => exact promise.pure trivial
  | cons first rest ih =>
    apply promise.bind (each first List.mem_cons_self)
    intro passed _
    cases passed with
    | false => exact ih fun element member => each element (List.mem_cons_of_mem _ member)
    | true => exact promise.pure trivial

theorem findSomeM? {search : α → m (Option β)}
    (each : ∀ element ∈ elements, promise.holds (search element) fun _ => True) :
    promise.holds (elements.findSomeM? search) fun _ => True := by
  induction elements with
  | nil => exact promise.pure trivial
  | cons first rest ih =>
    apply promise.bind (each first List.mem_cons_self)
    intro found _
    cases found with
    | none => exact ih fun element member => each element (List.mem_cons_of_mem _ member)
    | some result => exact promise.pure trivial

theorem filterMapM [LawfulMonad m] {search : α → m (Option β)}
    (each : ∀ element ∈ elements, promise.holds (search element) fun _ => True) :
    promise.holds (elements.filterMapM search) fun _ => True := by
  induction elements with
  | nil => exact promise.pure trivial
  | cons first rest ih =>
    rw [List.filterMapM_cons]
    apply promise.bind (each first List.mem_cons_self)
    intro found _
    have later := ih fun element member => each element (List.mem_cons_of_mem _ member)
    cases found with
    | none => exact later
    | some result => exact promise.bind later fun _ _ => promise.pure trivial

theorem filterM {test : α → m Bool}
    (each : ∀ element ∈ elements, promise.holds (test element) fun _ => True) :
    promise.holds (elements.filterM test) fun _ => True := by
  have accumulate : ∀ chosen : List α,
      promise.holds (elements.filterAuxM test chosen) fun _ => True := by
    induction elements with
    | nil => exact fun _ => promise.pure trivial
    | cons first rest ih =>
      intro chosen
      apply promise.bind (each first List.mem_cons_self)
      exact fun _ _ => ih (fun element member => each element (List.mem_cons_of_mem _ member)) _
  exact promise.bind (accumulate []) fun _ _ => promise.pure trivial

/-- The promise for computations with a state of their own, whatever that state is. -/
def underState (σ : Type) : Promise (StateT σ m) where
  holds action post := ∀ own, promise.holds (action.run own) fun result => post result.1
  pure promised _ := promise.pure promised
  bind first rest own := promise.bind (first own) fun result promised =>
    rest result.1 promised result.2

/-- The promise for computations that may fail with a fault, about those that do not. -/
def underFault (ε : Type) : Promise (ExceptT ε m) where
  holds action post := promise.holds action.run fun result =>
    ∀ value, result = .ok value → post value
  pure promised := promise.pure fun _ same => Except.ok.inj same ▸ promised
  bind first rest := promise.bind first fun result all => by
    cases result with
    | ok value => exact rest value (all value rfl)
    | error fault => exact promise.pure fun _ same => nomatch same

end Promise

/-- From every state that has it the action ends in a state that has it, if it ends. -/
def Keeping {σ ε : Type} (invariant : σ → Prop) : Promise (StateT σ (Except ε)) where
  holds action post := ∀ start, invariant start →
    Ensures action start fun result final => invariant final ∧ post result
  pure promised _ kept := Ensures.pure ⟨kept, promised⟩
  bind first rest start kept := Ensures.bind <| (first start kept).mono
    fun result _ done => rest result done.2 _ done.1

end ClassLang
