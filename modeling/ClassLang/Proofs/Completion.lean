import Mathlib.Data.List.Forall2

/-! Correctness of computations with a state that may fail: `Completes` promises an end without
failure, `Ensures` only speaks of runs that have one, and `Runs` does either. -/

namespace ClassLang

variable {σ ε α β : Type}

/-- From `start` the action ends without failing, and `post` holds of its result and of the state
it leaves. -/
def Completes (action : StateT σ (Except ε) α) (start : σ) (post : α → σ → Prop) : Prop :=
  ∃ result final, action.run start = .ok (result, final) ∧ post result final

/-- Whenever the action ends from `start` without failing, `post` holds of its result and of the
state it leaves. -/
def Ensures (action : StateT σ (Except ε) α) (start : σ) (post : α → σ → Prop) : Prop :=
  ∀ result final, action.run start = .ok (result, final) → post result final

@[simp] theorem ok_bind (value : α) (next : α → Except ε β) :
    (Except.ok value >>= next) = next value := rfl

@[simp] theorem pure_eq_ok (value : α) : (Pure.pure value : Except ε α) = .ok value := rfl

/-- A sequence that ends has an end of its first part. -/
theorem Except.bind_eq_ok {first : Except ε α} {next : α → Except ε β} {value : β}
    (ran : (first >>= next) = .ok value) :
    ∃ middle, first = .ok middle ∧ next middle = .ok value := by
  cases first with
  | error fault => cases ran
  | ok middle => exact ⟨middle, rfl, ran⟩

/-- What is computed from an answer holds of it. -/
theorem Except.exists_ok (answer : Except ε α) (Test : α → Prop) [DecidablePred Test]
    (passed : answer.toOption.any (fun value => decide (Test value)) = true) :
    ∃ value, answer = .ok value ∧ Test value := by
  cases answer with
  | error _ => cases passed
  | ok value => exact ⟨value, rfl, by simpa [Except.toOption] using passed⟩

namespace Completes

theorem mono {action : StateT σ (Except ε) α} {start : σ} {weak strong : α → σ → Prop}
    (done : Completes action start strong)
    (weaken : ∀ result final, strong result final → weak result final) :
    Completes action start weak := by
  obtain ⟨result, final, ran, holds⟩ := done
  exact ⟨result, final, ran, weaken result final holds⟩

theorem pure {start : σ} {post : α → σ → Prop} {result : α} (holds : post result start) :
    Completes (ε := ε) (Pure.pure result) start post :=
  ⟨result, start, rfl, holds⟩

theorem bind {action : StateT σ (Except ε) α} {next : α → StateT σ (Except ε) β} {start : σ}
    {post : β → σ → Prop}
    (done : Completes action start fun result middle => Completes (next result) middle post) :
    Completes (action >>= next) start post := by
  obtain ⟨result, middle, ran, value, final, continued, holds⟩ := done
  refine ⟨value, final, ?_, holds⟩
  simp only [StateT.run_bind, ran]
  exact continued

theorem lift {answer : Except ε α} {start : σ} {post : α → σ → Prop} {result : α}
    (ran : answer = .ok result) (holds : post result start) :
    Completes (liftM answer : StateT σ (Except ε) α) start post := by
  subst ran
  exact ⟨result, start, rfl, holds⟩

theorem get {start : σ} {post : σ → σ → Prop} (holds : post start start) :
    Completes (StateT.get : StateT σ (Except ε) σ) start post :=
  ⟨start, start, rfl, holds⟩

theorem modifyGet {start : σ} {change : σ → α × σ} {post : α → σ → Prop}
    (holds : post (change start).1 (change start).2) :
    Completes (StateT.modifyGet change : StateT σ (Except ε) α) start post :=
  ⟨_, _, rfl, holds⟩

theorem modify {start : σ} {change : σ → σ} {post : PUnit → σ → Prop}
    (holds : post () (change start)) :
    Completes (modifyThe σ change : StateT σ (Except ε) PUnit) start post :=
  ⟨(), change start, rfl, holds⟩

end Completes

namespace Ensures

theorem mono {action : StateT σ (Except ε) α} {start : σ} {weak strong : α → σ → Prop}
    (sound : Ensures action start strong)
    (weaken : ∀ result final, strong result final → weak result final) :
    Ensures action start weak :=
  fun result final ran => weaken result final (sound result final ran)

theorem pure {start : σ} {post : α → σ → Prop} {result : α} (holds : post result start) :
    Ensures (ε := ε) (Pure.pure result) start post := by
  intro value final ran
  cases ran
  exact holds

theorem bind {action : StateT σ (Except ε) α} {next : α → StateT σ (Except ε) β} {start : σ}
    {post : β → σ → Prop}
    (sound : Ensures action start fun result middle => Ensures (next result) middle post) :
    Ensures (action >>= next) start post := by
  intro value final ran
  rw [StateT.run_bind] at ran
  obtain ⟨⟨result, middle⟩, first, continued⟩ := Except.bind_eq_ok ran
  exact sound result middle first value final continued

theorem get {start : σ} {post : σ → σ → Prop} (holds : post start start) :
    Ensures (MonadState.get : StateT σ (Except ε) σ) start post := by
  intro result final ran
  cases ran
  exact holds

/-- Only the last part of a sequence counts. -/
theorem after {action : StateT σ (Except ε) α} {next : α → StateT σ (Except ε) β} {start : σ}
    {post : β → σ → Prop} (sound : ∀ result middle, Ensures (next result) middle post) :
    Ensures (action >>= next) start post :=
  bind fun result middle _ => sound result middle

end Ensures

/-- `post` holds of every end of the action from `start`, and if `total` holds there is an end. -/
structure Runs (total : Prop) (action : StateT σ (Except ε) α) (start : σ) (post : α → σ → Prop) :
    Prop where
  ensures : Ensures action start post
  ends : total → ∃ result final, action.run start = .ok (result, final)

theorem Completes.runs {action : StateT σ (Except ε) α} {start : σ} {post : α → σ → Prop}
    (done : Completes action start post) (total : Prop) : Runs total action start post := by
  obtain ⟨result, final, ran, holds⟩ := done
  refine ⟨fun other after same => ?_, fun _ => ⟨result, final, ran⟩⟩
  rw [ran] at same
  cases same
  exact holds

namespace Runs
variable {total : Prop}

theorem completes {action : StateT σ (Except ε) α} {start : σ} {post : α → σ → Prop}
    (runs : Runs total action start post) (sure : total) : Completes action start post := by
  obtain ⟨result, final, ran⟩ := runs.ends sure
  exact ⟨result, final, ran, runs.ensures result final ran⟩

theorem mono {action : StateT σ (Except ε) α} {start : σ} {weak strong : α → σ → Prop}
    (runs : Runs total action start strong)
    (weaken : ∀ result final, strong result final → weak result final) :
    Runs total action start weak :=
  ⟨runs.ensures.mono weaken, runs.ends⟩

/-- What is known of every end besides. -/
theorem and {action : StateT σ (Except ε) α} {start : σ} {post other : α → σ → Prop}
    (runs : Runs total action start post) (also : Ensures action start other) :
    Runs total action start fun result final => post result final ∧ other result final :=
  ⟨fun result final ran => ⟨runs.ensures result final ran, also result final ran⟩, runs.ends⟩

theorem pure {start : σ} {post : α → σ → Prop} {result : α} (holds : post result start) :
    Runs (ε := ε) total (Pure.pure result) start post :=
  (Completes.pure holds).runs total

theorem bind {action : StateT σ (Except ε) α} {next : α → StateT σ (Except ε) β} {start : σ}
    {post : β → σ → Prop}
    (runs : Runs total action start fun result middle => Runs total (next result) middle post) :
    Runs total (action >>= next) start post := by
  refine ⟨Ensures.bind (runs.ensures.mono fun result middle rest => rest.ensures), fun sure => ?_⟩
  obtain ⟨result, middle, ran, rest⟩ := runs.completes sure
  obtain ⟨value, final, continued⟩ := rest.ends sure
  refine ⟨value, final, ?_⟩
  simp only [StateT.run_bind, ran]
  exact continued

/-- An answer that does not depend on the state. -/
theorem lift {answer : Except ε α} {start : σ} {post : α → σ → Prop}
    (answers : total → ∃ result, answer = .ok result)
    (holds : ∀ result, answer = .ok result → post result start) :
    Runs total (liftM answer : StateT σ (Except ε) α) start post := by
  refine ⟨fun result final ran => ?_, fun sure => ?_⟩
  · obtain ⟨value, found, kept⟩ := Except.bind_eq_ok ran
    cases kept
    exact holds _ found
  · obtain ⟨result, found⟩ := answers sure
    exact ⟨result, start, by subst found; rfl⟩

/-- A step that is never reached. -/
theorem never {action : StateT σ (Except ε) α} {start : σ} {post : α → σ → Prop}
    (excluded : ¬ total) (fails : ∀ result final, action.run start ≠ .ok (result, final)) :
    Runs total action start post :=
  ⟨fun result final ran => absurd ran (fails result final), fun sure => absurd sure excluded⟩

end Runs

/-- `Runs` for answers without a state. -/
structure Answers (total : Prop) (answer : Except ε α) (post : α → Prop) : Prop where
  ensures : ∀ result, answer = .ok result → post result
  ends : total → ∃ result, answer = .ok result

namespace Answers
variable {total : Prop} {answer : Except ε α} {strong weak post : α → Prop}

theorem mono (answers : Answers total answer strong)
    (weaken : ∀ result, strong result → weak result) : Answers total answer weak :=
  ⟨fun result ran => weaken result (answers.ensures result ran), answers.ends⟩

theorem known (answers : Answers total answer post) : Answers total answer fun result =>
  answer = .ok result ∧ post result :=
  ⟨fun result ran => ⟨ran, answers.ensures result ran⟩, answers.ends⟩

theorem ok {result : α} (holds : post result) : Answers (ε := ε) total (.ok result) post :=
  ⟨fun _ same => Except.ok.inj same ▸ holds, fun _ => ⟨result, rfl⟩⟩

theorem bind {next : α → Except ε β} {post : β → Prop}
    (answers : Answers total answer fun result => Answers total (next result) post) :
    Answers total (answer >>= next) post := by
  refine ⟨fun value ran => ?_, fun sure => ?_⟩
  · obtain ⟨result, answered, continued⟩ := Except.bind_eq_ok ran
    exact (answers.ensures result answered).ensures value continued
  · obtain ⟨result, rfl⟩ := answers.ends sure
    exact (answers.ensures result rfl).ends sure

end Answers

theorem Runs.answers {total : Prop} {action : StateT σ (Except ε) α} {start : σ}
    {post : α → σ → Prop} (runs : Runs total action start post) :
    Answers total (action.run start) fun result => post result.1 result.2 :=
  ⟨fun result ran => runs.ensures result.1 result.2 ran, fun sure => by
    obtain ⟨result, final, ran⟩ := runs.ends sure
    exact ⟨(result, final), ran⟩⟩

/-- A test that all elements pass is passed by each of them. -/
theorem allM_run_eq_true {test : α → StateT σ (Except ε) Bool} {elements : List α} :
    ∀ {start final : σ}, (elements.allM test).run start = .ok (true, final) →
      ∀ element ∈ elements, ∃ before after, (test element).run before = .ok (true, after) := by
  induction elements with
  | nil => intro _ _ _ element member; cases member
  | cons first rest ih =>
    intro start final ran element member
    obtain ⟨⟨passed, middle⟩, tested, continued⟩ := Except.bind_eq_ok ran
    cases passed with
    | false => cases continued
    | true =>
      rcases List.mem_cons.mp member with rfl | later
      · exact ⟨start, middle, tested⟩
      · exact ih continued element later

/-! Lists of answers that do not depend on a state. -/

section
variable {elements : List α}

theorem Except.mapM_ok {answer : α → Except ε β} {holds : β → Prop}
    (each : ∀ element ∈ elements, ∃ result, answer element = .ok result ∧ holds result) :
    ∃ results, elements.mapM answer = .ok results ∧ ∀ result ∈ results, holds result := by
  induction elements with
  | nil => exact ⟨[], rfl, by simp⟩
  | cons first rest ih =>
    obtain ⟨result, ran, good⟩ := each first List.mem_cons_self
    obtain ⟨results, later, others⟩ :=
      ih fun element member => each element (List.mem_cons_of_mem _ member)
    refine ⟨result :: results, ?_, fun other member => ?_⟩
    · rw [List.mapM_cons, ran, ok_bind, later]
      rfl
    · rcases List.mem_cons.mp member with rfl | inRest
      · exact good
      · exact others other inRest

/-- A list of questions is answered just when each of them is. -/
theorem Except.mapM_eq_ok_iff {answer : α → Except ε β} {results : List β} :
    elements.mapM answer = .ok results ↔
      List.Forall₂ (fun element result => answer element = .ok result) elements results := by
  constructor
  · intro ran
    induction elements generalizing results with
    | nil =>
      cases ran
      exact .nil
    | cons first rest ih =>
      rw [List.mapM_cons] at ran
      obtain ⟨head, outcome, ran⟩ := Except.bind_eq_ok ran
      obtain ⟨tail, later, ran⟩ := Except.bind_eq_ok ran
      cases ran
      exact .cons outcome (ih later)
  · intro answered
    induction answered with
    | nil => rfl
    | cons outcome _ ih =>
      rw [List.mapM_cons, outcome, ok_bind, ih]
      rfl

/-- An entry of a longer array is one that was there or the last one. -/
theorem lookup_push {array : Array α} {last found : α} {index : Nat}
    (present : (array.push last)[index]? = some found) :
    array[index]? = some found ∨ index = array.size ∧ found = last := by
  rw [Array.getElem?_push] at present
  split at present
  · rename_i same
    exact .inr ⟨same, (Option.some.inj present).symm⟩
  · exact .inl present

/-- Every element of a list is related to one of a related list. -/
theorem exists_mem_of_forall₂ {relation : α → β → Prop} {results : List β}
    (related : List.Forall₂ relation elements results) {element : α} (listed : element ∈ elements) :
    ∃ result ∈ results, relation element result := by
  induction related with
  | nil => cases listed
  | cons first _ ih =>
    rcases List.mem_cons.mp listed with rfl | later
    · exact ⟨_, List.mem_cons_self, first⟩
    · obtain ⟨result, member, holds⟩ := ih later
      exact ⟨result, List.mem_cons_of_mem _ member, holds⟩

/-- Every result is the answer for one of the elements. -/
theorem Except.mem_of_mapM {answer : α → Except ε β} {results : List β}
    (ran : elements.mapM answer = .ok results) :
    ∀ result ∈ results, ∃ element ∈ elements, answer element = .ok result :=
  fun _ member => exists_mem_of_forall₂ (Except.mapM_eq_ok_iff.mp ran).flip member

theorem Except.anyM_ok {test : α → Except ε Bool}
    (each : ∀ element ∈ elements, ∃ passed, test element = .ok passed) :
    ∃ passed, elements.anyM test = .ok passed := by
  induction elements with
  | nil => exact ⟨false, rfl⟩
  | cons first rest ih =>
    obtain ⟨passed, ran⟩ := each first List.mem_cons_self
    rw [List.anyM, ran, ok_bind]
    cases passed with
    | true => exact ⟨true, rfl⟩
    | false => exact ih fun element member => each element (List.mem_cons_of_mem _ member)

theorem Except.filterM_ok {test : α → Except ε Bool}
    (each : ∀ element ∈ elements, ∃ passed, test element = .ok passed) :
    ∃ kept, elements.filterM test = .ok kept := by
  have accumulate : ∀ (rest chosen : List α),
      (∀ element ∈ rest, ∃ passed, test element = .ok passed) → ∃ kept,
        rest.filterAuxM test chosen = .ok kept := by
    intro rest
    induction rest with
    | nil => exact fun chosen _ => ⟨chosen, rfl⟩
    | cons first rest ih =>
      intro chosen each
      obtain ⟨passed, answered⟩ := each first List.mem_cons_self
      rw [List.filterAuxM, answered, ok_bind]
      exact ih _ fun element member => each element (List.mem_cons_of_mem _ member)
  obtain ⟨kept, ran⟩ := accumulate elements [] each
  exact ⟨kept.reverse, by rw [List.filterM, ran]; rfl⟩

/-- An element that passes is kept. -/
theorem Except.mem_filterM {test : α → Except ε Bool} {kept : List α}
    (ran : elements.filterM test = .ok kept) {element : α} (member : element ∈ elements)
    (passes : test element = .ok true) : element ∈ kept := by
  have accumulate : ∀ (rest chosen kept : List α), rest.filterAuxM test chosen = .ok kept →
      element ∈ rest ∨ element ∈ chosen → element ∈ kept := by
    intro rest
    induction rest with
    | nil =>
      intro chosen kept ran either
      cases ran
      exact either.resolve_left (by simp)
    | cons first rest ih =>
      intro chosen kept ran either
      obtain ⟨passed, tested, ran⟩ := Except.bind_eq_ok ran
      refine ih _ kept ran ?_
      rcases either with listed | earlier
      · rcases List.mem_cons.mp listed with rfl | later
        · rw [passes] at tested
          cases tested
          exact .inr List.mem_cons_self
        · exact .inl later
      · cases passed with
        | false => exact .inr earlier
        | true => exact .inr (List.mem_cons_of_mem _ earlier)
  obtain ⟨chosen, walked, ran⟩ := Except.bind_eq_ok ran
  cases ran
  exact List.mem_reverse.mpr (accumulate elements [] chosen walked (.inl member))

theorem Except.foldlM_ok {step : β → α → Except ε β} {keeps : β → Prop} {start : β}
    (first : keeps start) (each : ∀ element ∈ elements, ∀ value, keeps value →
      ∃ next, step value element = .ok next ∧ keeps next) :
    ∃ final, elements.foldlM step start = .ok final ∧ keeps final := by
  induction elements generalizing start with
  | nil => exact ⟨start, rfl, first⟩
  | cons element rest ih =>
    obtain ⟨next, ran, kept⟩ := each element List.mem_cons_self start first
    rw [List.foldlM_cons, ran, ok_bind]
    exact ih kept fun other member => each other (List.mem_cons_of_mem _ member)

end
end ClassLang
