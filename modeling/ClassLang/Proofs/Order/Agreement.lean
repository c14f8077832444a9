import ClassLang.Proofs.Completion
import Mathlib.Logic.Equiv.Defs
import Mathlib.Logic.Equiv.Option
import Mathlib.Logic.Equiv.List

/-! Two runs compared step by step. The runs are of two programs that differ only in the names they
give to things: results of the first stand for results of the second by a bijection, and states of
the two are alike. Nothing is promised of a run that fails. -/

namespace ClassLang

variable {σ ε α β γ δ ι κ : Type}

/-- Two answers correspond, unless one of them is a failure. -/
def Corresponds (via : α ≃ β) (first : Except ε α) (second : Except ε β) : Prop :=
  ∀ value value', first = .ok value → second = .ok value' → value' = via value

namespace Corresponds

variable {via : α ≃ β} {next : γ ≃ δ} {first : Except ε α} {second : Except ε β}

theorem ok {value : α} {value' : β} (same : value' = via value) :
    Corresponds via (.ok value : Except ε α) (.ok value') := by
  intro _ _ ran known'
  cases ran
  cases known'
  exact same

theorem refl (answer : Except ε α) : Corresponds (.refl α) answer answer := by
  intro value value' ran known'
  rw [ran] at known'
  cases known'
  rfl

theorem failLeft (fault : ε) : Corresponds via (.error fault) second := by
  intro _ _ ran
  cases ran

theorem failRight (fault : ε) : Corresponds via first (.error fault) := by
  intro _ _ _ ran
  cases ran

/-- The answer of the second is that of the first, or the same failure. -/
theorem of_map (same : second = first.map via) : Corresponds via first second := by
  intro value value' ran known'
  rw [same, ran] at known'
  cases known'
  rfl

theorem bind {rest : α → Except ε γ} {rest' : β → Except ε δ} (done : Corresponds via first second)
    (goesOn : ∀ value, Corresponds next (rest value) (rest' (via value))) :
    Corresponds next (first >>= rest) (second >>= rest') := by
  intro result result' ran ran'
  obtain ⟨value, start, continued⟩ := Except.bind_eq_ok ran
  obtain ⟨value', start', continued'⟩ := Except.bind_eq_ok ran'
  obtain rfl := done value value' start start'
  exact goesOn value result result' continued continued'

theorem ite {test test' : Prop} [Decidable test] [Decidable test'] (same : test' ↔ test)
    {other : Except ε α} {other' : Except ε β} (yes : test → Corresponds via first second)
    (no : ¬ test → Corresponds via other other') :
    Corresponds via (if test then first else other) (if test' then second else other') := by
  by_cases holds : test
  · rw [if_pos holds, if_pos (same.mpr holds)]
    exact yes holds
  · rw [if_neg holds, if_neg (mt same.mp holds)]
    exact no holds

theorem congr {other : α ≃ β} (same : Corresponds via first second) (equal : via = other) :
    Corresponds other first second :=
  equal ▸ same

section
variable {elements : List ι} {image : ι → κ}

theorem mapM {each : ι → Except ε α} {each' : κ → Except ε β}
    (same : ∀ element ∈ elements, Corresponds via (each element) (each' (image element))) :
    Corresponds (Equiv.listEquivOfEquiv via) (elements.mapM each)
      ((elements.map image).mapM each') := by
  induction elements with
  | nil => exact ok rfl
  | cons element rest ih =>
    rw [List.map_cons, List.mapM_cons, List.mapM_cons]
    refine (same element List.mem_cons_self).bind fun value => ?_
    refine (ih fun other member => same other (List.mem_cons_of_mem _ member)).bind fun values => ?_
    exact ok rfl

theorem foldlM {each : α → ι → Except ε α} {each' : β → κ → Except ε β} (start : α)
    (same : ∀ element ∈ elements, ∀ value,
      Corresponds via (each value element) (each' (via value) (image element))) :
    Corresponds via (elements.foldlM each start)
      ((elements.map image).foldlM each' (via start)) := by
  induction elements generalizing start with
  | nil => exact ok rfl
  | cons element rest ih =>
    rw [List.map_cons, List.foldlM_cons, List.foldlM_cons]
    exact (same element List.mem_cons_self start).bind fun value =>
      ih value fun other member => same other (List.mem_cons_of_mem _ member)

theorem anyM {each : ι → Except ε Bool} {each' : κ → Except ε Bool}
    (same : ∀ element ∈ elements, Corresponds (.refl Bool) (each element) (each' (image element))) :
    Corresponds (.refl Bool) (elements.anyM each) ((elements.map image).anyM each') := by
  induction elements with
  | nil => exact ok rfl
  | cons element rest ih =>
    refine (same element List.mem_cons_self).bind fun passed => ?_
    cases passed with
    | true => exact ok rfl
    | false => exact ih fun other member => same other (List.mem_cons_of_mem _ member)

end
end Corresponds

/-- How two runs are compared: what a step may do to a state of either run, what it keeps in the
first and in the second, which states are on the way to where the runs are known to end, which
states are alike, and what a step may rely on that reads alike states. -/
structure Setting (σ : Type) where
  leads : σ → σ → Prop
  left : σ → Prop
  right : σ → Prop
  fits : σ → σ → Prop
  alike : σ → σ → Prop
  sees : σ → σ → Prop
  refl : ∀ state, leads state state
  trans : ∀ {before middle after}, leads before middle → leads middle after → leads before after
  keepLeft : ∀ {before after}, leads before after → left before → left after
  keepRight : ∀ {before after}, leads before after → right before → right after
  fits_of_leads : ∀ {before after before' after'}, leads before after → leads before' after' →
    fits after after' → fits before before'
  sees_of_alike : ∀ {state state'}, left state → right state' → alike state state' →
    sees state state'
  exists_right : ∀ {state}, left state → ∃ other, right other ∧ sees state other
  exists_left : ∀ {state}, right state → ∃ other, left other ∧ sees other state

namespace Setting

/-- Both actions do to a state what a step may do, and from states that are alike they come to
results that correspond and to states that are alike, when both end on the way. -/
structure Agree (setting : Setting σ) (via : α ≃ β) (first : StateT σ (Except ε) α)
    (second : StateT σ (Except ε) β) : Prop where
  leadsLeft : ∀ state, setting.left state → Ensures first state fun _ after =>
    setting.leads state after
  leadsRight : ∀ state, setting.right state →
    Ensures second state fun _ after => setting.leads state after
  agrees : ∀ state state', setting.left state → setting.right state' → setting.alike state state' →
    ∀ result after result' after', first.run state = .ok (result, after) →
      second.run state' = .ok (result', after') → setting.fits after after' →
        result' = via result ∧ setting.alike after after'

namespace Agree

variable {setting : Setting σ} {via : α ≃ β} {next : γ ≃ δ}

theorem pure {result : α} {result' : β} (same : result' = via result) :
    setting.Agree via (Pure.pure result : StateT σ (Except ε) α) (Pure.pure result') where
  leadsLeft state _ := Ensures.pure (setting.refl state)
  leadsRight state _ := Ensures.pure (setting.refl state)
  agrees := by
    intro state state' _ _ alike result after result' after' ran ran' _
    cases ran
    cases ran'
    exact ⟨same, alike⟩

/-- An action that always fails agrees with itself. -/
theorem throw (fault fault' : ε) :
    setting.Agree via (MonadExcept.throw fault : StateT σ (Except ε) α)
      (MonadExcept.throw fault') where
  leadsLeft _ _ _ _ ran := nomatch ran
  leadsRight _ _ _ _ ran := nomatch ran
  agrees _ _ _ _ _ _ _ _ _ ran := nomatch ran

/-- Nothing follows a failure. -/
theorem throwThen (fault fault' : ε) {rest : ι → StateT σ (Except ε) α}
    {rest' : κ → StateT σ (Except ε) β} :
    setting.Agree via ((MonadExcept.throw fault : StateT σ (Except ε) ι) >>= rest)
      ((MonadExcept.throw fault' : StateT σ (Except ε) κ) >>= rest') where
  leadsLeft _ _ _ _ ran := nomatch ran
  leadsRight _ _ _ _ ran := nomatch ran
  agrees _ _ _ _ _ _ _ _ _ ran := nomatch ran

theorem bind {first : StateT σ (Except ε) α} {second : StateT σ (Except ε) β}
    {rest : α → StateT σ (Except ε) γ} {rest' : β → StateT σ (Except ε) δ}
    (done : setting.Agree via first second)
    (goesOn : ∀ result, setting.Agree next (rest result) (rest' (via result))) :
    setting.Agree next (first >>= rest) (second >>= rest') := by
  -- Every result of the second action corresponds to one of the first.
  have onto : ∀ result', ∃ result, setting.Agree next (rest result) (rest' result') :=
    fun result' => ⟨via.symm result', by simpa using goesOn (via.symm result')⟩
  refine ⟨fun state holds => ?_, fun state holds => ?_, ?_⟩
  · refine Ensures.bind ((done.leadsLeft state holds).mono fun result middle led => ?_)
    exact ((goesOn result).leadsLeft middle (setting.keepLeft led holds)).mono fun _ _ =>
      setting.trans led
  · refine Ensures.bind ((done.leadsRight state holds).mono fun result' middle led => ?_)
    obtain ⟨_, agree⟩ := onto result'
    exact (agree.leadsRight middle (setting.keepRight led holds)).mono fun _ _ => setting.trans led
  · intro state state' left right alike value after value' after' ran ran' fits
    rw [StateT.run_bind] at ran ran'
    obtain ⟨⟨result, middle⟩, start, continued⟩ := Except.bind_eq_ok ran
    obtain ⟨⟨result', middle'⟩, start', continued'⟩ := Except.bind_eq_ok ran'
    have leftMiddle := setting.keepLeft (done.leadsLeft state left result middle start) left
    have rightMiddle :=
      setting.keepRight (done.leadsRight state' right result' middle' start') right
    obtain ⟨_, agree⟩ := onto result'
    have between : setting.fits middle middle' := setting.fits_of_leads
      ((goesOn result).leadsLeft middle leftMiddle value after continued)
      (agree.leadsRight middle' rightMiddle value' after' continued') fits
    obtain ⟨rfl, alikeMiddle⟩ :=
      done.agrees state state' left right alike result middle result' middle' start start' between
    exact (goesOn result).agrees middle middle' leftMiddle rightMiddle alikeMiddle value after
      value' after' continued continued' fits

theorem congr {other : α ≃ β} {first : StateT σ (Except ε) α} {second : StateT σ (Except ε) β}
    (agree : setting.Agree via first second) (same : via = other) :
    setting.Agree other first second :=
  same ▸ agree

/-- The state is read. -/
theorem get {rest rest' : σ → StateT σ (Except ε) α} {via : α ≃ α}
    (each : ∀ state state', setting.left state → setting.right state' → setting.sees state state' →
      setting.Agree via (rest state) (rest' state')) :
    setting.Agree via (MonadState.get >>= rest) (MonadState.get >>= rest') where
  leadsLeft state left := by
    obtain ⟨state', right, seen⟩ := setting.exists_right left
    exact (each state state' left right seen).leadsLeft state left
  leadsRight state right := by
    obtain ⟨state', left, seen⟩ := setting.exists_left right
    exact (each state' state left right seen).leadsRight state right
  agrees state state' left right alike :=
    (each state state' left right (setting.sees_of_alike left right alike)).agrees state state' left
      right alike

/-- The state is asked a question. -/
theorem ask {query : σ → Except ε α} {query' : σ → Except ε β}
    (each : ∀ state state', setting.left state → setting.right state' → setting.fits state state' →
      setting.alike state state' → Corresponds via (query state) (query' state')) :
    setting.Agree via (do query (← MonadState.get) : StateT σ (Except ε) α)
      (do query' (← MonadState.get)) := by
  have unchanged : ∀ {γ : Type} {query : σ → Except ε γ} {state after : σ} {answer : γ},
      (do query (← MonadState.get) : StateT σ (Except ε) γ).run state = .ok (answer, after) →
        after = state ∧ query state = .ok answer := by
    intro γ query state after answer ran
    have split : (query state >>= fun value => Except.ok (value, state)) = .ok (answer, after) :=
      ran
    obtain ⟨value, answered, done⟩ := Except.bind_eq_ok split
    cases done
    exact ⟨rfl, answered⟩
  refine ⟨fun state _ answer after ran => ?_, fun state _ answer after ran => ?_, ?_⟩
  · rw [(unchanged ran).1]
    exact setting.refl state
  · rw [(unchanged ran).1]
    exact setting.refl state
  · intro state state' left right alike answer after answer' after' ran ran' fits
    obtain ⟨rfl, answered⟩ := unchanged ran
    obtain ⟨rfl, known'⟩ := unchanged ran'
    exact ⟨each _ _ left right fits alike answer answer' answered known', alike⟩

/-- An answer that does not depend on the state. -/
theorem lift {answer : Except ε α} {answer' : Except ε β}
    (same : Corresponds via answer answer') :
    setting.Agree via (liftM answer : StateT σ (Except ε) α) (liftM answer') := by
  have unchanged : ∀ {γ : Type} {answer : Except ε γ} {state after : σ} {value : γ},
      (liftM answer : StateT σ (Except ε) γ).run state = .ok (value, after) →
        after = state ∧ answer = .ok value := by
    intro γ answer state after value ran
    have split : (answer >>= fun value => Except.ok (value, state)) = .ok (value, after) := ran
    obtain ⟨value, answered, done⟩ := Except.bind_eq_ok split
    cases done
    exact ⟨rfl, answered⟩
  refine ⟨fun state _ value after ran => ?_, fun state _ value after ran => ?_, ?_⟩
  · rw [(unchanged ran).1]
    exact setting.refl state
  · rw [(unchanged ran).1]
    exact setting.refl state
  · intro state state' left right alike value after value' after' ran ran' fits
    obtain ⟨rfl, answered⟩ := unchanged ran
    obtain ⟨rfl, known'⟩ := unchanged ran'
    exact ⟨same value value' answered known', alike⟩

/-- What follows an answer that does not depend on the state may use what the answer is. -/
theorem liftBind {answer : Except ε α} {answer' : Except ε β} {rest : α → StateT σ (Except ε) γ}
    {rest' : β → StateT σ (Except ε) δ} (same : answer' = answer.map via)
    (each : ∀ value, answer = .ok value → setting.Agree next (rest value) (rest' (via value))) :
    setting.Agree next ((liftM answer : StateT σ (Except ε) α) >>= rest)
      ((liftM answer' : StateT σ (Except ε) β) >>= rest') := by
  subst same
  cases answer with
  | error fault => exact throwThen fault fault
  | ok value => exact each value rfl

/-- The state is changed. -/
theorem modify {change change' : σ → σ}
    (left : ∀ state, setting.left state → setting.leads state (change state))
    (right : ∀ state, setting.right state → setting.leads state (change' state))
    (alike : ∀ state state', setting.left state → setting.right state' →
      setting.alike state state' → setting.alike (change state) (change' state')) :
    setting.Agree (.refl PUnit) (modifyThe σ change : StateT σ (Except ε) PUnit)
      (modifyThe σ change') where
  leadsLeft state holds := by
    intro result after ran
    cases ran
    exact left state holds
  leadsRight state holds := by
    intro result after ran
    cases ran
    exact right state holds
  agrees := by
    intro state state' holds holds' likeness result after result' after' ran ran' _
    cases ran
    cases ran'
    exact ⟨rfl, alike state state' holds holds' likeness⟩

theorem ite {test test' : Prop} [Decidable test] [Decidable test'] (same : test' ↔ test)
    {first other : StateT σ (Except ε) α} {second other' : StateT σ (Except ε) β}
    (yes : test → setting.Agree via first second) (no : ¬ test → setting.Agree via other other') :
    setting.Agree via (if test then first else other) (if test' then second else other') := by
  by_cases holds : test
  · rw [if_pos holds, if_pos (same.mpr holds)]
    exact yes holds
  · rw [if_neg holds, if_neg (mt same.mp holds)]
    exact no holds

/-- A question decides which way to go. -/
theorem branch {asked asked' : StateT σ (Except ε) Bool} {first other : StateT σ (Except ε) α}
    {second other' : StateT σ (Except ε) β} (same : setting.Agree (.refl Bool) asked asked')
    (yes : setting.Agree via first second) (no : setting.Agree via other other') :
    setting.Agree via (asked >>= fun answer => if answer = true then first else other)
      (asked' >>= fun answer => if answer = true then second else other') :=
  same.bind fun _ => ite Iff.rfl (fun _ => yes) fun _ => no

/-- A question that is asked only unless the answer is known to be yes. -/
theorem shortcut {known : Bool} {asked asked' : StateT σ (Except ε) Bool}
    {rest : Bool → StateT σ (Except ε) α} {rest' : Bool → StateT σ (Except ε) β}
    (same : setting.Agree (.refl Bool) asked asked')
    (each : ∀ answer, setting.Agree via (rest answer) (rest' answer)) :
    setting.Agree via (if known = true then Pure.pure true >>= rest else asked >>= rest)
      (if known = true then Pure.pure true >>= rest' else asked' >>= rest') := by
  apply ite Iff.rfl
  · exact fun _ => each true
  · exact fun _ => same.bind each

/-- Steps that recur at smaller depth agree at all depths, also at different ones, when nothing
comes back from depth 0. -/
theorem fuel (first : Nat → ι → StateT σ (Except ε) α) (second : Nat → ι → StateT σ (Except ε) β)
    (base : ∀ index, (∃ fault, first 0 index = MonadExcept.throw fault ∧
        second 0 index = MonadExcept.throw fault) ∨
      ∀ depth depth', setting.Agree via (first depth index) (second depth' index))
    (step : ∀ depth depth', (∀ index, setting.Agree via (first depth index) (second depth' index)) →
      ∀ index, setting.Agree via (first (depth + 1) index) (second (depth' + 1) index))
    (depth depth' : Nat) (index : ι) :
    setting.Agree via (first depth index) (second depth' index) := by
  have diagonal : ∀ depth index, setting.Agree via (first depth index) (second depth index) := by
    intro depth
    induction depth with
    | zero =>
      intro index
      obtain ⟨fault, earlier, later⟩ | always := base index
      · rw [earlier, later]
        exact throw fault fault
      · exact always 0 0
    | succ depth ih => exact step depth depth ih
  induction depth generalizing depth' index with
  | zero =>
    obtain ⟨fault, earlier, _⟩ | always := base index
    · refine ⟨(diagonal 0 index).leadsLeft, (diagonal depth' index).leadsRight, ?_⟩
      intro _ _ _ _ _ _ _ _ _ ran
      rw [earlier] at ran
      cases ran
    · exact always 0 depth'
  | succ depth ih =>
    cases depth' with
    | zero =>
      obtain ⟨fault, _, later⟩ | always := base index
      · refine ⟨(diagonal (depth + 1) index).leadsLeft, (diagonal 0 index).leadsRight, ?_⟩
        intro _ _ _ _ _ _ _ _ _ _ ran
        rw [later] at ran
        cases ran
      · exact always (depth + 1) 0
    | succ depth' => exact step depth depth' (ih depth') index

/-! Lists, element by element. -/

section
variable {elements : List ι} {image : ι → κ}

theorem mapM {first : ι → StateT σ (Except ε) α} {second : κ → StateT σ (Except ε) β}
    (each : ∀ element ∈ elements, setting.Agree via (first element) (second (image element))) :
    setting.Agree (Equiv.listEquivOfEquiv via) (elements.mapM first)
      ((elements.map image).mapM second) := by
  induction elements with
  | nil => exact pure rfl
  | cons element rest ih =>
    rw [List.map_cons, List.mapM_cons, List.mapM_cons]
    refine (each element List.mem_cons_self).bind fun result => ?_
    refine (ih fun other member => each other (List.mem_cons_of_mem _ member)).bind
      fun results => ?_
    exact pure rfl

theorem forM {first : ι → StateT σ (Except ε) PUnit} {second : κ → StateT σ (Except ε) PUnit}
    (each : ∀ element ∈ elements,
      setting.Agree (.refl PUnit) (first element) (second (image element))) :
    setting.Agree (.refl PUnit) (elements.forM first) ((elements.map image).forM second) := by
  induction elements with
  | nil => exact pure rfl
  | cons element rest ih =>
    exact (each element List.mem_cons_self).bind fun _ =>
      ih fun other member => each other (List.mem_cons_of_mem _ member)

theorem foldlM {first : α → ι → StateT σ (Except ε) α} {second : β → κ → StateT σ (Except ε) β}
    (start : α) (each : ∀ element ∈ elements, ∀ value,
      setting.Agree via (first value element) (second (via value) (image element))) :
    setting.Agree via (elements.foldlM first start)
      ((elements.map image).foldlM second (via start)) := by
  induction elements generalizing start with
  | nil => exact pure rfl
  | cons element rest ih =>
    rw [List.map_cons, List.foldlM_cons, List.foldlM_cons]
    exact (each element List.mem_cons_self start).bind fun value =>
      ih value fun other member => each other (List.mem_cons_of_mem _ member)

theorem anyM {first : ι → StateT σ (Except ε) Bool} {second : κ → StateT σ (Except ε) Bool}
    (each : ∀ element ∈ elements,
      setting.Agree (.refl Bool) (first element) (second (image element))) :
    setting.Agree (.refl Bool) (elements.anyM first) ((elements.map image).anyM second) := by
  induction elements with
  | nil => exact pure rfl
  | cons element rest ih =>
    refine (each element List.mem_cons_self).bind fun passed => ?_
    cases passed with
    | true => exact pure rfl
    | false => exact ih fun other member => each other (List.mem_cons_of_mem _ member)

theorem allM {first : ι → StateT σ (Except ε) Bool} {second : κ → StateT σ (Except ε) Bool}
    (each : ∀ element ∈ elements,
      setting.Agree (.refl Bool) (first element) (second (image element))) :
    setting.Agree (.refl Bool) (elements.allM first) ((elements.map image).allM second) := by
  induction elements with
  | nil => exact pure rfl
  | cons element rest ih =>
    refine (each element List.mem_cons_self).bind fun passed => ?_
    cases passed with
    | false => exact pure rfl
    | true => exact ih fun other member => each other (List.mem_cons_of_mem _ member)

theorem findSomeM? {first : ι → StateT σ (Except ε) (Option α)}
    {second : κ → StateT σ (Except ε) (Option β)}
    (each : ∀ element ∈ elements,
      setting.Agree (Equiv.optionCongr via) (first element) (second (image element))) :
    setting.Agree (Equiv.optionCongr via) (elements.findSomeM? first)
      ((elements.map image).findSomeM? second) := by
  induction elements with
  | nil => exact pure rfl
  | cons element rest ih =>
    refine (each element List.mem_cons_self).bind fun found => ?_
    cases found with
    | some result => exact pure rfl
    | none => exact ih fun other member => each other (List.mem_cons_of_mem _ member)

theorem findM? {image : ι ≃ κ} {first : ι → StateT σ (Except ε) Bool}
    {second : κ → StateT σ (Except ε) Bool}
    (each : ∀ element ∈ elements,
      setting.Agree (.refl Bool) (first element) (second (image element))) :
    setting.Agree (Equiv.optionCongr image) (elements.findM? first)
      ((elements.map image).findM? second) := by
  induction elements with
  | nil => exact pure rfl
  | cons element rest ih =>
    refine (each element List.mem_cons_self).bind fun passed => ?_
    cases passed with
    | true => exact pure rfl
    | false => exact ih fun other member => each other (List.mem_cons_of_mem _ member)

theorem filterMapM {first : ι → StateT σ (Except ε) (Option α)}
    {second : κ → StateT σ (Except ε) (Option β)}
    (each : ∀ element ∈ elements,
      setting.Agree (Equiv.optionCongr via) (first element) (second (image element))) :
    setting.Agree (Equiv.listEquivOfEquiv via) (elements.filterMapM first)
      ((elements.map image).filterMapM second) := by
  induction elements with
  | nil => exact pure rfl
  | cons element rest ih =>
    rw [List.map_cons, List.filterMapM_cons, List.filterMapM_cons]
    refine (each element List.mem_cons_self).bind fun found => ?_
    have later := ih fun other member => each other (List.mem_cons_of_mem _ member)
    cases found with
    | none => exact later
    | some result => exact later.bind fun results => pure rfl

theorem filterM {image : ι ≃ κ} {first : ι → StateT σ (Except ε) Bool}
    {second : κ → StateT σ (Except ε) Bool}
    (each : ∀ element ∈ elements,
      setting.Agree (.refl Bool) (first element) (second (image element))) :
    setting.Agree (Equiv.listEquivOfEquiv image) (elements.filterM first)
      ((elements.map image).filterM second) := by
  have collect : ∀ (rest kept : List ι), (∀ element ∈ rest, element ∈ elements) →
      setting.Agree (Equiv.listEquivOfEquiv image) (rest.filterAuxM first kept)
        ((rest.map image).filterAuxM second (kept.map image)) := by
    intro rest
    induction rest with
    | nil => exact fun kept _ => pure rfl
    | cons element rest ih =>
      intro kept inside
      refine (each element (inside element List.mem_cons_self)).bind fun passed => ?_
      have others : ∀ other ∈ rest, other ∈ elements := fun other member =>
        inside other (List.mem_cons_of_mem _ member)
      cases passed with
      | true => exact ih (element :: kept) others
      | false => exact ih kept others
  refine (collect elements [] fun _ member => member).bind fun kept => pure ?_
  exact List.map_reverse.symm

end
end Agree
end Setting
end ClassLang
