import ClassLang.Proofs.SymbolTable
import ClassLang.Proofs.Type.Description
import ClassLang.Proofs.Type.Relation
import ClassLang.Stage.Conformance

/-! Choosing a method always comes to an end, and the method chosen is a symbol of the table, seen
with types of the pool. -/

namespace ClassLang

namespace PoolM.Builds
open TypePool

variable {pool : TypePool} {type : TypeRef} {subst : Substitution}

theorem instantiated (inside : pool.Has type) (bound : subst.HeldBy pool) :
    PoolM.Builds (ClassLang.instantiate type subst) pool fun result after => after.Has result :=
  (instantiate (.self inside) ⟨bound, fun _ => rfl⟩).mono fun _ _ _ denotes => denotes.has

theorem instantiatedAll {types : List TypeRef} (inside : ∀ type ∈ types, pool.Has type)
    (bound : subst.HeldBy pool) :
    PoolM.Builds (types.mapM (ClassLang.instantiate · subst)) pool fun results after =>
      ∀ result ∈ results, after.Has result :=
  mapEach (fun _ _ _ growth held => growth.has held) fun type member _ growth =>
    instantiated (growth.has (inside type member)) (bound.grow growth)

theorem mapSettles {action : α → PoolM β} {elements : List α} (each : ∀ element ∈ elements,
      ∀ between, pool.Growth between → PoolM.Settles (action element) between) :
    PoolM.Settles (elements.mapM action) pool :=
  (mapEach (fun _ _ _ _ known => known) each).settles

/-- What a filter keeps are elements of the list. -/
theorem filterM {test : α → PoolM Bool} {elements : List α} (each : ∀ element ∈ elements,
      ∀ between, pool.Growth between → PoolM.Settles (test element) between) :
    PoolM.Builds (elements.filterM test) pool fun kept _ =>
      ∀ element ∈ kept, element ∈ elements := by
  have accumulate : ∀ (rest chosen : List α) (pool : TypePool),
      (∀ element ∈ rest, ∀ between, pool.Growth between → PoolM.Settles (test element) between) →
      PoolM.Builds (rest.filterAuxM test chosen) pool fun kept _ =>
        ∀ element ∈ kept, element ∈ rest ∨ element ∈ chosen := by
    intro rest
    induction rest with
    | nil => exact fun chosen pool _ => pure fun element member => .inr member
    | cons first rest ih =>
      intro chosen pool each
      refine ofValid fun valid => bind (each first List.mem_cons_self pool valid.growth) ?_
      intro passed between growth _
      refine (ih (cond passed (first :: chosen) chosen) between fun element member after grown =>
        each element (List.mem_cons_of_mem _ member) after (growth.trans grown)).mono ?_
      intro kept after _ either element member
      rcases either element member with later | earlier
      · exact .inl (List.mem_cons_of_mem _ later)
      · cases passed with
        | false => exact .inr earlier
        | true =>
          rcases List.mem_cons.mp earlier with rfl | old
          · exact .inl List.mem_cons_self
          · exact .inr old
  refine bind (accumulate elements [] pool each) fun chosen between _ either => pure ?_
  intro element member
  rcases either element (List.mem_reverse.mp member) with present | old
  · exact present
  · cases old

end PoolM.Builds

theorem Substitution.HeldBy.fillUnbound {pool : TypePool} {subst : Substitution}
    {params : List ParamRef} (valid : pool.Valid) (bound : subst.HeldBy pool)
    (declared : ∀ param ∈ params, pool.Declares param) :
    (subst.fillUnbound params).1.HeldBy pool ∧
      ∀ fault ∈ (subst.fillUnbound params).2, fault.HeldBy pool := by
  have fold : ∀ (params : List ParamRef) (start : Substitution × List TypeFault),
      (∀ param ∈ params, pool.Declares param) → start.1.HeldBy pool →
      (∀ fault ∈ start.2, fault.HeldBy pool) →
      let final := params.foldl (fun state param =>
        if state.1.contains param then (state.1, state.2)
        else (state.1.bind param .any, state.2 ++ [.unbound param])) start
      final.1.HeldBy pool ∧ ∀ fault ∈ final.2, fault.HeldBy pool := by
    intro params
    induction params with
    | nil => exact fun start _ held faults => ⟨held, faults⟩
    | cons param params ih =>
      rintro ⟨current, faults⟩ declared held before
      rw [List.foldl_cons]
      have later : ∀ other ∈ params, pool.Declares other :=
        fun other member => declared other (List.mem_cons_of_mem _ member)
      by_cases bound : current.contains param
      · simpa only [if_pos bound] using ih (current, faults) later held before
      · simp only [if_neg bound]
        refine ih _ later (held.bind param valid.has_any) fun fault member => ?_
        rcases List.mem_append.mp member with old | new
        · exact before fault old
        · rw [List.mem_singleton.mp new]
          exact declared param List.mem_cons_self
  exact fold params (subst, []) declared bound (by simp)

/-- A candidate is a symbol of the table, seen with types of the pool. -/
structure Candidate.HeldBy (candidate : Candidate) (table : SymbolTable)
    (pool : TypePool) : Prop where
  symbol : table.symbols[candidate.id]? = some candidate.symbol
  ownerType : pool.Has candidate.ownerType
  params : ∀ type ∈ candidate.params, pool.Has type

theorem Candidate.HeldBy.grow {candidate : Candidate} {table : SymbolTable}
    {before after : TypePool} (held : candidate.HeldBy table before)
    (growth : before.Growth after) :
    candidate.HeldBy table after :=
  ⟨held.symbol, growth.has held.ownerType, fun type member => growth.has (held.params type member)⟩

structure Selection.HeldBy (selection : Selection) (table : SymbolTable)
    (pool : TypePool) : Prop where
  symbol : selection.id < table.size
  result : pool.Has selection.result
  unbound : ∀ fault ∈ selection.unbound, fault.HeldBy pool

theorem Selection.HeldBy.grow {selection : Selection} {table : SymbolTable}
    {before after : TypePool} (held : selection.HeldBy table before)
    (growth : before.Growth after) :
    selection.HeldBy table after :=
  ⟨held.symbol, growth.has held.result, fun fault member => (held.unbound fault member).grow growth⟩

namespace SymbolTable
open TypePool PoolM.Builds

variable {table : SymbolTable} {pool : TypePool} {subst : Substitution} {name : Name}

theorem ancestorBindings_builds {ancestor : TypeRef} (held : pool.Has ancestor) :
    PoolM.Builds (table.ancestorBindings ancestor) pool fun found after =>
      ∀ entry ∈ found, entry.2.HeldBy after := by
  refine readBase held fun base => ?_
  cases base with
  | none => exact pure (by simp)
  | some base =>
    refine readArgs held fun args argsHere => pure fun entry same => ?_
    cases same
    exact Substitution.ofArgs_heldBy _ argsHere

theorem paramTypes_builds (held : table.HeldBy pool) {id : Nat} {symbol : Symbol}
    (found : table.symbols[id]? = some symbol) (bound : subst.HeldBy pool) :
    PoolM.Builds (paramTypes symbol subst) pool fun types after =>
      ∀ type ∈ types, after.Has type := by
  refine instantiatedAll ?_ bound
  cases published : symbol.signature with
  | none => simp
  | some signature => exact (held.signatures id symbol signature found published).params

theorem addCandidates_builds {ancestor : TypeRef} :
    ∀ (found : List Candidate) (entries : List (Nat × Symbol)) (pool : TypePool),
      table.HeldBy pool → pool.Has ancestor → subst.HeldBy pool →
      (∀ candidate ∈ found, candidate.HeldBy table pool) →
      (∀ entry ∈ entries, table.symbols[entry.1]? = some entry.2) →
      PoolM.Builds (addCandidates ancestor subst found entries) pool fun candidates after =>
        ∀ candidate ∈ candidates, candidate.HeldBy table after
  | _, [], _, _, _, _, heldBy, _ => pure heldBy
  | found, (id, symbol) :: rest, pool, held, inPool, bound, heldBy, entries => by
    have entered := entries (id, symbol) List.mem_cons_self
    have later : ∀ entry ∈ rest, table.symbols[entry.1]? = some entry.2 :=
      fun entry member => entries entry (List.mem_cons_of_mem _ member)
    refine bind (paramTypes_builds held entered bound) fun params between growth paramsHere => ?_
    have heldNow := held.grow growth.within
    have knownNow : ∀ candidate ∈ found, candidate.HeldBy table between :=
      fun candidate member => (heldBy candidate member).grow growth
    split
    · exact addCandidates_builds found rest between heldNow (growth.has inPool) (bound.grow growth)
        knownNow later
    · refine addCandidates_builds _ rest between heldNow (growth.has inPool) (bound.grow growth)
        (fun candidate member => ?_) later
      rcases List.mem_append.mp member with old | new
      · exact knownNow candidate old
      · rw [List.mem_singleton.mp new]
        exact ⟨entered, growth.has inPool, paramsHere⟩

theorem visibleMethods_builds (held : table.HeldBy pool) {receiver : TypeRef}
    (inPool : pool.Has receiver) (name : Name) :
    PoolM.Builds (table.visibleMethods receiver name) pool fun candidates after =>
      ∀ candidate ∈ candidates, candidate.HeldBy table after := by
  refine ofValid fun valid => bind (PoolM.Builds.ancestors inPool (held.hierarchy valid)) ?_
  intro ancestors between growth listed
  refine PoolM.Builds.foldlM (by simp) fun ancestor member found later grown heldBy => ?_
  have ancestorHere := grown.has (listed.has ancestor member)
  refine bind (ancestorBindings_builds ancestorHere) fun bindings after more bound => ?_
  have whole := growth.trans (grown.trans more)
  have knownNow : ∀ candidate ∈ found, candidate.HeldBy table after :=
    fun candidate present => (heldBy candidate present).grow more
  cases bindings with
  | none => exact pure knownNow
  | some entry =>
    exact addCandidates_builds found _ after (held.grow whole.within) (more.has ancestorHere)
      (bound entry rfl) knownNow fun entry present => mem_findMembers present

theorem argumentsFit_settles : ∀ (params args : List TypeRef) (pool : TypePool),
    table.HeldBy pool → subst.HeldBy pool → (∀ param ∈ params, pool.Has param) →
    (∀ arg ∈ args, pool.Has arg) → PoolM.Settles (table.argumentsFit subst params args) pool
  | [], _, _, _, _, _, _ => pure trivial
  | _ :: _, [], _, _, _, _, _ => pure trivial
  | param :: params, arg :: args, pool, held, bound, paramsHere, argsHere => by
    refine ofValid fun valid => ?_
    refine bind (instantiated (paramsHere param List.mem_cons_self) bound) ?_
    intro type between growth typeHere
    refine bind (ClassHierarchy.isSupertype_settles ((held.hierarchy valid).grow growth) typeHere
      (growth.has (argsHere arg List.mem_cons_self))) fun fits after grown _ => ?_
    have whole := growth.trans grown
    cases fits with
    | false => exact pure trivial
    | true =>
      exact argumentsFit_settles params args after (held.grow whole.within) (bound.grow whole)
        (fun other member => whole.has (paramsHere other (List.mem_cons_of_mem _ member)))
        (fun other member => whole.has (argsHere other (List.mem_cons_of_mem _ member)))

theorem applicable?_builds (held : table.HeldBy pool) {args : List TypeRef}
    (argsHere : ∀ arg ∈ args, pool.Has arg) {candidate : Candidate}
    (heldBy : candidate.HeldBy table pool) :
    PoolM.Builds (table.applicable? args candidate) pool fun chosen after =>
      ∀ entry ∈ chosen, entry.1.HeldBy table after ∧ entry.2.HeldBy table after := by
  unfold applicable?
  split
  · exact pure (by simp)
  · cases published : candidate.symbol.signature with
    | none => exact pure (by simp)
    | some signature =>
      have signatureHere := held.signatures _ _ signature heldBy.symbol published
      refine ofValid fun valid => bind (ancestorBindings_builds heldBy.ownerType) ?_
      intro bindings between growth bound
      cases bindings with
      | none => exact pure (by simp)
      | some entry =>
        have inferring : PoolM.Builds ((signature.params.zip args).foldlM
            (fun subst pair => table.hierarchy.infer subst pair.1 pair.2) entry.2) between
            fun subst after => subst.HeldBy after := by
          refine PoolM.Builds.foldlM (bound entry rfl)
            fun pair member subst later grown inferred => ?_
          obtain ⟨formal, actual⟩ := List.of_mem_zip member
          have whole := growth.trans grown
          exact (PoolM.Builds.infer ((held.hierarchy valid).grow whole) inferred
            (whole.has (signatureHere.params _ formal)) (whole.has (argsHere _ actual))).mono
            fun _ _ _ denotes => denotes.held
        refine bind inferring fun inferred later grown inferredHere => ?_
        have whole := growth.trans grown
        obtain ⟨filledHere, faults⟩ := inferredHere.fillUnbound grown.valid
          fun param member => whole.declares (signatureHere.typeParams param member)
        refine bind (argumentsFit_settles _ _ later (held.grow whole.within) filledHere
          (fun param member => whole.has (signatureHere.params param member))
          (fun arg member => whole.has (argsHere arg member))) fun fits after more _ => ?_
        have all := whole.trans more
        cases fits with
        | false => exact pure (by simp)
        | true =>
          refine bind (instantiated (all.has signatureHere.type) (filledHere.grow more)) ?_
          intro result last final resultHere
          refine pure fun chosen same => ?_
          cases same
          have inside : candidate.id < table.size := (Array.getElem?_eq_some_iff.mp heldBy.symbol).1
          exact ⟨heldBy.grow (all.trans final), inside, resultHere,
            fun fault member => (faults fault member).grow (more.trans final)⟩

theorem moreSpecific_settles (held : table.HeldBy pool) {first second : Candidate}
    (firstHere : first.HeldBy table pool) (secondHere : second.HeldBy table pool) :
    PoolM.Settles (table.moreSpecific first second) pool := by
  refine ofValid fun valid => PoolM.Builds.allM fun pair member between growth => ?_
  obtain ⟨param, other⟩ := List.of_mem_zip member
  exact ClassHierarchy.isSupertype_settles ((held.hierarchy valid).grow growth)
    (growth.has (secondHere.params _ other)) (growth.has (firstHere.params _ param))

/-- Choosing the method for a call. -/
theorem selectOverload_builds (held : table.HeldBy pool) {receiver : TypeRef}
    (inPool : pool.Has receiver) (name : Name) {args : List TypeRef}
    (argsHere : ∀ arg ∈ args, pool.Has arg) :
    PoolM.Builds (table.selectOverload receiver name args) pool fun outcome after =>
      ∀ selection, outcome = .ok selection → selection.HeldBy table after := by
  refine bind (visibleMethods_builds held inPool name) fun visible between growth candidates => ?_
  split
  · exact pure (by simp)
  have searched : PoolM.Builds (visible.filterMapM (table.applicable? args)) between
      fun chosen after =>
        ∀ entry ∈ chosen, entry.1.HeldBy table after ∧ entry.2.HeldBy table after := by
    refine PoolM.Builds.filterMapM (fun entry _ _ more facts =>
      ⟨facts.1.grow more, facts.2.grow more⟩) fun candidate member later grown => ?_
    have whole := growth.trans grown
    exact applicable?_builds (held.grow whole.within)
      (fun arg present => whole.has (argsHere arg present))
      ((candidates candidate member).grow grown)
  refine bind searched fun applicable later grown chosen => ?_
  have heldNow := held.grow (growth.trans grown).within
  have accept : ∀ entry ∈ applicable, ∀ after, later.Growth after → ∀ selection : Selection,
      (Except.ok entry.2 : Except OverloadFault Selection) = .ok selection →
        selection.HeldBy table after := by
    intro entry member after more selection same
    cases same
    exact (chosen entry member).2.grow more
  refine ofValid fun valid => ?_
  split
  · exact pure (by simp)
  · exact pure (accept _ List.mem_cons_self _ valid.growth)
  · split
    · rename_i candidate chosenExactly only
      have present : (candidate, chosenExactly) ∈ applicable.filter _ := only ▸ List.mem_cons_self
      exact pure (accept _ (List.mem_filter.mp present).1 _ valid.growth)
    · have comparing : PoolM.Builds (applicable.zipIdx.filterM fun entry =>
          table.mostSpecific applicable entry.1.1 entry.2) later fun best _ =>
            ∀ entry ∈ best, entry ∈ applicable.zipIdx := by
        refine PoolM.Builds.filterM fun entry member after more => ?_
        have candidateHere := (chosen _ (List.fst_mem_of_mem_zipIdx member)).1.grow more
        refine PoolM.Builds.allM fun other present last final => ?_
        by_cases same : other.2 = entry.2
        · simp only [if_pos same]
          exact pure trivial
        · simp only [if_neg same]
          exact moreSpecific_settles (heldNow.grow (more.trans final).within)
            (candidateHere.grow final)
            ((chosen _ (List.fst_mem_of_mem_zipIdx present)).1.grow (more.trans final))
      refine bind comparing fun best after more listed => ?_
      split
      · rename_i candidate only position
        exact pure (accept _ (List.fst_mem_of_mem_zipIdx (listed _ List.mem_cons_self)) _ more)
      · exact pure (by simp)

/-! Methods that a class inherits. -/

theorem inheritedMethods_settles (held : table.HeldBy pool) {type : TypeRef}
    (inPool : pool.Has type) : PoolM.Settles (table.inheritedMethods type) pool := by
  refine ofValid fun valid => bind (PoolM.Builds.ancestors inPool (held.hierarchy valid)) ?_
  intro ancestors between growth listed
  refine bind (mapSettles fun ancestor member later grown => ?_) fun _ _ _ _ => pure trivial
  refine bind (ancestorBindings_builds (grown.has (listed.has ancestor member))) ?_
  intro bindings after more bound
  cases bindings with
  | none => exact pure trivial
  | some entry =>
    have whole := growth.trans (grown.trans more)
    refine mapSettles fun method present last final => ?_
    exact bind (paramTypes_builds (held.grow (whole.trans final).within) (mem_findMembers present)
      ((bound entry rfl).grow final)) fun _ _ _ _ => pure trivial

theorem sameParams_settles : ∀ (params others : List TypeRef) (pool : TypePool),
    subst.HeldBy pool → (∀ param ∈ params, pool.Has param) →
    PoolM.Settles (sameParams subst params others) pool
  | [], _, _, _, _ => pure trivial
  | _ :: _, [], _, _, _ => pure trivial
  | param :: params, other :: others, pool, bound, held => by
    refine bind (instantiated (held param List.mem_cons_self) bound) fun type between growth _ => ?_
    split
    · exact sameParams_settles params others between (bound.grow growth) fun param member =>
        growth.has (held param (List.mem_cons_of_mem _ member))
    · exact pure trivial

/-- The result of an overridden method is a type of the pool. -/
theorem findOverridden?_builds (held : table.HeldBy pool) (name : Name) (params : List TypeRef)
    {ancestors : List TypeRef} (inPool : ∀ ancestor ∈ ancestors, pool.Has ancestor) :
    PoolM.Builds (table.findOverridden? name params ancestors) pool fun found after =>
      ∀ entry ∈ found, after.Has entry.2.2 := by
  refine findSomeM? fun ancestor member between growth => ?_
  refine bind (ancestorBindings_builds (growth.has (inPool ancestor member))) ?_
  intro bindings after grown bound
  cases bindings with
  | none => exact pure (by simp)
  | some entry =>
    have whole := growth.trans grown
    refine findSomeM? fun method present later more => ?_
    have heldBy := held.grow (whole.trans more).within
    have boundNow := (bound entry rfl).grow more
    dsimp only
    split
    · exact pure (by simp)
    · cases published : method.2.signature with
      | none => exact pure (by simp)
      | some signature =>
        have signatureHere := heldBy.signatures _ _ signature (mem_findMembers present) published
        refine bind (sameParams_settles _ params later boundNow signatureHere.params) ?_
        intro same last final _
        cases same with
        | false => exact pure (by simp)
        | true =>
          refine bind (instantiated (final.has signatureHere.type) (boundNow.grow final)) ?_
          intro result _ _ resultHere
          refine pure fun entry same => ?_
          cases same
          exact resultHere

theorem hasOverridable_settles (name : Name) (arity : Nat) {ancestors : List TypeRef}
    (held : ∀ ancestor ∈ ancestors, pool.Has ancestor) :
    PoolM.Settles (table.hasOverridable name arity ancestors) pool := by
  refine PoolM.Builds.anyM fun ancestor member between growth => ?_
  refine readBase (growth.has (held ancestor member)) fun base => ?_
  cases base <;> exact pure trivial

end SymbolTable
end ClassLang
