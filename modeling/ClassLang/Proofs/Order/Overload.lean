import ClassLang.Proofs.Order.Tables

/-! Methods in two runs: a renamed receiver has the renamed methods, and a call with renamed
arguments chooses the renamed method. -/

namespace ClassLang

/-- The choice among applicable methods of which none has exactly the types of the arguments. -/
def SymbolTable.selectBest (table : SymbolTable) (applicable : List (Candidate × Selection)) :
    PoolM (Except OverloadFault Selection) := do
  let best ← applicable.zipIdx.filterM fun ((candidate, _), position) =>
    table.mostSpecific applicable candidate position
  match best with
  | [((_, only), _)] => return .ok only
  | _ => return .error (.ambiguous applicable.length)

/-- The choice among several applicable methods, of which those of `exacts` have the types of the
arguments. -/
def SymbolTable.selectAmong (table : SymbolTable)
    (applicable exacts : List (Candidate × Selection)) : PoolM (Except OverloadFault Selection) :=
  match exacts with
  | [(_, exact)] => return .ok exact
  | _ => table.selectBest applicable

namespace Comparison

variable {compare : Comparison} {table table' : SymbolTable}

theorem instantiateAll_agrees (types : List TypeRef) (subst : Substitution) :
    compare.Agrees (types.mapM (instantiate · subst))
      ((compare.rename.on types).mapM (instantiate · (compare.rename.on subst))) :=
  .mapM_on fun type _ => instantiate_agrees type subst

theorem paramTypes_agrees (symbol : Symbol) (subst : Substitution) :
    compare.Agrees (SymbolTable.paramTypes symbol subst)
      (SymbolTable.paramTypes (compare.rename.on symbol) (compare.rename.on subst)) := by
  have params : (((compare.rename.on symbol).signature.map (·.params)).getD []) =
      compare.rename.on ((symbol.signature.map (·.params)).getD []) := by
    change ((compare.rename.on symbol.signature).map _).getD [] = _
    cases symbol.signature <;> rfl
  unfold SymbolTable.paramTypes
  rw [params]
  exact instantiateAll_agrees _ subst

theorem addCandidates_agrees (ancestor : TypeRef) (subst : Substitution) :
    ∀ (found : List Candidate) (methods : List (Nat × Symbol)),
      compare.Agrees (SymbolTable.addCandidates ancestor subst found methods)
        (SymbolTable.addCandidates (compare.rename.on ancestor) (compare.rename.on subst)
          (compare.rename.on found) (methods.map compare.rename.entry))
  | found, [] => .pure rfl
  | found, (id, symbol) :: rest => by
    apply (paramTypes_agrees symbol subst).bind
    intro params
    have listed : (compare.rename.on found).any (·.params == compare.rename.on params) =
        found.any (·.params == params) := by
      rw [compare.rename.on_list, List.any_map]
      exact congrArg found.any (funext fun candidate =>
        compare.rename.beq_on candidate.params params)
    apply Setting.Agree.ite (iff_of_eq (congrArg (· = true) listed))
    · exact fun _ => addCandidates_agrees ancestor subst found rest
    · intro _
      have added := addCandidates_agrees ancestor subst
        (found ++ [{ id, symbol, ownerType := ancestor, params }]) rest
      rwa [compare.rename.on_append] at added

theorem exactMatch_on (rename : Renaming) (args : List TypeRef) (candidate : Candidate) :
    SymbolTable.exactMatch (rename.on args) (rename.on candidate) =
      SymbolTable.exactMatch args candidate := by
  unfold SymbolTable.exactMatch
  rw [show (rename.on candidate).params = rename.on candidate.params from rfl, rename.zip_on,
    rename.on_list, List.all_map]
  exact congrArg (List.all _) (funext fun pair => rename.beq_on pair.1 pair.2)

theorem filter_exactMatch_on (rename : Renaming) (args : List TypeRef)
    (candidates : List (Candidate × Selection)) :
    (rename.on candidates).filter (fun entry => SymbolTable.exactMatch (rename.on args) entry.1) =
      rename.on (candidates.filter fun entry => SymbolTable.exactMatch args entry.1) := by
  rw [rename.on_list, rename.on_list, List.filter_map]
  exact congrArg (List.map _) (List.filter_congr fun entry _ => exactMatch_on rename args entry.1)

theorem sameParams_agrees (subst : Substitution) : ∀ first second : List TypeRef,
    compare.Agrees (SymbolTable.sameParams subst first second)
      (SymbolTable.sameParams (compare.rename.on subst) (compare.rename.on first)
        (compare.rename.on second))
  | [], _ => .pure rfl
  | _ :: _, [] => .pure rfl
  | param :: params, other :: others => by
    apply (instantiate_agrees param subst).bind
    intro bound
    exact .ite compare.rename.on_inj (fun _ => sameParams_agrees subst params others) fun _ =>
      .pure rfl

section
variable (tables : compare.rename.Tables table table')
include tables

theorem ancestorBindings_agrees (ancestor : TypeRef) :
    compare.Agrees (table.ancestorBindings ancestor)
      (table'.ancestorBindings (compare.rename.on ancestor)) := by
  apply (baseName?_agrees ancestor).bindPlain
  intro base
  cases base with
  | none => exact .pure rfl
  | some base =>
    apply (args_agrees ancestor).bind
    intro args
    apply Setting.Agree.pure
    rw [tables.classes.bindArgs base args]
    rfl

theorem visibleMethods_agrees (receiver : TypeRef) (name : Name) :
    compare.Agrees (table.visibleMethods receiver name)
      (table'.visibleMethods (compare.rename.on receiver) name) := by
  apply (ancestors_agrees tables.classes receiver).bind
  intro ancestors
  refine Setting.Agree.foldlM_on [] fun ancestor _ found => ?_
  apply (ancestorBindings_agrees tables ancestor).bind
  intro bindings
  cases bindings with
  | none => exact .pure rfl
  | some bindings =>
    obtain ⟨base, subst⟩ := bindings
    have same := tables.membersNamed base name .method
    change compare.Agrees _
      (SymbolTable.addCandidates _ _ _ (table'.membersNamed base name .method))
    rw [same]
    exact addCandidates_agrees ancestor subst found _

theorem inheritedMethods_agrees (type : TypeRef) :
    compare.Agrees (table.inheritedMethods type)
      (table'.inheritedMethods (compare.rename.on type)) := by
  apply (ancestors_agrees tables.classes type).bind
  intro ancestors
  refine Setting.Agree.bind (Setting.Agree.mapM_on fun ancestor _ => ?_) fun methods =>
    .pure (compare.rename.flatten_on methods)
  apply (ancestorBindings_agrees tables ancestor).bind
  intro bindings
  cases bindings with
  | none => exact .pure rfl
  | some bindings =>
    obtain ⟨owner, subst⟩ := bindings
    change compare.Agrees _ ((table'.methods owner).mapM _)
    rw [tables.methods owner]
    refine (Setting.Agree.mapM fun entry _ => ?_).congr (Equiv.ext fun _ => rfl)
    exact (paramTypes_agrees entry.2 subst).bind fun params => .pure rfl

theorem findOverridden?_agrees (name : Name) (params ancestors : List TypeRef) :
    compare.Agrees (table.findOverridden? name params ancestors)
      (table'.findOverridden? name (compare.rename.on params) (compare.rename.on ancestors)) := by
  refine Setting.Agree.findSomeM?_on fun ancestor _ => ?_
  apply (ancestorBindings_agrees tables ancestor).bind
  intro bindings
  cases bindings with
  | none => exact .pure rfl
  | some bindings =>
    obtain ⟨base, subst⟩ := bindings
    change compare.Agrees _ ((table'.membersNamed base name .method).findSomeM? _)
    rw [tables.membersNamed]
    refine (Setting.Agree.findSomeM? fun entry _ => ?_).congr (Equiv.ext fun _ => rfl)
    obtain ⟨id, symbol⟩ := entry
    dsimp only [Renaming.entry, Equiv.prodCongr_apply, Prod.map_apply]
    rw [compare.rename.length_on]
    apply Setting.Agree.ite Iff.rfl
    · exact fun _ => .pure rfl
    intro _
    obtain ⟨name, kind, unit, member, owner, access, modifiers, deprecated, span, arity,
      signature⟩ := symbol
    cases signature with
    | none => exact .pure rfl
    | some signature =>
      apply Setting.Agree.branch (sameParams_agrees subst signature.params params)
      · exact (instantiate_agrees signature.type subst).bind fun result => .pure rfl
      · exact .pure rfl

theorem hasOverridable_agrees (name : Name) (arity : Nat) (ancestors : List TypeRef) :
    compare.Agrees (table.hasOverridable name arity ancestors)
      (table'.hasOverridable name arity (compare.rename.on ancestors)) := by
  refine Setting.Agree.anyM_on fun ancestor _ => ?_
  apply (baseName?_agrees ancestor).bindPlain
  intro base
  cases base with
  | none => exact .pure rfl
  | some base =>
    apply Setting.Agree.pure
    rw [tables.membersNamed, List.any_map]
    rfl

section
variable (bounded : compare.rename.Bounds compare.params compare.params')
include bounded

theorem argumentsFit_agrees (subst : Substitution) : ∀ params args : List TypeRef,
    compare.Agrees (table.argumentsFit subst params args)
      (table'.argumentsFit (compare.rename.on subst) (compare.rename.on params)
        (compare.rename.on args))
  | [], _ => .pure rfl
  | _ :: _, [] => .pure rfl
  | param :: params, arg :: args => by
    apply (instantiate_agrees param subst).bind
    intro formal
    exact .branch (isSupertype_agrees bounded tables.classes formal arg)
      (argumentsFit_agrees subst params args) (.pure rfl)

theorem applicable?_agrees (args : List TypeRef) (candidate : Candidate) :
    compare.Agrees (table.applicable? args candidate)
      (table'.applicable? (compare.rename.on args) (compare.rename.on candidate)) := by
  obtain ⟨id, symbol, ownerType, params⟩ := candidate
  obtain ⟨name, kind, unit, member, owner, access, modifiers, deprecated, span, arity, signature⟩ :=
    symbol
  unfold SymbolTable.applicable?
  rw [compare.rename.length_on]
  apply Setting.Agree.ite Iff.rfl
  · exact fun _ => .pure rfl
  intro _
  cases signature with
  | none => exact .pure rfl
  | some signature =>
    apply (ancestorBindings_agrees tables ownerType).bind
    intro bindings
    cases bindings with
    | none => exact .pure rfl
    | some bindings =>
      obtain ⟨base, receiver⟩ := bindings
      change compare.Agrees _
        (((compare.rename.on signature.params).zip (compare.rename.on args)).foldlM
        _ (compare.rename.on receiver) >>= _)
      rw [compare.rename.zip_on]
      refine (Setting.Agree.foldlM_on receiver fun pair _ subst =>
        infer_agrees tables.classes subst pair.1 pair.2).bind ?_
      intro inferred
      dsimp only
      rw [show (compare.rename.on signature).typeParams =
        compare.rename.on signature.typeParams from rfl, Substitution.fillUnbound_on]
      generalize inferred.fillUnbound signature.typeParams = filled
      obtain ⟨subst, unbound⟩ := filled
      apply Setting.Agree.branch (argumentsFit_agrees tables bounded subst signature.params args)
      · exact (instantiate_agrees signature.type subst).bind fun result => .pure rfl
      · exact .pure rfl

theorem moreSpecific_agrees (first second : Candidate) :
    compare.Agrees (table.moreSpecific first second)
      (table'.moreSpecific (compare.rename.on first) (compare.rename.on second)) := by
  change compare.Agrees _
    (((compare.rename.on first.params).zip (compare.rename.on second.params)).allM _)
  rw [compare.rename.zip_on]
  exact .allM_on fun pair _ => isSupertype_agrees bounded tables.classes pair.2 pair.1

theorem mostSpecific_agrees (candidates : List (Candidate × Selection)) (candidate : Candidate)
    (position : Nat) :
    compare.Agrees (table.mostSpecific candidates candidate position)
      (table'.mostSpecific (compare.rename.on candidates) (compare.rename.on candidate)
        position) := by
  unfold SymbolTable.mostSpecific
  rw [compare.rename.zipIdx_on]
  refine Setting.Agree.allM_on fun entry _ => ?_
  exact .ite Iff.rfl (fun _ => .pure rfl) fun _ =>
    moreSpecific_agrees tables bounded candidate entry.1.1

theorem selectBest_agrees (applicable : List (Candidate × Selection)) :
    compare.Agrees (table.selectBest applicable)
      (table'.selectBest (compare.rename.on applicable)) := by
  unfold SymbolTable.selectBest
  rw [compare.rename.zipIdx_on, compare.rename.length_on]
  refine (Setting.Agree.filterM_on fun entry _ =>
    mostSpecific_agrees tables bounded applicable entry.1.1 entry.2).bind fun best => ?_
  cases best with
  | nil => exact .pure rfl
  | cons _ rest => cases rest <;> exact .pure rfl

theorem selectAmong_agrees (applicable exacts : List (Candidate × Selection)) :
    compare.Agrees (table.selectAmong applicable exacts)
      (table'.selectAmong (compare.rename.on applicable) (compare.rename.on exacts)) := by
  have best := selectBest_agrees tables bounded applicable
  cases exacts with
  | nil => exact best
  | cons _ rest =>
    cases rest with
    | nil => exact .pure rfl
    | cons _ _ => exact best

theorem selectOverload_agrees (receiver : TypeRef) (name : Name) (args : List TypeRef) :
    compare.Agrees (table.selectOverload receiver name args)
      (table'.selectOverload (compare.rename.on receiver) name (compare.rename.on args)) := by
  apply (visibleMethods_agrees tables receiver name).bind
  intro visible
  apply Setting.Agree.ite (by rw [compare.rename.isEmpty_on])
  · exact fun _ => .pure rfl
  intro _
  refine (Setting.Agree.filterMapM_on fun candidate _ =>
    applicable?_agrees tables bounded args candidate).bind fun applicable => ?_
  cases applicable with
  | nil => exact .pure rfl
  | cons first rest =>
    cases rest with
    | nil => exact .pure rfl
    | cons second rest =>
      have among := selectAmong_agrees tables bounded (first :: second :: rest)
        ((first :: second :: rest).filter fun entry => SymbolTable.exactMatch args entry.1)
      rw [← filter_exactMatch_on] at among
      exact among

end

end

end Comparison
end ClassLang
