import ClassLang.Proofs.Pattern.Entries
import ClassLang.Stage.Conformance

/-! Which types choosing methods enters: no others than asking about classes does. -/

namespace ClassLang
namespace SymbolTable
open PoolM ClassHierarchy

variable {kind : TypeNode → Prop} {table : SymbolTable}

theorem ancestorBindings_keeps (ancestor : TypeRef) :
    Keeps kind (table.ancestorBindings ancestor) := by
  apply Keeps.andThen (.inspect (by simp))
  intro base
  cases base with
  | none => exact .pure trivial
  | some base => exact .andThen (.inspect (by simp)) fun _ => .pure trivial

theorem hasOverridable_keeps (name : Name) (arity : Nat) (ancestors : List TypeRef) :
    Keeps kind (table.hasOverridable name arity ancestors) := by
  apply (keeping kind).anyM
  intro ancestor _
  apply Keeps.andThen (.inspect (by simp))
  intro base
  split <;> exact .pure trivial

section
variable (closed : Substitutable kind)
include closed

theorem paramTypes_keeps (symbol : Symbol) (subst : Substitution) :
    Keeps kind (paramTypes symbol subst) :=
  .mapM fun type _ => instantiate_keeps closed type subst

theorem addCandidates_keeps (ancestor : TypeRef) (subst : Substitution) :
    ∀ (found : List Candidate) (methods : List (Nat × Symbol)),
      Keeps kind (addCandidates ancestor subst found methods)
  | _, [] => .pure trivial
  | found, (id, symbol) :: rest => by
    apply Keeps.andThen (paramTypes_keeps closed symbol subst)
    intro params
    split
    · exact addCandidates_keeps ancestor subst found rest
    · exact addCandidates_keeps ancestor subst _ rest

theorem sameParams_keeps (subst : Substitution) :
    ∀ params others : List TypeRef, Keeps kind (sameParams subst params others)
  | [], _ => .pure trivial
  | _ :: _, [] => .pure trivial
  | param :: params, other :: others => by
    apply Keeps.andThen (instantiate_keeps closed param subst)
    intro seen
    split
    · exact sameParams_keeps subst params others
    · exact .pure trivial

theorem findOverridden?_keeps (name : Name) (params ancestors : List TypeRef) :
    Keeps kind (table.findOverridden? name params ancestors) := by
  apply (keeping kind).findSomeM?
  intro ancestor _
  apply Keeps.andThen (ancestorBindings_keeps ancestor)
  intro found
  cases found with
  | none => exact .pure trivial
  | some entry =>
    obtain ⟨base, subst⟩ := entry
    apply (keeping kind).findSomeM?
    rintro ⟨_, symbol⟩ _
    dsimp only
    split
    · exact Keeps.pure trivial
    split
    · apply Keeps.andThen (sameParams_keeps closed subst _ params)
      intro same
      split
      · exact Keeps.andThen (instantiate_keeps closed _ subst) fun _ => .pure trivial
      · exact Keeps.pure trivial
    · exact Keeps.pure trivial

end

section
variable (closed : Inheritable table.hierarchy kind)
include closed

theorem visibleMethods_keeps (receiver : TypeRef) (name : Name) :
    Keeps kind (table.visibleMethods receiver name) := by
  apply Keeps.andThen (ancestors_keeps closed receiver)
  intro ancestors
  apply (keeping kind).foldlM trivial
  intro ancestor _ found _
  apply Keeps.andThen (ancestorBindings_keeps ancestor)
  intro bindings
  cases bindings with
  | none => exact .pure trivial
  | some entry => exact addCandidates_keeps closed.toSubstitutable ancestor entry.2 found _

theorem argumentsFit_keeps (subst : Substitution) :
    ∀ params args : List TypeRef, Keeps kind (table.argumentsFit subst params args)
  | [], _ => .pure trivial
  | _ :: _, [] => .pure trivial
  | param :: params, arg :: args => by
    apply Keeps.andThen (instantiate_keeps closed.toSubstitutable param subst)
    intro param
    apply Keeps.andThen (isSupertype_keeps closed param arg)
    intro fits
    split
    · exact argumentsFit_keeps subst params args
    · exact .pure trivial

theorem applicable?_keeps (args : List TypeRef) (candidate : Candidate) :
    Keeps kind (table.applicable? args candidate) := by
  unfold applicable?
  split
  · exact .pure trivial
  split
  · rename_i signature _
    apply Keeps.andThen (ancestorBindings_keeps candidate.ownerType)
    intro bindings
    cases bindings with
    | none => exact .pure trivial
    | some entry =>
      have inferred : Keeps kind ((signature.params.zip args).foldlM
          (fun subst pair => table.hierarchy.infer subst pair.1 pair.2) entry.2) :=
        (keeping kind).foldlM trivial fun pair _ subst _ => infer_keeps closed subst pair.1 pair.2
      apply Keeps.andThen inferred
      intro inferred
      dsimp only
      apply Keeps.andThen (argumentsFit_keeps closed _ _ args)
      intro fits
      split
      · exact .andThen (instantiate_keeps closed.toSubstitutable _ _) fun _ => .pure trivial
      · exact .pure trivial
  · exact .pure trivial

theorem moreSpecific_keeps (first second : Candidate) :
    Keeps kind (table.moreSpecific first second) :=
  (keeping kind).allM fun pair _ => isSupertype_keeps closed pair.2 pair.1

theorem mostSpecific_keeps (candidates : List (Candidate × Selection)) (candidate : Candidate)
    (position : Nat) : Keeps kind (table.mostSpecific candidates candidate position) := by
  apply (keeping kind).allM
  rintro ⟨other, index⟩ _
  dsimp only
  split
  · exact Keeps.pure trivial
  · exact moreSpecific_keeps closed candidate other.1

theorem selectOverload_keeps (receiver : TypeRef) (name : Name) (args : List TypeRef) :
    Keeps kind (table.selectOverload receiver name args) := by
  apply Keeps.andThen (visibleMethods_keeps closed receiver name)
  intro visible
  split
  · exact .pure trivial
  apply Keeps.andThen ((keeping kind).filterMapM fun candidate _ =>
    applicable?_keeps closed args candidate)
  intro applicable
  split
  · exact .pure trivial
  · exact .pure trivial
  split
  · exact .pure trivial
  have chosen : Keeps kind (applicable.zipIdx.filterM fun entry =>
      table.mostSpecific applicable entry.1.1 entry.2) :=
    (keeping kind).filterM fun entry _ => mostSpecific_keeps closed applicable entry.1.1 entry.2
  apply Keeps.andThen chosen
  intro best
  split <;> exact .pure trivial

theorem inheritedMethods_keeps (type : TypeRef) : Keeps kind (table.inheritedMethods type) := by
  apply Keeps.andThen (ancestors_keeps closed type)
  intro ancestors
  apply Keeps.andThen (.mapM fun ancestor _ => ?_)
  · exact fun _ => .pure trivial
  apply Keeps.andThen (ancestorBindings_keeps ancestor)
  intro bindings
  cases bindings with
  | none => exact .pure trivial
  | some entry =>
    apply Keeps.mapM
    intro method _
    exact .andThen (paramTypes_keeps closed.toSubstitutable method.2 entry.2) fun _ => .pure trivial

end
end SymbolTable
end ClassLang
