import ClassLang.Proofs.Stage.Entries
import ClassLang.Proofs.SymbolTable
import ClassLang.Proofs.Type.Scope

/-! The result of a call has no variables but those of its receiver and its arguments: the method's
own parameters are bound to what is inferred or to `any`, and those of its class to the arguments of
the receiver. -/

namespace ClassLang
open PoolM

/-- What is published so far is over the parameters of its class and its own. -/
structure Scoping.Publishes (scoping : Scoping) (table : SymbolTable) : Prop where
  typeParams : table.hierarchy.typeParams = scoping.typeParams
  supertypes : ∀ record ∈ table.classes, ∀ type ∈ record.superclass.toList ++ record.interfaces,
    scoping.Over (· ∈ record.typeParams) type
  signatures : ∀ record ∈ table.classes, ∀ id ∈ record.members, ∀ symbol,
    table.symbols[id]? = some symbol → ∀ signature, symbol.signature = some signature →
      scoping.Over (fun param => param ∈ record.typeParams ∨ param ∈ signature.typeParams)
        signature.type
  fields : ∀ (id : Nat) (symbol : Symbol), table.symbols[id]? = some symbol → symbol.kind = .field →
    ∀ signature, symbol.signature = some signature → signature.typeParams = []

namespace SymbolTable
variable {table : SymbolTable} {name : Name} {test : Symbol → Bool} {entry : Nat × Symbol}

theorem exists_record_of_member (member : entry ∈ table.findMembers name test) :
    ∃ record, table.record? name = some record ∧ entry.1 ∈ record.members ∧ test entry.2 := by
  unfold findMembers at member
  split at member
  · cases member
  · rename_i record found
    obtain ⟨id, listed, made⟩ := List.mem_filterMap.mp member
    split at made
    · split at made
      · cases made
        exact ⟨record, found, listed, ‹_›⟩
      · cases made
    · cases made

end SymbolTable

namespace Scoping.Publishes
variable {scoping : Scoping} {table : SymbolTable} (publishes : scoping.Publishes table)
    {name : Name}
include publishes

theorem record {record : ClassRecord} (found : table.record? name = some record) :
    record ∈ table.classes ∧ scoping.typeParams name = record.typeParams := by
  refine ⟨(SymbolTable.record?_mem found).1, ?_⟩
  rw [← publishes.typeParams]
  simp [SymbolTable.hierarchy, found]

/-- The signature of a member is over the parameters of its class and its own. -/
theorem member {test : Symbol → Bool} {entry : Nat × Symbol}
    (listed : entry ∈ table.findMembers name test) {signature : Signature}
    (answer : entry.2.signature = some signature) :
    scoping.Over (fun param => param ∈ scoping.typeParams name ∨ param ∈ signature.typeParams)
      signature.type := by
  obtain ⟨record, found, inside, _⟩ := SymbolTable.exists_record_of_member listed
  obtain ⟨declared, params⟩ := publishes.record found
  rw [params]
  exact publishes.signatures record declared _ inside _ (SymbolTable.mem_findMembers listed)
    signature answer

/-- The type of a field is over the parameters of its class. -/
theorem field {test : Symbol → Bool} {entry : Nat × Symbol}
    (listed : entry ∈ table.findMembers name test) (kind : entry.2.kind = .field) :
    scoping.Over (· ∈ scoping.typeParams name) entry.2.type := by
  unfold Symbol.type
  cases found : entry.2.signature with
  | none => exact .any
  | some signature =>
    have none := publishes.fields _ _ (SymbolTable.mem_findMembers listed) kind signature found
    exact (publishes.member listed found).widen fun param own => by simpa [none] using own

theorem describes : scoping.Describes table.hierarchy where
  typeParams := publishes.typeParams
  supertypes name type member := by
    cases found : table.record? name with
    | none => simp [SymbolTable.hierarchy, ClassHierarchy.supertypes, found] at member
    | some record =>
      obtain ⟨declared, params⟩ := publishes.record found
      rw [params]
      exact publishes.supertypes record declared type
        (by simpa [SymbolTable.hierarchy, ClassHierarchy.supertypes, found] using member)
  components name type member := by
    obtain ⟨entry, listed, rfl⟩ := List.mem_map.mp member
    obtain ⟨_, _, _, kind⟩ := SymbolTable.exists_record_of_member listed
    exact publishes.field listed (by simpa using (Bool.and_eq_true_iff.mp kind).1)

end Scoping.Publishes

namespace SymbolTable
variable {scoping : Scoping} {params : Array TypeParam} {given : Prop} {scope : ParamSet}
    {table : SymbolTable}
  (publishes : given → scoping.Publishes table)
include publishes

theorem ancestorBindings_scoped {ancestor : TypeRef}
    (ranges : given → scoping.Over scope ancestor) :
    Pledges scoping params given (table.ancestorBindings ancestor) fun found => ∀ base subst,
      found = some (base, subst) → scoping.pool.baseName? ancestor = .ok (some base) ∧
        scoping.Carries subst (· ∈ scoping.typeParams base) scope := by
  apply Pledges.bind .baseName?
  intro base
  cases base with
  | none => exact .pure fun _ => nofun
  | some base =>
    apply Pledges.bind .args
    intro args
    refine .pure fun facts other subst same => ?_
    cases same
    exact ⟨facts.1.2, ClassHierarchy.bindArgs_carries
      (fun holds => (publishes holds).describes) facts.1.1 facts.1.2 facts.2 (ranges facts.1.1)⟩

end SymbolTable

/-- The candidate is a method of the class of its owner type. -/
structure Candidate.Stems (candidate : Candidate) (scoping : Scoping) (table : SymbolTable)
    (scope : ParamSet) : Prop where
  ranges : scoping.Over scope candidate.ownerType
  listed : ∃ base name, scoping.pool.baseName? candidate.ownerType = .ok (some base) ∧
    (candidate.id, candidate.symbol) ∈ table.membersNamed base name .method

namespace SymbolTable
variable {scoping : Scoping} {params : Array TypeParam} {given : Prop} {scope : ParamSet}
    {table : SymbolTable}

theorem addCandidates_scoped {ancestor : TypeRef} {subst : Substitution} :
    ∀ {methods : List (Nat × Symbol)} {found : List Candidate} {given : Prop},
      (given → scoping.Over scope ancestor) →
      (given → ∀ candidate ∈ found, candidate.Stems scoping table scope) →
      (given → ∃ base name, scoping.pool.baseName? ancestor = .ok (some base) ∧
        ∀ entry ∈ methods, entry ∈ table.membersNamed base name .method) →
      Pledges scoping params given (addCandidates ancestor subst found methods)
        fun candidates => ∀ candidate ∈ candidates, candidate.Stems scoping table scope
  | [], _, _, _, stem, _ => .pure stem
  | (id, symbol) :: rest, found, given, ranges, stem, listed => by
    have later : given → ∃ base name, scoping.pool.baseName? ancestor = .ok (some base) ∧
        ∀ entry ∈ rest, entry ∈ table.membersNamed base name .method := by
      intro holds
      obtain ⟨base, name, named, all⟩ := listed holds
      exact ⟨base, name, named, fun entry member => all entry (List.mem_cons_of_mem _ member)⟩
    apply Pledges.andThen
      (.ofKeeps (paramTypes_keeps (inheritable_any table.hierarchy).toSubstitutable symbol subst))
    intro types
    split
    · exact addCandidates_scoped ranges stem later
    · refine addCandidates_scoped ranges (fun holds candidate member => ?_) later
      rcases List.mem_append.mp member with old | new
      · exact stem holds candidate old
      · cases List.mem_singleton.mp new
        obtain ⟨base, name, named, all⟩ := listed holds
        exact ⟨ranges holds, base, name, named, all _ List.mem_cons_self⟩

variable (publishes : given → scoping.Publishes table)
include publishes

theorem visibleMethods_scoped {receiver : TypeRef} (name : Name)
    (ranges : given → scoping.Over scope receiver) :
    Pledges scoping params given (table.visibleMethods receiver name)
      fun candidates => ∀ candidate ∈ candidates, candidate.Stems scoping table scope := by
  apply Pledges.bind
    (ClassHierarchy.ancestors_scoped (fun holds => (publishes holds).describes) ranges)
  intro ancestors
  refine (judged scoping params).foldlM (fun _ => by simp) fun ancestor member found => ?_
  have above : (given ∧ ∀ ancestor ∈ ancestors, scoping.Over scope ancestor) ∧
      (∀ candidate ∈ found, candidate.Stems scoping table scope) → scoping.Over scope ancestor :=
    fun both => both.1.2 ancestor member
  apply Pledges.bind (ancestorBindings_scoped (fun both => publishes both.1.1) above)
  intro bindings
  cases bindings with
  | none => exact .pure fun facts => facts.1.2
  | some entry =>
    exact addCandidates_scoped (fun facts => above facts.1) (fun facts => facts.1.2) fun facts =>
      ⟨entry.1, name, (facts.2 entry.1 entry.2 rfl).1, fun _ => id⟩

/-- The result of an applicable method is over the scope of the receiver and the arguments. -/
theorem applicable?_scoped {args : List TypeRef} {candidate : Candidate}
    (ranges : given → ∀ arg ∈ args, scoping.Over scope arg)
    (stems : given → candidate.Stems scoping table scope) :
    Pledges scoping params given (table.applicable? args candidate)
      fun found => ∀ entry, found = some entry → scoping.Over scope entry.2.result := by
  unfold applicable?
  split
  · exact .none
  split
  · rename_i signature signed
    apply Pledges.bind (ancestorBindings_scoped publishes fun holds => (stems holds).ranges)
    intro bindings
    cases bindings with
    | none => exact .none
    | some entry =>
      apply Pledges.bind
        ((judged scoping params).foldlM (fun holding => (holding.2 entry.1 entry.2 rfl).2)
        fun pair member subst => ClassHierarchy.infer_scoped
        (fun both => (publishes both.1.1).describes)
          And.right fun both => ranges both.1.1 pair.2 (List.of_mem_zip member).2)
      intro inferred
      apply Pledges.andThen (.ofKeeps (argumentsFit_keeps (inheritable_any table.hierarchy) _ _ _))
      intro fits
      split
      · apply Pledges.bind
          (instantiate_scoped (fun both => both.2.fillUnbound signature.typeParams) ?_)
        · exact fun result => .pure fun facts found same => by cases same; exact facts.2
        · rintro ⟨⟨holds, bound⟩, _⟩
          obtain ⟨other, name, named, listed⟩ := (stems holds).listed
          obtain ⟨same, _⟩ := bound entry.1 entry.2 rfl
          cases same.symm.trans named
          exact (publishes holds).member listed signed
      · exact .none
  · exact .none

/-- So is the result of the method that is chosen. -/
theorem selectOverload_scoped {receiver : TypeRef} {args : List TypeRef} (name : Name)
    (overReceiver : given → scoping.Over scope receiver)
    (ranges : given → ∀ arg ∈ args, scoping.Over scope arg) :
    Pledges scoping params given (table.selectOverload receiver name args)
      fun answer => ∀ selection, answer = .ok selection → scoping.Over scope selection.result := by
  apply Pledges.bind (visibleMethods_scoped publishes name overReceiver)
  intro visible
  split
  · exact .pure fun _ _ same => nomatch same
  apply Pledges.bind ((judged scoping params).filterMapM fun candidate member =>
    applicable?_scoped (fun both => publishes both.1) (fun both => ranges both.1) fun both =>
      both.2 candidate member)
  intro applicable
  have chosen (given : Prop) (entry : Candidate × Selection) (all : given → ∀ entry ∈ applicable,
      scoping.Over scope entry.2.result) (member : given → entry ∈ applicable) :
      Pledges scoping params given (pure (.ok entry.2) : PoolM (Except OverloadFault Selection))
        fun answer => ∀ selection, answer = .ok selection → scoping.Over scope selection.result :=
    .pure fun holds selection same => by cases same; exact all holds entry (member holds)
  split
  · exact .pure fun _ _ same => nomatch same
  · exact chosen _ (_, _) And.right fun _ => List.mem_cons_self
  split
  · rename_i same
    exact chosen _ (_, _) And.right fun _ => (List.mem_filter.mp (same ▸ List.mem_cons_self)).1
  apply Pledges.bind ((judged scoping params).filterM fun entry _ =>
    Pledges.ofKeeps
      (mostSpecific_keeps (inheritable_any table.hierarchy) applicable entry.1.1 entry.2))
  intro best
  split
  · exact chosen _ (_, _) (fun facts => facts.1.2) fun facts =>
      List.fst_mem_of_mem_zipIdx (facts.2 _ List.mem_cons_self)
  · exact .pure fun _ _ same => nomatch same

end SymbolTable
end ClassLang
