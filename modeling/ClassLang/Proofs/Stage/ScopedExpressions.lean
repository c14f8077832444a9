import ClassLang.Proofs.Pattern.Scope
import ClassLang.Proofs.Stage.ScopedOverload
import ClassLang.Proofs.Stage.ScopedSignatures
import ClassLang.Stage.Bodies

/-! The types that one node of a body gets are over the scope of the member, if those of its
children are: what is declared elsewhere is carried there by the arguments of the receiver. -/

namespace ClassLang
open StageM

/-- Where a body is resolved: names stand for what is in scope of the member, and so does its
class. -/
structure BodySite.Fits (site : BodySite) (judgement : Judgement) (declared : CompilationUnit)
    (original : Member) : Prop where
  names : ∀ entry ∈ site.scope, declared.inScope original entry.2
  classType : judgement.Over (declared.inScope original) site.classType

namespace BodyM

variable {judgement : Judgement} {declared : CompilationUnit} {patterned : PatternStore → Prop}
    {given : Prop}
  {scope : ParamSet} {type : TypeRef} {site : BodySite}

/-- A lenient type has no variables. -/
theorem isLenient_scoped : Pledges judgement declared patterned given (isLenient type)
    fun lenient => lenient = true → judgement.Over scope type := by
  refine .inspect fun work lenient asked facts same => ?_
  subst same
  unfold TypePool.isLenient at asked
  split at asked
  · rename_i any
    exact any ▸ .any
  · obtain ⟨node, read, answered⟩ := Except.bind_eq_ok asked
    have found := facts.2.1.entries _ _ (TypePool.lookup_of_node read)
    cases node with
    | unresolved name => exact .of found trivial (by simp [TypeNode.parts])
    | _ => cases answered

theorem resolveAs_scoped (index : Nat) (resolution : Resolution) :
    Pledges judgement declared patterned given (resolveAs index resolution) :=
  .modifyUnit (fun _ _ scoped_ => { scoped_ with }) fun _ => rfl

theorem useSymbol_scoped (index : Nat) (resolution : Resolution) (symbol : Symbol) (span : Span) :
    Pledges judgement declared patterned given (useSymbol site index resolution symbol span) := by
  apply Pledges.andThen (resolveAs_scoped index resolution)
  intro _
  dsimp only
  split
  · exact .report
  · exact .pure fun _ => trivial

theorem isSupertype_scoped (sup sub : TypeRef) :
    Pledges judgement declared patterned given (withClasses (·.isSupertype sup sub)) :=
  .withClasses fun _ _ =>
    .ofKeeps (ClassHierarchy.isSupertype_keeps (PoolM.inheritable_any _) sup sub)

theorem expect_scoped (expected found : TypeRef) (span : Span) :
    Pledges judgement declared patterned given (expect expected found span) := by
  apply Pledges.andThen (isSupertype_scoped expected found)
  intro fits
  split
  · exact .pure fun _ => trivial
  · exact .mismatch

theorem join_scoped {first second : TypeRef} (earlier : given → judgement.Over scope first)
    (later : given → judgement.Over scope second) :
    Pledges judgement declared patterned given (join first second) (judgement.Over scope) := by
  unfold join
  split
  · exact .pure earlier
  split
  · exact .pure later
  apply Pledges.andThen (isSupertype_scoped first second)
  intro wider
  split
  · exact .pure earlier
  apply Pledges.andThen (isSupertype_scoped second first)
  intro narrower
  split
  · exact .pure later
  · exact .pure fun _ => .any

theorem noMember_scoped (receiver : TypeRef) (name : Name) (span : Span) :
    Pledges judgement declared patterned given (noMember receiver name span) :=
  .andThen .display fun _ => .report

theorem expectNumeric_scoped (op : BinaryOp) (operands : List (TypeRef × Span)) :
    Pledges judgement declared patterned given (expectNumeric op operands) :=
  .andThen ((judged judgement declared patterned).forM fun _ _ => Pledges.mismatch) fun _ =>
    .pure fun _ => trivial

/-- An operation yields a primitive. -/
theorem binary_scoped (op : BinaryOp) (left right : TypeRef × Span) :
    Pledges judgement declared patterned given (binary op left right) (judgement.Over scope) := by
  have plain {type : TypeRef} (plain : type.isPrimitive = true) :
      Pledges judgement declared patterned given (pure type) (judgement.Over scope) :=
    .pure fun _ => .primitive plain
  unfold binary
  split
  · refine .andThen (expect_scoped _ _ _) fun _ => ?_
    refine .andThen (expect_scoped _ _ _) fun _ => ?_
    exact plain rfl
  split
  · exact plain rfl
  have arithmetic (lenient : Bool) : Pledges judgement declared patterned given (do
      if lenient then return if op.isComparison then TypeRef.bool else .any
      if op = .add ∧ (left.1 = .string ∨ right.1 = .string) then return .string
      let numeric ← expectNumeric op [left, right]
      if op.isComparison then return .bool
      if !numeric then return .any
      return if left.1 = .float ∨ right.1 = .float then .float else .int)
        (judgement.Over scope) := by
    split
    · exact plain (by split <;> rfl)
    split
    · exact plain rfl
    apply Pledges.andThen (expectNumeric_scoped op _)
    intro numeric
    split
    · exact plain rfl
    split
    · exact plain rfl
    · exact plain (by split <;> rfl)
  apply Pledges.andThen .ask
  intro leftLenient
  cases leftLenient with
  | true => exact arithmetic true
  | false => exact .andThen .ask arithmetic

theorem unary_scoped (op : UnaryOp) (operand : TypeRef) (span : Span) :
    Pledges judgement declared patterned given (unary op operand span) (judgement.Over scope) := by
  apply Pledges.bind isLenient_scoped
  intro lenient
  split
  · rename_i some_
    exact .pure fun facts => by
      split
      · exact .primitive rfl
      · exact facts.2 some_
  cases op with
  | not => exact .andThen (expect_scoped _ _ _) fun _ => .pure fun _ => .primitive rfl
  | neg =>
    dsimp only
    split
    · rename_i number
      exact .pure fun _ => .primitive (by rcases number with rfl | rfl <;> rfl)
    · exact .andThen .mismatch fun _ => .pure fun _ => .any
  | bitNot =>
    dsimp only
    split
    · rename_i number
      exact .pure fun _ => .primitive (number ▸ rfl)
    · exact .andThen .mismatch fun _ => .pure fun _ => .any

theorem newInstance_scoped (index : Nat) (written : TypeExpr) (span : Span)
    (names : given → ∀ entry ∈ site.scope, scope entry.2)
    (knows : given → judgement.Knows written) :
    Pledges judgement declared patterned given (newInstance site index written span)
      (judgement.Over scope) := by
  apply Pledges.bind (TypeSite.resolve_scoped site.toTypeSite written names knows)
  intro type
  have own {given' : Prop} (facts : given' → given ∧ judgement.Over scope type) :
      Pledges judgement declared patterned given' (pure type) (judgement.Over scope) :=
    .pure fun holds => (facts holds).2
  apply Pledges.andThen .ask
  intro base
  cases base with
  | none => exact own id
  | some base =>
    apply Pledges.get
    intro work
    dsimp only
    split
    · rename_i id _
      apply Pledges.andThen .told
      intro symbol
      split
      · refine .andThen .report fun _ => ?_
        refine .andThen (useSymbol_scoped _ _ _ _) fun _ => ?_
        exact own And.left
      · exact .andThen (useSymbol_scoped _ _ _ _) fun _ => own And.left
    · exact own And.left

section
variable {id : Nat} {original : Member} (inside : declared ∈ judgement.units)
  (found : declared.members.members[id]? = some original)
include inside found

/-- A receiver of variable type has the members of the bound, which mentions nothing else. -/
theorem classTypeOf_scoped (ranges : given → judgement.Over (declared.inScope original) type) :
    Pledges judgement declared patterned given (classTypeOf type)
      (judgement.Over (declared.inScope original)) := by
  have read : Pledges judgement declared patterned given (inspect (·.pool.node type))
      fun node => judgement.pool.types[type.raw]? = some node :=
    .inspect fun _ _ asked both => both.2.1.entries _ _ (TypePool.lookup_of_node asked)
  apply Pledges.bind read
  intro node
  split
  · rename_i param _
    refine .inspect fun work bound asked facts => ?_
    obtain ⟨⟨given_, entry⟩, -, scoped_⟩ := facts
    refine (scoped_.program.upperBound asked).mono fun other home => ?_
    rcases (ranges given_).allows entry with own | loose
    · exact .inl (judgement.inScope_home inside found own home)
    · exact .inr (judgement.closed param other loose home)
  · exact .pure fun holding => (ranges holding.1).part holding.2 List.mem_cons_self
  · exact .pure fun holding => ranges holding.1

/-- The type of a field is carried to the receiver. -/
theorem findField?_scoped (name : Name)
    (ranges : given → judgement.Over (declared.inScope original) type) :
    Pledges judgement declared patterned given (findField? type name)
      fun answer => ∀ entry, answer = some entry →
      judgement.Over (declared.inScope original) entry.2.2 := by
  apply Pledges.bind (classTypeOf_scoped inside found ranges)
  intro receiver
  apply Pledges.get
  intro work
  apply Pledges.bind (.withClasses fun _ _ =>
    ClassHierarchy.ancestors_scoped And.right fun holding => holding.1.1.2)
  intro ancestors
  refine (judged judgement declared patterned).findSomeM? fun ancestor listed => ?_
  apply Pledges.bind (.onPool fun _ => SymbolTable.ancestorBindings_scoped
    (fun known => known.1.2.2.program.publishes) fun known => known.2 ancestor listed)
  intro bindings
  cases bindings with
  | none => exact .none
  | some bound =>
    dsimp only
    split
    · exact .none
    · rename_i symbol rest listing
      have member : (_, symbol) ∈ work.symbols.membersNamed bound.1 name .field :=
        listing ▸ List.mem_cons_self
      obtain ⟨_, _, _, test⟩ := SymbolTable.exists_record_of_member member
      have kind : symbol.kind = .field := by simpa using (Bool.and_eq_true_iff.mp test).2
      apply Pledges.bind (.onPool fun _ => PoolM.instantiate_scoped
        (fun both => (both.2 bound.1 bound.2 rfl).2) fun both =>
          both.1.1.2.2.program.publishes.field member kind)
      exact fun type => .pure fun facts entry same => by cases same; exact facts.2

/-- A bare name is a local, a field of the class, or a class without arguments. -/
theorem ident_scoped {locals : Locals} (index : Nat) (name : Name) (span : Span)
    (fits : given → site.Fits judgement declared original) (used : given → judgement.Admits name 0)
    (bound : given → ∀ entry ∈ locals, judgement.Over (declared.inScope original) entry.2) :
    Pledges judgement declared patterned given (ident site locals index name span)
      (judgement.Over (declared.inScope original)) := by
  unfold ident
  split
  · rename_i type looked
    refine .andThen (resolveAs_scoped _ _) fun _ => .pure fun holds => ?_
    obtain ⟨before, after, same, _⟩ := List.lookup_eq_some_iff.mp looked
    exact bound holds (name, type) (by simp [same])
  apply Pledges.bind (findField?_scoped inside found name fun holds => (fits holds).classType)
  intro answer
  split
  · exact .andThen (useSymbol_scoped _ _ _ _) fun _ => .pure fun both => both.2 _ rfl
  apply Pledges.get
  intro work
  dsimp only
  split
  · apply Pledges.andThen .told
    intro symbol
    exact .andThen (useSymbol_scoped _ _ _ _) fun _ =>
      Pledges.onPool fun _ => PoolM.class_scoped name fun facts => used facts.1.1 rfl
  · refine .andThen .report fun _ => ?_
    refine .andThen (resolveAs_scoped _ _) fun _ => ?_
    refine Pledges.onPool fun _ => ?_
    exact PoolM.unresolved_scoped name

theorem field_scoped {receiver : TypeRef} (index : Nat) (name : Name) (span : Span)
    (ranges : given → judgement.Over (declared.inScope original) receiver) :
    Pledges judgement declared patterned given (field site index receiver name span)
      (judgement.Over (declared.inScope original)) := by
  apply Pledges.andThen .ask
  intro lenient
  split
  · exact .pure fun _ => .any
  apply Pledges.bind (findField?_scoped inside found name ranges)
  intro answer
  cases answer with
  | none => exact .andThen (noMember_scoped receiver name span) fun _ => .pure fun _ => .any
  | some entry =>
    exact .andThen (useSymbol_scoped _ _ _ _) fun _ => .pure fun facts => facts.2 entry rfl

theorem call_scoped {receiver : TypeRef} {args : List TypeRef} (index : Nat) (method : Name)
    (span : Span) (ranges : given → judgement.Over (declared.inScope original) receiver)
    (all : given → ∀ arg ∈ args, judgement.Over (declared.inScope original) arg) :
    Pledges judgement declared patterned given (call site index receiver method args span)
      (judgement.Over (declared.inScope original)) := by
  apply Pledges.andThen .ask
  intro lenient
  split
  · exact .pure fun _ => .any
  apply Pledges.bind (classTypeOf_scoped inside found ranges)
  intro classType
  apply Pledges.get
  intro work
  apply Pledges.bind (.onPool fun _ => SymbolTable.selectOverload_scoped
    (fun both => both.2.2.program.publishes) method (fun both => both.1.2) fun both => all both.1.1)
  intro answer
  split
  · rename_i selection
    apply Pledges.andThen ((judged judgement declared patterned).forM fun _ _ =>
      Pledges.reportFault)
    intro _
    apply Pledges.andThen .told
    intro symbol
    exact .andThen (useSymbol_scoped _ _ _ _) fun _ => .pure fun facts => facts.2 selection rfl
  · exact .andThen (noMember_scoped receiver method span) fun _ => .pure fun _ => .any
  · refine Pledges.andThen ((judged judgement declared patterned).mono
      ((judged judgement declared patterned).mapM fun _ _ => Pledges.display) fun _ _ _ => trivial)
      fun _ => ?_
    exact .andThen .report fun _ => .andThen (resolveAs_scoped _ _) fun _ => .pure fun _ => .any
  · exact .andThen .report fun _ => .andThen (resolveAs_scoped _ _) fun _ => .pure fun _ => .any

end
end BodyM
end ClassLang
