import ClassLang.Proofs.Order.Conformance

/-! Folding constants in two runs. Values do not depend on the numbers of types, so the same
expressions are folded in the same way. -/

namespace ClassLang

instance : Renamable FoldState :=
  ⟨fun rename state => { state with types := rename.on state.types }, fun rename state => by simp⟩

namespace FoldM

variable {rename : Renaming}

/-- Actions that do the same with renamed types. -/
abbrev Agrees {α : Type} [Renamable α] (rename : Renaming) (first second : FoldM α) : Prop :=
  (rename.states FoldState).Agree rename.on first second

/-- An action that gives the same result, with renamed types. -/
abbrev Blind {α : Type} [Plain α] (rename : Renaming) (action : FoldM α) : Prop :=
  Agrees rename action action

theorem lift_blind {α : Type} [Plain α] (answer : Except Abort α) :
    Blind rename (liftM answer : FoldM α) :=
  Setting.Agree.lift (.same rfl)

theorem get_blind {α : Type} [Plain α] {rest : FoldState → FoldM α}
    (each : ∀ state, Agrees rename (rest state) (rest (rename.on state))) :
    Blind rename (MonadState.get >>= rest) := by
  apply Setting.Agree.get
  intro state state' _ _ same
  rw [show state' = rename.on state from same]
  exact each state

theorem set_agrees (state : FoldState) :
    Agrees rename (MonadStateOf.set state) (MonadStateOf.set (rename.on state)) where
  leadsLeft _ _ _ _ _ := trivial
  leadsRight _ _ _ _ _ := trivial
  agrees := by
    intro _ _ _ _ _ _ _ _ _ ran ran' _
    cases ran
    cases ran'
    exact ⟨rfl, rfl⟩

section
variable {replace : ExprRef → FoldM ExprRef} (each : ∀ ref, Blind rename (replace ref))
include each

theorem mapM_blind (refs : List ExprRef) : Blind rename (refs.mapM replace) :=
  Setting.Agree.mapM_plain fun ref _ => each ref

theorem mapChildrenM_blind (kind : ExprKind) : Blind rename (kind.mapChildrenM replace) := by
  cases kind with
  | field receiver name => exact (each receiver).bindPlain fun _ => .pure rfl
  | call receiver method args =>
    have rest : ∀ receiver : Option ExprRef, Blind rename (do
        return ExprKind.call receiver method (← args.mapM replace)) := fun receiver =>
      (mapM_blind each args).bindPlain fun _ => .pure rfl
    cases receiver with
    | none => exact rest none
    | some receiver =>
      change Blind rename (some <$> replace receiver >>= fun receiver => do
        return ExprKind.call receiver method (← args.mapM replace))
      rw [map_eq_pure_bind, bind_assoc]
      exact (each receiver).bindPlain fun receiver => rest (some receiver)
  | new type args => exact (mapM_blind each args).bindPlain fun _ => .pure rfl
  | binary op left right =>
    exact (each left).bindPlain fun _ => (each right).bindPlain fun _ => .pure rfl
  | unary op operand => exact (each operand).bindPlain fun _ => .pure rfl
  | ifElse cond thenBranch elseBranch =>
    exact (each cond).bindPlain fun _ => (each thenBranch).bindPlain fun _ =>
      (each elseBranch).bindPlain fun _ => .pure rfl
  | matchOn scrutinee arms =>
    apply (each scrutinee).bindPlain
    intro scrutinee
    have bodies : Blind rename
        (arms.mapM fun arm => do return { arm with body := ← replace arm.body }) :=
      Setting.Agree.mapM_plain fun arm _ => (each arm.body).bindPlain fun _ => .pure rfl
    exact bodies.bindPlain fun _ => .pure rfl
  | letIn name type init => exact (each init).bindPlain fun _ => .pure rfl
  | block items => exact (mapM_blind each items).bindPlain fun _ => .pure rfl
  | _ => exact .pure rfl

end

/-- The types of the nodes, when the type of a node is also that of a new one. -/
def copiedTypes (types : IdMap TypeRef) (index size : Nat) : IdMap TypeRef :=
  match types.get? index with
  | some type => types.insert size type
  | none => types

theorem copiedTypes_on (types : IdMap TypeRef) (index size : Nat) :
    copiedTypes (rename.on types) index size = rename.on (copiedTypes types index size) := by
  unfold copiedTypes
  rw [IdMap.get?_on]
  cases types.get? index with
  | none => rfl
  | some type => exact IdMap.insert_on rename types size type

theorem replaceBy_blind (index : Nat) (value : Literal) : Blind rename (replaceBy index value) := by
  apply get_blind
  intro state
  apply (lift_blind (state.arena.span (.node index))).bindPlain
  intro span
  let entered (types : IdMap TypeRef) : FoldState :=
    { arena := (state.arena.alloc (.literal value) span).2, types }
  have entered : Agrees rename (set (entered (copiedTypes state.types index state.arena.size)))
      (set (entered (copiedTypes (rename.on state.types) index state.arena.size))) := by
    rw [copiedTypes_on]
    exact set_agrees (entered (copiedTypes state.types index state.arena.size))
  exact entered.bindPlain fun _ => .pure rfl

theorem simplify_blind (index : Nat) (kind : ExprKind) : Blind rename (simplify index kind) := by
  apply get_blind
  intro state
  cases kind with
  | ifElse cond thenBranch elseBranch =>
    apply (lift_blind (state.arena.literal? cond)).bindPlain
    intro value
    cases value with
    | none => exact .pure rfl
    | some value =>
      cases value with
      | bool value => cases value <;> exact .pure rfl
      | _ => exact .pure rfl
  | binary op left right =>
    apply (lift_blind (state.arena.literal? left)).bindPlain
    intro first
    cases first with
    | none => exact .pure rfl
    | some first =>
      apply (lift_blind (state.arena.literal? right)).bindPlain
      intro second
      cases second with
      | none => exact .pure rfl
      | some second =>
        dsimp only
        cases Literal.evalBinary? op first second with
        | none => exact .pure rfl
        | some value => exact replaceBy_blind index value
  | unary op operand =>
    apply (lift_blind (state.arena.literal? operand)).bindPlain
    intro value
    cases value with
    | none => exact .pure rfl
    | some value =>
      dsimp only
      cases Literal.evalUnary? op value with
      | none => exact .pure rfl
      | some value => exact replaceBy_blind index value
  | _ => exact .pure rfl

theorem foldWithin_blind : ∀ (depth : Nat) (ref : ExprRef), Blind rename (foldWithin depth ref)
  | 0, .missing => .pure rfl
  | _ + 1, .missing => .pure rfl
  | 0, .node _ => .throw _ _
  | depth + 1, .node index => by
    apply get_blind
    intro state
    apply (lift_blind (state.arena.kind (.node index))).bindPlain
    intro kind
    apply (mapChildrenM_blind (foldWithin_blind depth) kind).bindPlain
    intro folded
    apply Setting.Agree.ite Iff.rfl
    · intro _
      apply get_blind
      intro state
      apply (lift_blind (state.arena.setKind (.node index) folded)).bindPlain
      intro arena
      have placed : Blind rename (modify fun state : FoldState => { state with arena }) :=
        Renaming.states.modify fun _ => rfl
      exact placed.bindPlain fun _ => simplify_blind index folded
    · exact fun _ => simplify_blind index folded

theorem fold_blind (ref : ExprRef) : Blind rename (fold ref) := by
  apply get_blind
  intro state
  exact foldWithin_blind _ ref

end FoldM

theorem Member.setBody_typeParams (member : Member) (body : ExprRef) :
    (member.setBody body).typeParams = member.typeParams := by
  obtain ⟨name, span, detail, declared, type, modifiers, annotations, access, owner, progress⟩ :=
    member
  cases detail <;> rfl

namespace Crossing

variable {cross : Crossing}

theorem foldConstants_agrees (id : Nat) :
    cross.Agrees (StageM.foldConstants id) (StageM.foldConstants id) := by
  apply Setting.Agree.get
  intro work work' left right seen
  dsimp only
  rw [show work'.unit = cross.rename.on work.unit from seen]
  apply liftBind_agrees (MemberArena.get_on cross.rename work.unit.members id)
  intro member read
  have found : cross.start.unit.typeParams[id]? = some member.typeParams := by
    rw [← left.unitParams]
    exact CompilationUnit.typeParams_of_lookup (MemberArena.lookup_of_get read)
  rw [Member.body_on]
  cases member.body with
  | none => exact .pure rfl
  | some body =>
    have folded := Renaming.states.run (@FoldM.fold_blind cross.rename body)
      { arena := work.unit.arena, types := work.unit.exprTypes }
    apply Setting.Agree.bind (lift_agrees folded)
    intro result
    obtain ⟨root, final⟩ := result
    apply Setting.Agree.bindOn cross.rename
    · apply changeUnit_agrees
      · exact fun _ => rfl
      · exact fun _ _ => rfl
      · exact fun _ _ => rfl
    intro _
    apply Setting.Agree.ite Iff.rfl
    · intro _
      rw [Member.setBody_on]
      apply setMember_agrees
      rw [found, Member.setBody_typeParams]
    · exact fun _ => .pure rfl

end Crossing
end ClassLang
