import ClassLang.Proofs.Stage.Constants

/-! Folding twice is folding once. A node whose slots are folded is not written again, so what was
folded stays folded while the rest of the tree is. -/

namespace ClassLang

namespace ExprKind

/-- All slots of a node in evaluation order, the empty one of an `if` included. -/
def slots : ExprKind → List ExprRef
  | ifElse cond thenBranch elseBranch => [cond, thenBranch, elseBranch]
  | kind => kind.children

/-- The node with other slots. -/
def withSlots : ExprKind → List ExprRef → ExprKind
  | field _ name, [receiver] => field receiver name
  | call (some _) method _, receiver :: args => call (some receiver) method args
  | call none method _, args => call none method args
  | new type _, args => new type args
  | binary op _ _, [left, right] => binary op left right
  | unary op _, [operand] => unary op operand
  | ifElse _ _ _, [cond, thenBranch, elseBranch] => ifElse cond thenBranch elseBranch
  | matchOn _ arms, scrutinee :: bodies =>
    matchOn scrutinee (arms.zipWith (fun arm body => { arm with body }) bodies)
  | letIn name type _, [init] => letIn name type init
  | block _, items => block items
  | kind, _ => kind

theorem withSlots_slots (kind : ExprKind) : kind.withSlots kind.slots = kind := by
  cases kind with
  | call receiver => cases receiver <;> rfl
  | matchOn scrutinee arms =>
    have same : arms.zipWith (fun arm body => { arm with body }) (arms.map (·.body)) = arms := by
      induction arms with
      | nil => rfl
      | cons arm arms ih => simpa using ih
    simp only [slots, children, withSlots, same]
  | _ => rfl

theorem slots_withSlots {kind : ExprKind} {refs : List ExprRef}
    (length : refs.length = kind.slots.length) : (kind.withSlots refs).slots = refs := by
  cases kind with
  | literal | ident | this | error => exact (List.length_eq_zero_iff.mp length).symm
  | field | unary | letIn =>
    obtain ⟨first, rfl⟩ := List.length_eq_one_iff.mp length
    rfl
  | binary =>
    obtain ⟨first, second, rfl⟩ := List.length_eq_two.mp length
    rfl
  | ifElse =>
    obtain ⟨first, second, third, rfl⟩ := List.length_eq_three.mp length
    rfl
  | new | block => rfl
  | call receiver =>
    cases receiver with
    | none => rfl
    | some =>
      obtain ⟨first, rest, rfl⟩ := List.exists_cons_of_length_eq_add_one length
      rfl
  | matchOn scrutinee arms =>
    obtain ⟨first, rest, rfl⟩ := List.exists_cons_of_length_eq_add_one length
    have bodies : rest.length = arms.length := by simpa [slots, children] using length
    have second : arms.zipWith (fun _ body => body) rest = rest :=
      List.map_uncurry_zip_eq_zipWith.symm.trans (List.map_snd_zip (Nat.le_of_eq bodies))
    simp [withSlots, slots, children, List.map_zipWith, second]

/-- Replacing the slots of a node one after the other. -/
theorem mapChildrenM_eq {m : Type → Type} [Monad m] [LawfulMonad m] (replace : ExprRef → m ExprRef)
    (kind : ExprKind) : kind.mapChildrenM replace = kind.withSlots <$> kind.slots.mapM replace := by
  cases kind with
  | new | block => simp [mapChildrenM, slots, children]; rfl
  | call receiver method args =>
    cases receiver with
    | none => simp [mapChildrenM, slots, children]; rfl
    | some receiver => simp [mapChildrenM, slots, children, withSlots]
  | matchOn scrutinee arms =>
    have bodies : (arms.mapM fun arm => (fun body => { arm with body }) <$> replace arm.body) =
        (arms.zipWith fun arm body => { arm with body }) <$> (arms.map (·.body)).mapM replace := by
      induction arms with
      | nil => simp
      | cons arm arms ih =>
        rw [List.mapM_cons, ih]
        simp
    simp only [mapChildrenM, slots, children, List.mapM_cons, bind_pure_comp, bodies, map_bind,
      Functor.map_map]
    rfl
  | _ => simp [mapChildrenM, slots, children, withSlots]

end ExprKind

/-- What a node whose slots are folded is replaced by. -/
inductive Replacement where
  | itself
  | branch (ref : ExprRef)
  | value (literal : Literal)
deriving Repr, DecidableEq

namespace Arena

/-- What a node of some kind is replaced by, as far as its slots decide. -/
def replacement (arena : Arena) : ExprKind → Except Abort Replacement
  | .ifElse cond thenBranch elseBranch => do
    match ← arena.literal? cond with
    | some (.bool true) => return .branch thenBranch
    | some (.bool false) => return if elseBranch.isPresent then .branch elseBranch else .itself
    | _ => return .itself
  | .binary op left right => do
    let some first ← arena.literal? left | return .itself
    let some second ← arena.literal? right | return .itself
    return ((Literal.evalBinary? op first second).map .value).getD .itself
  | .unary op operand => do
    let some value ← arena.literal? operand | return .itself
    return ((Literal.evalUnary? op value).map .value).getD .itself
  | _ => return .itself

/-- Nothing is left to fold at the slot or below it. -/
inductive Folded (arena : Arena) : ExprRef → Prop where
  | missing : Folded arena .missing
  | node {index : Nat} {expr : Expr} (found : arena.exprs[index]? = some expr)
      (slots : ∀ ref ∈ expr.kind.slots, Folded arena ref)
      (itself : arena.replacement expr.kind = .ok .itself) : Folded arena (.node index)

/-- Nothing is left to fold below the node. -/
def FoldedBelow (arena : Arena) (index : Nat) : Prop :=
  ∃ expr, arena.exprs[index]? = some expr ∧ ∀ ref ∈ expr.kind.slots, arena.Folded ref

/-- Nodes with a rank from the bound on are as they were, and so are those below which everything
was folded. -/
structure Advances (rank : Nat → Nat) (bound : Nat) (before after : Arena) : Prop where
  above : ∀ (index : Nat) (expr : Expr), before.exprs[index]? = some expr → bound ≤ rank index →
    after.exprs[index]? = some expr
  folded : ∀ (index : Nat) (expr : Expr), before.exprs[index]? = some expr →
    before.FoldedBelow index → after.exprs[index]? = some expr

variable {arena before middle after : Arena} {rank : Nat → Nat} {index bound : Nat}
    {ref result : ExprRef}
  {kind : ExprKind}

theorem replacement_congr (same : ∀ ref ∈ kind.slots, after.expr ref = before.expr ref) :
    after.replacement kind = before.replacement kind := by
  have literal : ∀ ref ∈ kind.slots, after.literal? ref = before.literal? ref :=
    fun ref member => by
    simp only [literal?, Arena.kind, same ref member]
  cases kind with
  | ifElse cond thenBranch elseBranch => simp only [replacement, literal cond List.mem_cons_self]
  | binary op left right =>
    have second := literal right (by simp [ExprKind.slots, ExprKind.children])
    simp only [replacement, literal left List.mem_cons_self, second]
  | unary op operand => simp only [replacement, literal operand List.mem_cons_self]
  | _ => rfl

/-- A branch is kept when the condition is a literal that selects it. -/
theorem exists_of_replacement_branch (replaced : arena.replacement kind = .ok (.branch ref)) :
    ∃ cond thenBranch elseBranch answer, kind = .ifElse cond thenBranch elseBranch ∧
      arena.literal? cond = .ok (some (.bool answer)) ∧
      (answer = false → elseBranch.isPresent = true) ∧
      ref = if answer then thenBranch else elseBranch := by
  cases kind with
  | ifElse cond thenBranch elseBranch =>
    obtain ⟨answer, read, chosen⟩ := Except.bind_eq_ok replaced
    split at chosen
    · cases chosen
      exact ⟨_, _, _, true, rfl, read, nofun, rfl⟩
    · split at chosen
      · rename_i present
        cases chosen
        exact ⟨_, _, _, false, rfl, read, fun _ => present, rfl⟩
      · cases chosen
    · cases chosen
  | binary op left right =>
    obtain ⟨first, _, chosen⟩ := Except.bind_eq_ok replaced
    cases first with
    | none => cases chosen
    | some first =>
      obtain ⟨second, _, chosen⟩ := Except.bind_eq_ok chosen
      cases second with
      | none => cases chosen
      | some second => cases value : Literal.evalBinary? op first second <;> simp [value] at chosen
  | unary op operand =>
    obtain ⟨answer, _, chosen⟩ := Except.bind_eq_ok replaced
    cases answer with
    | none => cases chosen
    | some answer => cases value : Literal.evalUnary? op answer <;> simp [value] at chosen
  | _ => cases replaced

theorem replacement_branch (replaced : arena.replacement kind = .ok (.branch ref)) :
    ref ∈ kind.slots := by
  obtain ⟨cond, thenBranch, elseBranch, answer, rfl, -, -, rfl⟩ :=
    exists_of_replacement_branch replaced
  cases answer <;> simp [ExprKind.slots]

namespace Advances

theorem refl (arena : Arena) : arena.Advances rank bound arena :=
  ⟨fun _ _ found _ => found, fun _ _ found _ => found⟩

theorem mono {weak : Nat} (advances : before.Advances rank bound after) (weaken : bound ≤ weak) :
    before.Advances rank weak after :=
  ⟨fun index expr found above => advances.above index expr found (Nat.le_trans weaken above),
    advances.folded⟩

section
variable (advances : before.Advances rank bound after)
include advances

theorem expr_eq (folded : before.Folded ref) : after.expr ref = before.expr ref := by
  cases folded with
  | missing => rfl
  | node found slots itself => simp only [expr, found, advances.folded _ _ found ⟨_, found, slots⟩]

theorem keeps (folded : before.Folded ref) : after.Folded ref := by
  induction folded with
  | missing => exact .missing
  | node found slots itself ih =>
    refine .node (advances.folded _ _ found ⟨_, found, slots⟩) ih ?_
    rw [replacement_congr fun ref member => advances.expr_eq (slots ref member), itself]

theorem keepsBelow (below : before.FoldedBelow index) : after.FoldedBelow index := by
  obtain ⟨expr, found, slots⟩ := below
  exact ⟨expr, advances.folded index expr found ⟨expr, found, slots⟩, fun ref member =>
    advances.keeps (slots ref member)⟩

/-- A node below which everything was folded is not folded by and by. -/
theorem reflects (below : before.FoldedBelow index) (folded : after.Folded (.node index)) :
    before.Folded (.node index) := by
  obtain ⟨expr, found, slots⟩ := below
  have there := advances.folded index expr found ⟨expr, found, slots⟩
  cases folded with
  | node stored _ itself =>
    cases there.symm.trans stored
    rw [replacement_congr fun ref member => advances.expr_eq (slots ref member)] at itself
    exact .node found slots itself

end

theorem trans (earlier : before.Advances rank bound middle)
    (later : middle.Advances rank bound after) :
    before.Advances rank bound after :=
  ⟨fun index expr found above =>
    later.above index expr (earlier.above index expr found above) above,
    fun index expr found below =>
      later.folded index expr (earlier.folded index expr found below) (earlier.keepsBelow below)⟩

/-- A node is added. -/
theorem alloc (kind : ExprKind) (span : Span) : arena.Advances rank bound
    (arena.alloc kind span).2 := by
  have kept {index : Nat} {expr : Expr} (found : arena.exprs[index]? = some expr) :
      (arena.alloc kind span).2.exprs[index]? = some expr := by
    rw [Arena.alloc, Array.getElem?_push,
      if_neg (Nat.ne_of_lt (Array.getElem?_eq_some_iff.mp found).1), found]
  exact ⟨fun _ _ found _ => kept found, fun _ _ found _ => kept found⟩

/-- A node of a lower rank is written, below which something was left to fold. -/
theorem setKind (unfolded : ¬ arena.FoldedBelow index) (lower : rank index < bound)
    (ran : arena.setKind (.node index) kind = .ok after) : arena.Advances rank bound after := by
  unfold Arena.setKind at ran
  dsimp only at ran
  split at ran
  · cases ran
    constructor
    · intro other expr found above
      have differ : index ≠ other := by
        rintro rfl
        exact Nat.not_lt_of_le above lower
      rw [← found]
      exact Array.getElem?_setIfInBounds_ne differ
    · intro other expr found below
      have differ : index ≠ other := by
        rintro rfl
        exact unfolded below
      rw [← found]
      exact Array.getElem?_setIfInBounds_ne differ
  · cases ran

end Advances

/-- The slot `result` holds what the slot `ref` folds to; it is the same slot if nothing was left to
fold there. -/
structure FoldsTo (after : Arena) (ref result : ExprRef) : Prop where
  folded : after.Folded result
  below : ∀ index, ref = .node index → after.FoldedBelow index
  same : after.Folded ref → result = ref

theorem FoldsTo.grow (folds : before.FoldsTo ref result)
    (advances : before.Advances rank bound after) : after.FoldsTo ref result where
  folded := advances.keeps folds.folded
  below index same := advances.keepsBelow (folds.below index same)
  same folded := by
    cases ref with
    | missing => exact folds.same .missing
    | node index => exact folds.same (advances.reflects (folds.below index rfl) folded)

end Arena

namespace FoldM
open Arena

variable {rank : Nat → Nat} {bound depth index : Nat} {expr : Expr} {kind : ExprKind}
    {ref result : ExprRef}
  {state after : FoldState}

theorem simplify_run (index : Nat) (kind : ExprKind) (state : FoldState) :
    (simplify index kind).run state = match state.arena.replacement kind with
      | .error fault => .error fault
      | .ok .itself => .ok (.node index, state)
      | .ok (.branch ref) => .ok (ref, state)
      | .ok (.value literal) => (replaceBy index literal).run state := by
  unfold simplify replacement
  rw [StateT.run_bind, StateT.run_get, pure_bind]
  cases kind with
  | ifElse cond thenBranch elseBranch =>
    cases ran : state.arena.literal? cond with
    | error fault => simp only [ran]; rfl
    | ok answer =>
      simp only [ran]
      rcases answer with _ | (_ | _ | (_ | _) | _)
      all_goals first | rfl | (cases elseBranch <;> rfl)
  | binary op left right =>
    cases ran : state.arena.literal? left with
    | error fault => simp only [ran]; rfl
    | ok first =>
      cases first with
      | none => simp only [ran]; rfl
      | some first =>
        cases also : state.arena.literal? right with
        | error fault => simp only [ran, also]; rfl
        | ok second =>
          cases second with
          | none => simp only [ran, also]; rfl
          | some second =>
            simp only [ran, also]
            cases evaluated : Literal.evalBinary? op first second with
            | none => simp [evaluated]
            | some value => simp [evaluated]
  | unary op operand =>
    cases ran : state.arena.literal? operand with
    | error fault => simp only [ran]; rfl
    | ok answer =>
      cases answer with
      | none => simp only [ran]; rfl
      | some value =>
        simp only [ran]
        cases evaluated : Literal.evalUnary? op value with
        | none => simp [evaluated]
        | some value => simp [evaluated]
  | _ => rfl

/-- Running `foldWithin` keeps the ranks. -/
theorem foldWithin_ranked (ranked : state.arena.Ranked rank)
    (held : ref = .missing ∨ state.arena.Below rank depth ref)
    (ran : (foldWithin depth ref).run state = .ok (result, after)) :
    after.arena.Ranked rank ∧ state.arena.Continues rank after.arena := by
  rcases held with rfl | ⟨index, inside, rfl, lower⟩
  · rw [foldWithin_missing] at ran
    cases ran
    exact ⟨ranked, .refl _⟩
  · obtain ⟨_, _, same, continues, rankedAfter, -⟩ :=
      foldWithin_works depth index state inside lower ranked
    cases same.symm.trans ran
    exact ⟨rankedAfter, continues⟩

/-- What is left of a node whose slots are folded. -/
theorem simplify_advances (found : state.arena.exprs[index]? = some expr)
    (slots : ∀ ref ∈ expr.kind.slots, state.arena.Folded ref)
    (ran : (simplify index expr.kind).run state = .ok (result, after)) :
    state.arena.Advances rank bound after.arena ∧ after.arena.FoldsTo (.node index) result := by
  have below : state.arena.FoldedBelow index := ⟨expr, found, slots⟩
  have notYet {arena : Arena} (advances : state.arena.Advances rank bound arena)
      (differs : state.arena.replacement expr.kind ≠ .ok .itself) :
      ¬ arena.Folded (.node index) := by
    intro folded
    cases advances.reflects below folded with
    | node stored _ itself =>
      cases found.symm.trans stored
      exact differs itself
  rw [simplify_run] at ran
  cases replaced : state.arena.replacement expr.kind with
  | error fault =>
    rw [replaced] at ran
    cases ran
  | ok replacement =>
    rw [replaced] at ran notYet
    cases replacement with
    | itself =>
      cases ran
      exact ⟨.refl _, .node found slots replaced, fun _ same => ExprRef.node.inj same ▸ below,
        fun _ => rfl⟩
    | branch ref =>
      cases ran
      have listed := slots result (replacement_branch replaced)
      exact ⟨.refl _, listed, fun _ same => ExprRef.node.inj same ▸ below,
        fun folded => absurd folded (notYet (.refl _) nofun)⟩
    | value literal =>
      obtain ⟨span, allocated, _⟩ := replaceBy_run ran
      have arena : (state.arena.alloc (.literal literal) span).2 = after.arena :=
        congrArg Prod.snd allocated
      have added : ExprRef.node state.arena.size = result := congrArg Prod.fst allocated
      have advances : state.arena.Advances rank bound after.arena :=
        arena ▸ .alloc (.literal literal) span
      have there : after.arena.exprs[state.arena.size]? = some ⟨.literal literal, span⟩ := by
        rw [← arena]
        exact Array.getElem?_push_size
      have folded : after.arena.Folded result := added ▸ .node there nofun rfl
      exact ⟨advances, folded, fun _ same => ExprRef.node.inj same ▸ advances.keepsBelow below,
        fun folded => absurd folded (notYet advances nofun)⟩

theorem mapM_advances {refs results : List ExprRef}
    (each : ∀ ref ∈ refs, ∀ (state after : FoldState) (result : ExprRef), state.arena.Ranked rank →
      (ref = .missing ∨ state.arena.Below rank bound ref) →
      (foldWithin depth ref).run state = .ok (result, after) →
      state.arena.Advances rank bound after.arena ∧ after.arena.FoldsTo ref result)
    (ranked : state.arena.Ranked rank) (deep : bound ≤ depth)
    (held : ∀ ref ∈ refs, ref = .missing ∨ state.arena.Below rank bound ref)
    (ran : (refs.mapM (foldWithin depth)).run state = .ok (results, after)) :
    state.arena.Advances rank bound after.arena ∧
    List.Forall₂ after.arena.FoldsTo refs results := by
  induction refs generalizing state results with
  | nil =>
    cases ran
    exact ⟨.refl _, .nil⟩
  | cons ref refs ih =>
    rw [List.mapM_cons] at ran
    obtain ⟨⟨result, between⟩, first, ran⟩ := Except.bind_eq_ok ran
    obtain ⟨⟨others, _⟩, rest, same⟩ := Except.bind_eq_ok ran
    cases same
    have heldFirst := held ref List.mem_cons_self
    obtain ⟨advances, folds⟩ :=
      each ref List.mem_cons_self state between result ranked heldFirst first
    obtain ⟨rankedBetween, continues⟩ :=
      foldWithin_ranked ranked (heldFirst.imp_right (·.mono deep)) first
    obtain ⟨more, foldsOthers⟩ :=
      ih (fun other member => each other (List.mem_cons_of_mem _ member)) rankedBetween
      (fun other member => (held other (List.mem_cons_of_mem _ member)).imp_right
        (·.grow continues)) rest
    exact ⟨advances.trans more, .cons (folds.grow more) foldsOthers⟩

/-- Slots that were folded all along are as they were. -/
theorem same_of_folded {arena : Arena} {refs results : List ExprRef}
    (folds : List.Forall₂ arena.FoldsTo refs results) (folded : ∀ ref ∈ refs, arena.Folded ref) :
    results = refs := by
  induction folds with
  | nil => rfl
  | cons first _ ih =>
    rw [first.same (folded _ List.mem_cons_self), ih fun ref member =>
      folded ref (List.mem_cons_of_mem _ member)]

theorem Fits.slots {holds : ExprRef → Prop} {patterns : Nat} (fits : kind.Fits holds patterns) :
    ∀ ref ∈ kind.slots, ref = .missing ∨ holds ref := by
  intro ref member
  cases kind with
  | ifElse cond thenBranch elseBranch =>
    simp only [ExprKind.slots, List.mem_cons, List.not_mem_nil, or_false] at member
    rcases member with rfl | rfl | rfl
    · exact .inr fits.1
    · exact .inr fits.2.1
    · exact fits.2.2
  | matchOn scrutinee arms =>
    rcases List.mem_cons.mp member with rfl | body
    · exact .inr fits.1
    · obtain ⟨arm, listed, rfl⟩ := List.mem_map.mp body
      exact .inr (fits.2 arm listed).2
  | _ => exact .inr (fits ref member)

/-- What folding a node does: its slots are folded, the node is written if they changed, and then
the node itself is looked at. -/
theorem foldWithin_run (found : state.arena.exprs[index]? = some expr)
    (ran : (foldWithin (depth + 1) (.node index)).run state = .ok (result, after)) :
    ∃ refs between arena, (expr.kind.slots.mapM (foldWithin depth)).run state =
      .ok (refs, between) ∧
      (expr.kind.withSlots refs = expr.kind ∧ arena = between.arena ∨
        expr.kind.withSlots refs ≠ expr.kind ∧
          between.arena.setKind (.node index) (expr.kind.withSlots refs) = .ok arena) ∧
      (simplify index (expr.kind.withSlots refs)).run { between with arena } =
        .ok (result, after) := by
  have answered : state.arena.kind (.node index) = .ok expr.kind := by
    simp [Arena.kind, Arena.expr, found, Except.map]
  unfold foldWithin at ran
  rw [StateT.run_bind, StateT.run_get, pure_bind, answered] at ran
  obtain ⟨⟨folded, between⟩, mapped, ran⟩ := Except.bind_eq_ok ran
  change (expr.kind.mapChildrenM (foldWithin depth)).run state = .ok (folded, between) at mapped
  rw [ExprKind.mapChildrenM_eq, map_eq_pure_bind] at mapped
  obtain ⟨⟨refs, _⟩, mapped, same⟩ := Except.bind_eq_ok mapped
  cases same
  dsimp only at ran
  split at ran
  · rename_i differs
    obtain ⟨⟨arena, _⟩, wrote, ran⟩ := Except.bind_eq_ok ran
    obtain ⟨_, written, same⟩ := Except.bind_eq_ok wrote
    cases same
    exact ⟨refs, between, arena, mapped, .inr ⟨differs, written⟩, ran⟩
  · rename_i same
    exact ⟨refs, between, _, mapped, .inl ⟨not_not.mp same, rfl⟩, ran⟩

/-- Folding leaves what was folded as it is, and the slot it ends with is folded. -/
theorem foldWithin_advances :
    ∀ (depth bound : Nat) (ref : ExprRef) (state after : FoldState) (result : ExprRef),
    state.arena.Ranked rank → bound ≤ depth → (ref = .missing ∨ state.arena.Below rank bound ref) →
    (foldWithin depth ref).run state = .ok (result, after) →
    state.arena.Advances rank bound after.arena ∧ after.arena.FoldsTo ref result := by
  intro depth
  induction depth with
  | zero =>
    intro bound ref state after result ranked deep held ran
    rcases held with rfl | ⟨index, _, rfl, lower⟩
    · cases ran
      exact ⟨.refl _, .missing, nofun, fun _ => rfl⟩
    · omega
  | succ depth ih =>
    intro bound ref state after result ranked deep held ran
    rcases held with rfl | ⟨index, inside, rfl, lower⟩
    · cases ran
      exact ⟨.refl _, .missing, nofun, fun _ => rfl⟩
    obtain ⟨expr, found⟩ : ∃ expr, state.arena.exprs[index]? = some expr :=
      ⟨_, Array.getElem?_eq_getElem inside⟩
    obtain ⟨refs, between, arena, mapped, written, simplified⟩ := foldWithin_run found ran
    obtain ⟨advances, folds⟩ := mapM_advances
      (fun ref _ state after result ranked =>
        ih (rank index) ref state after result ranked (by omega))
      ranked (by omega) (Fits.slots (ranked.fits index expr found)) mapped
    have foldedRefs : ∀ ref ∈ refs, between.arena.Folded ref :=
      mem_of_forall₂ folds fun _ _ folds => folds.folded
    have present := advances.above index expr found (Nat.le_refl _)
    have slots : (expr.kind.withSlots refs).slots = refs :=
      ExprKind.slots_withSlots folds.length_eq.symm
    -- The node is only written if something below it was left to fold.
    obtain ⟨more, changed, there, kind⟩ : between.arena.Advances rank bound arena ∧
        ∃ changed, arena.exprs[index]? = some changed ∧
        changed.kind = expr.kind.withSlots refs := by
      rcases written with ⟨same, rfl⟩ | ⟨differs, written⟩
      · exact ⟨.refl _, expr, present, same.symm⟩
      · refine ⟨.setKind ?_ lower written, { expr with kind := expr.kind.withSlots refs }, ?_, rfl⟩
        · rintro ⟨_, again, folded⟩
          cases present.symm.trans again
          rw [same_of_folded folds folded] at differs
          exact differs expr.kind.withSlots_slots
        · have inside := (Array.getElem?_eq_some_iff.mp present).1
          simp only [Arena.setKind, present, Except.ok.injEq] at written
          rw [← written]
          simp [inside]
    rw [← kind] at simplified slots
    have there : ({ between with arena } : FoldState).arena.exprs[index]? = some changed := there
    obtain ⟨last, folded⟩ := simplify_advances there
      (fun ref member => more.keeps (foldedRefs ref (slots ▸ member))) simplified
    exact ⟨((advances.mono (Nat.le_of_lt lower)).trans more).trans last, folded⟩

/-- Folding what is folded changes nothing. -/
theorem foldWithin_folded :
    ∀ (depth : Nat) (ref : ExprRef) (state after : FoldState) (result : ExprRef),
    state.arena.Folded ref → (foldWithin depth ref).run state = .ok (result, after) →
    result = ref ∧ after = state := by
  intro depth
  induction depth with
  | zero =>
    intro ref state after result folded ran
    cases ref with
    | missing =>
      cases ran
      exact ⟨rfl, rfl⟩
    | node index => cases ran
  | succ depth ih =>
    intro ref state after result folded ran
    cases folded with
    | missing =>
      cases ran
      exact ⟨rfl, rfl⟩
    | @node index expr found slots itself =>
      obtain ⟨refs, between, arena, mapped, written, simplified⟩ := foldWithin_run found ran
      have unchanged : ∀ {slots refs : List ExprRef} {between : FoldState},
          (∀ ref ∈ slots, state.arena.Folded ref) → (slots.mapM (foldWithin depth)).run state = .ok
            (refs, between) → refs = slots ∧ between = state := by
        intro slots
        induction slots with
        | nil =>
          intro refs between _ ran
          cases ran
          exact ⟨rfl, rfl⟩
        | cons ref slots each =>
          intro refs between folded ran
          rw [List.mapM_cons] at ran
          obtain ⟨⟨result, middle⟩, first, ran⟩ := Except.bind_eq_ok ran
          obtain ⟨⟨others, _⟩, rest, same⟩ := Except.bind_eq_ok ran
          cases same
          obtain ⟨rfl, rfl⟩ := ih ref state middle result (folded ref List.mem_cons_self) first
          obtain ⟨rfl, rfl⟩ :=
            each (fun ref member => folded ref (List.mem_cons_of_mem _ member)) rest
          exact ⟨rfl, rfl⟩
      obtain ⟨rfl, rfl⟩ := unchanged slots mapped
      rw [ExprKind.withSlots_slots] at written simplified
      obtain ⟨-, rfl⟩ | ⟨differs, -⟩ := written
      · rw [simplify_run, itself] at simplified
        cases simplified
        exact ⟨rfl, rfl⟩
      · exact absurd rfl differs

/-- Folding ends, and folding its result again changes neither the arena nor the types. -/
theorem fold_again (wellFormed : state.arena.WellFormed) (inside : index < state.arena.size) :
    ∃ folded final, (fold (.node index)).run state = .ok (.node folded, final) ∧
      (fold (.node folded)).run final = .ok (.node folded, final) := by
  obtain ⟨_, final, ran, formed, -, ⟨folded, there, rfl⟩, -⟩ := fold_completes wellFormed inside
  obtain ⟨_, _, again, -⟩ := fold_completes formed there
  obtain ⟨rank, bounded, ranked⟩ := wellFormed.exists_ranked
  have done : final.arena.Folded (.node folded) :=
    (foldWithin_advances _ (rank index + 1) _ state final _ ranked
      (Nat.le_succ_of_le (bounded index inside)) (.inr ⟨index, inside, rfl, Nat.lt_succ_self _⟩)
      ran).2.folded
  obtain ⟨rfl, rfl⟩ := foldWithin_folded _ _ final _ _ done again
  exact ⟨folded, _, ran, again⟩

end FoldM

theorem Member.setBody_self {member : Member} {body : ExprRef} (hasBody : member.body = some body) :
    member.setBody body = member := by
  unfold Member.body at hasBody
  unfold Member.setBody
  split at hasBody
  · rename_i detail
    rw [← hasBody, ← detail]
  · rename_i detail
    rw [← hasBody, ← detail]
  · cases hasBody

namespace StageM
variable {α : Type} {work : Workspace} {id : Nat} {member : Member} {body root : ExprRef}
    {final : FoldState}

theorem lift_completes {answer : Except Abort α} {value : α} {post : α → Workspace → Prop}
    (ran : answer = .ok value) (holds : post value work) :
    Completes (liftM answer : StageM α) work post := by
  subst ran
  exact ⟨value, work, rfl, holds⟩

/-- The workspace after the body of a member was folded. -/
def folded (work : Workspace) (id : Nat) (member : Member) (root : ExprRef) (final : FoldState) :
    Workspace :=
  { work with unit := { work.unit with
      arena := final.arena, exprTypes := final.types
      members := work.unit.members.set id (member.setBody root) } }

theorem foldConstants_folded (found : work.unit.members.members[id]? = some member)
    (hasBody : member.body = some body)
    (ran : (FoldM.fold body).run ⟨work.unit.arena, work.unit.exprTypes⟩ = .ok (root, final)) :
    Completes (foldConstants id) work fun _ after => after = folded work id member root final := by
  refine Completes.bind
    (Completes.get (Completes.bind (lift_completes (MemberArena.get_eq found) ?_)))
  simp only [hasBody]
  refine Completes.bind (lift_completes ran (Completes.bind (Completes.modify ?_)))
  split
  · exact Completes.modify rfl
  · rename_i same
    refine Completes.pure ?_
    have same : root = body := not_not.mp same
    rw [folded, same, Member.setBody_self hasBody, MemberArena.set_self found]

/-- Folding the body of a member again leaves the workspace as it is: no expression is added or
written, no type is recorded and the body stays. -/
theorem foldConstants_again (found : work.unit.members.members[id]? = some member)
    (wellFormed : work.unit.arena.WellFormed) (inside : member.BodyIn work.unit.arena) :
    ∃ after, (foldConstants id).run work = .ok ((), after) ∧
    (foldConstants id).run after = .ok ((), after) := by
  cases hasBody : member.body with
  | none =>
    have completes : Completes (foldConstants id) work fun _ after => after = work := by
      refine Completes.bind
        (Completes.get (Completes.bind (lift_completes (MemberArena.get_eq found) ?_)))
      simp only [hasBody]
      exact Completes.pure rfl
    obtain ⟨_, _, ran, rfl⟩ := completes
    exact ⟨_, ran, ran⟩
  | some body =>
    obtain ⟨index, there, rfl⟩ := inside body hasBody
    have wellFormed : (FoldState.mk work.unit.arena work.unit.exprTypes).arena.WellFormed :=
      wellFormed
    obtain ⟨root, final, ran, again⟩ := FoldM.fold_again wellFormed there
    have changed : (folded work id member (.node root) final).unit.members.members[id]? =
        some (member.setBody (.node root)) := (MemberArena.lookup_set found).trans (if_pos rfl)
    have newBody : (member.setBody (.node root)).body = some (.node root) :=
      Member.setBody_body hasBody
    obtain ⟨_, _, first, rfl⟩ := foldConstants_folded found hasBody ran
    obtain ⟨_, _, second, rfl⟩ := foldConstants_folded changed newBody again
    refine ⟨_, first, second.trans ?_⟩
    have same := MemberArena.set_self changed
    simp only [folded] at same ⊢
    rw [Member.setBody_self newBody, same]

/-- A field whose initializer is the sum of `sharedName`. -/
def sharedField : Member where
  name := "total"
  span := .dummy
  detail := .field (some (.node 7))
  declared := default
  type := .int
  access := default

/-- A unit with that field alone. -/
def sharedWork : Workspace where
  unit :=
    { (default : CompilationUnit) with arena := FoldM.sharedName, members := ⟨#[sharedField]⟩ }

/-- The condition becomes a new node, and the name takes the place of the `if`; then nothing
changes. -/
theorem foldConstants_again_shared : ∃ after, (foldConstants 0).run sharedWork = .ok ((), after) ∧
    (foldConstants 0).run after = .ok ((), after) ∧ after.unit.arena.size = 9 ∧
      after.unit.arena.kind (.node 7) = .ok (.binary .add (.node 3) (.node 3)) := by
  have inside : sharedField.BodyIn sharedWork.unit.arena := by
    rintro _ ⟨⟩
    exact ⟨7, by decide, rfl⟩
  have found : sharedWork.unit.members.members[0]? = some sharedField := rfl
  obtain ⟨after, ran, again⟩ := foldConstants_again found FoldM.sharedName_wellFormed inside
  refine ⟨after, ran, again, ?_⟩
  cases ran
  exact ⟨rfl, rfl⟩

end StageM
end ClassLang
