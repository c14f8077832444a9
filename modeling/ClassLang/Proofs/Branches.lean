import ClassLang.Proofs.Coherence
import ClassLang.Proofs.Type.Transitivity

/-! The type of a branching expression is above the types of its branches: an `if` with an else
branch and a match have the join of them. The join rises from the type of each branch that yields
something through types that overtook one another, and is above that type where these compose. -/

namespace ClassLang
open CompilationUnit

/-- The branches of an `if` that has both, and the bodies of the arms of a match. -/
def ExprKind.branches : ExprKind → List ExprRef
  | .ifElse _ thenBranch (.node elseBranch) => [thenBranch, .node elseBranch]
  | .matchOn _ arms => arms.map (·.body)
  | _ => []

/-- The type of a node with branches is the join of theirs. -/
theorem ExprKind.TypedBy.exists_joins {kind : ExprKind} {above apart : TypeRef → TypeRef → Prop}
    {slotTypes : List TypeRef} {type : TypeRef} {typed : ExprRef → TypeRef → Prop}
    (typedBy : kind.TypedBy above apart slotTypes type)
    (slots : List.Forall₂ typed kind.slots slotTypes) (branching : kind.branches ≠ []) :
    ∃ types, List.Forall₂ typed kind.branches types ∧ Joins above apart none types (some type) := by
  cases kind with
  | ifElse cond thenBranch elseBranch =>
    cases elseBranch with
    | missing => exact absurd rfl branching
    | node elseBranch =>
      match slotTypes, slots with
      | [_, thenType, elseType], .cons _ branches => exact ⟨[thenType, elseType], branches, typedBy⟩
  | matchOn scrutinee arms =>
    match slotTypes, slots with
    | _ :: types, .cons _ bodies =>
      obtain ⟨result, joins, rfl⟩ := typedBy
      have yields : types ≠ [] := by
        rintro rfl
        exact branching (List.forall₂_nil_right_iff.mp bodies)
      obtain ⟨type, rfl⟩ := joins.exists_some yields
      exact ⟨types, bodies, joins⟩
  | _ => exact absurd rfl branching

namespace Program
variable {program : Program} {sup middle sub type result : TypeRef}
  {types before after : List TypeRef}

/-- What the type in the middle admits, the first type admits when it admits that one, within the
depth to which types are compared. -/
def Composes (program : Program) (sup middle sub : TypeRef) : Prop :=
  sup = middle ∨ ∃ depth height, depth + height ≤ relationDepth ∧ program.Relates depth sup middle ∧
    (program.symbols.hierarchy.unfold program.pool).Composes program.pool.boundTrees height
      (program.pool.tree sup) (program.pool.tree middle) (program.pool.tree sub)

theorem Composes.above (composes : program.Composes sup middle sub) (sound : program.Sound)
    (first : program.Above sup middle) (second : program.Above middle sub) :
    program.Above sup sub := by
  rcases composes with rfl | ⟨depth, height, within, related, composes⟩
  · exact second
  · have finds := (sound.symbols.hierarchy sound.pool).findsAll
    refine .of_related first.supHere second.subHere fun small => ?_
    have whole := composes.transits finds depth relationDepth related (second.related small)
    exact whole.mono within

/-- The answer to the test of subtyping is no. -/
def denies (program : Program) (sup sub : TypeRef) : Bool :=
  match (program.symbols.hierarchy.isSupertype sup sub).run program.pool with
  | .ok (answer, pool) => !answer && decide pool.Small
  | .error _ => false

theorem not_admits_of_denies (denied : program.denies sup sub = true) :
    ¬ program.Admits sup sub := by
  rintro ⟨answer, pool, ran, told⟩
  simp only [denies, ran, Bool.and_eq_true, Bool.not_eq_true', decide_eq_true_eq] at denied
  cases (told denied.2).symm.trans denied.1

/-- The join of types is above one that yields something, if it is the widest type, or there are
two types at most, or those compose that it rises through. -/
structure Bounds (program : Program) (types before : List TypeRef) (type : TypeRef)
    (after : List TypeRef) (result : TypeRef) : Prop where
  direct : result = .any ∨ types.length ≤ 2 → program.Admits result type
  climbs : result ≠ .any → ∃ low rising,
    Climb program.Admits program.Refuses before type after low rising result ∧
      ((low :: rising).IsChain (fun lower upper => program.Composes upper lower type) →
        program.Admits result type)

theorem Bounds.of_joins (joins : Joins program.Above program.Apart none types (some result))
    (sound : program.Sound) (split : types = before ++ type :: after) (yields : type ≠ .void) :
    program.Bounds types before type after result := by
  have admits {sup sub : TypeRef} (above : sup = sub ∨ program.Above sup sub) :
      program.Admits sup sub := by
    rcases above with rfl | above
    · exact admits_of_eq (.inr rfl)
    · exact above.decides sound
  constructor
  case direct =>
    rintro (any | short)
    · exact admits_of_eq (.inl any)
    · have member : type ∈ types := split ▸ List.mem_append_right _ List.mem_cons_self
      exact admits (joins.above_of_pair short type member yields)
  case climbs =>
    intro narrow
    obtain ⟨low, rising, climb⟩ :=
      joins.exists_climb.resolve_left narrow before type after split yields
    refine ⟨low, rising, climb.mono (fun _ _ above => above.decides sound)
      (fun _ _ apart => apart.decides sound), fun composes => ?_⟩
    exact admits (climb.reaches (composes.imp fun _ _ composes => composes.above sound))

end Program

namespace TypeTree

/-- It is the class, without arguments. -/
def isClass (name : Name) : TypeTree → Bool
  | class_ other => other == name
  | _ => false

theorem eq_of_isClass {tree : TypeTree} {name : Name} (isClass : tree.isClass name = true) :
    tree = .class_ name := by
  cases tree with
  | class_ other => exact congrArg class_ (beq_iff_eq.mp isClass)
  | _ => cases isClass

end TypeTree

namespace CompilationUnit

/-- The type recorded for a node is above the types of its branches that yield something, as far as
the join of them is. They are those recorded for the branches, but for parts of other nodes. -/
def BoundsBranches (unit : CompilationUnit) (program : Program)
    (declared : CompilationUnit) : Prop :=
  ∀ (index : Nat) (expr : Expr) (type : TypeRef), declared.arena.exprs[index]? = some expr →
    unit.exprTypes.get? index = some type → expr.kind.branches ≠ [] →
      ∃ types, List.Forall₂ (Arena.SlotTyped declared.Owns unit.exprTypes index)
          expr.kind.branches types ∧
        ∀ before branchType after, types = before ++ branchType :: after → branchType ≠ .void →
          program.Bounds types before branchType after type

variable {unit declared : CompilationUnit} {program : Program}

theorem Derives.boundsBranches (derives : unit.Derives program declared) (sound : program.Sound) :
    unit.BoundsBranches program declared := by
  intro index expr type found recorded branching
  obtain ⟨slotTypes, slots, typed⟩ :=
    derives.coherent program (.refl sound.pool) index expr type found not_false recorded
  obtain ⟨types, branches, joins⟩ := typed.exists_joins slots branching
  exact ⟨types, branches, fun _ _ _ => .of_joins joins sound⟩

end CompilationUnit

namespace Session
variable {config : SessionConfig} {sources : List SourceUnit} {done : Session}

/-- The type that is recorded for an `if` with an else branch or a match is above the types of its
branches that yield something, as far as these compose. -/
theorem branches_bounded (ran : compile { config, sources } = .ok (.ok done)) :
    List.Forall₂ (fun declared unit => unit.BoundsBranches done.program declared)
      (declareUnits { config, sources }).1 done.units := by
  obtain ⟨sound, _, derive⟩ := run_derives ran
  exact derive.imp fun _ _ facts => facts.2.boundsBranches sound

/-- A match whose arms are the parameters, after the other nodes. -/
def armsNodes (start : Nat) : List Expr :=
  [⟨.literal (.int 1), ⟨0, 1⟩⟩, ⟨.ident "a", ⟨0, 1⟩⟩, ⟨.ident "b", ⟨0, 1⟩⟩, ⟨.ident "c", ⟨0, 1⟩⟩,
    ⟨.matchOn (.node start) ((List.range 3).map fun arm =>
      ⟨arm, .node (start + arm + 1), ⟨0, 1⟩⟩), ⟨0, 1⟩⟩]

/-- A match with the three classes as arms, of which each is above the one before. -/
def risingUnit : SourceUnit where
  name := "main"
  classes := [
    { name := "Top", span := ⟨0, 1⟩ },
    { name := "Left", superclass := some (.named "Top" [] ⟨0, 1⟩), span := ⟨0, 1⟩ },
    { name := "Low", superclass := some (.named "Left" [] ⟨0, 1⟩), span := ⟨0, 1⟩ },
    { name := "Main", span := ⟨0, 1⟩, methods := [
      { name := "rise", returns := .named "void" [] ⟨0, 1⟩, body := some (.node 4), span := ⟨0, 1⟩
        params := [
          { name := "a", type := .named "Low" [] ⟨0, 1⟩, span := ⟨0, 1⟩ },
          { name := "b", type := .named "Left" [] ⟨0, 1⟩, span := ⟨0, 1⟩ },
          { name := "c", type := .named "Top" [] ⟨0, 1⟩, span := ⟨0, 1⟩ }] }] }]
  arena := {
    exprs := (armsNodes 0).toArray
    patterns := #[⟨.constant (.int 1), ⟨0, 1⟩⟩, ⟨.constant (.int 2), ⟨0, 1⟩⟩, ⟨.wildcard, ⟨0, 1⟩⟩] }

/-- The types recorded for the nodes are those of the classes. -/
def Shows (done : Session) (unit : CompilationUnit) (nodes : List (Nat × Name)) : Prop :=
  ∀ entry ∈ nodes, ∃ type ∈ unit.exprTypes.get? entry.1,
    (done.program.pool.tree type).isClass entry.2 = true

instance (done : Session) (unit : CompilationUnit) (nodes : List (Nat × Name)) :
    Decidable (done.Shows unit nodes) :=
  inferInstanceAs (Decidable (∀ _ ∈ _, _))

/-- The last arm overtakes the second one, and that the first one, and the three compose. -/
theorem branches_bounded_rising : ∃ done, compile { sources := [risingUnit] } = .ok (.ok done) ∧
    (∀ unit ∈ done.units, done.Shows unit [(1, "Low"), (2, "Left"), (3, "Top"), (4, "Top")]) ∧
    (∀ low middle top, (done.program.pool.tree low).isClass "Low" = true →
      (done.program.pool.tree middle).isClass "Left" = true →
      (done.program.pool.tree top).isClass "Top" = true → done.program.Composes top middle low) ∧
    List.Forall₂ (fun declared unit => unit.BoundsBranches done.program declared)
      (declareUnits { sources := [risingUnit] }).1 done.units := by
  obtain ⟨done, ran, shows_, found, closed⟩ := exists_run { sources := [risingUnit] } (fun done =>
    let hierarchy := done.program.symbols.hierarchy.unfold done.program.pool
    (∀ unit ∈ done.units, done.Shows unit [(1, "Low"), (2, "Left"), (3, "Top"), (4, "Top")]) ∧
      (hierarchy.ancestorAt? (.class_ "Left") "Top").isSome = true ∧
      ∀ name ∈ ["Low", "Left", "Top"], ∀ tree ∈ hierarchy.supertypes name,
        ∃ super ∈ tree.base?, super ∈ ["Low", "Left", "Top"]) (by decide +kernel)
  have ran : compile { sources := [risingUnit] } = .ok (.ok done) := congrArg Except.ok ran
  refine ⟨done, ran, shows_, fun low middle top isLow isMiddle isTop => ?_, branches_bounded ran⟩
  refine .inr ⟨1, 0, by decide, ?_, ?_⟩
  · unfold Program.Relates
    rw [TypeTree.eq_of_isClass isMiddle, TypeTree.eq_of_isClass isTop]
    exact .inr found
  · rw [TypeTree.eq_of_isClass isLow, TypeTree.eq_of_isClass isMiddle, TypeTree.eq_of_isClass isTop]
    refine .class_ rfl rfl (TreeHierarchy.settled_of_closed (by decide) closed) ?_
    rintro (same | lenient | lenient)
    · exact absurd (TypeTree.class_.inj same) (by decide)
    · exact lenient
    · exact lenient

/-- A match with three arms, an `if` with an empty branch, and an `if` with a branch that stands
elsewhere as well, where the name in it is another one. -/
def mixedUnit : SourceUnit where
  name := "main"
  classes := [
    { name := "Left", span := ⟨0, 4⟩ }, { name := "Right", span := ⟨5, 10⟩ },
    { name := "Low", superclass := some (.named "Left" [] ⟨15, 19⟩), span := ⟨11, 14⟩ },
    { name := "Main", span := ⟨20, 24⟩, methods := [
      { name := "pick", span := ⟨65, 69⟩, returns := .named "void" [] ⟨60, 64⟩,
        body := some (.node 4)
        typeParams := [{
          name := "T", variance := .covariant, span := ⟨28, 29⟩
          bounds := [.named "Left" [] ⟨30, 34⟩, .named "Right" [] ⟨35, 40⟩] }]
        params := [
          { name := "a", type := .named "Low" [] ⟨41, 44⟩, span := ⟨45, 46⟩ },
          { name := "t", type := .named "T" [] ⟨47, 48⟩, span := ⟨49, 50⟩ },
          { name := "b", type := .named "Right" [] ⟨51, 56⟩, span := ⟨57, 58⟩ }] },
      { name := "maybe", span := ⟨82, 87⟩, returns := .named "void" [] ⟨77, 81⟩,
        body := some (.node 8)
        params := [{ name := "c", type := .named "bool" [] ⟨70, 74⟩, span := ⟨75, 76⟩ }] },
      { name := "twice", span := ⟨162, 167⟩, returns := .named "void" [] ⟨157, 161⟩,
        body := some (.node 15)
        params := [
          { name := "c", type := .named "bool" [] ⟨88, 92⟩, span := ⟨93, 94⟩ },
          { name := "x", type := .named "int" [] ⟨142, 145⟩, span := ⟨146, 147⟩ },
          { name := "y", type := .named "string" [] ⟨148, 154⟩, span := ⟨155, 156⟩ }] }] }]
  arena := {
    exprs := #[⟨.literal (.int 1), ⟨100, 101⟩⟩, ⟨.ident "a", ⟨102, 103⟩⟩, ⟨.ident "t", ⟨104, 105⟩⟩,
      ⟨.ident "b", ⟨106, 107⟩⟩,
      ⟨.matchOn (.node 0) [⟨0, .node 1, ⟨108, 109⟩⟩, ⟨1, .node 2, ⟨110, 111⟩⟩,
        ⟨2, .node 3, ⟨112, 113⟩⟩], ⟨100, 114⟩⟩,
      ⟨.ident "c", ⟨120, 121⟩⟩, ⟨.literal (.int 1), ⟨122, 123⟩⟩, ⟨.block [], ⟨124, 126⟩⟩,
      ⟨.ifElse (.node 5) (.node 6) (.node 7), ⟨118, 127⟩⟩,
      ⟨.ident "c", ⟨130, 131⟩⟩, ⟨.literal (.int 2), ⟨132, 133⟩⟩, ⟨.ident "x", ⟨134, 135⟩⟩,
      ⟨.ifElse (.node 9) (.node 10) (.node 11), ⟨128, 136⟩⟩, ⟨.ident "y", ⟨138, 139⟩⟩,
      ⟨.letIn "x" (.named "string" [] ⟨0, 0⟩) (.node 13), ⟨137, 140⟩⟩,
      ⟨.block [.node 12, .node 14, .node 11], ⟨127, 141⟩⟩]
    patterns := #[⟨.constant (.int 1), ⟨107, 108⟩⟩, ⟨.constant (.int 2), ⟨109, 110⟩⟩,
      ⟨.wildcard, ⟨111, 112⟩⟩] }

/-- The branch of a node is recorded with another type, which that of the node does not admit. -/
def MissesBranch (done : Session) (index child : Nat) : Prop :=
  ∃ unit ∈ done.units, ∃ type ∈ unit.exprTypes.get? index, ∃ branchType ∈ unit.exprTypes.get? child,
    done.program.denies type branchType = true

instance (done : Session) (index child : Nat) : Decidable (done.MissesBranch index child) :=
  inferInstanceAs (Decidable (∃ _ ∈ _, _))

/-- A branch that yields nothing, and one that was resolved again elsewhere. -/
def mixedExceptions : List (Nat × Nat) := [(8, 7), (12, 11)]

/-- Parameters of which each is bounded by the next one, and the last one by a class. -/
def boundChain (letter : Char) (variance : Variance) (top : Name) (length : Nat) :
    List TypeParamDecl :=
  (List.range length).map fun position => {
    name := String.ofList (List.replicate (position + 1) letter), variance, span := ⟨0, 1⟩
    bounds := [
      .named (if position + 1 < length then String.ofList (List.replicate (position + 2) letter)
        else top) [] ⟨0, 1⟩] }

/-- Type parameters, and three types of which the last one overtakes another that admits the third.
That one is a covariant variable with two bounds, or a contravariant one; an instance of a class
that the third type inherits from without arguments; one that inherits from its argument; a class
between two variables that are too far apart; and a contravariant variable like the last one. -/
def overtakenCases : List (List TypeParamDecl × List TypeExpr) := [
  ([{ name := "T", variance := .covariant, span := ⟨0, 1⟩
      bounds := [.named "Left" [] ⟨0, 1⟩, .named "Right" [] ⟨0, 1⟩] }],
    [.named "Low" [] ⟨0, 1⟩, .named "T" [] ⟨0, 1⟩, .named "Right" [] ⟨0, 1⟩]),
  ([{ name := "T", variance := .contravariant, span := ⟨0, 1⟩
      bounds := [.named "Low" [] ⟨0, 1⟩, .named "Right" [] ⟨0, 1⟩] }],
    [.named "T" [] ⟨0, 1⟩, .named "Left" [] ⟨0, 1⟩, .named "Right" [] ⟨0, 1⟩]),
  ([], [.named "Raw" [] ⟨0, 1⟩, .named "Sub" [.named "int" [] ⟨0, 1⟩] ⟨0, 1⟩,
    .named "Base" [.named "int" [] ⟨0, 1⟩] ⟨0, 1⟩]),
  ([], [.named "Crate" [] ⟨0, 1⟩, .named "Box" [.named "Left" [] ⟨0, 1⟩] ⟨0, 1⟩,
    .named "Left" [] ⟨0, 1⟩]),
  (boundChain 'V' .invariant "Low" 33 ++ boundChain 'W' .covariant "Left" 33,
    [.named "V" [] ⟨0, 1⟩, .named "Low" [] ⟨0, 1⟩, .named "W" [] ⟨0, 1⟩]),
  ([{ name := "T", variance := .contravariant, span := ⟨0, 1⟩
      bounds := [.named "Left" [] ⟨0, 1⟩] },
    { name := "U", variance := .contravariant, span := ⟨0, 1⟩
      bounds := [.named "Low" [] ⟨0, 1⟩] }],
    [.named "U" [] ⟨0, 1⟩, .named "Low" [] ⟨0, 1⟩, .named "T" [] ⟨0, 1⟩])]

/-- Classes for these, and a method for each, whose parameters have the three types. -/
def overtakenClasses (body : Nat → ExprRef) : List ClassDecl := [
  { name := "Left", span := ⟨0, 1⟩ }, { name := "Right", span := ⟨0, 1⟩ },
  { name := "Low", superclass := some (.named "Left" [] ⟨0, 1⟩), span := ⟨0, 1⟩ },
  { name := "Base", typeParams := [{ name := "X", span := ⟨0, 1⟩ }], span := ⟨0, 1⟩ },
  { name := "Sub", typeParams := [{ name := "Y", span := ⟨0, 1⟩ }], span := ⟨0, 1⟩
    superclass := some (.named "Base" [.named "Y" [] ⟨0, 1⟩] ⟨0, 1⟩) },
  { name := "Raw", superclass := some (.named "Sub" [] ⟨0, 1⟩), span := ⟨0, 1⟩ },
  { name := "Box", typeParams := [{ name := "Z", span := ⟨0, 1⟩ }], span := ⟨0, 1⟩
    superclass := some (.named "Z" [] ⟨0, 1⟩) },
  { name := "Crate", superclass := some (.named "Box" [] ⟨0, 1⟩), span := ⟨0, 1⟩ },
  { name := "Main", span := ⟨0, 1⟩, methods := overtakenCases.mapIdx fun position entry => {
      name := String.ofList (List.replicate (position + 1) 'm'), typeParams := entry.1
      params := ["a", "b", "c"].zipWith (fun name type => { name, type, span := ⟨0, 1⟩ }) entry.2
      returns := .named "void" [] ⟨0, 1⟩, body := some (body position), span := ⟨0, 1⟩ } }]

def overtakenUnit : SourceUnit where
  name := "main"
  classes := overtakenClasses fun position => .node (5 * position + 4)
  arena := {
    exprs := ((List.range 6).flatMap fun position => armsNodes (5 * position)).toArray
    patterns := #[⟨.constant (.int 1), ⟨0, 1⟩⟩, ⟨.constant (.int 2), ⟨0, 1⟩⟩, ⟨.wildcard, ⟨0, 1⟩⟩] }

/-- Each match with the arm that it leaves out. -/
def overtakenArms : List (Nat × Nat) := [(4, 1), (9, 7), (14, 11), (19, 16), (24, 21), (29, 27)]

/-- Without errors the unit has nodes of which the types do not admit those of branches. -/
def Leaves (source : SourceUnit) (pairs : List (Nat × Nat)) : Prop :=
  ∃ done, compile { sources := [source] } = .ok (.ok done) ∧ done.errorCount = 0 ∧ ∀ pair ∈ pairs,
    (∃ expr, source.arena.exprs[pair.1]? = some expr ∧ .node pair.2 ∈ expr.kind.branches) ∧
      ∃ unit ∈ done.units, ∃ type branchType, unit.exprTypes.get? pair.1 = some type ∧
        unit.exprTypes.get? pair.2 = some branchType ∧ ¬ done.program.Admits type branchType

theorem leaves_of_denied {source : SourceUnit} {pairs : List (Nat × Nat)}
    (branches : ∀ pair ∈ pairs, ∃ expr, source.arena.exprs[pair.1]? = some expr ∧
      .node pair.2 ∈ expr.kind.branches)
    (denied : ∃ done, run { sources := [source] } = .ok done ∧ done.errorCount = 0 ∧
      ∀ pair ∈ pairs, done.MissesBranch pair.1 pair.2) : Leaves source pairs := by
  obtain ⟨done, ran, clean, misses⟩ := denied
  refine ⟨done, congrArg Except.ok ran, clean, fun pair listed => ⟨branches pair listed, ?_⟩⟩
  obtain ⟨unit, member, type, recorded, branchType, inside, denied⟩ := misses pair listed
  exact ⟨unit, member, type, branchType, recorded, inside, Program.not_admits_of_denies denied⟩

/-- Where a branch yields nothing, where it is a part of another node as well, and where the types
of the arms do not compose, the type of the node does not admit that of the branch. -/
theorem branches_unbounded :
    Leaves mixedUnit mixedExceptions ∧ Leaves overtakenUnit overtakenArms := by
  constructor
  · exact leaves_of_denied (by decide) (exists_run _ _ (by decide +kernel))
  · exact leaves_of_denied (by decide) (exists_run _ _ (by decide +kernel))

end Session
end ClassLang
