import ClassLang.Proofs.Type.Commutation
import ClassLang.Proofs.Type.Relation

/-! Inference takes back a substitution: laid over an instance of itself, a type gives each of its
parameters what was put in for it. Whatever types are laid over each other, bindings stay, and only
parameters of the first type get one. -/

namespace ClassLang

namespace TypeTree

/-- A wildcard occurs in the type. -/
inductive HasWildcard : TypeTree → Prop where
  | here (variance : Variance) (bound : TypeTree) : HasWildcard (.wildcard variance bound)
  | arg {base : Name} {args : List TypeTree} {arg : TypeTree} (member : arg ∈ args)
      (inside : HasWildcard arg) : HasWildcard (.applied base args)

end TypeTree

namespace TreeHierarchy

variable {hierarchy : TreeHierarchy} {subst given : TreeSubstitution} {param : ParamRef}
  {found type : TypeTree}

/-- Inference keeps what each pair keeps. -/
theorem inferAll_keeps {keeps : TreeSubstitution → Prop} :
    ∀ {formals actuals : List TypeTree} {subst : TreeSubstitution},
      (∀ (position : Nat) (formal actual : TypeTree), formals[position]? = some formal →
        actuals[position]? = some actual → ∀ subst, keeps subst →
          keeps (hierarchy.infer subst formal actual)) →
      keeps subst → keeps (hierarchy.inferAll subst formals actuals)
  | [], _, _, _, start | _ :: _, [], _, _, start => start
  | formal :: formals, actual :: actuals, subst, each, start => by
    rw [inferAll]
    refine inferAll_keeps (fun position next => each (position + 1) next) ?_
    exact each 0 formal actual rfl rfl subst start

/-- Only parameters of the formal type are bound. -/
theorem infer_other {formal : TypeTree} (missing : ¬ formal.Mentions param) (actual : TypeTree) :
    hierarchy.infer subst formal actual param = subst param := by
  induction formal generalizing subst actual with
  | applied base args ih =>
    rw [infer]
    cases hierarchy.ancestorAt? actual base with
    | none => rfl
    | some ancestor =>
      have each : ∀ (position : Nat) (formal actual : TypeTree), args[position]? = some formal →
          ancestor.args[position]? = some actual → ∀ other : TreeSubstitution,
            other param = subst param →
            hierarchy.infer other formal actual param = subst param := by
        intro position formal actual listed _ other same
        have member := List.mem_of_getElem? listed
        rw [ih formal member fun inside => missing (.arg member inside), same]
      exact inferAll_keeps each rfl
  | var other variance =>
    have differs : param ≠ other := fun same => missing (same ▸ .var variance)
    unfold infer
    split
    · rfl
    · exact if_neg differs
  | wildcard variance bound ih =>
    unfold infer
    exact ih (fun inside => missing (.bound inside)) actual
  | _ => rfl

theorem inferAll_keeps_binding {formals actuals : List TypeTree}
    (each : ∀ formal ∈ formals, ∀ (actual : TypeTree) (subst : TreeSubstitution),
      subst param = some type → hierarchy.infer subst formal actual param = some type)
    (bound : subst param = some type) :
    hierarchy.inferAll subst formals actuals param = some type := by
  let keeps (subst : TreeSubstitution) : Prop := subst param = some type
  have kept : keeps (hierarchy.inferAll subst formals actuals) :=
    inferAll_keeps (fun position formal actual listed _ =>
      each formal (List.mem_of_getElem? listed) actual) bound
  exact kept

/-- A parameter that is bound stays bound to the same. -/
theorem infer_keeps {formal actual : TypeTree} (bound : subst param = some type) :
    hierarchy.infer subst formal actual param = some type := by
  induction formal generalizing subst actual with
  | applied base args ih =>
    rw [infer]
    cases hierarchy.ancestorAt? actual base with
    | none => exact bound
    | some ancestor =>
      exact inferAll_keeps_binding (fun formal member actual subst => ih formal member) bound
  | var other variance =>
    unfold infer
    split
    · exact bound
    · rename_i unknown
      have differs : param ≠ other := by
        rintro rfl
        exact unknown (bound ▸ rfl)
      exact (if_neg differs).trans bound
  | wildcard variance inner ih =>
    unfold infer
    exact ih bound
  | _ => exact bound

theorem inferAll_congr {formals : List TypeTree}
    (each : ∀ formal ∈ formals, ∀ (actual : TypeTree) (first second : TreeSubstitution),
      first param = second param →
        hierarchy.infer first formal actual param = hierarchy.infer second formal actual param) :
    ∀ {actuals : List TypeTree} {first second : TreeSubstitution}, first param = second param →
      hierarchy.inferAll first formals actuals param =
        hierarchy.inferAll second formals actuals param := by
  induction formals with
  | nil => exact fun same => same
  | cons formal formals ih =>
    intro actuals first second same
    cases actuals with
    | nil => exact same
    | cons actual actuals =>
      rw [inferAll, inferAll]
      refine ih (fun other member => each other (List.mem_cons_of_mem _ member)) ?_
      exact each formal List.mem_cons_self actual first second same

/-- What a parameter is bound to depends on what it was bound to alone. -/
theorem infer_congr {formal actual : TypeTree} {first second : TreeSubstitution}
    (same : first param = second param) :
    hierarchy.infer first formal actual param = hierarchy.infer second formal actual param := by
  induction formal generalizing first second actual with
  | applied base args ih =>
    rw [infer, infer]
    cases hierarchy.ancestorAt? actual base with
    | none => exact same
    | some ancestor =>
      exact inferAll_congr (fun formal member actual first second => ih formal member) same
  | var other variance =>
    by_cases own : param = other
    · subst own
      unfold infer
      rw [same]
      split
      · exact same
      · exact (if_pos rfl).trans (if_pos rfl).symm
    · have missing : ¬ (TypeTree.var other variance).Mentions param := by
        rintro ⟨⟩
        exact own rfl
      rw [infer_other missing, infer_other missing, same]
  | wildcard variance inner ih =>
    unfold infer
    exact ih same
  | _ => exact same

/-- Nothing is bound before the first position that binds the parameter. -/
def Unmet (hierarchy : TreeHierarchy) (param : ParamRef) (formals actuals : List TypeTree) : Prop :=
  hierarchy.inferAll (fun _ => none) formals actuals param = none

/-- A parameter is bound at one position, where it was not bound before. -/
theorem exists_of_inferAll : ∀ {formals actuals : List TypeTree} {subst : TreeSubstitution},
    subst param = none → hierarchy.inferAll subst formals actuals param = some found →
      ∃ position formal actual, formals[position]? = some formal ∧
        actuals[position]? = some actual ∧
        hierarchy.Unmet param (formals.take position) (actuals.take position) ∧
        hierarchy.infer (fun _ => none) formal actual param = some found
  | [], _, _, fresh, bound | _ :: _, [], _, fresh, bound => by cases fresh.symm.trans bound
  | formal :: formals, actual :: actuals, subst, fresh, bound => by
    have same : hierarchy.infer subst formal actual param =
        hierarchy.infer (fun _ => none) formal actual param := infer_congr fresh
    rw [inferAll] at bound
    cases first : hierarchy.infer subst formal actual param with
    | some type =>
      have kept : hierarchy.inferAll (hierarchy.infer subst formal actual) formals actuals param =
          some type := inferAll_keeps_binding (fun _ _ _ _ => infer_keeps) first
      cases bound.symm.trans kept
      exact ⟨0, formal, actual, rfl, rfl, rfl, same.symm.trans first⟩
    | none =>
      obtain ⟨position, other, arg, listed, given, unmet, answer⟩ := exists_of_inferAll first bound
      refine ⟨position + 1, other, arg, listed, given, ?_, answer⟩
      unfold Unmet at unmet ⊢
      rw [List.take_succ_cons, List.take_succ_cons, inferAll]
      have start : hierarchy.infer (fun _ => none) formal actual param = none :=
        same.symm.trans first
      exact (inferAll_congr (fun _ _ _ _ _ => infer_congr) start).trans unmet

/-- A parameter is unbound, or already bound to what is put in for it. -/
def Fits (subst given : TreeSubstitution) (param : ParamRef) : Prop :=
  subst param = none ∨ subst param = given param

theorem Fits.infer {formal actual : TypeTree} (fits : Fits subst given param)
    (mentioned : formal.Mentions param → hierarchy.infer subst formal actual param = given param) :
    Fits (hierarchy.infer subst formal actual) given param := by
  by_cases inside : formal.Mentions param
  · exact .inr (mentioned inside)
  · exact fits.imp (infer_other inside actual).trans (infer_other inside actual).trans

/-- The arguments of a type one after the other, when each gives back what was put into it. -/
theorem inferAll_instantiate {formals : List TypeTree}
    (each : ∀ formal ∈ formals, ∀ subst, (∀ param, formal.Mentions param → Fits subst given param) →
      ∀ param, formal.Mentions param →
      hierarchy.infer subst formal (formal.instantiate given) param = given param)
    (bound : ∀ formal ∈ formals, ∀ param, formal.Mentions param → ∃ type, given param = some type)
    (fits : ∀ formal ∈ formals, ∀ param, formal.Mentions param → Fits subst given param) :
    ∀ formal ∈ formals, ∀ param, formal.Mentions param →
      hierarchy.inferAll subst formals (formals.map (·.instantiate given)) param = given param := by
  induction formals generalizing subst with
  | nil => nofun
  | cons first rest ih =>
    have same := each first List.mem_cons_self subst (fits first List.mem_cons_self)
    have later := @ih (hierarchy.infer subst first (first.instantiate given))
      (fun formal member => each formal (List.mem_cons_of_mem _ member))
      (fun formal member => bound formal (List.mem_cons_of_mem _ member))
      fun formal member param inside =>
        (fits formal (List.mem_cons_of_mem _ member) param inside).infer (same param)
    rw [List.map_cons, inferAll]
    intro formal member param inside
    rcases List.mem_cons.mp member with rfl | member
    · -- what the first argument binds, the later ones keep
      obtain ⟨type, found⟩ := bound formal List.mem_cons_self param inside
      rw [found]
      exact inferAll_keeps_binding (fun _ _ _ _ => infer_keeps) ((same param inside).trans found)
    · exact later formal member param inside

/-- Inference of a type without wildcards from its instance: the ancestor it looks for is the
instance itself. -/
theorem infer_instance {formal : TypeTree} (plain : ¬ formal.HasWildcard)
    (assigned : ∀ param, formal.Mentions param →
      ∃ type, given param = some type ∧ ∀ bound, type ≠ .wildcard .covariant bound)
    (fits : ∀ param, formal.Mentions param → Fits subst given param) :
    ∀ param, formal.Mentions param →
    hierarchy.infer subst formal (formal.instantiate given) param = given param := by
  induction formal generalizing subst with
  | applied base args ih =>
    rw [TypeTree.instantiate, TypeTree.instantiateAll_eq_map, infer, ancestorAt?_self rfl]
    rintro param (_ | ⟨member, inside⟩)
    refine inferAll_instantiate (fun arg member subst fits => ?_)
      (fun arg member param inside => ?_)
      (fun arg member param inside => fits param (.arg member inside)) _ member param inside
    · exact ih arg member (fun wildcard => plain (.arg member wildcard))
        (fun param inside => assigned param (.arg member inside)) fits
    · obtain ⟨type, found, _⟩ := assigned param (.arg member inside)
      exact ⟨type, found⟩
  | var param variance =>
    rintro other (_ | _)
    obtain ⟨type, found, directed⟩ := assigned param (.var variance)
    rw [TypeTree.instantiate, found, Option.getD_some, infer,
      TypeTree.covariantBound_of_ne directed]
    rcases fits param (.var variance) with unbound | bound
    · rw [unbound]
      exact if_pos rfl
    · rw [bound, found]
      exact bound.trans found
  | wildcard variance bound => exact absurd (.here variance bound) plain
  | _ => rintro param ⟨⟩

/-! What inference makes of the type of a scrutinee. -/

/-- What the scrutinee determines of the parameters of a variant. -/
def inferred (hierarchy : TreeHierarchy) (variant : Name) (scrutinee : TypeTree) :
    TreeSubstitution :=
  match scrutinee.base? with
  | none => fun _ => none
  | some base =>
    match hierarchy.ancestorAt? (hierarchy.selfType variant) base with
    | none => fun _ => none
    | some ancestor => hierarchy.infer (fun _ => none) ancestor scrutinee

theorem foldl_complete_kept (params : List (ParamRef × Variance)) {subst : TreeSubstitution}
    {param : ParamRef} {found : TypeTree} (bound : subst param = some found) :
    params.foldl (fun (subst : TreeSubstitution) param =>
      if (subst param.1).isSome then subst
      else subst.bind param.1 (.wildcard .invariant .any)) subst param = some found := by
  induction params generalizing subst with
  | nil => exact bound
  | cons first params ih =>
    rw [List.foldl_cons]
    split
    · exact ih bound
    · rename_i unknown
      have differs : param ≠ first.1 := by
        rintro rfl
        exact unknown (Option.isSome_iff_exists.mpr ⟨found, bound⟩)
      exact ih ((if_neg differs).trans bound)

/-- Parameters that are not determined become `?`. -/
theorem foldl_complete (params : List (ParamRef × Variance)) (subst : TreeSubstitution)
    {param : ParamRef} (own : param ∈ params.map Prod.fst) :
    params.foldl (fun (subst : TreeSubstitution) param =>
      if (subst param.1).isSome then subst
      else subst.bind param.1 (.wildcard .invariant .any)) subst param =
        some ((subst param).getD (.wildcard .invariant .any)) := by
  induction params generalizing subst with
  | nil => cases own
  | cons first params ih =>
    rw [List.foldl_cons]
    by_cases same : first.1 = param
    · subst same
      split
      · rename_i isSome
        obtain ⟨found, bound⟩ := Option.isSome_iff_exists.mp isSome
        rw [foldl_complete_kept params bound, bound]
        rfl
      · rename_i unknown
        rw [foldl_complete_kept params (if_pos rfl), Option.not_isSome_iff_eq_none.mp unknown]
        rfl
    · have later : param ∈ params.map Prod.fst :=
        (List.mem_cons.mp own).resolve_left (Ne.symm same)
      rw [ih _ later]
      split
      · rfl
      · rw [TreeSubstitution.bind, if_neg (Ne.symm same)]

/-- The argument of a narrowed type for a parameter. -/
theorem WellFormed.narrow_bindArgs (formed : hierarchy.WellFormed) {variant : Name}
    (scrutinee : TypeTree) (own : param ∈ hierarchy.paramRefs variant) :
    hierarchy.bindArgs variant (hierarchy.narrow variant scrutinee).args param =
      some ((hierarchy.inferred variant scrutinee param).getD (.wildcard .invariant .any)) := by
  obtain ⟨declared, listed, rfl⟩ := List.mem_map.mp own
  obtain ⟨position, named⟩ := List.mem_iff_getElem?.mp listed
  have generic : hierarchy.params variant ≠ [] := List.ne_nil_of_mem listed
  have narrowed : hierarchy.narrow variant scrutinee = (hierarchy.selfType variant).instantiate
      ((hierarchy.params variant).foldl (fun (subst : TreeSubstitution) param =>
        if (subst param.1).isSome then subst
        else subst.bind param.1 (.wildcard .invariant .any))
        (hierarchy.inferred variant scrutinee)) := rfl
  refine formed.regular.bindArgs_getElem named ?_
  rw [narrowed, selfType_instantiate generic, TypeTree.args, List.getElem?_map, named,
    Option.map_some, foldl_complete _ _ own, Option.getD_some]

end TreeHierarchy

namespace Substitution

/-- The bindings of a substitution stand in another one, which has more for some parameters
alone. -/
def Adds (subst later : Substitution) (may : ParamRef → Prop) : Prop :=
  ∀ param, later.get? param = subst.get? param ∨ subst.get? param = none ∧ may param

namespace Adds

variable {first second third : Substitution} {may more : ParamRef → Prop}

theorem refl (subst : Substitution) : subst.Adds subst may := fun _ => .inl rfl

theorem mono (adds : first.Adds second may) (weaker : ∀ param, may param → more param) :
    first.Adds second more :=
  fun param => (adds param).imp_right (.imp_right (weaker param))

theorem trans (earlier : first.Adds second may) (later : second.Adds third may) :
    first.Adds third may := by
  intro param
  rcases earlier param with same | ⟨unbound, allowed⟩
  · rcases later param with also | ⟨unbound, allowed⟩
    · exact .inl (also.trans same)
    · exact .inr ⟨same ▸ unbound, allowed⟩
  · exact .inr ⟨unbound, allowed⟩

theorem bind {param : ParamRef} (unbound : ¬ first.contains param) (type : TypeRef)
    (allowed : may param) :
    first.Adds (first.bind param type) may := by
  intro other
  rw [get?_bind]
  split
  · rename_i same
    exact .inr ⟨same ▸ Option.not_isSome_iff_eq_none.mp unbound, same ▸ allowed⟩
  · exact .inl rfl

end Adds

/-- What is bound to the same tree is bound to the same type. -/
theorem HeldBy.get?_eq {pool : TypePool} {first second : Substitution} {param : ParamRef}
    (valid : pool.Valid) (firstHere : first.HeldBy pool) (secondHere : second.HeldBy pool)
    (same : first.trees pool param = second.trees pool param) :
    first.get? param = second.get? param := by
  unfold trees at same
  cases found : first.get? param with
  | none =>
    rw [found] at same
    exact (Option.map_eq_none_iff.mp same.symm).symm
  | some type =>
    rw [found] at same
    obtain ⟨other, also, trees⟩ := Option.map_eq_some_iff.mp same.symm
    rw [also, valid.tree_injective _ _ (secondHere param other also)
      (firstHere param type found) trees]

end Substitution

namespace ClassHierarchy
open TypePool PoolM.Builds

variable {hierarchy : ClassHierarchy} {pool : TypePool} {formal actual : TypeRef}
    {subst : Substitution}

/-- Inference binds parameters of the formal type that have no binding. -/
theorem inferWithin_adds :
    ∀ (depth : Nat) (subst : Substitution) (formal actual : TypeRef) (pool : TypePool),
    hierarchy.HeldBy pool → subst.HeldBy pool → pool.Has formal → pool.Has actual →
    formal.raw < depth → PoolM.Builds (hierarchy.inferWithin depth subst formal actual) pool
      fun result after => result.HeldBy after ∧ subst.Adds result (pool.tree formal).Mentions
  | 0, _, _, _, _, _, _, _, _, deep => absurd deep (Nat.not_lt_zero _)
  | depth + 1, subst, formal, actual, pool, held, bound, formalHere, actualHere, deep => by
    refine ofValid fun valid => ?_
    unfold ClassHierarchy.inferWithin
    split
    · exact pure ⟨bound, .refl subst⟩
    · refine readNode formalHere fun node found => ?_
      have tree := valid.tree_eq found
      have below := valid.parts _ _ found
      cases node with
      | var param variance =>
        dsimp only
        split
        · exact pure ⟨bound, .refl subst⟩
        · rename_i unbound
          have named : (pool.tree formal).Mentions param := tree ▸ .var variance
          refine readNode actualHere fun node foundActual => ?_
          split
          · exact pure ⟨bound.bind param (valid.has_bound foundActual), .bind unbound _ named⟩
          · exact pure ⟨bound.bind param actualHere, .bind unbound _ named⟩
      | applied base args =>
        have argsHere : ∀ arg ∈ args, pool.Has arg := fun arg member =>
          Nat.lt_trans (below arg member) formalHere
        refine bind (PoolM.Builds.ancestorAt? base actualHere held)
          fun found between growth facts => ?_
        cases found with
        | none => exact pure ⟨bound.grow growth, .refl subst⟩
        | some ancestor =>
          refine readArgs (facts.1 ancestor rfl) fun actuals actualsHere => ?_
          refine PoolM.Builds.foldlM ⟨bound.grow growth, .refl subst⟩ ?_
          rintro ⟨arg, other⟩ member result later grown ⟨resultHere, adds⟩
          obtain ⟨listed, given⟩ := List.of_mem_zip member
          have whole := growth.trans grown
          refine (inferWithin_adds depth result arg other later (held.grow whole) resultHere
            (whole.has (argsHere arg listed)) (grown.has (actualsHere other given))
            (Nat.lt_of_lt_of_le (below arg listed) (Nat.le_of_lt_succ deep))).mono
            fun next after _ step => ?_
          refine ⟨step.1, adds.trans (step.2.mono fun param inside => ?_)⟩
          rw [whole.tree_eq valid (argsHere arg listed)] at inside
          rw [tree]
          exact .arg (List.mem_map_of_mem listed) inside
      | wildcard variance inner =>
        refine (inferWithin_adds depth subst inner actual pool held bound
          (valid.has_bound found) actualHere
          (Nat.lt_of_lt_of_le (below inner List.mem_cons_self) (Nat.le_of_lt_succ deep))).mono
          fun _ _ _ step => ?_
        exact ⟨step.1, step.2.mono fun param inside => tree ▸ .bound inside⟩
      | _ => exact pure ⟨bound, .refl subst⟩

theorem infer_adds (held : hierarchy.HeldBy pool) (bound : subst.HeldBy pool)
    (formalHere : pool.Has formal) (actualHere : pool.Has actual) :
    PoolM.Builds (hierarchy.infer subst formal actual) pool fun result after =>
      result.HeldBy after ∧ subst.Adds result (pool.tree formal).Mentions :=
  get (inferWithin_adds _ subst formal actual pool held bound formalHere actualHere
    (Nat.lt_succ_of_lt formalHere))

/-- What is inferred from an instance, as trees. -/
theorem infer_of_instance {assignment : Substitution} (held : hierarchy.HeldBy pool)
    (bound : subst.HeldBy pool) (given : assignment.HeldBy pool) (formalHere : pool.Has formal) :
    PoolM.Builds (do
      let actual ← instantiate formal assignment
      hierarchy.infer subst formal actual) pool fun result after =>
        result.Denotes after ((hierarchy.unfold pool).infer (subst.trees pool) (pool.tree formal)
          ((pool.tree formal).instantiate (assignment.trees pool))) := by
  refine ofValid fun valid =>
    bind (PoolM.Builds.instantiate (.self formalHere) ⟨given, fun _ => rfl⟩)
    fun actual between growth denotes => ?_
  refine binding
    (PoolM.Builds.infer (held.grow growth) (bound.grow growth) (growth.has formalHere) denotes.has)
    fun small => ?_
  rw [held.unfold_eq valid growth, bound.trees_eq valid growth, growth.tree_eq valid formalHere,
    denotes.reads small]

/-- Inference takes back a substitution, and it never rebinds. From the instance of a type without
wildcards it binds each parameter of the type to what was put in for it, if that is no covariant
wildcard, and nothing else changes. From any type it keeps the bindings that are there, and adds
none but for parameters of the formal type. -/
theorem infer_inverts (valid : pool.Valid) (held : hierarchy.HeldBy pool)
    (formalHere : pool.Has formal) (bound : subst.HeldBy pool) :
    (∀ assignment : Substitution, assignment.HeldBy pool → ¬ (pool.tree formal).HasWildcard →
      (∀ param, (pool.tree formal).Mentions param → subst.get? param = none ∧
        ∃ type, assignment.get? param = some type ∧ ∀ bound,
          pool.tree type ≠ .wildcard .covariant bound) →
      Completes (do
        let actual ← instantiate formal assignment
        hierarchy.infer subst formal actual) pool fun result after => after.Small → ∀ param,
          ((pool.tree formal).Mentions param → result.get? param = assignment.get? param) ∧
          (¬ (pool.tree formal).Mentions param → result.get? param = subst.get? param)) ∧
    ∀ actual, pool.Has actual → Completes (hierarchy.infer subst formal actual) pool fun result _ =>
      ∀ param, (∀ type, subst.get? param = some type → result.get? param = some type) ∧
      (result.get? param ≠ subst.get? param → (pool.tree formal).Mentions param) := by
  constructor
  · intro assignment given plain assigned
    refine (infer_of_instance held bound given formalHere valid).mono
      fun result after ⟨growth, denotes⟩ small param => ?_
    have reads := congrFun (denotes.reads small) param
    have sameTrees {other : Substitution} (otherHere : other.HeldBy pool)
        (same : result.trees after param = other.trees pool param) :
        result.get? param = other.get? param :=
      denotes.held.get?_eq growth.valid (otherHere.grow growth)
        (same.trans (congrFun (otherHere.trees_eq valid growth).symm param))
    refine ⟨fun inside => sameTrees given (reads.trans ?_), fun missing =>
      sameTrees bound (reads.trans ?_)⟩
    · refine TreeHierarchy.infer_instance plain (fun param inside => ?_) (fun param inside => ?_)
        param inside
      · obtain ⟨_, type, found, directed⟩ := assigned param inside
        exact ⟨pool.tree type, congrArg (Option.map pool.tree) found, directed⟩
      · exact .inl (congrArg (Option.map pool.tree) (assigned param inside).1)
    · exact TreeHierarchy.infer_other missing _
  · intro actual actualHere
    refine (infer_adds held bound formalHere actualHere valid).mono
      fun result after ⟨_, _, adds⟩ param => ?_
    rcases adds param with same | ⟨unbound, mentioned⟩
    · exact ⟨fun type found => same.trans found, fun differs => absurd same differs⟩
    · refine ⟨fun type found => ?_, fun _ => mentioned⟩
      cases unbound.symm.trans found

/-- From a sequence of packs of integers the parameter of the pack is found, beside what is known of
another one. -/
theorem infer_inverts_pack :
    (∃ result after, (do
        let actual ← instantiate ⟨12⟩ ⟨[(⟨0⟩, .int)]⟩
        packClasses.infer ⟨[(⟨1⟩, .string)]⟩ ⟨12⟩ actual).run packPool = .ok (result, after) ∧
      after.Small ∧ result.get? ⟨0⟩ = some .int ∧ result.get? ⟨1⟩ = some .string ∧
      result.get? ⟨2⟩ = none) ∧
    ∃ result after, (packClasses.infer ⟨[(⟨1⟩, .string)]⟩ ⟨12⟩ ⟨11⟩).run packPool =
      .ok (result, after) ∧
      result.get? ⟨1⟩ = some .string ∧ result.get? ⟨2⟩ = none := by
  have tree : packPool.tree ⟨12⟩ = .applied "Seq" [.applied "Pack" [.var ⟨0⟩ .invariant]] := rfl
  have other {param : ParamRef} (differs : param ≠ ⟨0⟩) :
      ¬ (packPool.tree ⟨12⟩).Mentions param := by
    simpa [tree, eq_comm] using differs
  have single {param : ParamRef} {type : TypeRef} (primitive : type.isPrimitive = true) :
      Substitution.HeldBy ⟨[(param, type)]⟩ packPool := by
    intro other found facts
    simp only [Substitution.get?, List.lookup_cons, List.lookup_nil] at facts
    split at facts
    · cases facts
      exact (by decide : packPool.Valid).has_primitive primitive
    · cases facts
  have held : packClasses.HeldBy packPool := heldBy_ofHeaders (by decide)
  obtain ⟨inverts, adds⟩ :=
    infer_inverts (by decide : packPool.Valid) held (by decide : packPool.Has ⟨12⟩)
    (single rfl : Substitution.HeldBy ⟨[(⟨1⟩, .string)]⟩ packPool)
  constructor
  · obtain ⟨result, after, ran, holds⟩ := inverts ⟨[(⟨0⟩, .int)]⟩ (single rfl) (by
      rw [tree]
      rintro (_ | ⟨member, inside⟩)
      rw [List.mem_singleton.mp member] at inside
      obtain _ | ⟨member, inside⟩ := inside
      rw [List.mem_singleton.mp member] at inside
      cases inside) (by
      intro param inside
      obtain rfl : param = ⟨0⟩ := by_contra fun differs => other differs inside
      exact ⟨rfl, _, rfl, fun bound same => by cases same⟩)
    refine ⟨result, after, ran, ?_⟩
    cases ran
    have facts := holds (by decide)
    exact ⟨by decide, (facts ⟨0⟩).1 (by rw [tree]; simp), (facts ⟨1⟩).2 (other (by decide)),
      (facts ⟨2⟩).2 (other (by decide))⟩
  · obtain ⟨result, after, ran, holds⟩ := adds ⟨11⟩ (by decide)
    exact ⟨result, after, ran, (holds ⟨1⟩).1 _ rfl, by_contra fun bound =>
      other (by decide) ((holds ⟨2⟩).2 bound)⟩

end ClassHierarchy
end ClassLang
