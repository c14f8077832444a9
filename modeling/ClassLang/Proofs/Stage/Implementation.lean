import ClassLang.Proofs.Stage.Conformance
import ClassLang.Proofs.Stage.SelectedTrees

/-! The methods that a class inherits, and which of them it is told to implement: an abstract method
is reported exactly if no ancestor, in whatever place, declares a concrete one with the same name
and parameter types. -/

namespace ClassLang

namespace ClassHierarchy
variable {hierarchy : ClassHierarchy} {pool : TypePool}

/-- The search goes on to the supertypes of what it finds, unless it has met their classes. -/
theorem HeldBy.ancestorsFrom_closed (held : hierarchy.HeldBy pool) :
    ∀ (fuel : Nat) (queue : List TypeTree) (seen : List Name),
      queue.length + hierarchy.pending seen ≤ fuel → ∀ tree,
        (tree ∈ queue ∨ ∃ ancestor ∈ (hierarchy.unfold pool).ancestorsFrom fuel queue seen,
          tree ∈ (hierarchy.unfold pool).instantiateParts
            (hierarchy.unfold pool).supertypes ancestor) →
        ∀ name, tree.base? = some name → name ∈ seen ∨
          ∃ ancestor ∈ (hierarchy.unfold pool).ancestorsFrom fuel queue seen,
            ancestor.base? = some name
  | _, [], _, _, _, listed, _, _ => by simp [TreeHierarchy.ancestorsFrom] at listed
  | 0, _ :: _, _, enough, _, _, _, _ => by simp at enough
  | fuel + 1, first :: queue, seen, enough, tree, listed, name, named => by
    rw [List.length_cons] at enough
    unfold TreeHierarchy.ancestorsFrom at listed ⊢
    cases base : first.base? with
    | none =>
      simp only [base] at listed ⊢
      refine held.ancestorsFrom_closed fuel queue seen (by omega) tree
        (listed.imp_left fun member => ?_) name named
      refine (List.mem_cons.mp member).resolve_left ?_
      rintro rfl
      cases base.symm.trans named
    | some class_ =>
      simp only [base] at listed ⊢
      split
      · rename_i accepted
        rw [if_pos accepted] at listed
        by_cases same : tree = first
        · subst same
          cases base.symm.trans named
          exact .inl (List.contains_iff_mem.mp accepted)
        · exact held.ancestorsFrom_closed fuel queue seen (by omega) tree
            (listed.imp_left fun member => (List.mem_cons.mp member).resolve_left same) name named
      · rename_i fresh
        rw [if_neg fresh] at listed
        by_cases own : name = class_
        · subst own
          exact .inr ⟨first, List.mem_cons_self, base⟩
        have entering := held.pending_cons (Bool.eq_false_iff.mpr fresh)
        have supers :
            ((hierarchy.unfold pool).instantiateParts (hierarchy.unfold pool).supertypes
              first).length =
            (hierarchy.supertypes class_).length := by
          simp [TreeHierarchy.instantiateParts, base, unfold]
        have room :
            (queue ++ (hierarchy.unfold pool).instantiateParts (hierarchy.unfold pool).supertypes
              first).length +
            hierarchy.pending (class_ :: seen) ≤ fuel := by
          rw [List.length_append, supers]
          omega
        have next : tree ∈ queue ++ (hierarchy.unfold pool).instantiateParts
            (hierarchy.unfold pool).supertypes first ∨
            ∃ ancestor ∈ (hierarchy.unfold pool).ancestorsFrom fuel
                (queue ++ (hierarchy.unfold pool).instantiateParts
                  (hierarchy.unfold pool).supertypes first) (class_ :: seen),
              tree ∈ (hierarchy.unfold pool).instantiateParts (hierarchy.unfold pool).supertypes
                ancestor := by
          rcases listed with queued | ⟨ancestor, member, declared⟩
          · rcases List.mem_cons.mp queued with rfl | later
            · exact absurd (Option.some.inj (named.symm.trans base)) own
            · exact .inl (List.mem_append_left _ later)
          · rcases List.mem_cons.mp member with rfl | later
            · exact .inl (List.mem_append_right _ declared)
            · exact .inr ⟨ancestor, later, declared⟩
        rcases held.ancestorsFrom_closed fuel _ _ room tree next name named with inside |
          ⟨ancestor, member, found⟩
        · exact .inl ((List.mem_cons.mp inside).resolve_left own)
        · exact .inr ⟨ancestor, List.mem_cons_of_mem _ member, found⟩

/-- The ancestors have a type of every class that one of them inherits from. -/
theorem HeldBy.ancestors_closed (held : hierarchy.HeldBy pool) {type tree super : TypeTree}
    {name : Name} (inside : tree ∈ (hierarchy.unfold pool).ancestors type)
    (declared : super ∈ (hierarchy.unfold pool).instantiateParts
      (hierarchy.unfold pool).supertypes tree)
    (named : super.base? = some name) : ((hierarchy.unfold pool).ancestorAt? type name).isSome := by
  have enough : [type].length + hierarchy.pending [] ≤ (hierarchy.unfold pool).edges + 1 := by
    rw [pending_nil, List.length_singleton, Nat.add_comm]
    rfl
  rcases held.ancestorsFrom_closed _ _ _ enough super (.inr ⟨tree, inside, declared⟩) name
    named with none | ⟨other, member, found⟩
  · cases none
  · exact List.find?_isSome.mpr ⟨other, member, by simp [found]⟩

end ClassHierarchy

/-- A method as it is seen from a type that inherits it. -/
structure SeenMethod where
  owner : Name
  symbol : Symbol
  params : List TypeTree
deriving Repr, DecidableEq

/-- The method of the pool, with its parameter types as trees. -/
def InheritedMethod.tree (pool : TypePool) (method : InheritedMethod) : SeenMethod :=
  { owner := method.owner, symbol := method.symbol, params := method.params.map pool.tree }

/-- Its parameter types are in the pool. -/
def InheritedMethod.HeldBy (method : InheritedMethod) (pool : TypePool) : Prop :=
  ∀ param ∈ method.params, pool.Has param

theorem InheritedMethod.HeldBy.stable {method : InheritedMethod} {before after : TypePool}
    (held : method.HeldBy before) (valid : before.Valid) (growth : before.Growth after) :
    method.HeldBy after ∧ method.tree after = method.tree before := by
  refine ⟨fun param member => growth.has (held param member), ?_⟩
  unfold InheritedMethod.tree
  rw [growth.map_tree_eq valid held]

/-- An abstract method of the list that no concrete one of the list implements. -/
def SeenMethod.isMissing (methods : List SeenMethod) (method : SeenMethod) : Bool :=
  method.symbol.isAbstract && !methods.any fun other =>
    !other.symbol.isAbstract && other.symbol.name == method.symbol.name &&
      other.params == method.params

namespace SymbolTable
open TypePool PoolM.Builds

/-- A method of a class as it is seen with these arguments of the class. -/
def seenMethod (table : SymbolTable) (pool : TypePool) (owner : Name) (args : List TypeTree)
    (entry : Nat × Symbol) : SeenMethod where
  owner := owner
  symbol := entry.2
  params := (methodTree id pool entry).paramTypes
    ((table.hierarchy.unfold pool).bindArgs owner args)

/-- The methods that the class of a type declares, as they are seen from there. -/
def seenMethods (table : SymbolTable) (pool : TypePool) (tree : TypeTree) : List SeenMethod :=
  match tree.base? with
  | none => []
  | some owner => (table.methods owner).map (table.seenMethod pool owner tree.args)

/-- The methods of a type and its ancestors. -/
def methodsAbove (table : SymbolTable) (pool : TypePool) (tree : TypeTree) : List SeenMethod :=
  ((table.hierarchy.unfold pool).ancestors tree).flatMap (table.seenMethods pool)

variable {table : SymbolTable} {start pool : TypePool} {type : TypeRef}

theorem seenMethods_eq (held : table.HeldBy start) (valid : start.Valid)
    (growth : start.Growth pool) (tree : TypeTree) :
    table.seenMethods pool tree = table.seenMethods start tree := by
  unfold seenMethods
  split
  · rfl
  · refine List.map_congr_left fun entry member => ?_
    unfold seenMethod
    rw [held.methodTree_eq valid growth (mem_findMembers member),
      (held.hierarchy valid).unfold_eq valid growth]

theorem methodsAbove_eq (held : table.HeldBy start) (valid : start.Valid)
    (growth : start.Growth pool) (tree : TypeTree) :
    table.methodsAbove pool tree = table.methodsAbove start tree := by
  unfold methodsAbove
  rw [(held.hierarchy valid).unfold_eq valid growth]
  exact List.flatMap_congr fun ancestor _ => seenMethods_eq held valid growth ancestor

/-- The methods that an ancestor declares. -/
theorem declaredMethods_reads (valid : start.Valid) (held : table.HeldBy start)
    (growth : start.Growth pool) {ancestor : TypeRef} {tree : TypeTree}
    (denotesTree : pool.Denotes ancestor tree) : PoolM.Builds (do
      match ← table.ancestorBindings ancestor with
      | none => return []
      | some (owner, subst) =>
        (table.methods owner).mapM fun (_, symbol) =>
          return ({ owner, symbol, params := ← paramTypes symbol subst } : InheritedMethod)) pool
      fun methods after => (∀ method ∈ methods, method.HeldBy after) ∧
        (after.Small → methods.map (·.tree after) = table.seenMethods start tree) := by
  refine bind (ancestorBindings_denotes valid held growth denotesTree) ?_
  rintro bindings between grown ⟨bound, facts⟩
  have whole := growth.trans grown
  cases bindings with
  | none =>
    refine pure ⟨by simp, fun small => ?_⟩
    have none : tree.base? = none := (facts small).1.symm
    simp [seenMethods, none]
  | some entry =>
    obtain ⟨owner, subst⟩ := entry
    have each : ∀ entry ∈ table.methods owner, ∀ later, between.Growth later →
        PoolM.Builds
          (do return ({ owner, symbol := entry.2, params := ← paramTypes entry.2 subst } :
            InheritedMethod)) later
          fun method after => method.HeldBy after ∧
            (after.Small → method.tree after = table.seenMethod start owner tree.args entry) := by
      intro entry member later more
      have denotes : subst.Denotes between
          ((table.hierarchy.unfold start).bindArgs owner tree.args) :=
        ⟨bound _ rfl, fun small => (facts small).2 _ rfl⟩
      refine bind (paramTypes_denotes valid held (whole.trans more) id (mem_findMembers member)
        (denotes.grow grown.valid more)) fun params after _ given =>
          pure ⟨given.has, fun small => ?_⟩
      simp only [InheritedMethod.tree, seenMethod, given.reads small]
    refine (mapM_reads (fun method before after valid _ grown held => held.stable valid grown)
      each).mono ?_
    rintro methods after more ⟨inside, read⟩
    refine ⟨inside, fun small => ?_⟩
    have owned : tree.base? = some owner := (facts (more.small small)).1.symm
    simp only [read small, seenMethods, owned]

/-- The methods that a type inherits, in the order of its ancestors. -/
theorem inheritedMethods_reads (held : table.HeldBy pool) (inPool : pool.Has type) :
    PoolM.Builds (table.inheritedMethods type) pool fun methods after =>
      (∀ method ∈ methods, method.HeldBy after) ∧
      (after.Small → methods.map (·.tree after) = table.methodsAbove pool (pool.tree type)) := by
  refine ofValid fun valid =>
    bind (ClassHierarchy.ancestors_denotes valid (held.hierarchy valid) valid.growth
    (Denotes.self inPool)) fun ancestors between growth denotes => ?_
  have stable (methods : List InheritedMethod) (before after : TypePool) (valid : before.Valid)
      (_ : between.Growth before) (grown : before.Growth after)
      (inside : ∀ method ∈ methods, method.HeldBy before) :
      (∀ method ∈ methods, method.HeldBy after) ∧
      methods.map (·.tree after) = methods.map (·.tree before) :=
    ⟨fun method member => ((inside method member).stable valid grown).1,
      List.map_congr_left fun method member => ((inside method member).stable valid grown).2⟩
  have listing := mapM_reads stable fun ancestor member later grown =>
    declaredMethods_reads valid held (growth.trans grown)
      ((Denotes.self (denotes.has ancestor member)).grow growth.valid grown)
  refine bind listing ?_
  rintro methods after grown ⟨inside, read⟩
  refine pure ⟨fun method member => ?_, fun small => ?_⟩
  · obtain ⟨own, listed, member⟩ := List.mem_flatten.mp member
    exact inside own listed method member
  · rw [List.map_flatten, read small, methodsAbove, ← denotes.reads (grown.small small),
      List.flatMap_def, List.map_map]
    rfl

/-- The abstract methods of a type and its ancestors that none of them implements. -/
def missingMethods (table : SymbolTable) (pool : TypePool) (tree : TypeTree) : List SeenMethod :=
  (table.methodsAbove pool tree).filter (·.isMissing (table.methodsAbove pool tree))

theorem missingMethods_eq (held : table.HeldBy start) (valid : start.Valid)
    (growth : start.Growth pool) (tree : TypeTree) :
    table.missingMethods pool tree = table.missingMethods start tree := by
  unfold missingMethods
  rw [methodsAbove_eq held valid growth]

/-- A method is missing if none of its kind with a body is there. -/
theorem mem_missingMethods {tree : TypeTree} {method : SeenMethod} :
    method ∈ table.missingMethods pool tree ↔
    (method ∈ table.methodsAbove pool tree ∧ method.symbol.isAbstract = true) ∧
      ∀ other ∈ table.methodsAbove pool tree, other.symbol.isAbstract = false →
        other.symbol.name = method.symbol.name → other.params ≠ method.params := by
  simp only [missingMethods, List.mem_filter, SeenMethod.isMissing, Bool.and_eq_true,
    Bool.not_eq_true', List.any_eq_false, Bool.and_eq_true, beq_iff_eq, and_assoc]
  refine and_congr_right fun _ => and_congr_right fun _ => ?_
  exact forall₂_congr fun other _ =>
    ⟨fun none isConcrete named same => none ⟨isConcrete, named, same⟩,
    fun none ⟨isConcrete, named, same⟩ => none isConcrete named same⟩

/-- Parameter types are compared as handles, which is to compare their trees. -/
theorem isMissing_tree {methods : List InheritedMethod} (valid : pool.Valid)
    (inside : ∀ method ∈ methods, method.HeldBy pool) {method : InheritedMethod}
    (member : method ∈ methods) :
    method.isMissing methods = (method.tree pool).isMissing (methods.map (·.tree pool)) := by
  unfold InheritedMethod.isMissing SeenMethod.isMissing
  have same : ∀ other ∈ methods,
      (other.params == method.params) =
        ((other.tree pool).params == (method.tree pool).params) := by
    intro other listed
    rw [Bool.eq_iff_iff, beq_iff_eq, beq_iff_eq]
    exact (valid.map_tree_inj (inside other listed) (inside method member)).symm
  rw [List.any_map]
  congr 2
  rw [Bool.eq_iff_iff, List.any_eq_true, List.any_eq_true]
  exact exists_congr fun other => and_congr_right fun listed => by rw [same other listed]; rfl

end SymbolTable

/-- The class has instances of its own. -/
def Member.isConcrete (member : Member) : Bool :=
  !(member.modifiers.lacksBody || member.modifiers.marksAnnotations)

/-- The report of a method that a class does not implement. -/
def SeenMethod.missing (member : Member) (method : SeenMethod) : Diagnostic :=
  { code := .missingImplementation, span := member.span,
    args := [member.name, method.symbol.name, method.owner] }

namespace Conformance
open SymbolTable TypePool

variable {work : Workspace} {member : Member}

theorem forM_violation (span : Span) (code : Code) (args : α → List String) :
    ∀ (elements : List α) (work : Workspace),
      (elements.forM fun element => violation span code (args element)).run work =
      .ok
        ((), { work with reports := work.reports ++ elements.map fun element =>
          { code, span, args := args element } })
  | [], work => by simp
  | element :: elements, work => by
    change (elements.forM fun element => violation span code (args element)).run
      { work with reports := work.reports ++ [{ code, span, args := args element }] } = _
    rw [forM_violation span code args elements]
    simp

/-- A class with instances is told exactly the methods that are missing. -/
theorem implementation_reports (sound : work.Sound) (typed : work.pool.Has member.type) :
    Ensures (implementation member) work fun _ after => after.pool.Small →
    after.reports = work.reports ++
      if member.isConcrete then
        (work.symbols.missingMethods work.pool (work.pool.tree member.type)).map (·.missing member)
      else [] := by
  unfold implementation Member.isConcrete
  split
  · rename_i exempt
    exact Ensures.pure fun _ => by simp [exempt]
  · rename_i concrete
    rw [if_pos (by simpa using concrete)]
    refine Ensures.bind (Ensures.get ?_)
    intro result final ran
    obtain ⟨⟨methods, between⟩, listed, ran⟩ := Except.bind_eq_ok ran
    obtain ⟨⟨_, pool⟩, read, same⟩ := Except.bind_eq_ok listed
    cases same
    obtain ⟨growth, inside, trees⟩ :=
      (inheritedMethods_reads sound.program.symbols typed).ensures sound.valid _ _ read
    cases ran.symm.trans (forM_violation _ _ _ _ _)
    intro small
    refine congrArg (work.reports ++ ·) ?_
    have kept : (methods.filter (·.isMissing methods)).map (·.tree pool) =
        work.symbols.missingMethods work.pool (work.pool.tree member.type) := by
      rw [missingMethods, ← trees small, List.filter_map]
      exact congrArg _ (List.filter_congr fun method listed =>
        isMissing_tree growth.valid inside listed)
    rw [← kept, List.map_map]
    rfl

end Conformance
namespace StageM
open Conformance CompilationUnit Workspace

variable {work : Workspace} {id : Nat} {member : Member}

/-- A class with instances is told when it is checked. -/
theorem checkMember_reports (found : work.unit.members.members[id]? = some member)
    (typed : work.unit.Typed work.pool) (isClass : member.isClass = true)
    (isConcrete : member.isConcrete = true) :
    Works False (Leads Lowers) (checkMember id) work fun _ after => after.pool.Small →
      ∀ method ∈ work.symbols.missingMethods work.pool (work.pool.tree member.type),
        method.missing member ∈ after.reports := by
  refine Works.ofSound fun sound => Works.get ?_
  refine Works.lift (fun _ => ⟨member, MemberArena.get_eq found⟩) fun read same => ?_
  cases (MemberArena.get_eq found).symm.trans same
  have held : work.pool.Has member.type := (typed id member found).type
  have symbols := sound.program.symbols
  refine Works.bind (Works.asking (duplicates_asks found)) ?_
  rintro _ first led soundFirst ⟨sameFirst, _⟩
  have growth := led.growth soundFirst
  dsimp only
  cases detail : member.detail with
  | method | field => simp [Member.isClass, detail] at isClass
  | class_ =>
    have reports := fun sound => implementation_reports sound (growth.has held)
    refine Works.bind (Works.asking ((implementation_asks (growth.has held)).also reports)) ?_
    rintro _ second more soundSecond ⟨sameSecond, -, told⟩
    refine (checkRest_works sound found typed ⟨False.elim, False.elim⟩ False.elim
      (trans_of _ led more) (sameSecond.trans sameFirst)).mono
      fun _ after rest soundAfter _ small method missing => ?_
    obtain ⟨added, kept, _⟩ := rest.reports
    rw [kept, told ((rest.growth soundAfter).small small), if_pos isConcrete, led.symbols,
      SymbolTable.missingMethods_eq symbols sound.valid growth, growth.tree_eq sound.valid held]
    exact List.mem_append_left _ (List.mem_append_right _ (List.mem_map_of_mem missing))

end StageM
end ClassLang
