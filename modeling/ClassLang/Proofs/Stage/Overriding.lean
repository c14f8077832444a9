import ClassLang.Proofs.ParameterCount
import ClassLang.Proofs.Stage.Implementation

/-! The method that another one overrides: the first one, in the order of the ancestors, that has
the name and the parameter types and is not static. -/

namespace ClassLang

namespace PoolM.Builds

variable {pool : TypePool} {elements : List α}

/-- A search for the first element with an answer, read in the pool. -/
theorem findSomeM?_reads {search : α → PoolM (Option β)} (holds : β → TypePool → Prop)
    (read : β → γ) (answer : α → Option γ) (each : ∀ element ∈ elements, ∀ between,
      pool.Growth between → PoolM.Builds (search element) between fun found after =>
      (∀ result ∈ found, holds result after) ∧ (after.Small → found.map read = answer element)) :
    PoolM.Builds (elements.findSomeM? search) pool fun found after =>
      (∀ result ∈ found, holds result after) ∧
        (after.Small → found.map read = elements.findSome? answer) := by
  induction elements generalizing pool with
  | nil => exact pure ⟨by simp, fun _ => rfl⟩
  | cons first rest ih =>
    refine ofValid fun valid => bind (each first List.mem_cons_self pool valid.growth) ?_
    rintro found between growth ⟨all, reads⟩
    cases found with
    | some result => exact pure ⟨all, fun small => by simp [← reads small]⟩
    | none =>
      refine (ih fun element member after grown =>
        each element (List.mem_cons_of_mem _ member) after (growth.trans grown)).mono
          fun found after grown ⟨inRest, later⟩ => ?_
      exact ⟨inRest, fun small => by simp [← reads (grown.small small), later small]⟩

end PoolM.Builds

/-- A method that can be overridden by one of the name and parameter types: its types are published,
and it is not static. -/
def SeenMethod.isOverridable (name : Name) (params : List TypeTree) (method : SeenMethod) : Bool :=
  method.symbol.name == name && !method.symbol.isStatic && method.symbol.signature.isSome &&
    method.params == params

namespace SymbolTable
open TypePool PoolM.Builds

/-- What a method of the name and parameter types overrides in an ancestor. -/
def overriddenIn? (table : SymbolTable) (pool : TypePool) (name : Name) (params : List TypeTree)
    (tree : TypeTree) :
    Option SeenMethod :=
  (table.seenMethods pool tree).find? (·.isOverridable name params)

/-- What a method of the name and parameter types overrides when it is declared in the class of a
type. -/
def overridden? (table : SymbolTable) (pool : TypePool) (tree : TypeTree) (name : Name)
    (params : List TypeTree) :
    Option SeenMethod :=
  (((table.hierarchy.unfold pool).ancestors tree).drop 1).findSome?
    (table.overriddenIn? pool name params)

/-- The result of an overridden method is the published one, seen from the ancestor. -/
structure OverriddenResult (start : TypePool) (symbol : Symbol) (result : TypeRef)
    (after : TypePool) : Prop where
  has : after.Has result
  reads : ∃ signature, symbol.signature = some signature ∧ ∃ subst : TreeSubstitution,
    after.Small → after.tree result = (start.tree signature.type).instantiate subst

variable {table : SymbolTable} {start pool : TypePool} {name : Name} {params : List TypeRef}
    {trees : List TypeTree}
  {subst : Substitution} {bound : TreeSubstitution}

/-- Parameter types are the given ones if their trees are, with the arguments put in. -/
theorem sameParams_tells :
    ∀ {params others : List TypeRef} {trees given : List TypeTree} {pool : TypePool},
    params.length = others.length → pool.DenotesAll params trees → pool.DenotesAll others given →
    subst.Denotes pool bound →
      PoolM.Tells (sameParams subst params others) pool (trees.map (·.instantiate bound) = given)
  | [], [], _, _, _, _, empty, bare, _ =>
    PoolM.Tells.yes fun small => by rw [← empty.reads small, ← bare.reads small]; rfl
  | param :: params, other :: others, trees, given, pool, length, denotes, same, binds => by
    have first : pool.Denotes param (pool.tree param) :=
      .self (denotes.has param List.mem_cons_self)
    have there : pool.Has other := same.has other List.mem_cons_self
    have rest : pool.DenotesAll params (params.map pool.tree) :=
      .self fun type member => denotes.has type (List.mem_cons_of_mem _ member)
    have others_ : pool.DenotesAll others (others.map pool.tree) :=
      .self fun type member => same.has type (List.mem_cons_of_mem _ member)
    refine ofValid fun valid => ?_
    have split (small : pool.Small) : (trees.map (·.instantiate bound) = given) ↔
        (pool.tree param).instantiate bound = pool.tree other ∧
          (params.map pool.tree).map (·.instantiate bound) = others.map pool.tree := by
      rw [← denotes.reads small, ← same.reads small]
      simp
    refine PoolM.Tells.congr ?_ fun small => (split small).symm
    unfold sameParams
    refine bind (PoolM.Builds.instantiate first binds) fun type between growth denotesTree => ?_
    have equal (small : between.Small) : type = other ↔
        (pool.tree param).instantiate bound = pool.tree other := by
      rw [← denotesTree.reads small, ← growth.tree_eq valid there]
      exact ⟨congrArg _, growth.valid.tree_injective type other denotesTree.has (growth.has there)⟩
    split
    · rename_i agree
      refine (sameParams_tells (Nat.succ.inj length) (rest.grow valid growth)
        (others_.grow valid growth) (binds.grow valid growth)).congr fun small =>
          (and_iff_right ((equal small).mp agree)).symm
    · rename_i differ
      exact PoolM.Tells.no fun small facts => differ ((equal small).mpr facts.1)

/-- Methods of a name are those of the class that have it. -/
theorem membersNamed_method (class_ : Name) :
    table.membersNamed class_ name .method = (table.methods class_).filter (·.2.name == name) := by
  unfold membersNamed methods findMembers
  cases table.record? class_ with
  | none => rfl
  | some record =>
    dsimp only
    rw [List.filter_filterMap]
    refine List.filterMap_congr fun id _ => ?_
    cases table.symbols[id]? with
    | none => rfl
    | some symbol =>
      cases isMethod : symbol.kind == .method <;> cases named : symbol.name == name <;>
        simp [isMethod, named, Option.filter]

/-- What is found among the methods of a name is found among all methods of the class. -/
theorem findSome?_membersNamed (base : Name) (args : List TypeTree) :
    (table.membersNamed base name .method).findSome? (fun entry =>
        if (table.seenMethod start base args entry).isOverridable name trees then some
          (base, entry.2) else none) =
      (((table.methods base).map (table.seenMethod start base args)).find?
        (·.isOverridable name trees)).map
        fun method => (method.owner, method.symbol) := by
  rw [membersNamed_method]
  induction table.methods base with
  | nil => rfl
  | cons entry rest ih =>
    by_cases named : entry.2.name == name
    · rw [List.filter_cons, if_pos named, List.findSome?_cons, List.map_cons, List.find?_cons, ih]
      cases (table.seenMethod start base args entry).isOverridable name trees <;> rfl
    · have other : (table.seenMethod start base args entry).isOverridable name trees = false := by
        simp [SeenMethod.isOverridable, seenMethod, Bool.eq_false_iff.mpr named]
      rw [List.filter_cons, if_neg named, List.map_cons, List.find?_cons, other, ih]

/-- A method that is published can be overridden if it is not static and its parameter types are the
given ones. -/
theorem isOverridable_iff {base : Name} {args : List TypeTree} {entry : Nat × Symbol}
    {signature : Signature} (named : entry.2.name = name)
    (published : entry.2.signature = some signature) :
    (table.seenMethod start base args entry).isOverridable name trees = true ↔
    entry.2.isStatic = false ∧
      (signature.params.map start.tree).map
        (·.instantiate ((table.hierarchy.unfold start).bindArgs base args)) = trees := by
  simp [SeenMethod.isOverridable, seenMethod, named, published, methodTree, TreeMethod.paramTypes,
    Signature.tree]

/-- A method with the parameter types has the right number of them. -/
theorem overridable_of_isOverridable (sized : table.Sized) {base : Name} {args : List TypeTree}
    {entry : Nat × Symbol} (found : table.symbols[entry.1]? = some entry.2)
    (passes : (table.seenMethod start base args entry).isOverridable name trees = true) :
    overridable trees.length entry.2 = true := by
  unfold SeenMethod.isOverridable at passes
  simp only [Bool.and_eq_true, Bool.not_eq_true', beq_iff_eq] at passes
  obtain ⟨⟨⟨named, shared⟩, isSome⟩, rfl⟩ := passes
  obtain ⟨signature, published⟩ : ∃ signature, entry.2.signature = some signature :=
    Option.isSome_iff_exists.mp isSome
  have shared : entry.2.isStatic = false := shared
  have length := sized entry.1 entry.2 signature found published
  simp [overridable, seenMethod, methodTree, TreeMethod.paramTypes, Signature.tree, published,
    length, shared]

variable (valid : start.Valid) (held : table.HeldBy start) (sized : table.Sized)
include valid held sized

/-- A method of the name is found if it can be overridden. -/
theorem overridden_reads {number : Nat} {symbol : Symbol} {base : Name} {args : List TypeTree}
    (growth : start.Growth pool) (there : table.symbols[number]? = some symbol)
    (named : symbol.name = name) (given : pool.DenotesAll params trees)
    (binds : subst.Denotes pool ((table.hierarchy.unfold start).bindArgs base args)) :
    PoolM.Builds (do
        if !overridable params.length symbol then return none
        let some signature := symbol.signature | return none
        if ← sameParams subst signature.params params then
          return some (base, symbol, ← instantiate signature.type subst)
        else return none) pool fun found after =>
      (∀ entry ∈ found, OverriddenResult start entry.2.1 entry.2.2 after) ∧
        (after.Small → found.map (fun entry => (entry.1, entry.2.1)) =
          if (table.seenMethod start base args (number, symbol)).isOverridable name trees then some
            (base, symbol) else none) := by
  cases published : symbol.signature with
  | none =>
    have skipped : (table.seenMethod start base args (number, symbol)).isOverridable name
        trees = false := by
      simp [SeenMethod.isOverridable, seenMethod, published]
    split <;> exact pure ⟨by simp, fun _ => by rw [skipped]; rfl⟩
  | some signature =>
    have types := held.signatures number symbol signature there published
    have length : signature.params.length = symbol.arity :=
      sized number symbol signature there published
    split
    · rename_i apart
      refine pure ⟨by simp, fun small => (if_neg fun passes => ?_).symm⟩
      have fits := overridable_of_isOverridable sized there passes
      rw [← given.reads small, List.length_map] at fits
      rw [fits] at apart
      cases apart
    · rename_i fits
      obtain ⟨arity, shared⟩ : symbol.arity = params.length ∧ symbol.isStatic = false := by
        simpa [overridable] using fits
      have typesNow : pool.DenotesAll signature.params (signature.params.map start.tree) :=
        (DenotesAll.self types.params).grow valid growth
      refine bind (sameParams_tells (length.trans arity) typesNow given binds)
        fun same after rest told => ?_
      have passes (small : after.Small) :
          (table.seenMethod start base args (number, symbol)).isOverridable name trees = true ↔
          same = true := by
        rw [told small, isOverridable_iff named published]
        exact and_iff_right shared
      cases same with
      | false => exact pure ⟨by simp, fun small =>
        (if_neg fun isOverridable => Bool.false_ne_true ((passes small).mp isOverridable)).symm⟩
      | true =>
        have result : after.Denotes signature.type (start.tree signature.type) :=
          (Denotes.self types.type).grow valid (growth.trans rest)
        refine bind (PoolM.Builds.instantiate result (binds.grow growth.valid rest))
          fun type closing enters denotes =>
            pure ⟨?_, fun small => (if_pos ((passes (enters.small small)).mpr rfl)).symm⟩
        rintro _ ⟨⟩
        exact ⟨denotes.has, signature, published, _, denotes.reads⟩

/-- The search finds what is overridden among the ancestors. -/
theorem findOverridden?_reads (growth : start.Growth pool) {ancestors : List TypeRef}
    {above : List TypeTree} (listed : pool.DenotesAll ancestors above)
    (given : pool.DenotesAll params trees) :
    PoolM.Builds (table.findOverridden? name params ancestors) pool fun found after =>
      (∀ entry ∈ found, OverriddenResult start entry.2.1 entry.2.2 after) ∧
        (after.Small → found.map (fun entry => (entry.1, entry.2.1)) =
          (above.findSome? (table.overriddenIn? start name trees)).map fun method =>
            (method.owner, method.symbol)) := by
  let read (entry : Name × Symbol × TypeRef) : Name × Symbol := (entry.1, entry.2.1)
  let holds (entry : Name × Symbol × TypeRef) (after : TypePool) : Prop :=
    OverriddenResult start entry.2.1 entry.2.2 after
  let inAncestor (ancestor : TypeRef) : Option (Name × Symbol) :=
    (table.overriddenIn? start name trees (pool.tree ancestor)).map fun method =>
      (method.owner, method.symbol)
  refine ofValid fun validPool => (findSomeM?_reads holds read inAncestor ?_).mono ?_
  · intro ancestor member later grown
    have whole := growth.trans grown
    have denotes := (Denotes.self (listed.has ancestor member)).grow validPool grown
    refine bind (ancestorBindings_denotes valid held whole denotes) ?_
    rintro bindings between more ⟨boundHere, facts⟩
    have all := whole.trans more
    cases bindings with
    | none =>
      refine pure ⟨by simp, fun small => ?_⟩
      have none : (pool.tree ancestor).base? = none := (facts small).1.symm
      simp [inAncestor, overriddenIn?, seenMethods, none]
    | some entry =>
      obtain ⟨base, subst⟩ := entry
      let seen := table.seenMethod start base (pool.tree ancestor).args
      let inMethods (entry : Nat × Symbol) : Option (Name × Symbol) :=
        if (seen entry).isOverridable name trees then some (base, entry.2) else none
      have binds : subst.Denotes between
          ((table.hierarchy.unfold start).bindArgs base (pool.tree ancestor).args) :=
        ⟨boundHere _ rfl, fun small => (facts small).2 _ rfl⟩
      refine (findSomeM?_reads holds read inMethods ?_).mono ?_
      · rintro ⟨number, symbol⟩ present last final
        have named : symbol.name = name := by
          rw [membersNamed_method] at present
          exact beq_iff_eq.mp (List.mem_filter.mp present).2
        exact overridden_reads valid held sized (all.trans final) (mem_findMembers present) named
          (given.grow validPool (grown.trans (more.trans final)))
          (binds.grow (grown.trans more).valid final)
      · rintro found after final ⟨inside, reads⟩
        refine ⟨inside, fun small => ?_⟩
        have owned : (pool.tree ancestor).base? = some base := (facts (final.small small)).1.symm
        rw [reads small, findSome?_membersNamed]
        simp only [inAncestor, overriddenIn?, seenMethods, owned]
  · rintro found after grown ⟨inside, reads⟩
    refine ⟨inside, fun small => ?_⟩
    rw [reads small, ← listed.reads (grown.small small), List.findSome?_map, List.map_findSome?]
    rfl

end SymbolTable
end ClassLang
