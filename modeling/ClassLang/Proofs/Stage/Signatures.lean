import ClassLang.Proofs.Stage.WrittenTypes
import ClassLang.Proofs.Source.WellFormed

/-! The first stage: every written type becomes a type of the pool that stands for it, what is
published refers to the pool, and no parameter comes to be bounded by itself. -/

namespace ClassLang

namespace TypePool

variable {pool before after : TypePool} {type : TypeRef} {node : TypeNode} {param : ParamRef}
  {bounds : List TypeRef}

theorem Under.read (found : pool.types[type.raw]? = some node) (under : pool.Under type param) :
    (∃ variance, node = .var param variance) ∨
      ∃ bound, node = .wildcard .covariant bound ∧ pool.Under bound param := by
  cases under with
  | var seen =>
    rw [found] at seen
    cases seen
    exact .inl ⟨_, rfl⟩
  | wildcard seen below =>
    rw [found] at seen
    cases seen
    exact .inr ⟨_, rfl, below⟩

/-- A primitive type leads to no variable. -/
theorem Valid.not_under_primitive (valid : pool.Valid) (primitive : type.isPrimitive = true) :
    ¬ pool.Under type param := by
  intro under
  obtain ⟨node, found⟩ := (has_empty primitive).lookup
  have plain : ∀ entry ∈ ({} : TypePool).types.toList,
      (∀ param variance, entry ≠ .var param variance) ∧
      ∀ variance bound, entry ≠ .wildcard variance bound := by
    simp
  obtain ⟨notVar, notWildcard⟩ :=
    plain node (Array.mem_toList_iff.mpr (Array.mem_of_getElem? found))
  rcases under.read (valid.primitives.entries _ _ found) with ⟨variance, rfl⟩ | ⟨bound, rfl, _⟩
  · exact notVar param variance rfl
  · exact notWildcard .covariant bound rfl

/-- Bounds that lead to a smaller rank keep the ranks. -/
theorem Ranked.setBounds {rank : ParamRef → Nat} (ranked : pool.Ranked rank)
    (lower : ∀ bound ∈ bounds.head?, ∀ other, pool.Under bound other → rank other < rank param)
    (valid : pool.Valid) : (pool.setBounds param bounds).Ranked rank := by
  have sameUnder : ∀ {type other}, (pool.setBounds param bounds).Under type other →
      pool.Under type other := by
    intro type other under
    induction under with
    | var found => exact .var (setBounds_types ▸ found)
    | wildcard found _ ih => exact .wildcard (setBounds_types ▸ found) ih
  intro owner bound asked other under
  unfold upperBound TypePool.param at asked
  split at asked
  · rename_i declared found
    cases asked
    obtain ⟨old, stored, same | ⟨same, set⟩⟩ := setBounds_lookup found
    · refine ranked owner _ ?_ other (sameUnder under)
      simp [upperBound, param_eq stored, Except.map, same]
    · have reached : pool.Under (declared.bounds.headD .any) other := sameUnder under
      rw [set] at reached
      have owned : owner = param := by
        cases owner
        cases param
        exact congrArg ParamRef.mk same
      cases bounds with
      | nil => exact absurd reached (valid.not_under_primitive rfl)
      | cons first rest => exact owned ▸ lower first rfl other reached
  · cases asked

end TypePool

namespace Param
variable {params : List Param} {types : List TypeRef}

/-- Parameters with the types that were found for them. -/
def typed (params : List Param) (types : List TypeRef) : List Param :=
  (params.zip types).map fun (param, type) => { param with type }

theorem types_typed (length : types.length = params.length) : (typed params types).map
    (·.type) = types := by
  rw [typed, List.map_map]
  exact List.map_snd_zip (Nat.le_of_eq length)

/-- Whatever else there is of a parameter, it stays. -/
theorem map_typed {β : Type} (length : types.length = params.length) (read : Param → β)
    (same : ∀ (param : Param) (type : TypeRef), read { param with type } = read param) :
    (typed params types).map read = params.map read := by
  rw [typed, List.map_map, ← congrArg (List.map read) (List.map_fst_zip (Nat.le_of_eq length.symm)),
    List.map_map]
  exact List.map_congr_left fun pair _ => same pair.1 pair.2

end Param

/-- A variable that the type leads to is the parameter that the written type leads to. -/
def TypeScope.Names (scope : TypeScope) (expr : TypeExpr) (pool : TypePool)
    (type : TypeRef) : Prop :=
  ∀ param, pool.Under type param → ∃ name, expr.boundName? = some name ∧
    scope.find? name = some param

theorem TypeScope.Names.grow {scope : TypeScope} {expr : TypeExpr} {before after : TypePool}
    {type : TypeRef} (names : scope.Names expr before type) (valid : before.Valid)
    (held : before.Has type) (growth : before.Growth after) : scope.Names expr after type :=
  fun param under => names param (under.shrink growth.grown.types valid held)

theorem TypeScope.find?_mem {scope : TypeScope} {name : Name} {param : ParamRef}
    (found : scope.find? name = some param) : (name, param) ∈ scope := by
  unfold TypeScope.find? at found
  rw [List.lookup_eq_some_iff] at found
  obtain ⟨before, after, same, _⟩ := found
  have : (name, param) ∈ scope.reverse := by
    rw [same]
    simp
  exact List.mem_reverse.mp this

namespace TypeSite
open TypePool Workspace CompilationUnit StageM

variable {total : Prop} {site : TypeSite} {work : Workspace} {expr : TypeExpr}

theorem checkArgCount_asks (name : Name) (expected found : Nat) (span : Span) :
    Asks total (checkArgCount name expected found span) work fun passed _ =>
      passed = true ↔ expected = found ∨ found = 0 := by
  unfold checkArgCount
  split
  · exact Works.pure (by simp [*])
  · exact Works.bind (Works.report rfl) fun _ _ _ _ _ => Works.pure (by simp [*])

/-- An entry that is no variable and no covariant wildcard. -/
theorem names_of_entry {pool : TypePool} {type : TypeRef} {node : TypeNode}
    (found : pool.types[type.raw]? = some node)
    (notVar : ∀ param variance, node ≠ .var param variance)
    (notWildcard : ∀ bound, node ≠ .wildcard .covariant bound) :
    pool.Has type ∧ site.scope.Names expr pool type := by
  refine ⟨has_of_lookup found, fun param under => ?_⟩
  rcases under.read found with ⟨variance, same⟩ | ⟨bound, same, _⟩
  · exact absurd same (notVar param variance)
  · exact absurd same (notWildcard bound)

/-- The type stands for the tree, and its variables are named in the expression. -/
structure Resolves (site : TypeSite) (expr : TypeExpr) (tree : TypeTree) (type : TypeRef)
    (after : Workspace) : Prop where
  denotes : after.pool.Denotes type tree
  names : site.scope.Names expr after.pool type

/-- An entry is made that is no variable and no covariant wildcard. -/
theorem entry_works {node : TypeNode} {tree : TypeTree} (admits : work.pool.Admits node)
    (notVar : ∀ param variance, node ≠ .var param variance)
    (notWildcard : ∀ bound, node ≠ .wildcard .covariant bound)
    (reads : ∀ after, work.pool.Growth after → after.Small → node.toTree after.tree = tree) :
    Works total (Leads Records) (StageM.onPool (PoolM.intern node)) work
      (site.Resolves expr tree) := by
  refine (Works.asks (Works.builds (PoolM.Builds.entry admits))).mono ?_
  intro type after led sound found
  obtain ⟨held, names⟩ := names_of_entry found notVar notWildcard
  exact ⟨⟨held, fun small => (sound.valid.tree_eq found).trans (reads _ (led.growth sound) small)⟩,
    names⟩

theorem class_works (name : Name) :
    Works total (Leads Records) (StageM.onPool (PoolM.class_ name)) work
      (site.Resolves expr (.class_ name)) :=
  entry_works ⟨by simp [TypeNode.parts], by simp⟩ (by simp) (by simp) fun _ _ _ => rfl

section
variable {name : Name} {args : List TypeExpr} {span : Span}

/-- A parameter in scope takes no arguments. -/
theorem param_works {param : ParamRef} (declared : ∀ entry ∈ site.scope, work.pool.Declares entry.2)
    (inScope : site.scope.find? name = some param) (count : Nat) :
    Works total (Leads Records) (do
      let _ ← checkArgCount name 0 count span
      return ← PoolM.var param) work
      (site.Resolves (.named name args span)
        ((TypeExpr.named name args span).tree work.naming site.scope)) := by
  refine Works.bind (Works.asks (checkArgCount_asks name 0 count span))
    fun _ between led sound _ => ?_
  have declares : between.pool.Declares param :=
    (led.growth sound).declares (declared _ (TypeScope.find?_mem inScope))
  obtain ⟨declaration, found⟩ := declares.lookup
  have variance : work.naming.variance param = declaration.variance := by
    simp [Program.naming, ← (led.growth sound).grown.params, found]
  have built : PoolM.Builds (PoolM.var param) between.pool fun type after =>
      after.types[type.raw]? = some (.var param declaration.variance) := by
    refine PoolM.Builds.inspect (param_eq found) (PoolM.Builds.entry ⟨by simp [TypeNode.parts], ?_⟩)
    intro other variance same
    cases same
    exact declares
  refine (Works.asks (Works.builds built)).mono ?_
  intro type after _ soundAfter entered
  refine ⟨⟨has_of_lookup entered, fun _ => ?_⟩, fun other under => ?_⟩
  · rw [soundAfter.valid.tree_eq entered]
    simp [TypeExpr.tree, Naming.refer, inScope, variance, TypeNode.toTree]
  · rcases under.read entered with ⟨variance, same⟩ | ⟨bound, same, _⟩
    · cases same
      exact ⟨name, rfl, inScope⟩
    · cases same

/-- A class is applied to as many arguments as it has parameters. -/
theorem applied_works {types : List TypeRef} {trees : List TypeTree} {params : List ParamRef}
    {naming : Naming} (sound : work.Sound) (denotes : work.pool.DenotesAll types trees)
    (found : naming.params? name = some params) (length : trees.length = params.length)
    (given : trees ≠ []) : Works total (Leads Records)
    (StageM.onPool (PoolM.applied name types)) work
      (site.Resolves expr (naming.declaredType name trees)) := by
  have reading (after : TypePool) (growth : work.pool.Growth after) (small : after.Small) :
      types.map after.tree = trees := (denotes.grow sound.valid growth).reads small
  unfold PoolM.applied
  split
  · rename_i empty
    refine entry_works ⟨by simp [TypeNode.parts], by simp⟩ (by simp) (by simp)
      fun after growth small => ?_
    refine absurd ((reading after growth small).symm.trans ?_) given
    rw [List.isEmpty_iff.mp empty, List.map_nil]
  · refine entry_works ⟨denotes.has, by simp⟩ (by simp) (by simp) fun after growth small => ?_
    simp [TypeNode.toTree, reading after growth small, Naming.declaredType, Naming.classType, given,
      found, length]

/-- A class that is known is applied, if it is given the arguments it wants. -/
theorem known_works {record : ClassRecord} (found : work.symbols.record? name = some record)
    {resolveArgs : StageM (List TypeRef)}
    (resolved : ∀ between, work.Leads Records between → between.Sound →
      Works total (Leads Records) resolveArgs between fun types after =>
        after.pool.DenotesAll types (TypeExpr.trees work.naming site.scope args)) :
    Works total (Leads Records) (if args.length = 0 then PoolM.class_ name else do
      if ← checkArgCount name record.typeParams.length args.length span then
        let args ← resolveArgs
        let type ← PoolM.applied name args
        StageM.modifyUnit fun unit =>
          { unit with boundUses := unit.boundUses ++ [{ member := site.member, span, type }] }
        return type
      else PoolM.class_ name) work
      (site.Resolves (.named name args span)
        (work.naming.declaredType name (TypeExpr.trees work.naming site.scope args))) := by
  have length : (TypeExpr.trees work.naming site.scope args).length = args.length := by
    rw [TypeExpr.trees_eq_map, List.length_map]
  have params : work.naming.params? name = some record.typeParams := by simp [Program.naming, found]
  have plain (other : args.length = record.typeParams.length → args.length = 0) :
      TypeTree.class_ name = work.naming.declaredType name
        (TypeExpr.trees work.naming site.scope args) := by
    unfold Naming.declaredType
    rw [params]
    dsimp only
    split
    · rename_i equal
      have none : TypeExpr.trees work.naming site.scope args = [] :=
        List.length_eq_zero_iff.mp (length.trans (other (length.symm.trans equal)))
      simp [none, Naming.classType]
    · rfl
  split
  · rename_i none
    exact plain (fun _ => none) ▸ class_works name
  rename_i some
  refine Works.bind (Works.asks (checkArgCount_asks name _ args.length span))
    fun counted between led sound passed => ?_
  cases counted with
  | false =>
    refine plain (fun equal => ?_) ▸ class_works name
    exact absurd (passed.mpr (.inl equal.symm)) Bool.false_ne_true
  | true =>
    have equal : args.length = record.typeParams.length := ((passed.mp rfl).resolve_right some).symm
    refine Works.bind (resolved between led sound) fun types later more soundLater denotes => ?_
    have given : TypeExpr.trees work.naming site.scope args ≠ [] :=
      fun none => some (length.symm.trans (congrArg List.length none))
    have applied : Works total (Leads Records) (StageM.onPool (PoolM.applied name types)) later
        (site.Resolves (.named name args span) _) :=
      applied_works soundLater denotes params (length.trans equal) given
    refine Works.bind applied fun type after last soundAfter resolves => ?_
    refine Works.bind (Works.record ⟨rfl, .refl _, fun _ kept => kept⟩ ?_) ?_
    · exact { soundAfter.recorded with
        boundUses := fun usage member => by
          rcases List.mem_append.mp member with old | new
          · exact soundAfter.recorded.boundUses usage old
          · rw [List.mem_singleton.mp new]
            exact resolves.denotes.has }
    · rintro _ final _ _ rfl
      exact Works.pure ⟨resolves.denotes, resolves.names⟩

theorem resolveNamed_works (declared : ∀ entry ∈ site.scope, work.pool.Declares entry.2)
    {resolveArgs : StageM (List TypeRef)}
    (resolved : ∀ between, work.Leads Records between → between.Sound →
      Works total (Leads Records) resolveArgs between fun types after =>
        after.pool.DenotesAll types (TypeExpr.trees work.naming site.scope args)) :
    Works total (Leads Records) (site.resolveNamed name args.length span resolveArgs) work
      (site.Resolves (.named name args span)
        ((TypeExpr.named name args span).tree work.naming site.scope)) := by
  unfold resolveNamed
  cases inScope : site.scope.find? name with
  | some param => exact param_works declared inScope args.length
  | none =>
    cases primitive : TypeRef.primitive? name with
    | some type =>
      refine Works.bind (Works.asks (checkArgCount_asks name 0 args.length span))
        fun _ between led sound _ => Works.pure ?_
      have simple := isPrimitive_of_primitive? primitive
      refine ⟨⟨sound.valid.has_primitive simple, fun _ => ?_⟩, fun param under =>
        absurd under (sound.valid.not_under_primitive simple)⟩
      simp [TypeExpr.tree, Naming.refer, inScope, primitive, sound.valid.tree_primitive simple]
    | none =>
      have reads : (TypeExpr.named name args span).tree work.naming site.scope =
          work.naming.declaredType name (TypeExpr.trees work.naming site.scope args) := by
        simp [TypeExpr.tree, Naming.refer, inScope, primitive]
      rw [reads]
      refine Works.get ?_
      dsimp only
      split
      · rename_i unknown
        refine Works.bind (Works.asks (Works.report rfl)) fun _ between led sound _ => ?_
        refine entry_works ⟨by simp [TypeNode.parts], by simp⟩ (by simp) (by simp) fun _ _ _ => ?_
        have missing : work.naming.params? name = none := by
          simpa [Program.naming, SymbolTable.lookupClass?] using unknown
        simp [Naming.declaredType, missing, TypeNode.toTree]
      · rename_i differ
        obtain ⟨record, found⟩ : ∃ record, work.symbols.record? name = some record := by
          simpa [SymbolTable.lookupClass?, Option.ne_none_iff_exists'] using differ
        have expected : work.hierarchy.typeParams name = record.typeParams := by
          simp [Workspace.hierarchy, SymbolTable.hierarchy, found]
        rw [expected]
        exact known_works found resolved

end

mutual

theorem resolve_works : ∀ (expr : TypeExpr) (work : Workspace),
    (∀ entry ∈ site.scope, work.pool.Declares entry.2) →
    Works total (Leads Records) (site.resolve expr) work
      (site.Resolves expr (expr.tree work.naming site.scope))
  | .infer, work, _ => by
    unfold resolve
    exact Works.ofSound fun sound =>
      Works.pure ⟨⟨sound.valid.has_any, fun _ => sound.valid.tree_any⟩,
      fun param under => absurd under (sound.valid.not_under_primitive rfl)⟩
  | .wildcard variance bound span, work, declared => by
    have below : Works total (Leads Records) (do
        let bound ← resolveBound site bound
        PoolM.wildcard variance bound) work (site.Resolves (.wildcard variance bound span)
          (.wildcard variance (TypeExpr.boundTree work.naming site.scope bound))) := by
      refine Works.bind (resolveBound_works bound work declared) ?_
      rintro inner between led sound ⟨denotes, names⟩
      have admits : between.pool.Admits (.wildcard variance inner) := by
        refine ⟨fun part member => ?_, by simp⟩
        rw [List.mem_singleton.mp member]
        exact denotes.has
      refine (Works.asks (Works.builds (PoolM.Builds.entry admits))).mono ?_
      intro type after more soundAfter entered
      refine ⟨⟨has_of_lookup entered, fun small => ?_⟩, fun param under => ?_⟩
      · rw [soundAfter.valid.tree_eq entered, TypeNode.toTree,
          (denotes.grow sound.valid (more.growth soundAfter)).reads small]
      · rcases under.read entered with ⟨_, same⟩ | ⟨_, same, inside⟩
        · cases same
        · cases same
          obtain ⟨name, written, found⟩ :=
            names param (inside.shrink more.pool.types sound.valid denotes.has)
          exact ⟨name, by simpa [TypeExpr.boundName?] using written, found⟩
    cases variance with
    | invariant =>
      unfold resolve
      refine Works.ofSound fun sound => ?_
      have admits : work.pool.Admits (.wildcard .invariant .any) := by
        refine ⟨fun part member => ?_, by simp⟩
        rw [List.mem_singleton.mp member]
        exact sound.valid.has_any
      refine entry_works admits (by simp) (by simp) fun after growth _ => ?_
      rw [TypeNode.toTree, growth.valid.tree_any]
      rfl
    | covariant | contravariant =>
      unfold resolve
      exact below
  | .named name args span, work, declared => by
    unfold resolve
    refine resolveNamed_works declared fun between led sound => ?_
    have stillDeclared : ∀ entry ∈ site.scope, between.pool.Declares entry.2 :=
      fun entry member => (led.growth sound).declares (declared entry member)
    rw [← led.naming]
    exact (resolveArgs_works args between stillDeclared).mono fun _ _ _ _ facts => facts.1

theorem resolveBound_works : ∀ (bound : Option TypeExpr) (work : Workspace),
    (∀ entry ∈ site.scope, work.pool.Declares entry.2) →
    Works total (Leads Records) (site.resolveBound bound) work fun type after =>
      after.pool.Denotes type (TypeExpr.boundTree work.naming site.scope bound) ∧
        ∀ param, after.pool.Under type param →
          ∃ name, TypeExpr.nameOfBound? bound = some name ∧ site.scope.find? name = some param
  | none, work, _ => by
    unfold resolveBound
    exact Works.ofSound fun sound =>
      Works.pure ⟨⟨sound.valid.has_any, fun _ => sound.valid.tree_any⟩,
      fun param under => absurd under (sound.valid.not_under_primitive rfl)⟩
  | some bound, work, declared => by
    unfold resolveBound
    exact (resolve_works bound work declared).mono fun _ _ _ _ resolves =>
      ⟨resolves.denotes, resolves.names⟩

theorem resolveArgs_works : ∀ (args : List TypeExpr) (work : Workspace),
    (∀ entry ∈ site.scope, work.pool.Declares entry.2) →
    Works total (Leads Records) (site.resolveArgs args) work fun types after =>
      after.pool.DenotesAll types (TypeExpr.trees work.naming site.scope args) ∧
        types.length = args.length ∧
        ∀ first ∈ types.head?, ∃ expr ∈ args.head?, site.scope.Names expr after.pool first
  | [], work, _ => by
    unfold resolveArgs
    exact Works.pure ⟨.nil, rfl, by simp⟩
  | arg :: args, work, declared => by
    unfold resolveArgs
    refine Works.bind (resolve_works arg work declared) ?_
    rintro type between led sound ⟨denotes, names⟩
    have stillDeclared : ∀ entry ∈ site.scope, between.pool.Declares entry.2 :=
      fun entry member => (led.growth sound).declares (declared entry member)
    refine Works.bind (resolveArgs_works args between stillDeclared) ?_
    rintro types after more soundAfter ⟨others, length, _⟩
    have growth := more.growth soundAfter
    refine Works.pure ⟨.cons (denotes.grow sound.valid growth) (led.naming ▸ others),
      congrArg (· + 1) length,
      fun first same => ?_⟩
    cases same
    exact ⟨arg, rfl, names.grow sound.valid denotes.has growth⟩

end

end TypeSite

/-- Bounds and signatures may be published too; the names of the classes stay. -/
structure Workspace.Publishes (before after : Workspace) : Prop where
  pool : before.pool.Within after.pool
  symbols : after.symbols.size = before.symbols.size
  classes : after.symbols.classes.map (·.name) = before.symbols.classes.map (·.name)
  unit : before.unit.Evolves after.unit
  reports : before.Reports after

instance : IsPreorder Workspace Workspace.Publishes where
  refl work := ⟨.refl _, rfl, rfl, refl_of _ _, .refl work⟩
  trans _ _ _ earlier later := ⟨earlier.pool.trans later.pool, later.symbols.trans earlier.symbols,
    later.classes.trans earlier.classes, trans_of _ earlier.unit later.unit,
      earlier.reports.trans later.reports⟩

theorem Workspace.Leads.publishes {change : CompilationUnit → CompilationUnit → Prop}
    {before after : Workspace} (led : before.Leads change after) (valid : after.pool.Valid)
    (evolves : change before.unit after.unit → before.unit.Evolves after.unit) :
    before.Publishes after :=
  ⟨TypePool.Growth.within ⟨led.pool, valid⟩, by rw [led.symbols], by rw [led.symbols],
    evolves led.unit, led.reports⟩

/-- The first bound of the parameter leads to a parameter of smaller rank. -/
def TypeScope.Descends (scope : TypeScope) (rank : ParamRef → Nat) (param : GenericParam) : Prop :=
  ∀ expr ∈ param.bounds.head?, ∀ name, expr.boundName? = some name →
    ∀ other, scope.find? name = some other → rank other < rank param.id

namespace SymbolTable

variable {table : SymbolTable} {pool : TypePool} {id : Nat}

theorem HeldBy.sign (held : table.HeldBy pool) {signature : Signature}
    (heldBy : signature.HeldBy pool) : (table.sign id signature).HeldBy pool := by
  refine ⟨fun record member => ?_, fun other published existing present found => ?_⟩
  · exact (held.records record member).grow (.refl pool) (Nat.le_of_eq size_sign.symm)
  · rw [SymbolTable.sign, Array.getElem?_modify] at present
    split at present
    · obtain ⟨symbol, _, rfl⟩ := Option.map_eq_some_iff.mp present
      cases found
      exact heldBy
    · exact held.signatures other published existing present found

theorem HeldBy.publishClass (held : table.HeldBy pool) (class_ : Nat) {superclass : Option TypeRef}
    {interfaces : List TypeRef} (superHere : ∀ type ∈ superclass, pool.Has type)
    (interfacesHere : ∀ type ∈ interfaces, pool.Has type) :
    (table.publishClass class_ superclass interfaces).HeldBy pool := by
  refine ⟨fun record member => ?_, held.signatures⟩
  obtain ⟨old, present, rfl⟩ := List.mem_map.mp member
  have heldBy := held.records old present
  split
  · exact ⟨heldBy.symbol, heldBy.typeParams, superHere, interfacesHere⟩
  · exact heldBy

theorem publishClass_names (class_ : Nat) (superclass : Option TypeRef)
    (interfaces : List TypeRef) :
    (table.publishClass class_ superclass interfaces).classes.map (·.name) =
      table.classes.map (·.name) := by
  simp only [publishClass, updateClass, List.map_map]
  refine List.map_congr_left fun record _ => ?_
  simp only [Function.comp_apply]
  split <;> rfl

end SymbolTable

namespace StageM
open TypePool Workspace CompilationUnit

variable {total : Prop} {work : Workspace} {rank : ParamRef → Nat}

/-- What a stage may do to a unit, it may do while types are published. -/
theorem Works.publishing {change : CompilationUnit → CompilationUnit → Prop} {action : StageM α}
    {post : α → Workspace → Prop} (works : Works total (Leads change) action work post)
    (evolves : ∀ before after, change before after → before.Evolves after) :
    Works total Publishes action work fun result after =>
      work.Leads change after ∧ post result after :=
  fun sound => (works sound).mono fun _ _ holds =>
    ⟨holds.1.publishes holds.2.1.valid (evolves _ _), holds.2.1, holds.1, holds.2.2⟩

theorem setBounds_works (param : ParamRef) {bounds : List TypeRef}
    (held : ∀ bound ∈ bounds, work.pool.Has bound) :
    Works total Publishes (StageM.onPool (PoolM.setBounds param bounds)) work fun _ after =>
      after = { work with pool := work.pool.setBounds param bounds } := by
  intro sound
  have within : work.pool.Within (work.pool.setBounds param bounds) := setBounds_within
  refine Completes.runs ⟨(), { work with pool := work.pool.setBounds param bounds }, rfl, ?_⟩ total
  exact ⟨⟨within, rfl, rfl, refl_of _ _, .refl _⟩,
    ⟨⟨sound.valid.setBounds held, sound.program.symbols.grow within⟩,
      sound.laid.grow within (Nat.le_refl _), sound.recorded.grow within (Nat.le_refl _)⟩, rfl⟩

theorem publishSignature_works {symbol : Nat} (inside : symbol < work.symbols.size)
    {signature : Signature} (held : signature.HeldBy work.pool) :
    Works total Publishes (StageM.publishSignature symbol signature) work fun _ after =>
      after = { work with symbols := work.symbols.sign symbol signature } := by
  have published : work.symbols.publishSignature symbol signature =
      .ok (work.symbols.sign symbol signature) :=
    SymbolTable.publishSignature_eq (Array.getElem?_eq_getElem inside)
  refine Works.ofSound fun sound => Works.inspect (fun _ => ⟨_, published⟩) fun symbols same => ?_
  rw [published] at same
  cases same
  have size : (work.symbols.sign symbol signature).size = work.symbols.size := SymbolTable.size_sign
  intro _
  refine (Completes.modify ?_).runs total
  exact ⟨⟨.refl _, size, rfl, refl_of _ _, .refl _⟩,
    ⟨⟨sound.valid, sound.program.symbols.sign held⟩,
      sound.laid.grow (.refl _) (Nat.le_of_eq size.symm),
        sound.recorded.grow (.refl _) (Nat.le_of_eq size.symm)⟩, rfl⟩

theorem publishClass_works (symbol : Nat) {superclass : Option TypeRef} {interfaces : List TypeRef}
    (superHere : ∀ type ∈ superclass, work.pool.Has type)
    (interfacesHere : ∀ type ∈ interfaces, work.pool.Has type) :
    Works total Publishes (modify fun work =>
        { work with symbols := work.symbols.publishClass symbol superclass interfaces }) work
      fun _ after =>
        after =
          { work with symbols := work.symbols.publishClass symbol superclass interfaces } := by
  intro sound
  refine (Completes.modify ?_).runs total
  exact ⟨⟨.refl _, rfl, SymbolTable.publishClass_names _ _ _, refl_of _ _, .refl _⟩,
    ⟨⟨sound.valid, sound.program.symbols.publishClass symbol superHere interfacesHere⟩,
      sound.laid, sound.recorded⟩, rfl⟩

/-- Types are entered and bounds are set; the members and what is published stay, and the ranks. -/
structure Grounds (total : Prop) (rank : ParamRef → Nat) (before after : Workspace) : Prop where
  publishes : before.Publishes after
  ranked : total → after.pool.Ranked rank
  members : after.unit.members = before.unit.members
  symbols : after.symbols = before.symbols
  naming : after.naming = before.naming

theorem Grounds.refl (ranked : total → work.pool.Ranked rank) : Grounds total rank work work :=
  ⟨refl_of _ _, ranked, rfl, rfl, rfl⟩

/-- More types are entered. -/
theorem Grounds.lead {between after : Workspace} (grounds : Grounds total rank work between)
    (sound : between.Sound) (led : between.Leads Records after) (soundAfter : after.Sound) :
    Grounds total rank work after where
  publishes := trans_of _ grounds.publishes (led.publishes soundAfter.valid Records.evolves)
  ranked sure := (grounds.ranked sure).grow sound.valid (led.growth soundAfter)
  members := led.unit.members.trans grounds.members
  symbols := led.symbols.trans grounds.symbols
  naming := led.naming.trans grounds.naming

/-- Bounds are set one after the other; the ranks stay. -/
theorem resolveBounds_works {site : TypeSite} {params : List GenericParam}
    (declared : ∀ entry ∈ site.scope, work.pool.Declares entry.2)
    (descends : total → ∀ param ∈ params, site.scope.Descends rank param)
    (ranked : total → work.pool.Ranked rank) :
    Works total Publishes (site.resolveBounds params) work fun _ => Grounds total rank work := by
  refine Works.forM (.refl ranked) fun param member between led sound grounds => ?_
  have stillDeclared : ∀ entry ∈ site.scope, between.pool.Declares entry.2 :=
    fun entry present => led.pool.declares (declared entry present)
  refine Works.bind ((TypeSite.resolveArgs_works param.bounds between stillDeclared).publishing
    fun _ _ => Records.evolves) ?_
  rintro bounds later _ soundLater ⟨recorded, denotes, _, leading⟩
  have entered := grounds.lead sound recorded soundLater
  refine (setBounds_works param.id denotes.has).mono ?_
  rintro _ after bounding _ rfl
  refine { entered with
    publishes := trans_of _ entered.publishes bounding
    ranked := fun sure => ?_
    naming := Program.naming_setBounds.trans entered.naming }
  refine (entered.ranked sure).setBounds (fun bound first other under => ?_) soundLater.valid
  obtain ⟨expr, written, names⟩ := leading bound first
  obtain ⟨name, reached, found⟩ := names other under
  exact descends sure param member expr written name reached other found

/-- The first stage on a member: it gets types that stand for what is written, and these are
published. -/
structure Announces (before : Workspace) (id : Nat) (member later : Member)
    (after : Workspace) : Prop where
  members : after.unit.members = before.unit.members.set id later
  follows : member.Follows later
  progress : later.progress = member.progress
  written : later.written = member.written
  reads : later.Reads before.naming (before.unit.scopeOf member) after.pool
  naming : after.naming = before.naming
  symbols : ∃ number, before.unit.symbols[id]? = some number ∧
    after.symbols = before.symbols.announce number later

section
variable {id symbol : Nat} {member : Member}

/-- What was found out about a member is published and stored. -/
theorem finish_works {between : Workspace} {signature : Signature} {later : Member}
    (sound : work.Sound) (found : work.unit.members.members[id]? = some member)
    (numbered : work.unit.symbols[id]? = some symbol) (inside : symbol < work.symbols.size)
    (led : work.Publishes between) (sameMembers : between.unit.members = work.unit.members)
    (naming : between.naming = work.naming) (ranked : total → between.pool.Ranked rank)
    (signed : signature = later.signature)
    (announced : between.symbols.sign symbol later.signature = work.symbols.announce symbol later)
    (follows : member.Follows later) (progress : later.progress = member.progress)
    (written : later.written = member.written)
    (reads : later.Reads work.naming (work.unit.scopeOf member) between.pool) :
    Works total Publishes (do
      publishSignature symbol signature
      setMember id later) between fun _ after =>
        (total → after.pool.Ranked rank) ∧ ∃ later, Announces work id member later after := by
  subst signed
  have held : later.signature.HeldBy between.pool := by
    refine ⟨reads.type.has, reads.params.has, fun param present => ?_⟩
    obtain ⟨generic, listed, rfl⟩ := List.mem_map.mp present
    exact led.pool.declares
      (sound.laid.params id member found generic (follows.typeParams ▸ listed))
  refine Works.bind (publishSignature_works (led.symbols ▸ inside) held) ?_
  rintro _ _ _ _ rfl
  refine ((Works.setMember (sameMembers ▸ found) follows).publishing fun _ _ evolved =>
    evolved).mono ?_
  rintro _ after _ _ ⟨_, rfl⟩
  refine ⟨ranked, later, ⟨?_, follows, progress, written, reads, ?_, symbol, numbered, announced⟩⟩
  · rw [sameMembers]
  · exact naming ▸ Program.naming_sign

theorem superclass_works {site : TypeSite} {superclass : Option TypeExpr}
    (declared : ∀ entry ∈ site.scope, work.pool.Declares entry.2) :
    Works total (Leads Records) (superclass.mapM site.resolve) work fun superType after =>
      after.pool.DenotesAll superType.toList
        (TypeExpr.trees work.naming site.scope superclass.toList) := by
  cases superclass with
  | none => exact Works.pure .nil
  | some expr =>
    rw [Option.mapM_some, map_eq_pure_bind]
    refine Works.bind (TypeSite.resolve_works expr work declared) ?_
    rintro type _ _ _ ⟨denotes, _⟩
    exact Works.pure (.cons denotes .nil)

theorem methodTypes_works {typeParams : List GenericParam} {params : List Param}
    {body : Option ExprRef} (detail : member.detail = .method typeParams params body)
    (sound : work.Sound) (found : work.unit.members.members[id]? = some member)
    (numbered : work.unit.symbols[id]? = some symbol) (inside : symbol < work.symbols.size)
    (descends : total → ∀ param ∈ typeParams, (work.unit.scopeOf member).Descends rank param)
    (ranked : total → work.pool.Ranked rank) :
    Works total Publishes (do
      TypeSite.resolveBounds ⟨work.unit.scopeOf member, id⟩ typeParams
      let types ← TypeSite.resolveArgs ⟨work.unit.scopeOf member, id⟩ (params.map (·.declared))
      let type ← match member.declared with
        | .infer => pure TypeRef.void
        | declared => TypeSite.resolve ⟨work.unit.scopeOf member, id⟩ declared
      publishSignature symbol { type, params := types, typeParams := typeParams.map (·.id) }
      setMember id { member with
        type, detail := .method typeParams (Param.typed params types) body }) work
      fun _ after => (total → after.pool.Ranked rank) ∧ ∃ later,
        Announces work id member later after := by
  have declared := sound.laid.scope_declared found
  refine Works.bind (resolveBounds_works declared descends ranked) ?_
  rintro _ first led soundFirst grounds
  have declaredFirst : ∀ entry ∈ TypeSite.scope ⟨work.unit.scopeOf member, id⟩,
      first.pool.Declares entry.2 :=
    fun entry present => led.pool.declares (declared entry present)
  refine Works.bind
    ((TypeSite.resolveArgs_works (params.map (·.declared)) first declaredFirst).publishing
    fun _ _ => Records.evolves) ?_
  rintro types second _ soundSecond ⟨recorded, denotes, length, _⟩
  rw [grounds.naming] at denotes
  rw [List.length_map] at length
  have groundsSecond := grounds.lead soundFirst recorded soundSecond
  have close : ∀ (type : TypeRef) (third : Workspace), second.Leads Records third → third.Sound →
      third.pool.Denotes type (member.typeTree work.naming (work.unit.scopeOf member)) →
      Works total Publishes (do
        publishSignature symbol { type, params := types, typeParams := typeParams.map (·.id) }
        setMember id { member with
          type, detail := .method typeParams (Param.typed params types) body }) third
        fun _ after => (total → after.pool.Ranked rank) ∧ ∃ later,
          Announces work id member later after := by
    intro type third last soundThird denotesTree
    have groundsThird := groundsSecond.lead soundSecond last soundThird
    refine finish_works sound found numbered inside groundsThird.publishes groundsThird.members
      groundsThird.naming groundsThird.ranked ?_ (groundsThird.symbols ▸ rfl) ?_ rfl ?_ ⟨?_, ?_, ?_⟩
    · simp [Member.signature, Member.params, Member.ownParams, Member.typeParams,
        Param.types_typed length]
    · constructor <;> simp [Member.typeParams, Member.members, Member.body, detail]
    · simp only [Member.written, detail]
      rw [Param.map_typed length _ fun _ _ => rfl]
    · simpa only [Member.typeTree, detail] using denotesTree
    · simp only [Member.params]
      rw [Param.types_typed length, Param.map_typed length _ fun _ _ => rfl]
      exact denotes.grow soundSecond.valid (last.growth soundThird)
    · simpa [Member.supertypes, Member.extended, TypeExpr.trees] using DenotesAll.nil
  split
  · rename_i unwritten
    rw [pure_bind]
    refine close .void second (refl_of _ _) soundSecond
      ⟨soundSecond.valid.has_primitive rfl, fun _ => ?_⟩
    rw [soundSecond.valid.tree_primitive rfl]
    simp [Member.typeTree, detail, unwritten, TypeExpr.resultTree]
    rfl
  · rename_i written
    refine Works.bind ((TypeSite.resolve_works _ second fun entry present =>
      (recorded.growth soundSecond).declares (declaredFirst entry present)).publishing fun _ _ =>
        Records.evolves) ?_
    rintro type third _ soundThird ⟨last, denotesTree, _⟩
    have plain : member.typeTree work.naming (work.unit.scopeOf member) =
        member.declared.tree work.naming (work.unit.scopeOf member) := by
      simp only [Member.typeTree, detail]
      cases result : member.declared with
      | infer => exact absurd result written
      | named | wildcard => rfl
    refine close type third last soundThird ?_
    rw [plain, ← groundsSecond.naming]
    exact denotesTree

theorem classTypes_works {typeParams : List GenericParam} {superclass : Option TypeExpr}
    {interfaces : List TypeExpr} {superType : Option TypeRef} {interfaceTypes : List TypeRef}
    {permits : List Name} {members : List Nat}
    (detail : member.detail = .class_ typeParams superclass interfaces superType interfaceTypes
      permits members)
    (sound : work.Sound) (found : work.unit.members.members[id]? = some member)
    (numbered : work.unit.symbols[id]? = some symbol) (inside : symbol < work.symbols.size)
    (descends : total → ∀ param ∈ typeParams, (work.unit.scopeOf member).Descends rank param)
    (ranked : total → work.pool.Ranked rank) :
    Works total Publishes (do
      TypeSite.resolveBounds ⟨work.unit.scopeOf member, id⟩ typeParams
      let superType ← superclass.mapM (TypeSite.resolve ⟨work.unit.scopeOf member, id⟩)
      let interfaceTypes ← TypeSite.resolveArgs ⟨work.unit.scopeOf member, id⟩ interfaces
      let type ← withClasses (·.selfType member.name)
      modify fun work =>
        { work with symbols := work.symbols.publishClass symbol superType interfaceTypes }
      publishSignature symbol { type, typeParams := typeParams.map (·.id) }
      setMember id { member with
        type
        detail := .class_ typeParams superclass interfaces superType interfaceTypes permits
          members }) work
      fun _ after => (total → after.pool.Ranked rank) ∧ ∃ later,
        Announces work id member later after := by
  have declared := sound.laid.scope_declared found
  refine Works.bind (resolveBounds_works declared descends ranked) ?_
  rintro _ first led soundFirst grounds
  have declaredFirst : ∀ entry ∈ TypeSite.scope ⟨work.unit.scopeOf member, id⟩,
      first.pool.Declares entry.2 :=
    fun entry present => led.pool.declares (declared entry present)
  refine Works.bind ((superclass_works declaredFirst).publishing fun _ _ => Records.evolves) ?_
  rintro superType second _ soundSecond ⟨recorded, above⟩
  have groundsSecond := grounds.lead soundFirst recorded soundSecond
  refine Works.bind ((TypeSite.resolveArgs_works interfaces second fun entry present =>
    (recorded.growth soundSecond).declares (declaredFirst entry present)).publishing fun _ _ =>
      Records.evolves) ?_
  rintro interfaceTypes third _ soundThird ⟨recordedThird, implemented, _⟩
  have groundsThird := groundsSecond.lead soundSecond recordedThird soundThird
  refine Works.bind
    ((Works.withClasses
      ((PoolM.Builds.selfType member.name soundThird.hierarchy).works total)).publishing
    fun before _ same => same ▸ refl_of _ before) ?_
  rintro type fourth _ soundFourth ⟨asked, self⟩
  have groundsFourth := groundsThird.lead soundThird
    (asked.widen fun _ _ same => same ▸ refl_of _ _) soundFourth
  have grown := recordedThird.growth soundThird
  have grownLast := asked.growth soundFourth
  have supertypes : fourth.pool.DenotesAll (superType.toList ++ interfaceTypes)
      (TypeExpr.trees work.naming (work.unit.scopeOf member)
        (superclass.toList ++ interfaces)) := by
    have super := (above.grow soundSecond.valid grown).grow soundThird.valid grownLast
    have implemented := implemented.grow soundThird.valid grownLast
    refine ⟨List.forall_mem_append.mpr ⟨super.has, implemented.has⟩, fun small => ?_⟩
    rw [List.map_append, super.reads small, implemented.reads small, groundsSecond.naming,
      grounds.naming]
    simp [TypeExpr.trees_eq_map]
  refine Works.bind (publishClass_works symbol
    (fun type present => supertypes.has type
      (List.mem_append_left _ (Option.mem_toList.mpr present)))
    (fun type present => supertypes.has type (List.mem_append_right _ present))) ?_
  rintro _ _ publishing _ rfl
  refine finish_works sound found numbered inside (trans_of _ groundsFourth.publishes publishing)
    groundsFourth.members (Program.naming_publishClass.trans groundsFourth.naming)
    groundsFourth.ranked ?_ ?_ ?_ rfl ?_ ⟨?_, ?_, ?_⟩
  · simp [Member.signature, Member.params, Member.ownParams, Member.typeParams]
  · rw [groundsFourth.symbols]
    rfl
  · constructor <;> simp [Member.typeParams, Member.members, Member.body, detail]
  · simp [Member.written, detail]
  · have same : (third.hierarchy.unfold third.pool).selfType member.name =
        work.naming.selfType member.name :=
      (third.selfType_unfold member.name).trans
        (congrArg (·.selfType member.name) groundsThird.naming)
    exact ⟨self.has, fun small => (self.reads small).trans same⟩
  · simpa [Member.params, TypeExpr.trees] using DenotesAll.nil
  · simpa [Member.supertypes, Member.extended] using supertypes

/-- The types of one member. -/
theorem resolveTypes_works (found : work.unit.members.members[id]? = some member)
    (descends : total → ∀ param ∈ member.typeParams, (work.unit.scopeOf member).Descends rank param)
    (ranked : total → work.pool.Ranked rank) :
    Works total Publishes (StageM.resolveTypes id) work fun _ after =>
      (total → after.pool.Ranked rank) ∧ ∃ later, Announces work id member later after := by
  refine Works.ofSound fun sound => Works.get ?_
  obtain ⟨symbol, published, inside⟩ :=
    sound.laid.symbol_ok (Array.getElem?_eq_some_iff.mp found).1
  have numbered : work.unit.symbols[id]? = some symbol := by
    unfold CompilationUnit.symbol at published
    split at published <;> cases published
    assumption
  refine Works.lift (fun _ => ⟨_, sound.laid.forMember_eq found⟩) fun scope same => ?_
  rw [sound.laid.forMember_eq found] at same
  cases same
  refine Works.lift (fun _ => ⟨symbol, published⟩) fun number same => ?_
  rw [published] at same
  cases same
  refine Works.lift (fun _ => ⟨member, MemberArena.get_eq found⟩) fun read same => ?_
  rw [MemberArena.get_eq found] at same
  cases same
  dsimp only
  cases detail : member.detail with
  | field init =>
    refine Works.bind
      ((TypeSite.resolve_works member.declared work (sound.laid.scope_declared found)).publishing
      fun _ _ => Records.evolves) ?_
    rintro type between _ soundBetween ⟨recorded, denotes, _⟩
    have grounds := (Grounds.refl ranked).lead sound recorded soundBetween
    refine finish_works sound found numbered inside grounds.publishes grounds.members grounds.naming
      grounds.ranked ?_ ?_ ?_ rfl ?_ ⟨?_, ?_, ?_⟩
    · simp [Member.signature, Member.params, Member.ownParams, Member.typeParams]
    · rw [grounds.symbols]
      simp [SymbolTable.announce, Member.signature, Member.params, Member.ownParams,
        Member.typeParams]
    · constructor <;> simp [Member.typeParams, Member.members, Member.body, detail]
    · simp [Member.written, detail]
    · simpa [Member.typeTree] using denotes
    · simpa [Member.params, TypeExpr.trees] using DenotesAll.nil
    · simpa [Member.supertypes, Member.extended, TypeExpr.trees] using DenotesAll.nil
  | method typeParams params body =>
    have own : member.typeParams = typeParams := by simp [Member.typeParams, detail]
    exact methodTypes_works detail sound found numbered inside (own ▸ descends) ranked
  | class_ typeParams superclass interfaces superType interfaceTypes permits members =>
    have own : member.typeParams = typeParams := by simp [Member.typeParams, detail]
    exact classTypes_works detail sound found numbered inside (own ▸ descends) ranked

end

end StageM
end ClassLang
