import ClassLang.Proofs.Stage.Overload
import ClassLang.Proofs.Stage.Selection
import ClassLang.Proofs.Type.Commutation
import ClassLang.Proofs.Type.Walks

/-! The choice of a method among pooled types is that among their trees, so that the outcome depends
on nothing but what the types and methods are. -/

namespace ClassLang

/-! Methods, candidates and selections as trees. -/

/-- The types of a signature as trees. -/
def Signature.tree (signature : Signature) (pool : TypePool) : TreeSignature where
  type := pool.tree signature.type
  params := signature.params.map pool.tree
  typeParams := signature.typeParams

/-- A symbol of the table as a method, under the number that `rename` gives it. -/
def SymbolTable.methodTree (rename : Nat → Nat) (pool : TypePool) (entry : Nat × Symbol) :
    TreeMethod where
  id := rename entry.1
  arity := entry.2.arity
  signature := entry.2.signature.map (·.tree pool)

def Candidate.tree (candidate : Candidate) (rename : Nat → Nat) (pool : TypePool) :
    TreeCandidate where
  method := SymbolTable.methodTree rename pool (candidate.id, candidate.symbol)
  owner := pool.tree candidate.ownerType
  params := candidate.params.map pool.tree

def Selection.tree (selection : Selection) (rename : Nat → Nat) (pool : TypePool) :
    TreeSelection where
  id := rename selection.id
  result := pool.tree selection.result
  unbound := selection.unbound

/-- A candidate that applies, with what is selected with it. -/
def Candidate.entryTree (rename : Nat → Nat) (pool : TypePool) (entry : Candidate × Selection) :
    TreeCandidate × TreeSelection :=
  (entry.1.tree rename pool, entry.2.tree rename pool)

open Classical in
/-- The methods of a name, as a call sees them. -/
noncomputable def SymbolTable.methodTrees (table : SymbolTable) (rename : Nat → Nat)
    (pool : TypePool) (name : Name) : TreeMethods where
  hierarchy := table.hierarchy.unfold pool
  above sup sub :=
    decide ((table.hierarchy.unfold pool).Supertype pool.boundTrees relationDepth sup sub)
  declared base := (table.membersNamed base name .method).map (methodTree rename pool)

section
variable {table : SymbolTable} {rename : Nat → Nat} {before after : TypePool}

theorem Signature.HeldBy.tree_eq {signature : Signature} (held : signature.HeldBy before)
    (valid : before.Valid) (growth : before.Growth after) :
    signature.tree after = signature.tree before := by
  unfold Signature.tree
  rw [growth.tree_eq valid held.type, growth.map_tree_eq valid held.params]

theorem SymbolTable.HeldBy.methodTree_eq (held : table.HeldBy before) (valid : before.Valid)
    (growth : before.Growth after) {entry : Nat × Symbol}
    (found : table.symbols[entry.1]? = some entry.2) :
    methodTree rename after entry = methodTree rename before entry := by
  unfold methodTree
  cases published : entry.2.signature with
  | none => rfl
  | some signature =>
    simp only [Option.map_some,
      (held.signatures _ _ signature found published).tree_eq valid growth]

theorem Candidate.HeldBy.tree_eq {candidate : Candidate} (heldBy : candidate.HeldBy table before)
    (held : table.HeldBy before) (valid : before.Valid) (growth : before.Growth after) :
    candidate.tree rename after = candidate.tree rename before := by
  unfold Candidate.tree
  rw [held.methodTree_eq valid growth heldBy.symbol, growth.tree_eq valid heldBy.ownerType,
    growth.map_tree_eq valid heldBy.params]

theorem Selection.HeldBy.tree_eq {selection : Selection} (held : selection.HeldBy table before)
    (valid : before.Valid) (growth : before.Growth after) :
    selection.tree rename after = selection.tree rename before := by
  unfold Selection.tree
  rw [growth.tree_eq valid held.result]

end

/-- Candidates of the pool stand for trees, in order. -/
structure SymbolTable.Lists (table : SymbolTable) (rename : Nat → Nat) (candidates : List Candidate)
    (trees : List TreeCandidate) (pool : TypePool) : Prop where
  held : ∀ candidate ∈ candidates, candidate.HeldBy table pool
  reads : pool.Small → candidates.map (·.tree rename pool) = trees

theorem SymbolTable.Lists.grow {table : SymbolTable} {rename : Nat → Nat} {before after : TypePool}
    {candidates : List Candidate} {trees : List TreeCandidate}
    (lists : table.Lists rename candidates trees before) (held : table.HeldBy before)
    (valid : before.Valid) (growth : before.Growth after) :
    table.Lists rename candidates trees after := by
  refine ⟨fun candidate member => (lists.held candidate member).grow growth, fun small => ?_⟩
  rw [← lists.reads (growth.small small)]
  exact List.map_congr_left fun candidate member =>
    (lists.held candidate member).tree_eq held valid growth

/-- Candidates that apply stand for trees, in order. -/
structure SymbolTable.Offers (table : SymbolTable) (rename : Nat → Nat)
    (entries : List (Candidate × Selection)) (trees : List (TreeCandidate × TreeSelection))
    (pool : TypePool) : Prop where
  held : ∀ entry ∈ entries, entry.1.HeldBy table pool ∧ entry.2.HeldBy table pool
  reads : pool.Small → entries.map (Candidate.entryTree rename pool) = trees

theorem SymbolTable.Offers.grow {table : SymbolTable} {rename : Nat → Nat} {before after : TypePool}
    {entries : List (Candidate × Selection)} {trees : List (TreeCandidate × TreeSelection)}
    (offers : table.Offers rename entries trees before) (held : table.HeldBy before)
    (valid : before.Valid) (growth : before.Growth after) :
    table.Offers rename entries trees after := by
  refine ⟨fun entry member => (offers.held entry member).imp (·.grow growth) (·.grow growth),
    fun small => ?_⟩
  rw [← offers.reads (growth.small small)]
  refine List.map_congr_left fun entry member => ?_
  obtain ⟨candidate, selection⟩ := offers.held entry member
  exact Prod.ext (candidate.tree_eq held valid growth) (selection.tree_eq valid growth)

/-- What is left open is the same for the trees. -/
theorem Substitution.trees_fillUnbound {pool : TypePool} (valid : pool.Valid) (subst : Substitution)
    (params : List ParamRef) :
    ((subst.fillUnbound params).1.trees pool, (subst.fillUnbound params).2) =
      (subst.trees pool).fillUnbound params := by
  have fold : ∀ (params : List ParamRef) (subst : Substitution) (faults : List TypeFault),
      let filled := params.foldl (fun (state : Substitution × List TypeFault) param =>
        if state.1.contains param then (state.1, state.2)
        else (state.1.bind param .any, state.2 ++ [.unbound param])) (subst, faults)
      (filled.1.trees pool, filled.2) = params.foldl
        (fun (state : TreeSubstitution × List TypeFault) param =>
        if (state.1 param).isSome then (state.1, state.2)
        else (state.1.bind param .any, state.2 ++ [.unbound param]))
          (subst.trees pool, faults) := by
    intro params
    induction params with
    | nil => exact fun _ _ => rfl
    | cons param params ih =>
      intro subst faults
      have same : (subst.trees pool param).isSome = subst.contains param := by
        simp [Substitution.trees, Substitution.contains]
      simp only [List.foldl_cons, same]
      split
      · exact ih subst faults
      · have bound : (subst.trees pool).bind param .any = (subst.bind param .any).trees pool := by
          rw [Substitution.trees_bind, valid.tree_any]
        rw [bound]
        exact ih _ _
  exact fold params subst []

namespace SymbolTable
open TypePool PoolM.Builds

variable {table : SymbolTable} {rename : Nat → Nat} {start pool : TypePool} {name : Name}
    {ancestor receiver : TypeRef} {tree : TypeTree}
  {subst : Substitution} {trees : TreeSubstitution} {args : List TypeRef}

section
variable (valid : start.Valid) (held : table.HeldBy start)
include valid held

/-- Subtyping of types that stand for trees. -/
theorem isSupertype_above (growth : start.Growth pool) {sup sub : TypeRef}
    {supTree subTree : TypeTree} (isSup : pool.Denotes sup supTree)
    (isSub : pool.Denotes sub subTree) (rename : Nat → Nat) (name : Name) :
    PoolM.Tells (table.hierarchy.isSupertype sup sub) pool
      ((table.methodTrees rename start name).above supTree subTree = true) := by
  have hierarchy := held.hierarchy valid
  refine (ClassHierarchy.isSupertype_tells growth.valid (hierarchy.grow growth) isSup.has
    isSub.has).congr fun small => ?_
  rw [hierarchy.unfold_eq valid growth, growth.boundTrees_eq valid, isSup.reads small,
    isSub.reads small]
  exact (@decide_eq_true_iff _ (Classical.propDecidable _)).symm

/-- The class of an ancestor with what it is bound to. -/
theorem ancestorBindings_denotes (growth : start.Growth pool)
    (denotes : pool.Denotes ancestor tree) :
    PoolM.Builds (table.ancestorBindings ancestor) pool fun found after =>
      (∀ entry ∈ found, entry.2.HeldBy after) ∧ (after.Small → (found.map Prod.fst = tree.base?) ∧
        ∀ entry ∈ found, entry.2.trees after = (table.hierarchy.unfold start).bindArgs entry.1
          tree.args) := by
  refine ofValid fun validPool => inspect (validPool.baseName?_eq denotes.has) ?_
  obtain ⟨args, read, argsHere, argTrees⟩ := validPool.args_eq denotes.has
  cases named : (pool.tree ancestor).base? with
  | none => exact pure ⟨by simp, fun small => ⟨by rw [← denotes.reads small, named]; rfl, by simp⟩⟩
  | some base =>
    refine inspect read (pure ⟨?_, fun small => ⟨by rw [← denotes.reads small, named]; rfl, ?_⟩⟩)
    · rintro entry ⟨⟩
      exact Substitution.ofArgs_heldBy _ argsHere
    · rintro entry ⟨⟩
      refine (ClassHierarchy.bindArgs_trees base args).trans ?_
      rw [argTrees, denotes.reads small, (held.hierarchy valid).unfold_eq valid growth]

/-- The parameter types of a method. -/
theorem paramTypes_denotes (growth : start.Growth pool) (rename : Nat → Nat) {id : Nat}
    {symbol : Symbol} (found : table.symbols[id]? = some symbol)
    (bound : subst.Denotes pool trees) :
    PoolM.Builds (paramTypes symbol subst) pool fun params after =>
      after.DenotesAll params ((methodTree rename start (id, symbol)).paramTypes trees) := by
  cases published : symbol.signature with
  | none => simpa [paramTypes, methodTree, TreeMethod.paramTypes,
      published] using PoolM.Builds.pure DenotesAll.nil
  | some signature =>
    have params := (held.signatures id symbol signature found published).params
    simpa [paramTypes, methodTree, TreeMethod.paramTypes, published, Signature.tree] using
      mapM_instantiate ((DenotesAll.self params).grow valid growth) bound

theorem addCandidates_lists {owner : TypeTree} :
    ∀ (entries : List (Nat × Symbol)) (found : List Candidate) (listed : List TreeCandidate) (pool :
      TypePool), start.Growth pool → pool.Denotes ancestor owner →
    subst.Denotes pool trees → table.Lists rename found listed pool →
      (∀ entry ∈ entries, table.symbols[entry.1]? = some entry.2) →
    PoolM.Builds (addCandidates ancestor subst found entries) pool fun candidates after =>
      table.Lists rename candidates
        (TreeMethod.addCandidates owner trees listed (entries.map (methodTree rename start))) after
  | [], _, _, _, _, _, _, lists, _ => pure lists
  | (id, symbol) :: rest, found, listed, pool, growth, denotesTree, bound, lists, entries => by
    have entered := entries (id, symbol) List.mem_cons_self
    have later : ∀ entry ∈ rest, table.symbols[entry.1]? = some entry.2 :=
      fun entry member => entries entry (List.mem_cons_of_mem _ member)
    refine ofValid fun validPool => bind (paramTypes_denotes valid held growth rename entered bound)
      fun params between grown denotes => ?_
    have whole := growth.trans grown
    have listsNow := lists.grow (held.grow growth.within) validPool grown
    have overridden : between.Small → found.any (·.params == params) =
        listed.any (·.params = (methodTree rename start (id, symbol)).paramTypes trees) := by
      intro small
      rw [← listsNow.reads small, List.any_map, ← denotes.reads small]
      rw [Bool.eq_iff_iff, List.any_eq_true, List.any_eq_true]
      refine exists_congr fun candidate => and_congr_right fun member => ?_
      rw [beq_iff_eq, Function.comp_apply, decide_eq_true_iff]
      exact (grown.valid.map_tree_inj (listsNow.held candidate member).params denotes.has).symm
    have enter (candidates : List Candidate) (after : TypePool) (more : between.Growth after)
        (lists : table.Lists rename candidates (TreeMethod.addCandidates owner trees
          (if found.any (·.params == params) then listed
            else listed ++ [(methodTree rename start (id, symbol)).candidate owner trees])
              (rest.map (methodTree rename start))) after) :
        table.Lists rename candidates
          (TreeMethod.addCandidates owner trees listed
            (((id, symbol) :: rest).map (methodTree rename start))) after := by
      refine ⟨lists.held, fun small => (lists.reads small).trans ?_⟩
      rw [List.map_cons, TreeMethod.addCandidates, overridden (more.small small)]
      split <;> rfl
    split
    · rename_i hidden
      refine (addCandidates_lists rest found listed between whole (denotesTree.grow validPool grown)
        (bound.grow validPool grown) listsNow later).mono fun candidates after more lists =>
          enter candidates after more ?_
      rwa [if_pos hidden]
    · rename_i shown
      refine (addCandidates_lists rest _ _ between whole (denotesTree.grow validPool grown)
        (bound.grow validPool grown) ⟨?_, ?_⟩ later).mono fun candidates after more lists =>
          enter candidates after more (by rwa [if_neg shown])
      · intro candidate member
        rcases List.mem_append.mp member with old | new
        · exact listsNow.held candidate old
        · rw [List.mem_singleton.mp new]
          exact ⟨entered, grown.has denotesTree.has, denotes.has⟩
      · intro small
        have method : methodTree rename between (id, symbol) = methodTree rename start
            (id, symbol) :=
          held.methodTree_eq valid whole entered
        rw [List.map_append, listsNow.reads small, List.map_singleton, Candidate.tree, method,
          denotes.reads small, (denotesTree.grow validPool grown).reads small]
        rfl

/-- The methods that a receiver has. -/
theorem visibleMethods_lists (rename : Nat → Nat) (growth : start.Growth pool)
    (denotesTree : pool.Denotes receiver tree) (name : Name) :
    PoolM.Builds (table.visibleMethods receiver name) pool fun candidates after =>
      table.Lists rename candidates ((table.methodTrees rename start name).visible tree) after := by
  refine bind (ClassHierarchy.ancestors_denotes valid (held.hierarchy valid) growth denotesTree)
    fun ancestors between grown denotes => ?_
  have whole := growth.trans grown
  have initial : table.Lists rename [] [] between := ⟨by simp, fun _ => rfl⟩
  refine (foldlM_follows (fun found ancestor =>
    (table.methodTrees rename start name).visit found (between.tree ancestor))
    (table.Lists rename) initial fun ancestor member found listed later more lists => ?_).mono
      fun candidates after more lists => ⟨lists.held, fun small => (lists.reads small).trans ?_⟩
  · refine ofValid fun validPool => ?_
    have all := whole.trans more
    have isAncestor := (Denotes.self (denotes.has ancestor member)).grow grown.valid more
    refine bind (ancestorBindings_denotes valid held all isAncestor) ?_
    rintro bindings after last ⟨bindingsHere, facts⟩
    have listsNow := lists.grow (held.grow all.within) validPool last
    cases bindings with
    | none =>
      refine pure ⟨listsNow.held, fun small => ?_⟩
      have none : (between.tree ancestor).base? = none := (facts small).1.symm
      simpa only [TreeMethods.visit, none] using listsNow.reads small
    | some entry =>
      obtain ⟨base, subst⟩ := entry
      refine (addCandidates_lists valid held _ found listed after (all.trans last)
        (isAncestor.grow validPool last)
        ⟨bindingsHere _ rfl, fun small => (facts small).2 _ rfl⟩ listsNow
        fun entry present => mem_findMembers present).mono fun candidates final more lists => ?_
      refine ⟨lists.held, fun small => (lists.reads small).trans ?_⟩
      have same : (between.tree ancestor).base? = some base := (facts (more.small small)).1.symm
      simp only [TreeMethods.visit, same]
      rfl
  · have trees := denotes.reads (more.small small)
    rw [TreeMethods.visible, methodTrees, ← trees, List.foldl_map]

/-- Inference from the arguments of a call. -/
theorem inferAll_denotes (growth : start.Growth pool) (bound : subst.Denotes pool trees)
    {formals : List TypeRef} (formalsHere : ∀ formal ∈ formals, start.Has formal)
    (argsHere : ∀ arg ∈ args, start.Has arg) :
    PoolM.Builds
      ((formals.zip args).foldlM
        (fun subst pair => table.hierarchy.infer subst pair.1 pair.2) subst) pool
      fun inferred after => inferred.Denotes after
        ((table.hierarchy.unfold start).inferAll trees (formals.map start.tree)
          (args.map start.tree)) := by
  have hierarchy := held.hierarchy valid
  rw [← growth.map_tree_eq valid formalsHere, ← growth.map_tree_eq valid argsHere]
  refine inferArgs formals args subst trees pool bound
    (fun formal member => growth.has (formalsHere formal member))
    (fun arg member => growth.has (argsHere arg member)) ?_
  intro formal member arg current treeSubstitution between grown inPool denotes
  have whole := growth.trans grown
  have formalHere := formalsHere formal member
  refine (infer (hierarchy.grow whole) denotes.held (whole.has formalHere) inPool).binding
    fun small => ?_
  rw [denotes.reads small, hierarchy.unfold_eq valid whole, whole.tree_eq valid formalHere,
    growth.tree_eq valid formalHere]

theorem argumentsFit_tells (rename : Nat → Nat) (name : Name) :
    ∀ (params args : List TypeRef) (pool : TypePool), start.Growth pool → subst.Denotes pool trees →
    (∀ param ∈ params, start.Has param) → (∀ arg ∈ args, start.Has arg) →
    PoolM.Tells (table.argumentsFit subst params args) pool
      ((table.methodTrees rename start name).argumentsFit trees (params.map start.tree)
        (args.map start.tree) = true)
  | [], _, _, _, _, _, _ => PoolM.Tells.yes fun _ => rfl
  | _ :: _, [], _, _, _, _, _ => PoolM.Tells.yes fun _ => rfl
  | param :: params, arg :: args, pool, growth, bound, paramsHere, argsHere => by
    refine ofValid fun validPool => ?_
    have isParam := (Denotes.self (paramsHere param List.mem_cons_self)).grow valid growth
    refine bind (PoolM.Builds.instantiate isParam bound) fun type between grown denotes => ?_
    have whole := growth.trans grown
    have isArg := (Denotes.self (argsHere arg List.mem_cons_self)).grow valid whole
    have fits := PoolM.Tells.andThen (isSupertype_above valid held whole denotes isArg rename name)
      fun after more => argumentsFit_tells rename name params args after (whole.trans more)
      (bound.grow validPool (grown.trans more))
        (fun other member => paramsHere other (List.mem_cons_of_mem _ member))
        (fun other member => argsHere other (List.mem_cons_of_mem _ member))
    exact fits.congr fun _ => by simp [TreeMethods.argumentsFit]

/-- Whether a candidate applies, and what is selected with it. -/
theorem applicable?_reads (rename : Nat → Nat) (name : Name) (growth : start.Growth pool)
    (argsHere : ∀ arg ∈ args, start.Has arg) {candidate : Candidate}
    (heldBy : candidate.HeldBy table pool) :
    PoolM.Builds (table.applicable? args candidate) pool fun chosen after => after.Small →
      chosen.map (Candidate.entryTree rename after) =
        (table.methodTrees rename start name).applicable? (args.map start.tree)
          (candidate.tree rename pool) := by
  unfold applicable?
  split
  · rename_i differs
    refine pure fun _ => ?_
    rw [TreeMethods.applicable?, if_pos (by simpa [Candidate.tree, methodTree] using differs)]
    rfl
  rename_i sized
  have arity : (candidate.tree rename pool).method.arity = (args.map start.tree).length := by
    simpa [Candidate.tree, methodTree] using sized
  cases published : candidate.symbol.signature with
  | none =>
    exact pure fun _ => by simp [TreeMethods.applicable?, Candidate.tree, methodTree, published]
  | some signature =>
    have signatureHere := held.signatures _ _ signature heldBy.symbol published
    have signatureTree : (candidate.tree rename pool).method.signature =
        some (signature.tree start) := by
      simp [Candidate.tree, methodTree, published, signatureHere.tree_eq valid growth]
    refine ofValid fun validPool =>
      bind (ancestorBindings_denotes valid held growth (Denotes.self heldBy.ownerType)) ?_
    rintro bindings between grown ⟨bindingsHere, bindingTrees⟩
    have whole := growth.trans grown
    cases bindings with
    | none =>
      refine pure fun small => ?_
      have none : (candidate.tree rename pool).owner.base? = none := (bindingTrees small).1.symm
      rw [TreeMethods.applicable?, if_neg (not_not.mpr arity), signatureTree, none]
      rfl
    | some entry =>
      obtain ⟨base, subst⟩ := entry
      have bound : subst.Denotes between
          ((table.hierarchy.unfold start).bindArgs base (pool.tree candidate.ownerType).args) :=
        ⟨bindingsHere _ rfl, fun small => (bindingTrees small).2 _ rfl⟩
      refine bind (inferAll_denotes valid held whole bound signatureHere.params argsHere)
        fun inferred later more inferredTrees => ?_
      have all := whole.trans more
      have filledHere := (inferredTrees.held.fillUnbound more.valid
        fun param member => all.declares (signatureHere.typeParams param member)).1
      have filled : (inferred.fillUnbound signature.typeParams).1.Denotes later _ :=
        ⟨filledHere, fun _ => rfl⟩
      refine bind (argumentsFit_tells valid held rename name _ _ later all filled
        signatureHere.params argsHere)
        fun fits after last told => ?_
      have applies (small : after.Small) :=
        TreeMethods.applicable?_eq (table.methodTrees rename start name) arity signatureTree
        (bindingTrees (more.small (last.small small))).1.symm
          (inferredTrees.reads (last.small small)).symm
      rw [← Substitution.trees_fillUnbound more.valid] at applies
      cases fits with
      | false =>
        refine pure fun small => ((applies small).trans (if_neg fun fits => ?_)).symm
        exact Bool.false_ne_true ((told small).mpr fits)
      | true =>
        have isType := (Denotes.self signatureHere.type).grow valid (all.trans last)
        refine bind (PoolM.Builds.instantiate isType (filled.grow more.valid last))
          fun result final grownOn denotes => ?_
        have sameCandidate : candidate.tree rename final = candidate.tree rename pool :=
          heldBy.tree_eq (held.grow growth.within) validPool
            (grown.trans (more.trans (last.trans grownOn)))
        refine pure fun small => ?_
        have fitting := (told (grownOn.small small)).mp rfl
        refine .trans ?_ ((applies (grownOn.small small)).trans (if_pos fitting)).symm
        simp only [Option.map_some, Candidate.entryTree, sameCandidate, Selection.tree,
          denotes.reads small]
        rfl

/-- The candidates of a call that apply. -/
theorem applicable_offers (rename : Nat → Nat) (name : Name) (growth : start.Growth pool)
    (argsHere : ∀ arg ∈ args, start.Has arg) {candidates : List Candidate}
    {listed : List TreeCandidate} (lists : table.Lists rename candidates listed pool) :
    PoolM.Builds (candidates.filterMapM (table.applicable? args)) pool fun applicable after =>
      table.Offers rename applicable
        (listed.filterMap ((table.methodTrees rename start name).applicable? (args.map start.tree)))
        after := by
  refine ofValid fun validPool => ?_
  have each : ∀ candidate ∈ candidates, ∀ between, pool.Growth between →
      PoolM.Builds (table.applicable? args candidate) between fun found after =>
        (∀ entry ∈ found, entry.1.HeldBy table after ∧ entry.2.HeldBy table after) ∧ (after.Small →
          found.map (Candidate.entryTree rename after) =
            (table.methodTrees rename start name).applicable? (args.map start.tree)
              (candidate.tree rename pool)) := by
    intro candidate member between grown
    have whole := growth.trans grown
    have heldBy := (lists.held candidate member).grow grown
    rw [← (lists.held candidate member).tree_eq (held.grow growth.within) validPool grown]
    exact (applicable?_builds (held.grow whole.within)
      (fun arg present => whole.has (argsHere arg present)) heldBy).and
      (applicable?_reads valid held rename name whole argsHere heldBy)
  refine (filterMapM_reads ?_ each).mono ?_
  · rintro entry before after earlier grows grown ⟨candidate, selection⟩
    refine ⟨⟨candidate.grow grown, selection.grow grown⟩, ?_⟩
    unfold Candidate.entryTree
    rw [candidate.tree_eq (held.grow (growth.trans grows).within) earlier grown,
      selection.tree_eq earlier grown]
  · rintro applicable after grown ⟨facts, reads⟩
    refine ⟨facts, fun small => ?_⟩
    rw [reads small, ← lists.reads (grown.small small), List.filterMap_map]
    rfl

section
variable {applicable : List (Candidate × Selection)}
    {entries : List (TreeCandidate × TreeSelection)}

omit valid held in
theorem exactMatch_tree (valid : pool.Valid) (argsHere : ∀ arg ∈ args, pool.Has arg)
    {candidate : Candidate} (held : candidate.HeldBy table pool) (rename : Nat → Nat) :
    (candidate.tree rename pool).exactMatch (args.map pool.tree) = exactMatch args candidate := by
  unfold TreeCandidate.exactMatch exactMatch Candidate.tree
  rw [List.zip_map, List.all_map, Bool.eq_iff_iff, List.all_eq_true, List.all_eq_true]
  refine forall₂_congr fun pair member => ?_
  obtain ⟨param, arg⟩ := List.of_mem_zip member
  rw [Function.comp_apply, decide_eq_true_iff, beq_iff_eq]
  exact ⟨valid.tree_injective _ _ (held.params _ param) (argsHere _ arg), congrArg pool.tree⟩

omit valid held in
theorem Offers.filter_exactMatch (offers : table.Offers rename applicable entries pool)
    (valid : pool.Valid) (argsHere : ∀ arg ∈ args, pool.Has arg) :
    (applicable.map (Candidate.entryTree rename pool)).filter
      (·.1.exactMatch (args.map pool.tree)) = (applicable.filter fun entry =>
        exactMatch args entry.1).map (Candidate.entryTree rename pool) := by
  rw [List.filter_map]
  exact congrArg _ (List.filter_congr fun entry member =>
    exactMatch_tree valid argsHere (offers.held entry member).1 rename)

theorem moreSpecific_tells (rename : Nat → Nat) (name : Name) (growth : start.Growth pool)
    {first second : Candidate} (firstHere : first.HeldBy table pool)
    (secondHere : second.HeldBy table pool) : PoolM.Tells (table.moreSpecific first second) pool
    ((table.methodTrees rename start name).moreSpecific
      (first.tree rename pool) (second.tree rename pool) = true) := by
  refine ofValid fun validPool => ?_
  have each : ∀ pair ∈ first.params.zip second.params, ∀ between, pool.Growth between →
      PoolM.Tells (table.hierarchy.isSupertype pair.2 pair.1) between
        ((table.methodTrees rename start name).above (pool.tree pair.2)
          (pool.tree pair.1) = true) := by
    intro pair member between grown
    obtain ⟨param, other⟩ := List.of_mem_zip member
    exact isSupertype_above valid held (growth.trans grown)
      ((Denotes.self (secondHere.params _ other)).grow validPool grown)
      ((Denotes.self (firstHere.params _ param)).grow validPool grown) rename name
  refine (PoolM.Tells.allM each).congr fun _ => ?_
  rw [TreeMethods.moreSpecific, Candidate.tree, Candidate.tree, List.zip_map, List.all_map,
    List.all_eq_true]
  rfl

theorem mostSpecific_tells (name : Name) (growth : start.Growth pool)
    (offers : table.Offers rename applicable entries pool) {candidate : Candidate}
    (heldBy : candidate.HeldBy table pool) (position : Nat) :
    PoolM.Tells (table.mostSpecific applicable candidate position) pool
      ((table.methodTrees rename start name).mostSpecific entries (candidate.tree rename pool)
        position = true) := by
  refine ofValid fun validPool => ?_
  have each : ∀ other ∈ applicable.zipIdx, ∀ between, pool.Growth between →
      PoolM.Tells
        (if other.2 = position then return true else table.moreSpecific candidate other.1.1) between
        (other.2 = position ∨ (table.methodTrees rename start name).moreSpecific
          (candidate.tree rename pool) (other.1.1.tree rename pool) = true) := by
    intro other member between grown
    split
    · rename_i same
      exact PoolM.Tells.yes fun _ => .inl same
    · rename_i differs
      have otherHere := (offers.held _ (List.fst_mem_of_mem_zipIdx member)).1
      refine (moreSpecific_tells valid held rename name (growth.trans grown) (heldBy.grow grown)
        (otherHere.grow grown)).congr fun _ => ?_
      have before := held.grow growth.within
      rw [heldBy.tree_eq before validPool grown, otherHere.tree_eq before validPool grown,
        or_iff_right differs]
  refine (PoolM.Tells.allM each).congr fun small => ?_
  rw [TreeMethods.mostSpecific, ← offers.reads small, List.zipIdx_map, List.all_map,
    List.all_eq_true]
  refine forall₂_congr fun other _ => ?_
  simp [Candidate.entryTree]

/-- The candidates that are more specific than all others. -/
theorem best_reads (name : Name) (growth : start.Growth pool)
    (offers : table.Offers rename applicable entries pool) :
    PoolM.Builds (applicable.zipIdx.filterM fun entry =>
      table.mostSpecific applicable entry.1.1 entry.2) pool
      fun best after => after.Small → best.map (Prod.map (Candidate.entryTree rename after) id) =
        (table.methodTrees rename start name).best entries := by
  refine ofValid fun validPool => ?_
  have each : ∀ entry ∈ applicable.zipIdx, ∀ between, pool.Growth between →
      PoolM.Tells (table.mostSpecific applicable entry.1.1 entry.2) between
        ((table.methodTrees rename start name).mostSpecific entries (entry.1.1.tree rename pool)
          entry.2 = true) := by
    intro entry member between grown
    have heldBy := (offers.held _ (List.fst_mem_of_mem_zipIdx member)).1
    rw [← heldBy.tree_eq (held.grow growth.within) validPool grown]
    exact mostSpecific_tells valid held name (growth.trans grown)
      (offers.grow (held.grow growth.within) validPool grown) (heldBy.grow grown) entry.2
  refine (filterM_tells each).mono fun best after grown kept small => ?_
  have later := offers.grow (held.grow growth.within) validPool grown
  rw [kept small, TreeMethods.best, ← later.reads small, List.zipIdx_map, List.filter_map]
  refine congrArg _ (List.filter_congr fun entry member => ?_)
  have heldBy := (offers.held _ (List.fst_mem_of_mem_zipIdx member)).1
  rw [later.reads small, Function.comp_apply, ← heldBy.tree_eq (held.grow growth.within)
    validPool grown]
  rfl

end

/-- The choice among pooled types is the one among their trees. -/
theorem selectOverload_reads (rename : Nat → Nat) (name : Name) (inPool : start.Has receiver)
    (argsHere : ∀ arg ∈ args, start.Has arg) :
    PoolM.Builds (table.selectOverload receiver name args) start fun outcome after => after.Small →
      outcome.map (·.tree rename after) =
        (table.methodTrees rename start name).select (start.tree receiver)
          (args.map start.tree) := by
  unfold selectOverload
  refine bind (visibleMethods_lists valid held rename valid.growth (Denotes.self inPool) name)
    fun visible between growth lists => ?_
  split
  · rename_i none
    refine pure fun small => ?_
    rw [TreeMethods.select, ← lists.reads small, List.isEmpty_map, if_pos none]
    rfl
  rename_i some
  refine bind (applicable_offers valid held rename name growth argsHere lists)
    fun applicable later grown offers => ?_
  have whole := growth.trans grown
  have select (small : later.Small) :
      (table.methodTrees rename start name).select (start.tree receiver)
      (args.map start.tree) = (table.methodTrees rename start name).choose (args.map start.tree)
        (applicable.map (Candidate.entryTree rename later)) := by
    have shown :
        ¬ ((table.methodTrees rename start name).visible (start.tree receiver)).isEmpty := by
      rwa [← lists.reads (grown.small small), List.isEmpty_map]
    rw [TreeMethods.select, if_neg shown, offers.reads small]
    rfl
  have exacts : (applicable.map (Candidate.entryTree rename later)).filter
      (·.1.exactMatch (args.map start.tree)) = (applicable.filter fun entry =>
        exactMatch args entry.1).map (Candidate.entryTree rename later) := by
    rw [← whole.map_tree_eq valid argsHere]
    exact offers.filter_exactMatch grown.valid fun arg member => whole.has (argsHere arg member)
  split
  · refine pure fun small => ?_
    rw [select small]
    rfl
  · refine pure fun small => ?_
    rw [select small]
    rfl
  · rename_i nonempty several
    have many (small : later.Small) :
        (table.methodTrees rename start name).select (start.tree receiver)
        (args.map start.tree) = _ := (select small).trans (TreeMethods.choose_of_many _
          (fun none => nonempty (List.map_eq_nil_iff.mp none)) fun entry same => by
            obtain ⟨⟨candidate, only⟩, rest⟩ := List.map_eq_singleton_iff.mp same
            exact several candidate only rest.1)
    split
    · rename_i candidate exact only
      refine pure fun small => ?_
      rw [many small, exacts, only]
      rfl
    · rename_i unlike
      have inexact : only? (applicable.filter fun entry => exactMatch args entry.1) = none :=
        only?_eq_none fun entry => unlike entry.1 entry.2
      refine bind (best_reads valid held name whole offers) fun best after more reads => ?_
      have chosen (small : after.Small) :
          (table.methodTrees rename start name).select (start.tree receiver)
          (args.map start.tree) = ((only? best).map fun entry => entry.1.2.tree rename after).elim
            (.error (.ambiguous applicable.length)) .ok := by
        rw [many (more.small small), exacts, only?_map, inexact,
          offers.reads (more.small small), ← reads small,
            only?_map, ← offers.reads (more.small small), List.length_map]
        cases only? best <;> rfl
      split
      · exact pure fun small => (chosen small).symm
      · rename_i ambiguous
        refine pure fun small => ?_
        rw [chosen small, only?_eq_none fun entry equal => ambiguous _ _ _ equal]
        rfl

end
end SymbolTable
end ClassLang
