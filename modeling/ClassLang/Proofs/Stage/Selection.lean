import ClassLang.Proofs.Type.Inheritance
import ClassLang.Stage.Overload
import Mathlib.Data.List.Nodup
import Mathlib.Data.List.Perm.Basic

/-! Choosing a method, on trees. Methods that a nearer class overrides are hidden, those that do not
apply are dropped, and of the rest an exact or a most specific one is chosen. No two candidates have
the same parameter types, so that the choice is among candidates and not among places in a list: the
order in which a class declares its methods does not matter. -/

namespace ClassLang

/-- The types of a signature, as trees. -/
structure TreeSignature where
  type : TypeTree
  params : List TypeTree
  typeParams : List ParamRef
deriving Repr, DecidableEq

/-- A method as it is seen by a call. -/
structure TreeMethod where
  id : Nat
  arity : Nat
  signature : Option TreeSignature
deriving Repr, DecidableEq

/-- A method seen through a receiver, with its parameter types as the receiver has them. -/
structure TreeCandidate where
  method : TreeMethod
  /-- The declaring class as an ancestor of the receiver. -/
  owner : TypeTree
  params : List TypeTree
deriving Repr, DecidableEq

/-- The chosen method, its result for the call, and the type parameters left open. -/
structure TreeSelection where
  id : Nat
  result : TypeTree
  unbound : List TypeFault
deriving Repr, DecidableEq

/-- What a call asks about the methods of a name. -/
structure TreeMethods where
  hierarchy : TreeHierarchy
  /-- The first type is a supertype of the second. -/
  above : TypeTree → TypeTree → Bool
  /-- The methods that a class declares, in their order. -/
  declared : Name → List TreeMethod

/-- The element of a list that has no other. -/
def only? : List α → Option α
  | [element] => some element
  | _ => none

theorem only?_perm {first second : List α} (perm : first.Perm second) :
    only? first = only? second := by
  cases first with
  | nil => rw [perm.nil_eq]
  | cons element rest =>
    cases rest with
    | nil => rw [List.singleton_perm.mp perm]
    | cons next rest =>
      have length := perm.length_eq
      match second, length with
      | _ :: _ :: _, _ => rfl

theorem only?_eq_none {elements : List α} (more : ∀ element, elements ≠ [element]) :
    only? elements = none := by
  match elements with
  | [] | _ :: _ :: _ => rfl
  | [element] => exact absurd rfl (more element)

theorem only?_map (change : α → β) (elements : List α) :
    only? (elements.map change) = (only? elements).map change := by
  match elements with
  | [] | [_] | _ :: _ :: _ => rfl

/-- Parameters that are not bound are bound to `any`, and reported. -/
def TreeSubstitution.fillUnbound (subst : TreeSubstitution) (params : List ParamRef) :
    TreeSubstitution × List TypeFault :=
  params.foldl (fun (subst, faults) param =>
    if (subst param).isSome then (subst, faults) else
      (subst.bind param .any, faults ++ [.unbound param])) (subst, [])

/-- The parameter types under a substitution; none before they are published. -/
def TreeMethod.paramTypes (method : TreeMethod) (subst : TreeSubstitution) : List TypeTree :=
  ((method.signature.map (·.params)).getD []).map (·.instantiate subst)

/-- The candidate that a method is when it is declared in `owner`. -/
def TreeMethod.candidate (method : TreeMethod) (owner : TypeTree) (subst : TreeSubstitution) :
    TreeCandidate :=
  { method, owner, params := method.paramTypes subst }

/-- The parameter types are exactly the argument types. -/
def TreeCandidate.exactMatch (args : List TypeTree) (candidate : TreeCandidate) : Bool :=
  (candidate.params.zip args).all fun (param, arg) => param = arg

/-- Add the methods of one class that are not overridden by those found before. -/
def TreeMethod.addCandidates (owner : TypeTree) (subst : TreeSubstitution) :
    List TreeCandidate → List TreeMethod → List TreeCandidate
  | found, [] => found
  | found, method :: rest =>
    if found.any (·.params = method.paramTypes subst) then addCandidates owner subst found rest
    else addCandidates owner subst (found ++ [method.candidate owner subst]) rest

namespace TreeMethods
variable (methods : TreeMethods)

/-- Add the methods of an ancestor. -/
def visit (found : List TreeCandidate) (ancestor : TypeTree) : List TreeCandidate :=
  match ancestor.base? with
  | none => found
  | some base => TreeMethod.addCandidates ancestor (methods.hierarchy.bindArgs base ancestor.args)
      found (methods.declared base)

/-- The methods that a receiver has, nearest class first. -/
def visible (receiver : TypeTree) : List TreeCandidate :=
  (methods.hierarchy.ancestors receiver).foldl methods.visit []

/-- Every argument fits the parameter at its position. -/
def argumentsFit (subst : TreeSubstitution) (params args : List TypeTree) : Bool :=
  (params.zip args).all fun (param, arg) => methods.above (param.instantiate subst) arg

/-- The candidate with the selection for it, when it applies. -/
def applicable? (args : List TypeTree) (candidate : TreeCandidate) :
    Option (TreeCandidate × TreeSelection) :=
  if candidate.method.arity ≠ args.length then none
  else
    match candidate.method.signature, candidate.owner.base? with
    | some signature, some base =>
      let inferred := methods.hierarchy.inferAll
        (methods.hierarchy.bindArgs base candidate.owner.args) signature.params args
      let (subst, unbound) := inferred.fillUnbound signature.typeParams
      if methods.argumentsFit subst signature.params args then
        some
          (candidate,
            { id := candidate.method.id, result := signature.type.instantiate subst, unbound })
      else none
    | _, _ => none

/-- A candidate with as many parameters as there are arguments applies when each argument fits. -/
theorem applicable?_eq {args : List TypeTree} {candidate : TreeCandidate}
    {signature : TreeSignature} {base : Name} {inferred : TreeSubstitution}
    (arity : candidate.method.arity = args.length)
    (published : candidate.method.signature = some signature)
    (named : candidate.owner.base? = some base)
    (infers : methods.hierarchy.inferAll (methods.hierarchy.bindArgs base candidate.owner.args)
      signature.params args = inferred) :
    methods.applicable? args candidate =
      if methods.argumentsFit (inferred.fillUnbound signature.typeParams).1
        signature.params args then some
        (candidate,
          ⟨candidate.method.id, signature.type.instantiate
            (inferred.fillUnbound signature.typeParams).1,
          (inferred.fillUnbound signature.typeParams).2⟩)
      else none := by
  rw [applicable?, if_neg (not_not.mpr arity)]
  simp only [published, named, infers]

/-- The candidates that apply. -/
def applicable (receiver : TypeTree) (args : List TypeTree) :
    List (TreeCandidate × TreeSelection) :=
  (methods.visible receiver).filterMap (methods.applicable? args)

/-- Every parameter of `first` is a subtype of the one of `second` at its position. -/
def moreSpecific (first second : TreeCandidate) : Bool :=
  (first.params.zip second.params).all fun (param, other) => methods.above other param

/-- The candidate at a position is more specific than all others. -/
def mostSpecific (applicable : List (TreeCandidate × TreeSelection)) (candidate : TreeCandidate)
    (position : Nat) : Bool :=
  applicable.zipIdx.all fun (other, index) =>
    index = position || methods.moreSpecific candidate other.1

/-- The candidates that are more specific than all others, with their positions. -/
def best (applicable : List (TreeCandidate × TreeSelection)) :
    List ((TreeCandidate × TreeSelection) × Nat) :=
  applicable.zipIdx.filter fun ((candidate, _), position) =>
    methods.mostSpecific applicable candidate position

/-- Choose among the candidates that apply. -/
def choose (args : List TypeTree) (applicable : List (TreeCandidate × TreeSelection)) :
    Except OverloadFault TreeSelection :=
  if applicable.isEmpty then .error .noneApplicable
  else
    match ((only? applicable).or (only? (applicable.filter (·.1.exactMatch args)))).or
        ((only? (methods.best applicable)).map Prod.fst) with
    | some (_, chosen) => .ok chosen
    | none => .error (.ambiguous applicable.length)

/-- Of more than one candidate an exact match is chosen, else the most specific one. -/
theorem choose_of_many {args : List TypeTree} {applicable : List (TreeCandidate × TreeSelection)}
    (some : applicable ≠ []) (more : ∀ entry, applicable ≠ [entry]) :
    methods.choose args applicable =
      match (only? (applicable.filter (·.1.exactMatch args))).or
        ((only? (methods.best applicable)).map Prod.fst) with
      | .some (_, chosen) => .ok chosen
      | none => .error (.ambiguous applicable.length) := by
  rw [choose, if_neg (by simpa using some), only?_eq_none more, Option.none_or]

/-- Choose the method for a call. -/
def select (receiver : TypeTree) (args : List TypeTree) : Except OverloadFault TreeSelection :=
  if (methods.visible receiver).isEmpty then .error .noSuchMethod
  else methods.choose args (methods.applicable receiver args)

end TreeMethods

/-! No two candidates have the same parameter types. -/

namespace TreeMethod

variable {owner : TypeTree} {subst : TreeSubstitution}

/-- Where the methods of a class differ in their parameter types, each is added unless it is
overridden. -/
theorem addCandidates_eq : ∀ {methods : List TreeMethod} (found : List TreeCandidate),
    (methods.map (·.paramTypes subst)).Nodup → addCandidates owner subst found methods = found ++
      (methods.filter fun method => !found.any (·.params = method.paramTypes subst)).map
      (·.candidate owner subst)
  | [], found, _ => by simp [addCandidates]
  | method :: rest, found, distinct => by
    obtain ⟨fresh, distinct⟩ := List.nodup_cons.mp distinct
    rw [addCandidates]
    split
    · rename_i hidden
      rw [addCandidates_eq found distinct, List.filter_cons_of_neg (by simp [hidden])]
    · rename_i shown
      rw [addCandidates_eq _ distinct, List.filter_cons_of_pos (by simpa using shown),
        List.map_cons, List.append_assoc, List.singleton_append]
      have later : (rest.filter fun other => !(found ++ [method.candidate owner subst]).any
          (·.params = other.paramTypes subst)) = rest.filter fun other =>
            !found.any (·.params = other.paramTypes subst) := by
        refine List.filter_congr fun other member => ?_
        have differs : method.paramTypes subst ≠ other.paramTypes subst :=
          fun same => fresh (List.mem_map.mpr ⟨other, member, same.symm⟩)
        simp [List.any_append, candidate, differs]
      rw [later]

theorem addCandidates_nodup : ∀ (methods : List TreeMethod) (found : List TreeCandidate),
    (found.map (·.params)).Nodup → ((addCandidates owner subst found methods).map (·.params)).Nodup
  | [], _, distinct => distinct
  | method :: rest, found, distinct => by
    rw [addCandidates]
    split
    · exact addCandidates_nodup rest found distinct
    · rename_i shown
      refine addCandidates_nodup rest _ ?_
      have fresh : method.paramTypes subst ∉ found.map (·.params) := by simpa using shown
      rw [List.map_append, List.nodup_append]
      refine ⟨distinct, List.nodup_singleton _, ?_⟩
      rintro params member _ (_ | ⟨_, ⟨⟩⟩) rfl
      exact fresh member

theorem mem_addCandidates {candidate : TreeCandidate} :
    ∀ (methods : List TreeMethod) (found : List TreeCandidate),
      candidate ∈ addCandidates owner subst found methods → candidate ∈ found ∨ ∃ method ∈ methods,
        candidate = method.candidate owner subst
  | [], _, member => .inl member
  | method :: rest, found, member => by
    rw [addCandidates] at member
    split at member
    · exact (mem_addCandidates rest found member).imp_right fun ⟨other, listed, same⟩ =>
        ⟨other, List.mem_cons_of_mem _ listed, same⟩
    · rcases mem_addCandidates rest _ member with present | ⟨other, listed, same⟩
      · refine (List.mem_append.mp present).imp_right fun new => ?_
        exact ⟨method, List.mem_cons_self, List.mem_singleton.mp new⟩
      · exact .inr ⟨other, List.mem_cons_of_mem _ listed, same⟩

theorem addCandidates_perm {methods others : List TreeMethod} {found before : List TreeCandidate}
    (perm : others.Perm methods) (same : before.Perm found)
    (distinct : (methods.map (·.paramTypes subst)).Nodup) :
    (addCandidates owner subst before others).Perm (addCandidates owner subst found methods) := by
  rw [addCandidates_eq found distinct,
    addCandidates_eq before ((perm.map _).nodup_iff.mpr distinct)]
  refine same.append (List.Perm.map _ ?_)
  have hidden : (fun method : TreeMethod => !before.any (·.params = method.paramTypes subst)) =
      fun method => !found.any (·.params = method.paramTypes subst) :=
    funext fun method => congrArg not (same.any_eq)
  rw [hidden]
  exact perm.filter _

end TreeMethod

namespace TreeMethods

variable {methods others : TreeMethods} {receiver : TypeTree} {args : List TypeTree}

theorem visible_nodup (methods : TreeMethods) (receiver : TypeTree) :
    ((methods.visible receiver).map (·.params)).Nodup := by
  have fold : ∀ (ancestors : List TypeTree) (found : List TreeCandidate),
      (found.map (·.params)).Nodup →
      ((ancestors.foldl methods.visit found).map (·.params)).Nodup := by
    intro ancestors
    induction ancestors with
    | nil => exact fun _ distinct => distinct
    | cons ancestor ancestors ih =>
      refine fun found distinct => ih _ ?_
      unfold visit
      split
      · exact distinct
      · exact TreeMethod.addCandidates_nodup _ _ distinct
  exact fold _ [] List.nodup_nil

/-- Visible are methods that some class declares. -/
theorem mem_visible {candidate : TreeCandidate} (member : candidate ∈ methods.visible receiver) :
    ∃ base, ∃ method ∈ methods.declared base, ∃ owner subst,
      candidate = method.candidate owner subst := by
  have fold : ∀ (ancestors : List TypeTree) (found : List TreeCandidate),
      candidate ∈ ancestors.foldl methods.visit found → candidate ∈ found ∨
        ∃ base, ∃ method ∈ methods.declared base, ∃ owner subst,
          candidate = method.candidate owner subst := by
    intro ancestors
    induction ancestors with
    | nil => exact fun _ present => .inl present
    | cons ancestor ancestors ih =>
      intro found member
      rcases ih _ member with present | declared
      · unfold visit at present
        split at present
        · exact .inl present
        · rename_i base _
          rcases TreeMethod.mem_addCandidates _ _ present with old | ⟨method, listed, same⟩
          · exact .inl old
          · exact .inr ⟨base, method, listed, _, _, same⟩
      · exact .inr declared
  rcases fold _ [] member with none | declared
  · cases none
  · exact declared

theorem eq_of_applicable? {candidate : TreeCandidate} {entry : TreeCandidate × TreeSelection}
    (applies : methods.applicable? args candidate = some entry) :
    entry.1 = candidate ∧ candidate.method.arity = args.length ∧
    candidate.method.signature.isSome := by
  unfold applicable? at applies
  split at applies
  · cases applies
  · rename_i sized
    split at applies
    · rename_i found _
      dsimp only at applies
      split at applies
      · cases applies
        exact ⟨rfl, not_not.mp sized, by simp [found]⟩
      · cases applies
    · cases applies

/-- The candidates that apply are among those that are visible. -/
theorem applicable_sublist (candidates : List TreeCandidate) :
    ((candidates.filterMap (methods.applicable? args)).map Prod.fst).Sublist candidates := by
  induction candidates with
  | nil => exact .slnil
  | cons candidate candidates ih =>
    rw [List.filterMap_cons]
    split
    · exact ih.cons candidate
    · rename_i entry applies
      rw [List.map_cons, (eq_of_applicable? applies).1]
      exact ih.cons_cons candidate

theorem applicable_nodup (methods : TreeMethods) (receiver : TypeTree) (args : List TypeTree) :
    ((methods.applicable receiver args).map (·.1.params)).Nodup := by
  have sublist : ((methods.applicable receiver args).map Prod.fst).Sublist
      (methods.visible receiver) :=
    applicable_sublist _
  have distinct := (methods.visible_nodup receiver).sublist (sublist.map (·.params))
  rwa [List.map_map] at distinct

/-- The candidate is more specific than those with other parameter types. -/
def dominates (methods : TreeMethods) (applicable : List (TreeCandidate × TreeSelection))
    (candidate : TreeCandidate) :
    Bool :=
  applicable.all fun other => other.1.params = candidate.params ||
    methods.moreSpecific candidate other.1

/-- Where no two candidates have the same parameter types, the place of a candidate is as good as
its types. -/
theorem mostSpecific_eq {applicable : List (TreeCandidate × TreeSelection)}
    (distinct : (applicable.map (·.1.params)).Nodup) {entry : TreeCandidate × TreeSelection}
    {position : Nat} (found : applicable[position]? = some entry) :
    methods.mostSpecific applicable entry.1 position = methods.dominates applicable entry.1 := by
  have place {other : TreeCandidate × TreeSelection} {index : Nat}
      (there : applicable[index]? = some other) : index = position ↔
      other.1.params = entry.1.params := by
    refine ⟨?_, fun equal => ?_⟩
    · rintro rfl
      cases found.symm.trans there
      rfl
    · have inside : index < (applicable.map (·.1.params)).length := by
        rw [List.length_map]
        exact (List.getElem?_eq_some_iff.mp there).1
      refine (List.getElem?_inj inside distinct).mp ?_
      simp only [List.getElem?_map, there, found, Option.map_some, equal]
  rw [Bool.eq_iff_iff, mostSpecific, dominates, List.all_eq_true, List.all_eq_true]
  constructor
  · intro all other listed
    obtain ⟨index, there⟩ := List.mem_iff_getElem?.mp listed
    have holds := all (other, index) (List.mem_zipIdx_iff_getElem?.mpr there)
    simpa [place there] using holds
  · rintro all ⟨other, index⟩ listed
    have there := List.mem_zipIdx_iff_getElem?.mp listed
    have holds := all other (List.mem_of_getElem? there)
    simpa [place there] using holds

/-- The candidates that are most specific, whatever their places. -/
theorem map_best {applicable : List (TreeCandidate × TreeSelection)}
    (distinct : (applicable.map (·.1.params)).Nodup) : (methods.best applicable).map Prod.fst =
    applicable.filter fun entry => methods.dominates applicable entry.1 := by
  have filtered : methods.best applicable =
      applicable.zipIdx.filter ((fun entry => methods.dominates applicable entry.1) ∘ Prod.fst) :=
    List.filter_congr fun _ member =>
      mostSpecific_eq distinct (List.mem_zipIdx_iff_getElem?.mp member)
  rw [filtered, ← List.filter_map, List.zipIdx_map_fst]

/-- The choice does not depend on the order of the candidates. -/
theorem choose_perm {applicable before : List (TreeCandidate × TreeSelection)}
    (perm : before.Perm applicable) (distinct : (applicable.map (·.1.params)).Nodup) :
    methods.choose args before = methods.choose args applicable := by
  have best : only? ((methods.best before).map Prod.fst) =
      only? ((methods.best applicable).map Prod.fst) := by
    rw [map_best distinct, map_best ((perm.map _).nodup_iff.mpr distinct)]
    have same : methods.dominates before = methods.dominates applicable :=
      funext fun _ => perm.all_eq
    rw [same]
    exact only?_perm (perm.filter _)
  rw [only?_map, only?_map] at best
  rw [choose, choose, perm.isEmpty_eq, only?_perm perm, only?_perm (perm.filter _), best,
    perm.length_eq]

/-- The same methods in another order. -/
structure Reorders (methods others : TreeMethods) : Prop where
  hierarchy : others.hierarchy = methods.hierarchy
  above : others.above = methods.above
  declared : ∀ base, (others.declared base).Perm (methods.declared base)

/-- No two methods that a class declares have the same parameter types for the receiver. -/
def Distinct (methods : TreeMethods) (receiver : TypeTree) : Prop :=
  ∀ ancestor ∈ methods.hierarchy.ancestors receiver, ∀ base, ancestor.base? = some base →
    ((methods.declared base).map
      (·.paramTypes (methods.hierarchy.bindArgs base ancestor.args))).Nodup

theorem Reorders.visible_perm (reorders : methods.Reorders others)
    (distinct : methods.Distinct receiver) :
    (others.visible receiver).Perm (methods.visible receiver) := by
  have fold : ∀ (ancestors : List TypeTree) (found before : List TreeCandidate),
      (∀ ancestor ∈ ancestors, ∀ base, ancestor.base? = some base →
        ((methods.declared base).map
          (·.paramTypes (methods.hierarchy.bindArgs base ancestor.args))).Nodup) →
      before.Perm found → (ancestors.foldl others.visit before).Perm
        (ancestors.foldl methods.visit found) := by
    intro ancestors
    induction ancestors with
    | nil => exact fun _ _ _ same => same
    | cons ancestor ancestors ih =>
      intro found before differ same
      refine ih _ _ (fun other member => differ other (List.mem_cons_of_mem _ member)) ?_
      unfold visit
      rw [reorders.hierarchy]
      cases named : ancestor.base? with
      | none => exact same
      | some base =>
        exact TreeMethod.addCandidates_perm (reorders.declared base) same
          (differ ancestor List.mem_cons_self base named)
  unfold visible
  rw [reorders.hierarchy]
  exact fold _ [] [] distinct .nil

theorem Reorders.applicable?_eq (reorders : methods.Reorders others) (args : List TypeTree) :
    others.applicable? args = methods.applicable? args := by
  obtain ⟨hierarchy, above, declared⟩ := others
  obtain ⟨rfl, rfl, _⟩ := reorders
  rfl

theorem Reorders.choose_eq (reorders : methods.Reorders others) (args : List TypeTree)
    (applicable : List (TreeCandidate × TreeSelection)) :
    others.choose args applicable = methods.choose args applicable := by
  simp only [choose, best, mostSpecific, moreSpecific, reorders.above]

/-- The outcome does not depend on the order in which classes declare their methods. -/
theorem Reorders.select_eq (reorders : methods.Reorders others)
    (distinct : methods.Distinct receiver) :
    others.select receiver args = methods.select receiver args := by
  have visible := reorders.visible_perm distinct
  have applies : (others.applicable receiver args).Perm (methods.applicable receiver args) := by
    unfold applicable
    rw [reorders.applicable?_eq]
    exact visible.filterMap _
  rw [select, select, visible.isEmpty_eq, reorders.choose_eq,
    choose_perm applies (methods.applicable_nodup receiver args)]

/-- Every method has as many parameters as its arity says. -/
def Sized (methods : TreeMethods) : Prop :=
  ∀ base, ∀ method ∈ methods.declared base, ∀ signature, method.signature = some signature →
    signature.params.length = method.arity

/-- A candidate that applies and is an exact match has the types of the arguments as its parameter
types. -/
theorem params_of_exactMatch (sized : methods.Sized) {entry : TreeCandidate × TreeSelection}
    (member : entry ∈ methods.applicable receiver args) (exact : entry.1.exactMatch args) :
    entry.1.params = args := by
  obtain ⟨candidate, listed, applies⟩ := List.mem_filterMap.mp member
  obtain ⟨rfl, arity, published⟩ := eq_of_applicable? applies
  obtain ⟨base, method, declared, owner, subst, same⟩ := mem_visible listed
  obtain ⟨signature, found⟩ := Option.isSome_iff_exists.mp published
  have length : entry.1.params.length = args.length := by
    rw [same] at found arity ⊢
    have given : method.signature = some signature := found
    have full := sized base method declared signature given
    simp only [TreeMethod.candidate, TreeMethod.paramTypes, given, Option.map_some,
      Option.getD_some, List.length_map]
    exact full.trans arity
  refine List.ext_getElem length fun position inside inArgs => ?_
  have pair : (entry.1.params[position], args[position]) ∈ entry.1.params.zip args := by
    have both : position < (entry.1.params.zip args).length :=
      List.length_zip ▸ Nat.lt_min.mpr ⟨inside, inArgs⟩
    exact List.mem_iff_getElem.mpr ⟨position, both, List.getElem_zip ..⟩
  exact of_decide_eq_true (List.all_eq_true.mp exact _ pair)

/-- At most one of the candidates that apply is an exact match. -/
theorem exactMatch_unique (sized : methods.Sized) (receiver : TypeTree) (args : List TypeTree) :
    ((methods.applicable receiver args).filter (·.1.exactMatch args)).length ≤ 1 := by
  let exact := (methods.applicable receiver args).filter (·.1.exactMatch args)
  have distinct : (exact.map (·.1.params)).Nodup :=
    (methods.applicable_nodup receiver args).sublist (List.filter_sublist.map _)
  have same : exact.map (·.1.params) = List.replicate exact.length args := by
    refine List.map_eq_replicate_iff.mpr fun entry member => ?_
    obtain ⟨listed, matched⟩ := List.mem_filter.mp member
    exact params_of_exactMatch sized listed matched
  exact List.nodup_replicate.mp (same ▸ distinct)

end TreeMethods
end ClassLang
