import ClassLang.Proofs.Declaration
import ClassLang.Proofs.Stage.Signatures
import Mathlib.Data.Finset.Lattice.Fold
import Mathlib.Data.Finset.Dedup

/-! Declared units are sound: members and parameters refer to what is laid out with them, and where
no parameter is written as a bound of itself, the declared parameters have ranks that their bounds
lower. -/

namespace ClassLang

/-! Parameters numbered from some position on. -/

section
variable {first index : Nat} {decls : List TypeParamDecl} {decl : TypeParamDecl} {name : Name}

theorem mem_genericParams {param : GenericParam} (member : param ∈ genericParams first decls) :
    ∃ (index : Nat) (decl : TypeParamDecl), decls[index]? = some decl ∧
      param.id = ⟨first + index⟩ ∧ param.name = decl.name ∧ param.bounds = decl.bounds := by
  induction decls generalizing first with
  | nil => cases member
  | cons head rest ih =>
    rcases List.mem_cons.mp member with rfl | later
    · exact ⟨0, head, rfl, rfl, rfl, rfl⟩
    · obtain ⟨index, decl, found, id, facts⟩ := ih later
      exact ⟨index + 1, decl, found, id.trans (congrArg ParamRef.mk (by omega)), facts⟩

theorem exists_genericParam (member : decl ∈ decls) (first : Nat) :
    ∃ param ∈ genericParams first decls, param.name = decl.name := by
  induction decls generalizing first with
  | nil => cases member
  | cons head rest ih =>
    rcases List.mem_cons.mp member with rfl | later
    · exact ⟨_, List.mem_cons_self, rfl⟩
    · obtain ⟨param, present, named⟩ := ih later (first + 1)
      exact ⟨param, List.mem_cons_of_mem _ present, named⟩

theorem mem_genericParams_lt {param : GenericParam} (member : param ∈ genericParams first decls) :
    first ≤ param.id.raw ∧ param.id.raw < first + decls.length := by
  obtain ⟨index, decl, found, id, _⟩ := mem_genericParams member
  have inside := (List.getElem?_eq_some_iff.mp found).1
  rw [id]
  exact ⟨Nat.le_add_right _ _, Nat.add_lt_add_left inside _⟩

namespace TypeScope

theorem find?_append (outer inner : TypeScope) :
    find? (outer ++ inner) name = (find? inner name).or (find? outer name) := by
  simp [find?, List.lookup_append]

theorem ne_of_find?_eq_none {scope : TypeScope} (missing : scope.find? name = none)
    {entry : Name × ParamRef} (member : entry ∈ scope) : entry.1 ≠ name := by
  have differs := List.lookup_eq_none_iff.mp missing entry (List.mem_reverse.mpr member)
  intro same
  simp [same] at differs

/-- Of parameters with one name the last is found. -/
theorem find?_ofParams {param : ParamRef}
    (found : find? (ofParams (genericParams first decls)) name = some param) :
    ∃ (index : Nat) (decl : TypeParamDecl), decls[index]? = some decl ∧ param = ⟨first + index⟩ ∧
      decls.reverse.find? (·.name == name) = some decl := by
  induction decls generalizing first with
  | nil => cases found
  | cons head rest ih =>
    have split : ofParams (genericParams first (head :: rest)) =
        [(head.name, ⟨first⟩)] ++ ofParams (genericParams (first + 1) rest) := rfl
    rw [split, find?_append] at found
    rw [List.reverse_cons, List.find?_append]
    rcases Option.or_eq_some_iff.mp found with later | ⟨missing, answer⟩
    · obtain ⟨index, decl, present, rfl, last⟩ := ih later
      exact ⟨index + 1, decl, present, congrArg ParamRef.mk (by omega), by rw [last]; rfl⟩
    · have same : head.name = name ∧ param = ⟨first⟩ := by
        by_cases same : name = head.name
        · simpa [find?, same, eq_comm] using answer
        · simp [find?, List.lookup_cons, beq_eq_false_iff_ne.mpr same] at answer
      refine ⟨0, head, rfl, same.2, ?_⟩
      have absent : rest.reverse.find? (·.name == name) = none := by
        rw [List.find?_eq_none]
        intro other member named
        obtain ⟨generic, present, sameName⟩ :=
          exists_genericParam (List.mem_reverse.mp member) (first + 1)
        refine ne_of_find?_eq_none missing (List.mem_map_of_mem present) ?_
        exact sameName.trans (beq_iff_eq.mp named)
      simp [absent, same.1]

end TypeScope
end

/-- Ranks for the parameters from `first` on: above those of earlier ones, and lowered by the first
bounds. -/
theorem exists_rank_block (rank : ParamRef → Nat) (first : Nat) {decls : List TypeParamDecl}
    (acyclic : Acyclic (BoundedBy decls)) {outer : TypeScope}
    (earlier : ∀ entry ∈ outer, entry.2.raw < first) :
    ∃ later : ParamRef → Nat, (∀ param, param.raw < first → later param = rank param) ∧
      ∀ param ∈ genericParams first decls,
        TypeScope.Descends (outer ++ .ofParams (genericParams first decls)) later param := by
  obtain ⟨byName, bounded, lowers⟩ := acyclic.exists_rank (decls.map (·.name)).toFinset
    (by rintro source target ⟨_, _, _, member⟩; exact List.mem_toFinset.mpr member)
  let names := (decls.map (·.name)).toFinset
  let top := (Finset.range first).sup (fun index => rank ⟨index⟩) + 1
  let own := TypeScope.ofParams (genericParams first decls)
  -- A parameter that a later one of its name hides is above all that can be found.
  let later (param : ParamRef) : Nat :=
    if param.raw < first then rank param
    else match decls[param.raw - first]? with
      | some decl => top + if own.find? decl.name = some param then byName decl.name else names.card
      | none => top
  have below : ∀ param : ParamRef, param.raw < first → later param = rank param :=
    fun param inside => if_pos inside
  have rank_lt : ∀ param : ParamRef, param.raw < first → rank param < top := fun param inside =>
    Nat.lt_succ_of_le (Finset.le_sup (f := fun index => rank ⟨index⟩) (Finset.mem_range.mpr inside))
  have equal : ∀ (index : Nat) (decl : TypeParamDecl), decls[index]? = some decl →
      later ⟨first + index⟩ = top +
        if own.find? decl.name = some ⟨first + index⟩ then byName decl.name else names.card := by
    intro index decl found
    simp [later, found]
  refine ⟨later, below, fun param member expr head name written other found => ?_⟩
  obtain ⟨index, decl, declared, id, _, bounds⟩ := mem_genericParams member
  have bound : decl.boundName? = some name := by
    unfold TypeParamDecl.boundName?
    rw [← bounds, Option.mem_def.mp head]
    exact written
  rw [id, equal index decl declared]
  rw [TypeScope.find?_append] at found
  rcases Option.or_eq_some_iff.mp found with inside | ⟨_, outside⟩
  · obtain ⟨position, target, present, rfl, last⟩ := TypeScope.find?_ofParams inside
    have named : target.name = name := by simpa using List.find?_some last
    have listed : name ∈ decls.map (·.name) :=
      List.mem_map.mpr ⟨target, List.mem_of_getElem? present, named⟩
    rw [equal position target present, named, if_pos inside]
    refine Nat.add_lt_add_left ?_ top
    split
    · rename_i visible
      obtain ⟨place, chosen, there, same, isLast⟩ := TypeScope.find?_ofParams visible
      have samePlace : index = place := by
        have := congrArg ParamRef.raw same
        simp at this
        omega
      subst samePlace
      cases declared.symm.trans there
      exact lowers _ _ ⟨decl, isLast, bound, listed⟩
    · exact bounded name (List.mem_toFinset.mpr listed)
  · have old := earlier _ (TypeScope.find?_mem outside)
    rw [below other old]
    exact Nat.lt_of_lt_of_le (rank_lt other old) (Nat.le_add_right _ _)

/-- Ranks count only where the scope and the parameter are. -/
theorem TypeScope.Descends.congr {scope : TypeScope} {rank later : ParamRef → Nat}
    {param : GenericParam} {count : Nat} (descends : scope.Descends rank param)
    (same : ∀ other : ParamRef, other.raw < count → later other = rank other)
    (inside : ∀ entry ∈ scope, entry.2.raw < count) (own : param.id.raw < count) :
    scope.Descends later param := by
  intro expr head name written other found
  rw [same other (inside _ (TypeScope.find?_mem found)), same param.id own]
  exact descends expr head name written other found

theorem mem_laidMethods {owner first : Nat} {inInterface : Bool} {methods : List MethodDecl}
    {member : Member} (laid : member ∈ laidMethods owner inInterface first methods) :
    ∃ method ∈ methods, ∃ start, member = method.laid owner inInterface start ∧ first ≤ start ∧
      start + method.typeParams.length ≤
        first + (methods.flatMap fun method =>
          method.typeParams.map (·.declared method.name)).length := by
  induction methods generalizing first with
  | nil => cases laid
  | cons head rest ih =>
    rcases List.mem_cons.mp laid with rfl | later
    · refine ⟨head, List.mem_cons_self, first, rfl, Nat.le_refl _, ?_⟩
      simp [List.flatMap_cons]
    · obtain ⟨method, present, start, same, behind, inside⟩ := ih later
      refine ⟨method, List.mem_cons_of_mem _ present, start, same,
        Nat.le_trans (Nat.le_add_right _ _) behind, Nat.le_trans inside ?_⟩
      simp [List.flatMap_cons, Nat.add_assoc]

/-- Two methods that share a parameter are the same. -/
theorem laidMethods_single {owner first : Nat} {inInterface : Bool} {methods : List MethodDecl}
    {member rival : Member} {param : ParamRef}
    (laid : member ∈ laidMethods owner inInterface first methods)
    (also : rival ∈ laidMethods owner inInterface first methods)
    (own : param ∈ member.typeParams.map (·.id)) (shared : param ∈ rival.typeParams.map (·.id)) :
    member = rival := by
  -- The parameters of a method lie before those of all methods behind it.
  have behind {head : MethodDecl} {rest : List MethodDecl} {first : Nat} {later : Member}
      (inRest : later ∈ laidMethods owner inInterface (first + head.typeParams.length) rest)
      (own : param ∈ (head.laid owner inInterface first).typeParams.map (·.id))
      (shared : param ∈ later.typeParams.map (·.id)) : False := by
    obtain ⟨method, _, start, rfl, after, _⟩ := mem_laidMethods inRest
    obtain ⟨one, listed, rfl⟩ := List.mem_map.mp own
    obtain ⟨other, alsoListed, same⟩ := List.mem_map.mp shared
    have upper := (mem_genericParams_lt listed).2
    have lower := (mem_genericParams_lt alsoListed).1
    rw [same] at lower
    omega
  induction methods generalizing first with
  | nil => cases laid
  | cons head rest ih =>
    rcases List.mem_cons.mp laid with rfl | later <;>
      rcases List.mem_cons.mp also with rfl | alsoLater
    · rfl
    · exact (behind alsoLater own shared).elim
    · exact (behind later shared own).elim
    · exact ih later alsoLater

theorem exists_laidMethod {method : MethodDecl} {methods : List MethodDecl}
    (member : method ∈ methods) (owner first : Nat) (inInterface : Bool) :
    ∃ start, method.laid owner inInterface start ∈ laidMethods owner inInterface first methods := by
  induction methods generalizing first with
  | nil => cases member
  | cons head rest ih =>
    rcases List.mem_cons.mp member with rfl | later
    · exact ⟨first, List.mem_cons_self⟩
    · obtain ⟨start, present⟩ := ih later (first + head.typeParams.length)
      exact ⟨start, List.mem_cons_of_mem _ present⟩

theorem exists_rank_methods (rank : ParamRef → Nat) (owner first : Nat) (inInterface : Bool)
    {methods : List MethodDecl}
    (acyclic : ∀ method ∈ methods, Acyclic (BoundedBy method.typeParams))
    {outer : TypeScope} (earlier : ∀ entry ∈ outer, entry.2.raw < first) :
    ∃ later : ParamRef → Nat, (∀ param, param.raw < first → later param = rank param) ∧
      ∀ member ∈ laidMethods owner inInterface first methods, ∀ param ∈ member.typeParams,
        TypeScope.Descends (outer ++ .ofParams member.typeParams) later param := by
  induction methods generalizing rank first with
  | nil => exact ⟨rank, fun _ _ => rfl, fun _ member => nomatch member⟩
  | cons head rest ih =>
    obtain ⟨middle, same, own⟩ :=
      exists_rank_block rank first (acyclic head List.mem_cons_self) earlier
    obtain ⟨later, kept, others⟩ := ih middle (first + head.typeParams.length)
      (fun method present => acyclic method (List.mem_cons_of_mem _ present))
      (fun entry member => Nat.lt_of_lt_of_le (earlier entry member) (Nat.le_add_right _ _))
    refine ⟨later, fun param inside => (kept param (by omega)).trans (same param inside),
      fun member laid param present => ?_⟩
    rcases List.mem_cons.mp laid with rfl | inRest
    · have listed : param ∈ genericParams first head.typeParams := present
      refine (own param listed).congr kept (fun entry inScope => ?_) (mem_genericParams_lt listed).2
      rcases List.mem_append.mp inScope with old | new
      · exact Nat.lt_of_lt_of_le (earlier entry old) (Nat.le_add_right _ _)
      · obtain ⟨generic, there, rfl⟩ := List.mem_map.mp new
        exact (mem_genericParams_lt there).2
    · exact others member inRest param present

namespace ClassDecl

variable {decl : ClassDecl} {there : Position} {member : Member}

/-- The parameters of the class that are in scope for a member of its layout. -/
def outerScope (decl : ClassDecl) (there : Position) (member : Member) : TypeScope :=
  match member.owner with
  | none => []
  | some _ => .ofParams (genericParams there.param decl.typeParams)

/-- A member as its class lays it out. -/
structure Lays (decl : ClassDecl) (there : Position) (member : Member) : Prop where
  progress : member.progress = .unresolved
  owner : ∀ owner ∈ member.owner, owner = there.member
  bodies : ∀ body ∈ member.body, body ∈ decl.bodies
  members : ∀ inner ∈ member.members, inner < there.member + (decl.layout there).members.length
  params : ∀ param ∈ member.typeParams, param.id.raw < there.param + decl.declaredParams.length

theorem lays (laid : member ∈ (decl.layout there).members) : decl.Lays there member := by
  have width : decl.typeParams.length ≤ decl.declaredParams.length := by simp [declaredParams]
  rcases List.mem_cons.mp laid with rfl | inner
  · refine ⟨rfl, by simp [ClassDecl.laid], by simp [ClassDecl.laid, Member.body],
      fun index listed => ?_,
      fun param present => ?_⟩
    · have inside := (List.mem_range'_1.mp listed).2
      simpa [layout, partialLayout, Nat.add_assoc, Nat.add_comm 1] using inside
    · have inside := (mem_genericParams_lt present).2
      omega
  · rcases List.mem_append.mp inner with inFields | inMethods
    · obtain ⟨field, present, rfl⟩ := List.mem_map.mp inFields
      refine ⟨rfl, by simp [FieldDecl.laid], fun body written => ?_,
        by simp [FieldDecl.laid, Member.members], by simp [FieldDecl.laid, Member.typeParams]⟩
      exact List.mem_append_left _ (List.mem_filterMap.mpr ⟨field, present, written⟩)
    · obtain ⟨method, present, start, rfl, _, inside⟩ := mem_laidMethods inMethods
      refine ⟨rfl, by simp [MethodDecl.laid], fun body written => ?_,
        by simp [MethodDecl.laid, Member.members], fun param listed => ?_⟩
      · exact List.mem_append_right _ (List.mem_filterMap.mpr ⟨method, present, written⟩)
      · have own := (mem_genericParams_lt listed).2
        have width : decl.declaredParams.length = decl.typeParams.length +
            (decl.methods.flatMap fun method =>
              method.typeParams.map (·.declared method.name)).length := by
          simp [declaredParams]
        omega

/-- Every body of the class is the body of a member. -/
theorem exists_member_of_body {body : ExprRef} (written : body ∈ decl.bodies) (there : Position) :
    ∃ member ∈ (decl.layout there).members, member.body = some body := by
  rcases List.mem_append.mp written with inFields | inMethods
  · obtain ⟨field, present, hasBody⟩ := List.mem_filterMap.mp inFields
    exact ⟨field.laid there.member, List.mem_cons_of_mem _ (List.mem_append_left _
      (List.mem_map_of_mem present)), hasBody⟩
  · obtain ⟨method, present, hasBody⟩ := List.mem_filterMap.mp inMethods
    obtain ⟨start, laid⟩ := exists_laidMethod present there.member
      (there.param + decl.typeParams.length) decl.modifiers.isInterface
    exact ⟨_, List.mem_cons_of_mem _ (List.mem_append_right _ laid), hasBody⟩

theorem mem_outerScope {entry : Name × ParamRef} (member : entry ∈ decl.outerScope there member) :
    entry.2.raw < there.param + decl.typeParams.length := by
  unfold outerScope at member
  split at member
  · cases member
  · obtain ⟨generic, present, rfl⟩ := List.mem_map.mp member
    exact (mem_genericParams_lt present).2

/-- The ranks of the parameters of a class and of its methods. -/
theorem exists_rank (rank : ParamRef → Nat) (there : Position) (grounded : decl.Grounded) :
    ∃ later : ParamRef → Nat, (∀ param, param.raw < there.param → later param = rank param) ∧
      ∀ member ∈ (decl.layout there).members, ∀ param ∈ member.typeParams,
        TypeScope.Descends (decl.outerScope there member ++ .ofParams member.typeParams)
          later param := by
  obtain ⟨middle, same, own⟩ :=
    @exists_rank_block rank there.param decl.typeParams grounded.own [] (by simp)
  have declared : ∀ entry ∈ TypeScope.ofParams (genericParams there.param decl.typeParams),
      entry.2.raw < there.param + decl.typeParams.length := by
    intro entry member
    obtain ⟨generic, present, rfl⟩ := List.mem_map.mp member
    exact (mem_genericParams_lt present).2
  obtain ⟨later, kept, methods⟩ := exists_rank_methods middle there.member
    (there.param + decl.typeParams.length) decl.modifiers.isInterface grounded.methods declared
  refine ⟨later, fun param inside => (kept param (by omega)).trans (same param inside),
    fun member laid param present => ?_⟩
  rcases List.mem_cons.mp laid with rfl | inner
  · exact (own param present).congr kept declared (mem_genericParams_lt present).2
  · rcases List.mem_append.mp inner with inFields | inMethods
    · obtain ⟨field, _, rfl⟩ := List.mem_map.mp inFields
      cases present
    · have scope : decl.outerScope there member =
          .ofParams (genericParams there.param decl.typeParams) := by
        obtain ⟨_, _, _, rfl, _⟩ := mem_laidMethods inMethods
        rfl
      rw [scope]
      exact methods member inMethods param present

end ClassDecl

/-! Layouts of several classes. -/

namespace Layout

/-- Every member has a symbol, and nothing is resolved yet. -/
structure Fits (layout : Layout) (position : Position) : Prop where
  members : layout.symbols.length = layout.members.length
  params : ∀ param ∈ layout.params, param.bounds = []
  symbols : ∀ symbol ∈ layout.symbols, symbol.signature = none
  records : ∀ record ∈ layout.records, record.symbol < (position.after layout).symbol ∧
    record.superclass = none ∧ record.interfaces = [] ∧
    ∀ param ∈ record.typeParams, param.raw < (position.after layout).param

theorem Fits.append {first second : Layout} {position : Position} (earlier : first.Fits position)
    (later : second.Fits (position.after first)) : (first.append second).Fits position := by
  refine ⟨?_, fun param member => ?_, fun symbol member => ?_, fun record member => ?_⟩
  · simp [Layout.append, earlier.members, later.members]
  · exact (List.mem_append.mp member).elim (earlier.params param) (later.params param)
  · exact (List.mem_append.mp member).elim (earlier.symbols symbol) (later.symbols symbol)
  · rcases List.mem_append.mp member with old | new
    · obtain ⟨symbol, superclass, interfaces, params⟩ := earlier.records record old
      simp only [Position.after, Layout.append, List.length_append] at symbol params ⊢
      exact ⟨by omega, superclass, interfaces, fun param present => by
        have := params param present
        omega⟩
    · obtain ⟨symbol, superclass, interfaces, params⟩ := later.records record new
      simp only [Position.after, Layout.append, List.length_append] at symbol params ⊢
      exact ⟨by omega, superclass, interfaces, fun param present => by
        have := params param present
        omega⟩

end Layout

theorem ClassDecl.layout_fits (decl : ClassDecl) (position : Position) :
    (decl.layout position).Fits position := by
  refine ⟨by simp [layout, partialLayout], fun param member => ?_, fun symbol member => ?_,
    fun record member => ?_⟩
  · rcases List.mem_append.mp member with own | methods
    · obtain ⟨_, _, rfl⟩ := List.mem_map.mp own
      rfl
    · obtain ⟨_, _, own⟩ := List.mem_flatMap.mp methods
      obtain ⟨_, _, rfl⟩ := List.mem_map.mp own
      rfl
  · rcases List.mem_cons.mp member with rfl | inner
    · rfl
    · obtain ⟨_, _, rfl⟩ := List.mem_map.mp inner
      rfl
  · rw [List.mem_singleton.mp member]
    refine ⟨by simp [Position.after, layout, partialLayout], rfl, rfl, fun param present => ?_⟩
    obtain ⟨generic, listed, rfl⟩ := List.mem_map.mp present
    have inside := (mem_genericParams_lt listed).2
    have width : decl.typeParams.length ≤ (decl.layout position).params.length := by
      simp [layout, partialLayout, declaredParams]
    simp only [Position.after]
    omega

theorem layoutAll_fits (decls : List ClassDecl) (position : Position) :
    (layoutAll position decls).Fits position := by
  induction decls generalizing position with
  | nil => constructor <;> simp [layoutAll]
  | cons decl rest ih =>
    rw [layoutAll]
    exact (decl.layout_fits position).append (ih _)

/-- The class is laid out at a position among others. -/
inductive Placed : Position → List ClassDecl → ClassDecl → Position → Prop where
  | here {position : Position} {decl : ClassDecl} {rest : List ClassDecl} :
      Placed position (decl :: rest) decl position
  | later {position there : Position} {first decl : ClassDecl} {rest : List ClassDecl}
      (placed : Placed (position.after (first.layout position)) rest decl there) :
      Placed position (first :: rest) decl there

namespace Placed

variable {position there : Position} {decls : List ClassDecl} {decl : ClassDecl} {member : Member}

theorem mem (placed : Placed position decls decl there) : decl ∈ decls := by
  induction placed with
  | here => exact List.mem_cons_self
  | later _ ih => exact List.mem_cons_of_mem _ ih

theorem split (placed : Placed position decls decl there) : ∃ before behind : Layout,
    layoutAll position decls = (before.append (decl.layout there)).append behind ∧
      there = position.after before := by
  induction placed with
  | @here position decl rest =>
    exact ⟨{}, layoutAll (position.after (decl.layout position)) rest,
      by simp [layoutAll, Layout.append], by simp [Position.after]⟩
  | @later position there first _ _ _ ih =>
    obtain ⟨before, behind, same, rfl⟩ := ih
    refine ⟨(first.layout position).append before, behind, ?_, ?_⟩
    · rw [layoutAll, same]
      simp [Layout.append]
    · simp [Position.after, Layout.append, Nat.add_assoc]

/-- A class stands at its position among the members. -/
theorem lookup (placed : Placed position decls decl there) {index : Nat}
    (found : (decl.layout there).members[index]? = some member) :
    ∃ place, position.member + place = there.member + index ∧
      (layoutAll position decls).members[place]? = some member := by
  obtain ⟨before, behind, same, rfl⟩ := placed.split
  have inside := (List.getElem?_eq_some_iff.mp found).1
  refine ⟨before.members.length + index, by simp [Position.after, Nat.add_assoc], ?_⟩
  rw [same]
  simp only [Layout.append]
  rw [List.append_assoc, List.getElem?_append_right (Nat.le_add_right _ _), Nat.add_sub_cancel_left,
    List.getElem?_append_left inside, found]

/-- So does its symbol among the symbols. -/
theorem lookup_symbol (placed : Placed position decls decl there) {index : Nat} {symbol : Symbol}
    (found : (decl.layout there).symbols[index]? = some symbol) :
    ∃ place, position.symbol + place = there.symbol + index ∧
      (layoutAll position decls).symbols[place]? = some symbol := by
  obtain ⟨before, behind, same, rfl⟩ := placed.split
  have inside := (List.getElem?_eq_some_iff.mp found).1
  refine ⟨before.symbols.length + index, by simp [Position.after, Nat.add_assoc], ?_⟩
  rw [same]
  simp only [Layout.append]
  rw [List.append_assoc, List.getElem?_append_right (Nat.le_add_right _ _), Nat.add_sub_cancel_left,
    List.getElem?_append_left inside, found]

/-- What a class takes up is taken up. -/
theorem after_le (placed : Placed position decls decl there) :
    (there.after (decl.layout there)).member ≤ (position.after (layoutAll position decls)).member ∧
      (there.after (decl.layout there)).param ≤ (position.after (layoutAll position decls)).param ∧
      (there.after (decl.layout there)).symbol ≤
        (position.after (layoutAll position decls)).symbol := by
  obtain ⟨before, behind, same, rfl⟩ := placed.split
  rw [same]
  simp only [Position.after, Layout.append, List.length_append]
  omega

/-- Classes are laid out behind the position, with one symbol for each member. -/
theorem position_le (placed : Placed position decls decl there) :
    position.symbol ≤ there.symbol ∧ position.param ≤ there.param ∧
      there.symbol + position.member = position.symbol + there.member := by
  induction placed with
  | here => exact ⟨Nat.le_refl _, Nat.le_refl _, rfl⟩
  | @later position _ first _ _ _ ih =>
    have width := (first.layout_fits position).members
    simp only [Position.after] at ih
    omega

/-- Of two classes one is laid out behind the other. -/
theorem same_or_behind {other : ClassDecl} {place : Position}
    (placed : Placed position decls decl there) (also : Placed position decls other place) :
    decl = other ∧ there = place ∨
      ((there.after (decl.layout there)).symbol ≤ place.symbol ∧
        (there.after (decl.layout there)).param ≤ place.param) ∨
        (place.after (other.layout place)).symbol ≤ there.symbol ∧
        (place.after (other.layout place)).param ≤ there.param := by
  induction placed with
  | here =>
    cases also with
    | here => exact .inl ⟨rfl, rfl⟩
    | later behind => exact .inr (.inl ⟨behind.position_le.1, behind.position_le.2.1⟩)
  | later behind ih =>
    cases also with
    | here => exact .inr (.inr ⟨behind.position_le.1, behind.position_le.2.1⟩)
    | later also => exact ih also

end Placed

/-- Every class is laid out. -/
theorem placed_of_mem {decls : List ClassDecl} {decl : ClassDecl} (member : decl ∈ decls)
    (position : Position) : ∃ there, Placed position decls decl there := by
  induction decls generalizing position with
  | nil => cases member
  | cons first rest ih =>
    rcases List.mem_cons.mp member with rfl | later
    · exact ⟨position, .here⟩
    · obtain ⟨there, placed⟩ := ih later _
      exact ⟨there, .later placed⟩

/-- Every member is laid out by one of the classes, at its place in the class. -/
theorem exists_placed_at {position : Position} {decls : List ClassDecl} {place : Nat}
    {member : Member} (found : (layoutAll position decls).members[place]? = some member) :
    ∃ decl there index, Placed position decls decl there ∧
    position.member + place = there.member + index ∧
      (decl.layout there).members[index]? = some member := by
  induction decls generalizing position place with
  | nil => simp [layoutAll] at found
  | cons first rest ih =>
    change ((first.layout position).members ++
      (layoutAll (position.after (first.layout position)) rest).members)[place]? =
      some member at found
    rw [List.getElem?_append] at found
    split at found
    · exact ⟨first, position, place, .here, rfl, found⟩
    · obtain ⟨decl, there, index, placed, same, laid⟩ := ih found
      refine ⟨decl, there, index, .later placed, ?_, laid⟩
      simp only [Position.after] at same
      omega

theorem exists_placed {position : Position} {decls : List ClassDecl} {place : Nat} {member : Member}
    (found : (layoutAll position decls).members[place]? = some member) :
    ∃ decl there, Placed position decls decl there ∧ member ∈ (decl.layout there).members := by
  obtain ⟨decl, there, _, placed, _, laid⟩ := exists_placed_at found
  exact ⟨decl, there, placed, List.mem_of_getElem? laid⟩

/-- Every record is that of one of the classes. -/
theorem exists_placed_record {position : Position} {decls : List ClassDecl} {record : ClassRecord}
    (listed : record ∈ (layoutAll position decls).records) :
    ∃ decl there, Placed position decls decl there ∧ record ∈ (decl.layout there).records := by
  induction decls generalizing position with
  | nil => cases listed
  | cons first rest ih =>
    rcases List.mem_append.mp listed with own | others
    · exact ⟨first, position, .here, own⟩
    · obtain ⟨decl, there, placed, recorded⟩ := ih others
      exact ⟨decl, there, .later placed, recorded⟩

/-- The ranks of the parameters of a unit. -/
theorem exists_rank_layout (rank : ParamRef → Nat) (position : Position) {decls : List ClassDecl}
    (grounded : ∀ decl ∈ decls, decl.Grounded) :
    ∃ later : ParamRef → Nat, (∀ param, param.raw < position.param → later param = rank param) ∧
      ∀ decl there, Placed position decls decl there → ∀ member ∈ (decl.layout there).members,
        ∀ param ∈ member.typeParams, TypeScope.Descends
          (decl.outerScope there member ++ .ofParams member.typeParams) later param := by
  induction decls generalizing rank position with
  | nil => exact ⟨rank, fun _ _ => rfl, fun _ _ placed => absurd placed.mem List.not_mem_nil⟩
  | cons first rest ih =>
    obtain ⟨middle, same, own⟩ :=
      ClassDecl.exists_rank rank position (grounded first List.mem_cons_self)
    obtain ⟨later, kept, others⟩ := ih middle (position.after (first.layout position))
      fun decl present => grounded decl (List.mem_cons_of_mem _ present)
    have grown : position.param ≤ (position.after (first.layout position)).param :=
      Nat.le_add_right _ _
    refine ⟨later, fun param inside => (kept param (Nat.lt_of_lt_of_le inside grown)).trans
      (same param inside), fun decl there placed member laid param present => ?_⟩
    cases placed with
    | here =>
      have lays := ClassDecl.lays laid
      refine (own member laid param present).congr kept (fun entry inScope => ?_)
        (lays.params param present)
      rcases List.mem_append.mp inScope with outer | inner
      · have inside := ClassDecl.mem_outerScope outer
        have width : first.typeParams.length ≤ (first.layout position).params.length := by
          simp [ClassDecl.layout, ClassDecl.partialLayout, ClassDecl.declaredParams]
        simp only [Position.after]
        omega
      · obtain ⟨generic, listed, rfl⟩ := List.mem_map.mp inner
        exact lays.params generic listed
    | later placed => exact others decl there placed member laid param present

namespace SourceUnit
open CompilationUnit

variable {source : SourceUnit} {position : Position} {pool : TypePool} {id : Nat} {member : Member}

theorem declared_lookup : (source.declared position).members.members[id]? =
    (layoutAll position source.classes).members[id]? := by
  simp [SourceUnit.declared]

theorem declared_member (found : (source.declared position).members.members[id]? = some member) :
    member.progress = .unresolved ∧ ∀ body ∈ member.body, body ∈ source.bodies := by
  obtain ⟨decl, there, placed, laid⟩ := exists_placed (declared_lookup ▸ found)
  have lays := ClassDecl.lays laid
  exact ⟨lays.progress, fun body written =>
    List.mem_flatMap.mpr ⟨decl, placed.mem, lays.bodies body written⟩⟩

/-- Every body of the unit is the body of a member. -/
theorem declared_body {body : ExprRef} (written : body ∈ source.bodies) :
    ∃ (id : Nat) (member : Member),
      (source.declared position).members.members[id]? = some member ∧ member.body = some body := by
  obtain ⟨decl, present, own⟩ := List.mem_flatMap.mp written
  obtain ⟨there, placed⟩ := placed_of_mem present position
  obtain ⟨member, laid, hasBody⟩ := ClassDecl.exists_member_of_body own there
  obtain ⟨index, found⟩ := List.mem_iff_getElem?.mp laid
  obtain ⟨place, _, lookup⟩ := placed.lookup found
  exact ⟨place, member, declared_lookup.trans lookup, hasBody⟩

section
variable (first : position.member = 0)
include first

/-- The class around a member. -/
theorem declared_class {decl : ClassDecl} {there : Position}
    (placed : Placed position source.classes decl there) :
    ∃ members, (source.declared position).members.members[there.member]? =
      some (decl.laid there members) := by
  obtain ⟨place, same, found⟩ := placed.lookup (List.getElem?_cons_zero ..)
  have equal : place = there.member := by omega
  rw [equal] at found
  exact ⟨_, declared_lookup.trans found⟩

theorem declared_laid (declares : (position.after (layoutAll position source.classes)).param ≤
    pool.params.size) : (source.declared position).Laid pool
      (position.after (layoutAll position source.classes)).symbol := by
  have fits := layoutAll_fits source.classes position
  have size : (source.declared position).members.size =
      (layoutAll position source.classes).members.length := by
    simp [SourceUnit.declared, MemberArena.size]
  refine ⟨?_, fun id symbol found => ?_, fun id member found owner owned => ?_,
    fun id member found inner listed => ?_, fun id member found param present => ?_⟩
  · rw [size, ← fits.members]
    simp [SourceUnit.declared]
  · have listed : symbol ∈ List.range' position.symbol
        (layoutAll position source.classes).symbols.length := by
      simpa [SourceUnit.declared] using Array.mem_of_getElem? found
    exact (List.mem_range'_1.mp listed).2
  · obtain ⟨decl, there, placed, laid⟩ := exists_placed (declared_lookup ▸ found)
    obtain ⟨members, present⟩ := declared_class first placed
    rw [(ClassDecl.lays laid).owner owner owned]
    exact ⟨_, present, rfl⟩
  · obtain ⟨decl, there, placed, laid⟩ := exists_placed (declared_lookup ▸ found)
    have inside := (ClassDecl.lays laid).members inner listed
    have taken := placed.after_le.1
    simp only [Position.after] at taken
    omega
  · obtain ⟨decl, there, placed, laid⟩ := exists_placed (declared_lookup ▸ found)
    have inside := (ClassDecl.lays laid).params param present
    exact Nat.lt_of_lt_of_le (Nat.lt_of_lt_of_le inside placed.after_le.2.1) declares

/-- The scope of a member is the one it is laid out with. -/
theorem declared_scope (found : (source.declared position).members.members[id]? = some member) :
    ∃ decl there, Placed position source.classes decl there ∧ member ∈ (decl.layout there).members ∧
      (source.declared position).scopeOf member =
        decl.outerScope there member ++ .ofParams member.typeParams := by
  obtain ⟨decl, there, placed, laid⟩ := exists_placed (declared_lookup ▸ found)
  refine ⟨decl, there, placed, laid, ?_⟩
  obtain ⟨members, present⟩ := declared_class first placed
  unfold scopeOf outerParams ClassDecl.outerScope
  cases owned : member.owner with
  | none => rfl
  | some owner =>
    rw [(ClassDecl.lays laid).owner owner owned, Option.bind_some, present]
    rfl

end

theorem declared_recorded (count : Nat) : (source.declared position).Recorded pool count where
  patterns := PatternStore.sound_empty pool
  types _ _ found := by simp [SourceUnit.declared, IdMap.get?] at found
  resolutions _ _ _ found := by simp [SourceUnit.declared, IdMap.get?] at found
  groups _ _ found := by simp [SourceUnit.declared, IdMap.get?] at found
  copies _ _ _ _ _ found := by simp [SourceUnit.declared, IdMap.get?] at found
  boundUses _ member := by simp [SourceUnit.declared] at member

end SourceUnit

/-- Declarations keep the shared parts sound. -/
theorem Program.Sound.add {program : Program} {layout : Layout} {unit : Nat} (sound : program.Sound)
    (fits : layout.Fits (program.position unit)) :
    program.pool.Within (program.add layout).pool ∧ (program.add layout).Sound := by
  have within : program.pool.Within (program.add layout).pool :=
    ⟨.of_eq rfl rfl, by simp [Program.add]⟩
  refine ⟨within, ⟨sound.pool.primitives.trans within.types, sound.pool.lockstep, sound.pool.parts,
    ?_, ?_⟩, ?_, ?_⟩
  · intro index param variance found
    exact within.declares (sound.pool.named index param variance found)
  · intro index declared found bound member
    simp only [Program.add] at found
    rw [Array.getElem?_append] at found
    split at found
    · exact within.has (sound.pool.bounds index declared found bound member)
    · rw [fits.params declared (by simpa using Array.mem_of_getElem? found)] at member
      cases member
  · intro record member
    have size : (program.add layout).symbols.size =
        program.symbols.size + layout.symbols.length := by
      simp [Program.add, SymbolTable.size]
    rcases List.mem_append.mp member with old | new
    · exact (sound.symbols.records record old).grow within (by omega)
    · obtain ⟨symbol, superclass, interfaces, params⟩ := fits.records record new
      refine ⟨Nat.lt_of_lt_of_eq symbol size.symm, fun param present => ?_, ?_, ?_⟩
      · have inside := params param present
        simpa [TypePool.Declares, Program.add, Position.after, Program.position] using inside
      · simp [superclass]
      · simp [interfaces]
  · intro id symbol signature found published
    simp only [Program.add] at found
    rw [Array.getElem?_append] at found
    split at found
    · exact (sound.symbols.signatures id symbol signature found published).grow within
    · rw [fits.symbols symbol (by simpa using Array.mem_of_getElem? found)] at published
      cases published

end ClassLang
