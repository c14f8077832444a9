import ClassLang.Proofs.Stage.Workspace
import ClassLang.Stage.Signatures

/-! How the stages change a unit: members are replaced by members that follow them, and what is
recorded about expressions is only added to. -/

namespace ClassLang

/-- The later member stands at the same place in its class and has the same body. -/
structure Member.Follows (before after : Member) : Prop where
  owner : after.owner = before.owner
  typeParams : after.typeParams = before.typeParams
  members : after.members = before.members
  body : after.body = before.body

theorem Member.Follows.refl (member : Member) : member.Follows member := ⟨rfl, rfl, rfl, rfl⟩

theorem Member.Follows.trans {first second third : Member} (earlier : first.Follows second)
    (later : second.Follows third) : first.Follows third :=
  ⟨later.owner.trans earlier.owner, later.typeParams.trans earlier.typeParams,
    later.members.trans earlier.members, later.body.trans earlier.body⟩

/-- The initializer or body is an expression of the arena. -/
def Member.BodyIn (member : Member) (arena : Arena) : Prop :=
  ∀ body ∈ member.body, ∃ index < arena.size, body = .node index

namespace MemberArena

variable {arena : MemberArena} {id other : Nat} {member later : Member}

theorem get_eq (found : arena.members[id]? = some member) : arena.get id = .ok member := by
  simp [MemberArena.get, found]

theorem lookup_of_get (read : arena.get id = .ok member) : arena.members[id]? = some member := by
  unfold MemberArena.get at read
  split at read
  · cases read
    assumption
  · cases read

theorem get_ok (inside : id < arena.size) : ∃ member, arena.get id = .ok member :=
  ⟨_, get_eq (Array.getElem?_eq_getElem inside)⟩

@[simp] theorem size_set : (arena.set id later).size = arena.size :=
  Array.size_setIfInBounds

theorem lookup_set (found : arena.members[id]? = some member) :
    (arena.set id later).members[other]? = if other =
      id then some later else arena.members[other]? := by
  by_cases same : other = id
  · subst same
    rw [if_pos rfl]
    exact Array.getElem?_setIfInBounds_self_of_lt (Array.getElem?_eq_some_iff.mp found).1
  · rw [if_neg same]
    exact Array.getElem?_setIfInBounds_ne (Ne.symm same)

theorem set_self (found : arena.members[id]? = some member) : arena.set id member = arena := by
  obtain ⟨members⟩ := arena
  refine congrArg MemberArena.mk (Array.ext_getElem? fun other => ?_)
  refine (lookup_set found).trans ?_
  split
  · subst other
    exact found.symm
  · rfl

/-- A class at the top is its own outermost class. -/
theorem topLevel_eq (found : arena.members[id]? = some member) (top : member.owner = none) :
    arena.topLevel id = .ok id := by
  unfold topLevel topLevelWithin
  simp [get_eq found, top]

end MemberArena

namespace CompilationUnit

/-- Members are replaced by members that follow them; the arena stays and groups are kept. -/
structure Evolves (before after : CompilationUnit) : Prop where
  size : after.members.size = before.members.size
  members : ∀ (id : Nat) (member : Member), before.members.members[id]? = some member →
    ∃ later, after.members.members[id]? = some later ∧ member.Follows later
  symbols : after.symbols = before.symbols
  arena : after.arena = before.arena
  diagnostics : after.diagnostics = before.diagnostics
  groups : ∀ index, (before.matchGroups.get? index).isSome → (after.matchGroups.get? index).isSome

/-- Only records about expressions change: patterns are kept, and so are groups. -/
structure Records (before after : CompilationUnit) : Prop where
  rest : after = { before with
    patterns := after.patterns, exprTypes := after.exprTypes, resolutions := after.resolutions,
    matchGroups := after.matchGroups, boundUses := after.boundUses }
  patterns : before.patterns.Keeps after.patterns
  groups : ∀ index, (before.matchGroups.get? index).isSome → (after.matchGroups.get? index).isSome

variable {unit before after : CompilationUnit} {pool : TypePool} {count id : Nat}
  {member later : Member}

instance : IsPreorder CompilationUnit Evolves where
  refl unit := ⟨rfl, fun _ member found => ⟨member, found, .refl member⟩, rfl, rfl, rfl,
    fun _ isSome => isSome⟩
  trans _ _ _ earlier later := by
    refine ⟨later.size.trans earlier.size, fun id member found => ?_,
      later.symbols.trans earlier.symbols, later.arena.trans earlier.arena,
        later.diagnostics.trans earlier.diagnostics,
      fun index isSome => later.groups index (earlier.groups index isSome)⟩
    obtain ⟨middle, between, first⟩ := earlier.members id member found
    obtain ⟨last, present, second⟩ := later.members id middle between
    exact ⟨last, present, first.trans second⟩

instance : IsPreorder CompilationUnit Records where
  refl unit := ⟨rfl, .refl _, fun _ isSome => isSome⟩
  trans _ _ _ earlier later := by
    refine ⟨?_, earlier.patterns.trans later.patterns,
      fun index isSome => later.groups index (earlier.groups index isSome)⟩
    rw [later.rest, earlier.rest]

theorem Records.members (records : before.Records after) : after.members = before.members := by
  rw [records.rest]

theorem Records.arena (records : before.Records after) : after.arena = before.arena := by
  rw [records.rest]

theorem Records.symbols (records : before.Records after) : after.symbols = before.symbols := by
  rw [records.rest]

theorem Records.evolves (records : before.Records after) : before.Evolves after where
  size := by rw [records.members]
  members id member found := ⟨member, by rw [records.members, found], .refl member⟩
  symbols := records.symbols
  arena := records.arena
  diagnostics := by rw [records.rest]
  groups := records.groups

theorem Evolves.lookup (evolved : before.Evolves after)
    (found : after.members.members[id]? = some later) :
    ∃ member, before.members.members[id]? = some member ∧ member.Follows later := by
  have inside : id < before.members.size := evolved.size ▸ (Array.getElem?_eq_some_iff.mp found).1
  obtain ⟨other, present, follows⟩ := evolved.members id _ (Array.getElem?_eq_getElem inside)
  rw [found] at present
  cases present
  exact ⟨_, Array.getElem?_eq_getElem inside, follows⟩

theorem Laid.evolve (laid : before.Laid pool count) (evolved : before.Evolves after) :
    after.Laid pool count := by
  refine ⟨?_, fun id symbol found => ?_, fun id later found owner present => ?_,
    fun id later found inner present => ?_, fun id later found param present => ?_⟩
  · rw [evolved.symbols, evolved.size, laid.size]
  · exact laid.symbols id symbol (evolved.symbols ▸ found)
  · obtain ⟨member, stored, follows⟩ := evolved.lookup found
    obtain ⟨class_, there, top⟩ := laid.owners id member stored owner (follows.owner ▸ present)
    obtain ⟨replaced, now, same⟩ := evolved.members owner class_ there
    exact ⟨replaced, now, same.owner.trans top⟩
  · obtain ⟨member, stored, follows⟩ := evolved.lookup found
    rw [evolved.size]
    exact laid.members id member stored inner (follows.members ▸ present)
  · obtain ⟨member, stored, follows⟩ := evolved.lookup found
    exact laid.params id member stored param (follows.typeParams ▸ present)

theorem evolves_set (found : unit.members.members[id]? = some member)
    (follows : member.Follows later) :
    unit.Evolves { unit with members := unit.members.set id later } := by
  refine ⟨MemberArena.size_set, fun other known present => ?_, rfl, rfl, rfl, fun _ kept => kept⟩
  by_cases same : other = id
  · subst same
    rw [found] at present
    cases present
    exact ⟨later, by rw [MemberArena.lookup_set found, if_pos rfl], follows⟩
  · exact ⟨known, by rw [MemberArena.lookup_set found, if_neg same, present], .refl known⟩

/-- The outermost class around a member that stands in a class at the top, or in none. -/
theorem classOf_nested (found : unit.members.members[id]? = some member)
    (owners : ∀ owner ∈ member.owner, ∃ class_, unit.members.members[owner]? = some class_ ∧
      class_.owner = none) :
    ∃ (top : Nat) (class_ : Member), unit.classOf id = .ok class_ ∧
    unit.members.members[top]? = some class_ ∧
      (class_ = member ∨ member.owner = some top) := by
  unfold classOf
  cases owner : member.owner with
  | none =>
    exact ⟨id, member, by simp [MemberArena.topLevel_eq found owner, MemberArena.get_eq found],
      found, .inl rfl⟩
  | some outer =>
    obtain ⟨class_, there, top⟩ := owners outer owner
    refine ⟨outer, class_, ?_, there, .inr rfl⟩
    have inside : id < unit.members.size := (Array.getElem?_eq_some_iff.mp found).1
    obtain ⟨fuel, same⟩ : ∃ fuel, unit.members.size = fuel + 1 :=
      ⟨unit.members.size - 1, by omega⟩
    unfold MemberArena.topLevel MemberArena.topLevelWithin
    simp only [MemberArena.get_eq found, ok_bind, owner, same]
    unfold MemberArena.topLevelWithin
    simp [MemberArena.get_eq there, top]

theorem Laid.classOf_eq (laid : unit.Laid pool count)
    (found : unit.members.members[id]? = some member) : ∃ (top : Nat) (class_ : Member),
    unit.classOf id = .ok class_ ∧
      unit.members.members[top]? = some class_ := by
  obtain ⟨top, class_, ran, there, _⟩ := classOf_nested found (laid.owners id member found)
  exact ⟨top, class_, ran, there⟩

/-- The type parameters of the class around a member. -/
def outerParams (unit : CompilationUnit) (member : Member) : List GenericParam :=
  ((member.owner.bind (unit.members.members[·]?)).map (·.typeParams)).getD []

/-- The scope of a member: the parameters of its class, then its own. -/
def scopeOf (unit : CompilationUnit) (member : Member) : TypeScope :=
  .ofParams (unit.outerParams member) ++ .ofParams member.typeParams

theorem forMember_nested (found : unit.members.members[id]? = some member)
    (owners : ∀ owner ∈ member.owner, ∃ class_, unit.members.members[owner]? = some class_ ∧
      class_.owner = none) :
    TypeScope.forMember unit.members id = .ok (unit.scopeOf member) := by
  unfold TypeScope.forMember scopeOf outerParams
  rw [MemberArena.get_eq found, ok_bind]
  cases owner : member.owner with
  | none => rfl
  | some outer =>
    obtain ⟨class_, there, top⟩ := owners outer owner
    simp [MemberArena.topLevel_eq there top, MemberArena.get_eq there, there]

theorem Laid.forMember_eq (laid : unit.Laid pool count)
    (found : unit.members.members[id]? = some member) :
    TypeScope.forMember unit.members id = .ok (unit.scopeOf member) :=
  forMember_nested found (laid.owners id member found)

theorem Evolves.scopeOf_eq (evolved : before.Evolves after) (laid : before.Laid pool count)
    (found : before.members.members[id]? = some member) (follows : member.Follows later) :
    after.scopeOf later = before.scopeOf member := by
  unfold scopeOf outerParams
  rw [follows.owner, follows.typeParams]
  cases owner : member.owner with
  | none => rfl
  | some outer =>
    obtain ⟨class_, there, _⟩ := laid.owners id member found outer owner
    obtain ⟨replaced, now, same⟩ := evolved.members outer class_ there
    simp [there, now, same.typeParams]

/-- Parameters in scope are declared. -/
theorem Laid.scope_declared (laid : unit.Laid pool count)
    (found : unit.members.members[id]? = some member) :
    ∀ entry ∈ unit.scopeOf member, pool.Declares entry.2 := by
  intro entry present
  rcases List.mem_append.mp present with outer | own
  · obtain ⟨param, listed, rfl⟩ := List.mem_map.mp outer
    unfold outerParams at listed
    cases owner : member.owner with
    | none => simp [owner] at listed
    | some index =>
      obtain ⟨class_, there, _⟩ := laid.owners id member found index owner
      simp only [owner, Option.bind_some, there, Option.map_some, Option.getD_some] at listed
      exact laid.params index class_ there param listed
  · obtain ⟨param, listed, rfl⟩ := List.mem_map.mp own
    exact laid.params id member found param listed

theorem Laid.symbol_ok (laid : unit.Laid pool count) (inside : id < unit.members.size) :
    ∃ symbol, unit.symbol id = .ok symbol ∧ symbol < count := by
  obtain ⟨symbol, found⟩ : ∃ symbol, unit.symbols[id]? = some symbol :=
    ⟨_, Array.getElem?_eq_getElem (laid.size ▸ inside)⟩
  exact ⟨symbol, by simp [CompilationUnit.symbol, found], laid.symbols id symbol found⟩

end CompilationUnit

namespace StageM.Works
open Workspace CompilationUnit

variable {total : Prop} {work : Workspace} {id : Nat} {member later : Member}

/-- Something is recorded about an expression. -/
theorem record {change : CompilationUnit → CompilationUnit}
    (records : work.unit.Records (change work.unit))
    (recorded : (change work.unit).Recorded work.pool work.symbols.size) :
    Works total (Leads Records) (StageM.modifyUnit change) work fun _ after =>
      after = { work with unit := change work.unit } := by
  intro sound
  refine (Completes.modify ?_).runs total
  exact ⟨⟨.refl _, rfl, records, .refl _⟩,
    ⟨sound.program, sound.laid.evolve records.evolves, recorded⟩, rfl⟩

/-- A member is replaced by one that follows it. -/
theorem setMember (found : work.unit.members.members[id]? = some member)
    (follows : member.Follows later) :
    Works total (Leads Evolves) (StageM.setMember id later) work fun _ after =>
      after =
        { work with unit := { work.unit with members := work.unit.members.set id later } } := by
  intro sound
  refine (Completes.modify ?_).runs total
  have evolved := evolves_set found follows
  exact ⟨⟨.refl _, rfl, evolved, .refl _⟩, ⟨sound.program, sound.laid.evolve evolved,
    { sound.recorded with }⟩, rfl⟩

end StageM.Works
end ClassLang
