import ClassLang.Proofs.Type.Composition
import ClassLang.Proofs.Type.Questions
import Mathlib.Data.List.Forall2

/-! What substitution leaves alone: a type none of whose variables is bound, and what came of a
substitution that puts in none of the variables it binds. Both are the same handle again. -/

namespace ClassLang

namespace TypePool

/-- The type is the other one, or stands in a part of it. -/
inductive StandsIn (pool : TypePool) (type : TypeRef) : TypeRef → Prop where
  | itself : StandsIn pool type type
  | part {whole part : TypeRef} {node : TypeNode} (found : pool.types[whole.raw]? = some node)
      (member : part ∈ node.parts) (inside : StandsIn pool type part) : StandsIn pool type whole

/-- The variable of a parameter stands in the type. -/
def VariableIn (pool : TypePool) (param : ParamRef) (var type : TypeRef) : Prop :=
  pool.StandsIn var type ∧ ∃ variance, pool.types[var.raw]? = some (.var param variance)

variable {pool after : TypePool} {type : TypeRef} {node : TypeNode}

/-- What stands in a type of the pool stood in it before the pool grew. -/
theorem Growth.standsIn (growth : pool.Growth after) (valid : pool.Valid) {whole : TypeRef}
    (inside : after.StandsIn type whole) (held : pool.Has whole) :
    pool.StandsIn type whole ∧ pool.Has type := by
  induction inside with
  | itself => exact ⟨.itself, held⟩
  | part found member _ ih =>
    obtain ⟨node, stored⟩ := held.lookup
    cases found.symm.trans (growth.grown.types.entries _ _ stored)
    obtain ⟨below, there⟩ := ih (valid.has_part stored member)
    exact ⟨.part stored member below, there⟩

theorem Growth.variableIn (growth : pool.Growth after) (valid : pool.Valid) {param : ParamRef}
    {var : TypeRef} (inside : after.VariableIn param var type) (held : pool.Has type) :
    pool.VariableIn param var type := by
  obtain ⟨stands, variance, found⟩ := inside
  obtain ⟨stood, there⟩ := growth.standsIn valid stands held
  obtain ⟨node, stored⟩ := there.lookup
  cases found.symm.trans (growth.grown.types.entries _ _ stored)
  exact ⟨stood, variance, stored⟩

/-- A valid pool answers a request for an entry that is there with its handle. -/
theorem Valid.intern_run (valid : pool.Valid) (found : pool.types[type.raw]? = some node) :
    (PoolM.intern node).run pool = .ok (type, pool) := by
  change Except.ok (pool.intern node) = _
  simp [TypePool.intern, (valid.lockstep node type).mpr found]

end TypePool

namespace PoolM
variable {pool after : TypePool} {α β : Type}

theorem run_inspect {query : TypePool → Except Abort α} {answer : α} (ran : query pool = .ok answer)
    (next : α → PoolM β) : (inspect query >>= next).run pool = (next answer).run pool := by
  simp only [inspect, StateT.run_bind]
  change ((query pool >>= fun answer => Except.ok (answer, pool)) >>= fun result =>
    (next result.1).run result.2) = _
  rw [ran]
  rfl

theorem run_bind {first : PoolM α} {result : α} (ran : first.run pool = .ok (result, after))
    (next : α → PoolM β) : (first >>= next).run pool = (next result).run after := by
  rw [StateT.run_bind, ran]
  rfl

/-- Steps that leave the pool as it is, one after the other. -/
theorem run_mapM {step : α → PoolM β} {elements : List α} {results : List β}
    (each : List.Forall₂ (fun element result => (step element).run pool = .ok (result, pool))
      elements results) :
    (elements.mapM step).run pool = .ok (results, pool) := by
  induction each with
  | nil => rfl
  | cons first _ ih =>
    rw [List.mapM_cons, run_bind first, run_bind ih]
    rfl

end PoolM

namespace Substitution
open TypePool

/-- The variables of the type that are bound are bound to themselves. -/
def Spares (subst : Substitution) (pool : TypePool) (type : TypeRef) : Prop :=
  ∀ param var, pool.VariableIn param var type → ∀ bound, subst.get? param = some bound → bound = var

/-- No bound parameter occurs in a type that is put in. -/
def Closed (subst : Substitution) (pool : TypePool) : Prop :=
  ∀ param type, subst.get? param = some type → ∀ other var, pool.VariableIn other var type →
    subst.get? other = none

/-- The type is returned before its entry is read. -/
def skips (subst : Substitution) (type : TypeRef) : Bool :=
  subst.isEmpty || type.isPrimitive || type.isAbsent

/-- What becomes of a wildcard when its bound is replaced by a type with the entry. -/
def rebind (type : TypeRef) (variance : Variance) (replaced : TypeRef) : TypeNode → PoolM TypeRef
  | .wildcard inner innerBound =>
    if inner = variance then PoolM.wildcard variance innerBound else PoolM.anyWildcard
  | _ => if variance = .invariant then return type else PoolM.wildcard variance replaced

/-- What becomes of a type with the entry. -/
def rebuild (subst : Substitution) (depth : Nat) (type : TypeRef) : TypeNode → PoolM TypeRef
  | .var param _ => return (subst.get? param).getD type
  | .applied base args => do
    let replaced ← args.mapM (instantiateWithin subst depth)
    if replaced = args then return type else PoolM.intern (.applied base replaced)
  | .wildcard variance bound => do
    let replaced ← instantiateWithin subst depth bound
    if replaced = bound then return type
    rebind type variance replaced (← PoolM.inspect (·.node replaced))
  | _ => return type

variable {subst : Substitution} {pool after : TypePool} {type result : TypeRef} {node : TypeNode}

theorem instantiateWithin_succ (subst : Substitution) (depth : Nat) (type : TypeRef) :
    instantiateWithin subst (depth + 1) type =
      if subst.skips type then pure type else PoolM.inspect (·.node type) >>=
        subst.rebuild depth type := by
  rw [instantiateWithin]
  rfl

/-- From now on the first type becomes the second one, and no type is entered for it. -/
def Turns (subst : Substitution) (pool : TypePool) (type result : TypeRef) : Prop :=
  ∀ later, pool.Growth later → ∀ depth, type.raw < depth →
    (instantiateWithin subst depth type).run later = .ok (result, later)

theorem Turns.grow (turns : subst.Turns pool type result) (growth : pool.Growth after) :
    subst.Turns after type result :=
  fun later grown depth deep => turns later (growth.trans grown) depth deep

theorem turns_of_skips (skips : subst.skips type = true) : subst.Turns pool type type := by
  intro later _ depth deep
  obtain ⟨depth, rfl⟩ := Nat.exists_eq_succ_of_ne_zero (Nat.ne_of_gt (Nat.zero_lt_of_lt deep))
  rw [instantiateWithin_succ, if_pos skips]
  rfl

/-- A type that is read becomes what is made of its entry. -/
theorem turns_of_entry (reads : subst.skips type = false)
    (found : pool.types[type.raw]? = some node)
    (rebuilt : ∀ later, pool.Growth later → ∀ depth, type.raw ≤ depth →
      (subst.rebuild depth type node).run later = .ok (result, later)) :
        subst.Turns pool type result := by
  intro later growth depth deep
  obtain ⟨depth, rfl⟩ := Nat.exists_eq_succ_of_ne_zero (Nat.ne_of_gt (Nat.zero_lt_of_lt deep))
  rw [instantiateWithin_succ, if_neg (Bool.eq_false_iff.mp reads),
    PoolM.run_inspect (node_eq (growth.grown.types.entries _ _ found))]
  exact rebuilt later growth depth (Nat.le_of_lt_succ deep)

/-- Arguments become their replacements one after the other. -/
theorem run_turns {types results : List TypeRef}
    (turns : List.Forall₂ (subst.Turns pool) types results) (growth : pool.Growth after)
    {depth : Nat} (deep : ∀ type ∈ types, type.raw < depth) :
    (types.mapM (instantiateWithin subst depth)).run after = .ok (results, after) :=
  PoolM.run_mapM (((List.forall₂_and_left _ _).mpr ⟨deep, turns⟩).imp fun _ _ both =>
    both.2 after growth depth both.1)

/-- A type whose parts stay what they are stays what it is, unless it is a variable that is
bound. -/
theorem turns_self (valid : pool.Valid) (found : pool.types[type.raw]? = some node)
    (free : ∀ param variance, node = .var param variance → ∀ bound, subst.get? param = some bound →
      bound = type)
    (parts : ∀ part ∈ node.parts, subst.Turns pool part part) : subst.Turns pool type type := by
  cases reads : subst.skips type with
  | true => exact turns_of_skips reads
  | false =>
    refine turns_of_entry reads found fun later growth depth deep => ?_
    have below : ∀ part ∈ node.parts, part.raw < depth :=
      fun part member => Nat.lt_of_lt_of_le (valid.parts _ _ found part member) deep
    cases node with
    | var param variance =>
      cases bound : subst.get? param with
      | none => simp [rebuild, bound]
      | some other => simp [rebuild, bound, free param variance rfl other bound]
    | applied base args =>
      have kept : (args.mapM (instantiateWithin subst depth)).run later = .ok (args, later) :=
        run_turns (List.forall₂_same.mpr parts) growth below
      refine (PoolM.run_bind kept _).trans ?_
      rw [if_pos rfl]
      rfl
    | wildcard variance bound =>
      have kept := parts bound List.mem_cons_self later growth depth
        (below bound List.mem_cons_self)
      refine (PoolM.run_bind kept _).trans ?_
      rw [if_pos rfl]
      rfl
    | _ => rfl

/-- A type none of whose variables is bound stays what it is. -/
theorem Spares.turns (valid : pool.Valid) : ∀ type : TypeRef, pool.Has type →
    subst.Spares pool type →
    subst.Turns pool type type := by
  intro type held spares
  obtain ⟨node, found⟩ := held.lookup
  refine turns_self valid found ?_ fun part member => ?_
  · rintro param variance rfl bound stored
    exact spares param type ⟨.itself, variance, found⟩ bound stored
  · have below : part.raw < type.raw := valid.parts _ _ found part member
    refine Spares.turns valid part (valid.has_part found member) fun param var inside => ?_
    exact spares param var ⟨.part found member inside.1, inside.2⟩
  termination_by type => type.raw

theorem Closed.grow (closed : subst.Closed pool) (held : subst.HeldBy pool) (valid : pool.Valid)
    (growth : pool.Growth after) : subst.Closed after :=
  fun param type bound other var inside =>
    closed param type bound other var (growth.variableIn valid inside (held param type bound))

theorem Closed.spares (closed : subst.Closed pool) {param : ParamRef}
    (bound : subst.get? param = some type) :
    subst.Spares pool type := by
  intro other var inside replacement found
  cases (closed param type bound other var inside).symm.trans found

/-- The action gives the type later as well, and it is the type asked about or one that stays what
it is. -/
structure Repeats (subst : Substitution) (action : PoolM TypeRef) (type result : TypeRef)
    (pool : TypePool) : Prop where
  has : pool.Has result
  again : ∀ later, pool.Growth later → action.run later = .ok (result, later)
  ends : result = type ∨ subst.Turns pool result result

/-- A wildcard over a type that stays what it is does so too. -/
theorem wildcard_repeats (variance : Variance) {bound : TypeRef} (held : pool.Has bound)
    (fixed : subst.Turns pool bound bound) :
    PoolM.Builds (PoolM.wildcard variance bound) pool
      (subst.Repeats (PoolM.wildcard variance bound) type) := by
  have admits : pool.Admits (.wildcard variance bound) :=
    ⟨fun part member => List.mem_singleton.mp member ▸ held, by simp⟩
  refine (PoolM.Builds.entry admits).mono fun result after growth entered =>
    ⟨has_of_lookup entered, ?_, .inr ?_⟩
  · exact fun later grown => grown.valid.intern_run (grown.grown.types.entries _ _ entered)
  · refine turns_self growth.valid entered (by simp) fun part member => ?_
    cases List.mem_singleton.mp member
    exact fixed.grow growth

theorem rebind_repeats {replaced : TypeRef} (variance : Variance) (held : pool.Has type)
    (found : pool.types[replaced.raw]? = some node) (fixed : subst.Turns pool replaced replaced) :
    PoolM.Builds (rebind type variance replaced node) pool
      (subst.Repeats (rebind type variance replaced node) type) := by
  refine .ofValid fun valid => ?_
  unfold rebind
  split
  · split
    · rename_i inner innerBound sameWay
      subst sameWay
      -- The wildcard asked for is the replaced bound.
      have same {later : TypePool} (growth : pool.Growth later) :
          (PoolM.wildcard inner innerBound).run later = .ok (replaced, later) :=
        growth.valid.intern_run (growth.grown.types.entries _ _ found)
      exact fun _ =>
        ⟨replaced, pool, same valid.growth, valid.growth, has_of_lookup found, fun later =>
          same, .inr fixed⟩
    · have skips : subst.skips .any = true := by simp [skips, TypeRef.isPrimitive, TypeRef.any]
      exact wildcard_repeats .invariant valid.has_any (turns_of_skips skips)
  · split
    · exact .pure ⟨held, fun _ _ => rfl, .inl rfl⟩
    · exact wildcard_repeats variance (has_of_lookup found) fixed

/-- What becomes of a type becomes of it later as well, and stays what it is. -/
structure Settles (subst : Substitution) (pool : TypePool) (type result : TypeRef) : Prop where
  has : pool.Has result
  again : subst.Turns pool type result
  fixed : subst.Turns pool result result

theorem Settles.grow (settles : subst.Settles pool type result) (growth : pool.Growth after) :
    subst.Settles after type result :=
  ⟨growth.has settles.has, settles.again.grow growth, settles.fixed.grow growth⟩

theorem Settles.self (held : pool.Has type) (turns : subst.Turns pool type type) :
    subst.Settles pool type type :=
  ⟨held, turns, turns⟩

theorem mapM_settles {types : List TypeRef} {step : TypeRef → PoolM TypeRef}
    (each : ∀ type ∈ types, ∀ between, pool.Growth between →
      PoolM.Builds (step type) between fun result after => subst.Settles after type result) :
    PoolM.Builds (types.mapM step) pool fun results after =>
      List.Forall₂ (subst.Settles after) types results := by
  induction types generalizing pool with
  | nil => exact .pure .nil
  | cons type types ih =>
    rw [List.mapM_cons]
    refine .ofValid fun valid => ?_
    refine .bind (each type List.mem_cons_self pool valid.growth)
      fun first between growth settles => ?_
    refine .bind (ih fun other member later grown =>
      each other (List.mem_cons_of_mem _ member) later (growth.trans grown))
        fun results after grown rest => ?_
    exact .pure (.cons (settles.grow grown) rest)

/-- A class settles over arguments that do. -/
theorem applied_settles {base : Name} {args replaced : List TypeRef} (valid : pool.Valid)
    (reads : subst.skips type = false) (found : pool.types[type.raw]? = some (.applied base args))
    (settle : List.Forall₂ (subst.Settles pool) args replaced) :
    PoolM.Builds (if replaced = args then pure type else PoolM.intern (.applied base replaced)) pool
      fun result after => subst.Settles after type result := by
  have again : List.Forall₂ (subst.Turns pool) args replaced := settle.imp fun _ _ settles =>
    settles.again
  split
  · rename_i same
    subst same
    refine .pure (.self (has_of_lookup found) (turns_self valid found (by simp) ?_))
    exact List.forall₂_same.mp again
  · rename_i differ
    have settled : ∀ part ∈ replaced, pool.Has part ∧ subst.Turns pool part part := by
      refine ((List.forall₂_and_left (R := fun _ _ => True) replaced args).mp
        (settle.flip.imp ?_)).1
      exact fun part arg settles => ⟨⟨settles.has, settles.fixed⟩, trivial⟩
    have admits : pool.Admits (.applied base replaced) :=
      ⟨fun part member => (settled part member).1, by simp⟩
    refine (PoolM.Builds.entry admits).mono fun result after growth entered =>
      ⟨has_of_lookup entered, ?_, ?_⟩
    · refine turns_of_entry reads (growth.grown.types.entries _ _ found)
        fun later last depth deep => ?_
      have below : ∀ arg ∈ args, arg.raw < depth :=
        fun arg member => Nat.lt_of_lt_of_le (valid.parts _ _ found arg member) deep
      refine (PoolM.run_bind (run_turns again (growth.trans last) below) _).trans ?_
      rw [if_neg differ]
      exact last.valid.intern_run (last.grown.types.entries _ _ entered)
    · exact turns_self growth.valid entered (by simp) fun part member =>
        (settled part member).2.grow growth

/-- A wildcard settles over a bound that does. -/
theorem wildcard_settles {variance : Variance} {bound replaced : TypeRef} (valid : pool.Valid)
    (reads : subst.skips type = false)
    (found : pool.types[type.raw]? = some (.wildcard variance bound))
    (settles : subst.Settles pool bound replaced) :
    PoolM.Builds (do
        if replaced = bound then return type
        rebind type variance replaced (← PoolM.inspect (·.node replaced))) pool
      fun result after => subst.Settles after type result := by
  split
  · rename_i same
    subst same
    refine .pure
      (.self (has_of_lookup found) (turns_self valid found (by simp) fun part member => ?_))
    cases List.mem_singleton.mp member
    exact settles.fixed
  · rename_i differ
    refine .readNode settles.has fun inner seen => ?_
    refine (rebind_repeats variance (has_of_lookup found) seen settles.fixed).mono ?_
    rintro result after growth ⟨has, repeats, ends⟩
    have again : subst.Turns after type result := by
      refine turns_of_entry reads (growth.grown.types.entries _ _ found)
        fun later last depth deep => ?_
      have below := Nat.lt_of_lt_of_le (valid.parts _ _ found bound List.mem_cons_self) deep
      refine (PoolM.run_bind (settles.again later (growth.trans last) depth below) _).trans ?_
      rw [if_neg differ,
        PoolM.run_inspect (node_eq ((growth.trans last).grown.types.entries _ _ seen))]
      exact repeats later last
    refine ⟨has, again, ends.elim (fun same => ?_) id⟩
    subst same
    exact again

theorem instantiateWithin_settles (closed : subst.Closed pool) (held : subst.HeldBy pool)
    (valid : pool.Valid) : ∀ (depth : Nat) (type : TypeRef) (start : TypePool), pool.Growth start →
    start.Has type → type.raw < depth →
      PoolM.Builds (instantiateWithin subst depth type) start fun result after =>
        subst.Settles after type result
  | 0, _, _, _, _, deep => absurd deep (Nat.not_lt_zero _)
  | depth + 1, type, start, grown, inPool, deep => by
    rw [instantiateWithin_succ]
    cases reads : subst.skips type with
    | true => exact .pure (.self inPool (turns_of_skips reads))
    | false =>
    rw [if_neg Bool.false_ne_true]
    refine .readNode inPool fun node found => ?_
    have below := grown.valid.parts _ _ found
    have deeper : ∀ part ∈ node.parts, ∀ between, start.Growth between →
        PoolM.Builds (instantiateWithin subst depth part) between fun result after =>
          subst.Settles after part result := by
      intro part member between growth
      exact instantiateWithin_settles closed held valid depth part between (grown.trans growth)
        (growth.has (grown.valid.has_part found member))
        (Nat.lt_of_lt_of_le (below part member) (Nat.le_of_lt_succ deep))
    cases node with
    | var param variance =>
      cases bound : subst.get? param with
      | none =>
        simp only [rebuild, bound, Option.getD_none]
        refine .pure (.self inPool (turns_self grown.valid found ?_ (by simp [TypeNode.parts])))
        intro other declared same replacement stored
        cases same
        cases bound.symm.trans stored
      | some replacement =>
        simp only [rebuild, bound, Option.getD_some]
        have replacementHere := grown.has (held param replacement bound)
        refine .pure ⟨replacementHere, turns_of_entry reads found fun later _ depth _ => by
          simp [rebuild, bound], ?_⟩
        exact ((closed.grow held valid grown).spares bound).turns grown.valid replacement
          replacementHere
    | applied base args =>
      refine .bind (mapM_settles deeper) fun replaced between growth settle => ?_
      exact applied_settles growth.valid reads (growth.grown.types.entries _ _ found) settle
    | wildcard variance bound =>
      refine .bind (deeper bound List.mem_cons_self start grown.valid.growth)
        fun replaced between growth settles => ?_
      exact wildcard_settles growth.valid reads (growth.grown.types.entries _ _ found) settles
    | _ =>
      exact .pure (.self inPool (turns_self grown.valid found (by simp) (by simp [TypeNode.parts])))

end Substitution

namespace TypePool
variable {pool : TypePool} {type : TypeRef} {subst : Substitution}

/-- A substitution that binds no variable of a type to anything else returns the very handle. One
that puts in none of the variables it binds returns the handle it was given when it is applied to
its own result. -/
theorem instantiate_fixed_points (valid : pool.Valid) (inPool : pool.Has type) :
    (subst.Spares pool type → (instantiate type subst).run pool = .ok (type, pool)) ∧
      (subst.HeldBy pool → subst.Closed pool → ∃ once after,
        (instantiate type subst).run pool = .ok (once, after) ∧
          (instantiate once subst).run after = .ok (once, after)) := by
  constructor
  · intro spares
    exact spares.turns valid type inPool pool valid.growth _ (Nat.lt_succ_of_lt inPool)
  · intro held closed
    obtain ⟨once, after, ran, growth, settles⟩ :=
      Substitution.instantiateWithin_settles closed held valid (pool.size + 1) type pool
        valid.growth inPool (Nat.lt_succ_of_lt inPool) valid
    exact ⟨once, after, ran, settles.fixed after growth.valid.growth _
      (Nat.lt_succ_of_lt settles.has)⟩

/-- A pool with wildcards in wildcards: what is above something below a variable, and what is just
the variable. -/
def nestedPool : TypePool :=
  .ofEntries
    #[.any, .void, .int, .float, .bool, .char, .string, .var ⟨0⟩ .invariant,
      .wildcard .covariant ⟨7⟩, .wildcard .contravariant ⟨8⟩, .wildcard .invariant ⟨7⟩,
      .applied "Pair" [⟨9⟩, ⟨10⟩]]
    #[⟨"T", "Box", .invariant, []⟩]

theorem nestedPool_variableIn {param : ParamRef} {var : TypeRef}
    (inside : nestedPool.VariableIn param var type) : param = ⟨0⟩ ∧ var = ⟨7⟩ := by
  obtain ⟨_, variance, found⟩ := inside
  have only : ∀ entry ∈ nestedPool.types.toList.zipIdx, ∀ param ∈ entry.1.param?, param = ⟨0⟩ ∧
      entry.2 = 7 := by decide
  rw [← Array.getElem?_toList] at found
  obtain ⟨same, place⟩ := only (_, _) (List.mem_zipIdx_iff_getElem?.mpr found) param rfl
  exact ⟨same, congrArg TypeRef.mk place⟩

/-- The pair of both stays when the variable is bound to itself. With a string for the variable,
what is above something below it may be anything and the other wildcard stays; so they do the second
time. -/
theorem instantiate_fixed_points_nested :
    (instantiate ⟨11⟩ ⟨[(⟨0⟩, ⟨7⟩)]⟩).run nestedPool = .ok (⟨11⟩, nestedPool) ∧
      ∃ once after, (instantiate ⟨11⟩ ⟨[(⟨0⟩, ⟨6⟩)]⟩).run nestedPool = .ok (once, after) ∧
        (instantiate once ⟨[(⟨0⟩, ⟨6⟩)]⟩).run after = .ok (once, after) ∧
        after.tree once = .applied "Pair"
          [.wildcard .invariant .any, .wildcard .invariant (.var ⟨0⟩ .invariant)] := by
  have valid : nestedPool.Valid := by decide
  have inPool : nestedPool.Has ⟨11⟩ := by decide
  have spares : Substitution.Spares ⟨[(⟨0⟩, ⟨7⟩)]⟩ nestedPool ⟨11⟩ := by
    intro param var inside bound stored
    obtain ⟨rfl, rfl⟩ := nestedPool_variableIn inside
    exact (Option.some.inj stored).symm
  have held : Substitution.HeldBy ⟨[(⟨0⟩, ⟨6⟩)]⟩ nestedPool :=
    Substitution.heldBy_of_listed (by decide)
  have closed : Substitution.Closed ⟨[(⟨0⟩, ⟨6⟩)]⟩ nestedPool := by
    intro param type stored other var inside
    obtain ⟨before, after, split, _⟩ := List.lookup_eq_some_iff.mp stored
    have listed : (param, type) ∈ before ++ (param, type) :: after := by simp
    rw [← split] at listed
    cases List.mem_singleton.mp listed
    obtain ⟨_, rfl⟩ := nestedPool_variableIn inside
    cases inside.1 with
    | part found member =>
      cases found
      cases member
  refine ⟨(instantiate_fixed_points valid inPool).1 spares, ?_⟩
  obtain ⟨once, after, first, second⟩ := (instantiate_fixed_points valid inPool).2 held closed
  refine ⟨once, after, first, second, ?_⟩
  cases first
  rfl

end TypePool
end ClassLang
