import ClassLang.Proofs.Type.Relation
import Mathlib.Data.List.Forall2
import Mathlib.Data.List.ReduceOption
import Mathlib.Order.Lattice.Nat
import Mathlib.Logic.Relation

/-! The ancestors of a type as a search among classes. Which classes are met, and in which order, is
decided by the names of the declared supertypes alone: the arguments may grow from one to the next,
but every class is met once, all that can be reached are met, and the nearest come first. -/

namespace ClassLang

/-- A way along a relation, with its number of steps. -/
inductive Path {α : Type} (step : α → α → Prop) (start : α) : α → Nat → Prop where
  | here : Path step start start 0
  | next {middle last : α} {steps : Nat} (way : Path step start middle steps)
      (one : step middle last) :
    Path step start last (steps + 1)

/-- The number of steps of a shortest way. -/
noncomputable def distance {α : Type} (step : α → α → Prop) (start target : α) : Nat :=
  sInf {steps | Path step start target steps}

namespace Path
variable {α : Type} {step : α → α → Prop} {start target : α}

/-- There is a way of some length to what can be reached. -/
theorem exists_iff : (∃ steps, Path step start target steps) ↔
    Relation.ReflTransGen step start target := by
  constructor
  · rintro ⟨steps, way⟩
    induction way with
    | here => exact .refl
    | next _ holds ih => exact .tail ih holds
  · intro reaches
    induction reaches with
    | refl => exact ⟨0, .here⟩
    | tail _ holds ih =>
      obtain ⟨steps, way⟩ := ih
      exact ⟨steps + 1, way.next holds⟩

end Path

/-- A queue worked through: what was met before is dropped; what is met for the first time is
listed, and its successors go to the end of the queue. -/
inductive Search {α : Type} (next : α → List α) : (queue seen listed : List α) → Prop where
  | done {seen : List α} : Search next [] seen []
  | again {first : α} {queue seen listed : List α} (known : first ∈ seen)
      (rest : Search next queue seen listed) :
    Search next (first :: queue) seen listed
  | visit {first : α} {queue seen listed : List α} (fresh : first ∉ seen)
    (rest : Search next (queue ++ next first) (first :: seen) listed) :
    Search next (first :: queue) seen (first :: listed)

/-- A queue between two levels of the search from `root`: its entries have the lengths of ways that
lead to them, in order and no further apart than one step, and whatever follows what was seen is in
it or was seen. -/
structure Frontier {α : Type} (step : α → α → Prop) (root : α) (entries : List (α × Nat))
    (seen : List α) : Prop where
  sorted : entries.Pairwise fun first second => first.2 ≤ second.2
  close : ∀ first ∈ entries, ∀ second ∈ entries, second.2 ≤ first.2 + 1
  ways : ∀ entry ∈ entries, Path step root entry.1 entry.2
  source : root ∈ seen ∨ (root, 0) ∈ entries
  follows : ∀ name ∈ seen, ∀ steps, Path step root name steps →
    ∀ other, step name other → other ∈ seen ∨ ∃ length ≤ steps + 1, (other, length) ∈ entries

namespace Frontier
variable {α : Type} {step : α → α → Prop} {root first target : α} {steps : Nat}
    {entries : List (α × Nat)}
  {seen : List α}

theorem start (step : α → α → Prop) (root : α) : Frontier step root [(root, 0)] [] where
  sorted := List.pairwise_singleton _ _
  close := by simp
  ways := by simpa using .here
  source := .inr List.mem_cons_self
  follows := by simp

/-- Every way to what was not seen leads through the queue. -/
theorem exists_entry (frontier : Frontier step root entries seen)
    (way : Path step root target steps) (fresh : target ∉ seen) :
    ∃ entry ∈ entries, entry.2 ≤ steps := by
  induction way with
  | here => exact ⟨_, frontier.source.resolve_left fresh, Nat.le_refl 0⟩
  | @next middle last steps way holds ih =>
    by_cases outside : middle ∈ seen
    · obtain ⟨length, short, queued⟩ :=
        (frontier.follows middle outside steps way last holds).resolve_left fresh
      exact ⟨_, queued, short⟩
    · obtain ⟨entry, queued, short⟩ := ih outside
      exact ⟨entry, queued, Nat.le_succ_of_le short⟩

/-- No way to what was not seen is shorter than that to the head of the queue. -/
theorem le_of_fresh (frontier : Frontier step root ((first, steps) :: entries) seen) {length : Nat}
    (way : Path step root target length) (fresh : target ∉ seen) :
    steps ≤ length := by
  obtain ⟨entry, queued, short⟩ := frontier.exists_entry way fresh
  rcases List.mem_cons.mp queued with rfl | later
  · exact short
  · exact Nat.le_trans ((List.pairwise_cons.mp frontier.sorted).1 entry later) short

theorem again (frontier : Frontier step root ((first, steps) :: entries) seen)
    (listed : first ∈ seen) : Frontier step root entries seen where
  sorted := (List.pairwise_cons.mp frontier.sorted).2
  close one inside other there :=
    frontier.close one (List.mem_cons_of_mem _ inside) other (List.mem_cons_of_mem _ there)
  ways entry queued := frontier.ways entry (List.mem_cons_of_mem _ queued)
  source := by
    rcases frontier.source with seen | queued
    · exact .inl seen
    · rcases List.mem_cons.mp queued with same | later
      · cases same
        exact .inl listed
      · exact .inr later
  follows name member length way other holds := by
    rcases frontier.follows name member length way other holds with seen | ⟨long, short, queued⟩
    · exact .inl seen
    · rcases List.mem_cons.mp queued with same | later
      · cases same
        exact .inl listed
      · exact .inr ⟨long, short, later⟩

/-- The successors of a new head are one step further than it. -/
theorem visit {next : α → List α} (lists : ∀ name other, other ∈ next name ↔ step name other)
    (frontier : Frontier step root ((first, steps) :: entries) seen) (fresh : first ∉ seen) :
    Frontier step root (entries ++ (next first).map (·, steps + 1)) (first :: seen) := by
  have later : ∀ entry ∈ entries, steps ≤ entry.2 := (List.pairwise_cons.mp frontier.sorted).1
  have near : ∀ entry ∈ entries, entry.2 ≤ steps + 1 := fun entry queued =>
    frontier.close _ List.mem_cons_self entry (List.mem_cons_of_mem _ queued)
  have added {entry : α × Nat} (queued : entry ∈ (next first).map (·, steps + 1)) :
      entry.1 ∈ next first ∧ entry.2 = steps + 1 := by
    obtain ⟨name, member, rfl⟩ := List.mem_map.mp queued
    exact ⟨member, rfl⟩
  have bounds : ∀ entry ∈ entries ++ (next first).map (·, steps + 1), steps ≤ entry.2 ∧
      entry.2 ≤ steps + 1 := by
    intro entry queued
    rcases List.mem_append.mp queued with old | new
    · exact ⟨later entry old, near entry old⟩
    · exact ⟨(added new).2 ▸ Nat.le_succ steps, (added new).2 ▸ Nat.le_refl _⟩
  refine ⟨?_, ?_, ?_, ?_, ?_⟩
  · refine List.pairwise_append.mpr ⟨(List.pairwise_cons.mp frontier.sorted).2, ?_, ?_⟩
    · exact List.pairwise_map.mpr (List.pairwise_of_forall fun _ _ => Nat.le_refl _)
    · intro entry old other new
      exact (added new).2 ▸ near entry old
  · intro one listed other there
    exact Nat.le_trans (bounds other there).2 (Nat.succ_le_succ (bounds one listed).1)
  · intro entry queued
    rcases List.mem_append.mp queued with old | new
    · exact frontier.ways entry (List.mem_cons_of_mem _ old)
    · obtain ⟨follows, length⟩ := added new
      exact length ▸ (frontier.ways _ List.mem_cons_self).next ((lists _ _).mp follows)
  · rcases frontier.source with inside | queued
    · exact .inl (List.mem_cons_of_mem _ inside)
    · rcases List.mem_cons.mp queued with same | old
      · cases same
        exact .inl List.mem_cons_self
      · exact .inr (List.mem_append_left _ old)
  · intro name member length way other holds
    rcases List.mem_cons.mp member with rfl | inside
    · have nearest := frontier.le_of_fresh way fresh
      refine .inr ⟨steps + 1, Nat.succ_le_succ nearest, List.mem_append_right _ ?_⟩
      exact List.mem_map_of_mem ((lists _ _).mpr holds)
    · rcases frontier.follows name inside length way other holds with seen | ⟨long, short, queued⟩
      · exact .inl (List.mem_cons_of_mem _ seen)
      · rcases List.mem_cons.mp queued with same | old
        · cases same
          exact .inl List.mem_cons_self
        · exact .inr ⟨long, short, List.mem_append_left _ old⟩

end Frontier

namespace Search
variable {α : Type} {step : α → α → Prop} {next : α → List α} {root : α}
    {queue seen listed : List α}

theorem fresh (search : Search next queue seen listed) : ∀ name ∈ listed, name ∉ seen := by
  induction search with
  | done => simp
  | again _ _ ih => exact ih
  | visit fresh _ ih =>
    intro name member
    rcases List.mem_cons.mp member with rfl | later
    · exact fresh
    · exact fun inside => ih name later (List.mem_cons_of_mem _ inside)

theorem nodup (search : Search next queue seen listed) : listed.Nodup := by
  induction search with
  | done => exact List.nodup_nil
  | again _ _ ih => exact ih
  | visit _ rest ih =>
    exact List.nodup_cons.mpr ⟨fun later => rest.fresh _ later List.mem_cons_self, ih⟩

/-- From a frontier the search lists what can be reached and was not seen, the nearest first. -/
theorem of_frontier (lists : ∀ name other, other ∈ next name ↔ step name other)
    (search : Search next queue seen listed) : ∀ {entries : List (α × Nat)},
    entries.map Prod.fst = queue → Frontier step root entries seen →
      (∀ name ∈ listed, ∃ steps, Path step root name steps) ∧
      (∀ name steps, Path step root name steps → name ∈ seen ∨ name ∈ listed) ∧
      listed.Pairwise fun near far => ∀ steps, Path step root far steps →
        ∃ fewer ≤ steps, Path step root near fewer := by
  induction search with
  | done =>
    intro entries names frontier
    cases List.map_eq_nil_iff.mp names
    refine ⟨by simp, fun name steps way => .inl ?_, .nil⟩
    by_contra fresh
    obtain ⟨_, queued, _⟩ := frontier.exists_entry way fresh
    cases queued
  | again inside _ ih =>
    intro entries names frontier
    obtain ⟨⟨_, steps⟩, entries, rfl, rfl, rfl⟩ := List.map_eq_cons_iff.mp names
    exact ih rfl (frontier.again inside)
  | visit fresh rest ih =>
    intro entries names frontier
    obtain ⟨⟨first, steps⟩, entries, rfl, rfl, rfl⟩ := List.map_eq_cons_iff.mp names
    obtain ⟨reached, all, ordered⟩ := ih (by simp [Function.comp_def]) (frontier.visit lists fresh)
    refine ⟨?_, ?_, List.pairwise_cons.mpr ⟨?_, ordered⟩⟩
    · intro name member
      rcases List.mem_cons.mp member with rfl | later
      · exact ⟨steps, frontier.ways _ List.mem_cons_self⟩
      · exact reached name later
    · intro name length way
      rcases all name length way with inside | later
      · rcases List.mem_cons.mp inside with rfl | old
        · exact .inr List.mem_cons_self
        · exact .inl old
      · exact .inr (List.mem_cons_of_mem _ later)
    · intro name later length way
      have unseen : name ∉ _ := fun inside => rest.fresh name later (List.mem_cons_of_mem _ inside)
      exact ⟨steps, frontier.le_of_fresh way unseen, frontier.ways _ List.mem_cons_self⟩

/-- A search lists what can be reached, the nearest first. -/
theorem complete (lists : ∀ name other, other ∈ next name ↔ step name other)
    (search : Search next [root] [] listed) :
    (∀ name, name ∈ listed ↔ Relation.ReflTransGen step root name) ∧
      listed.Pairwise fun near far => distance step root near ≤ distance step root far := by
  obtain ⟨reached, all, ordered⟩ :=
    search.of_frontier lists (rfl : [(root, 0)].map Prod.fst = [root]) (.start step root)
  constructor
  · intro name
    rw [← Path.exists_iff]
    exact ⟨reached name, fun ⟨steps, way⟩ => (all name steps way).resolve_left List.not_mem_nil⟩
  · refine ordered.imp_of_mem fun _ far fewer => ?_
    obtain ⟨shorter, less, way⟩ := fewer _ (Nat.sInf_mem (reached _ far))
    exact Nat.le_trans (Nat.sInf_le way) less

end Search

/-- The class of the entry of a class type. -/
def TypeNode.base? : TypeNode → Option Name
  | class_ name | applied name _ => some name
  | _ => none

namespace TypePool
variable {pool before after : TypePool} {type : TypeRef} {name : Name} {base? : Option Name}
    {node : TypeNode}

/-- A class type or applied type of the class, if there is one, and a type of another kind if there
is none. -/
def OfBase (pool : TypePool) (type : TypeRef) (base? : Option Name) : Prop :=
  pool.baseName? type = .ok base?

/-- A class type or applied type of the class. -/
def OfClass (pool : TypePool) (type : TypeRef) (name : Name) : Prop :=
  pool.baseName? type = .ok (some name)

/-- The type is no type variable. -/
def Fixed (pool : TypePool) (type : TypeRef) : Prop :=
  ∀ param variance, pool.types[type.raw]? ≠ some (.var param variance)

instance (pool : TypePool) (type : TypeRef) (name : Name) : Decidable (pool.OfClass type name) :=
  inferInstanceAs (Decidable (pool.baseName? type = .ok (some name)))

theorem ofBase_iff : pool.OfBase type base? ↔ ∃ node, pool.types[type.raw]? = some node ∧
    node.base? = base? := by
  unfold OfBase TypePool.baseName? TypePool.node
  cases found : pool.types[type.raw]? with
  | none => simp [bind, Except.bind]
  | some node => cases node <;> simp [bind, Except.bind, pure, Except.pure, TypeNode.base?]

theorem ofClass_iff : pool.OfClass type name ↔
    ∃ node, pool.types[type.raw]? = some node ∧
    (node = .class_ name ∨ ∃ args, node = .applied name args) := by
  refine ofBase_iff.trans (exists_congr fun node => and_congr_right fun _ => ?_)
  cases node <;> simp [TypeNode.base?]

theorem OfBase.has (ofBase : pool.OfBase type base?) : pool.Has type := by
  obtain ⟨_, found, _⟩ := ofBase_iff.1 ofBase
  exact has_of_lookup found

theorem OfClass.has (ofClass : pool.OfClass type name) : pool.Has type := OfBase.has ofClass

theorem OfBase.grow (ofBase : before.OfBase type base?) (growth : before.Growth after) :
    after.OfBase type base? := by
  obtain ⟨node, found, same⟩ := ofBase_iff.1 ofBase
  exact ofBase_iff.2 ⟨node, growth.grown.types.entries _ _ found, same⟩

theorem OfClass.grow (ofClass : before.OfClass type name) (growth : before.Growth after) :
    after.OfClass type name :=
  OfBase.grow ofClass growth

/-- What a type of the grown pool is, it was from the start. -/
theorem OfClass.shrink (ofClass : after.OfClass type name) (growth : before.Growth after)
    (inside : before.Has type) :
    before.OfClass type name := by
  obtain ⟨node, found⟩ := inside.lookup
  obtain ⟨other, stored, kind⟩ := ofClass_iff.1 ofClass
  cases (growth.grown.types.entries _ _ found).symm.trans stored
  exact ofClass_iff.2 ⟨node, found, kind⟩

theorem OfClass.fixed (ofClass : pool.OfClass type name) : pool.Fixed type := by
  intro param variance found
  obtain ⟨_, stored, kind⟩ := ofClass_iff.1 ofClass
  cases stored.symm.trans found
  simp at kind

theorem Fixed.grow (fixed : before.Fixed type) (inside : before.Has type)
    (growth : before.Growth after) :
    after.Fixed type := by
  intro param variance found
  obtain ⟨node, stored⟩ := inside.lookup
  cases (growth.grown.types.entries _ _ stored).symm.trans found
  exact fixed param variance stored

theorem Valid.ofBase (valid : pool.Valid) (inside : pool.Has type) : pool.OfBase type
    (pool.tree type).base? :=
  valid.baseName?_eq inside

theorem Valid.base?_eq (valid : pool.Valid) (ofClass : pool.OfClass type name) :
    (pool.tree type).base? = some name :=
  Except.ok.inj ((valid.baseName?_eq ofClass.has).symm.trans ofClass)

theorem Valid.ofClass_iff_base? (valid : pool.Valid) (inside : pool.Has type) :
    pool.OfClass type name ↔ (pool.tree type).base? = some name := by
  unfold OfClass
  rw [valid.baseName?_eq inside, Except.ok.injEq]

theorem Valid.isLenient_ofClass (valid : pool.Valid) (ofClass : pool.OfClass type name) :
    pool.isLenient type = .ok false := by
  obtain ⟨lenient, asked, lenientIff⟩ := valid.isLenient_iff ofClass.has
  have notLenient : ¬ (pool.tree type).Lenient := by
    intro holds
    have base := valid.base?_eq ofClass
    cases tree : pool.tree type <;> simp_all [TypeTree.Lenient, TypeTree.base?]
  rwa [Bool.eq_false_iff.mpr fun yes => notLenient (lenientIff.mp yes)] at asked

theorem Valid.map_base?_eq (valid : pool.Valid) {types : List TypeRef} {names : List Name}
    (classes : List.Forall₂ pool.OfClass types names) :
    types.map (fun type => (pool.tree type).base?) = names.map some := by
  induction classes with
  | nil => rfl
  | cons ofClass _ ih => rw [List.map_cons, List.map_cons, valid.base?_eq ofClass, ih]

end TypePool

namespace PoolM.Builds
open TypePool

/-- What is known of every end besides. -/
theorem strengthen {action : PoolM α} {pool : TypePool} {post more : α → TypePool → Prop}
    (builds : PoolM.Builds action pool post) (ensures : Ensures action pool more) :
    PoolM.Builds action pool fun result after => post result after ∧ more result after := by
  intro valid
  obtain ⟨result, after, ran, growth, holds⟩ := builds valid
  exact ⟨result, after, ran, growth, holds, ensures result after ran⟩

variable {hierarchy : ClassHierarchy} {pool start : TypePool} {type : TypeRef} {name : Name}
    {subst : Substitution}

/-- An instance of a type that is no variable is of the same class, and of none if the type is of
none. -/
theorem instantiate_ofBase (ofBase : pool.OfBase type base?) (fixed : pool.Fixed type)
    (held : subst.HeldBy pool) : PoolM.Builds (ClassLang.instantiate type subst) pool
    fun result after => after.OfBase result base? := by
  refine ofValid fun valid => get ?_
  have within : ∀ part, part.raw < type.raw → ∀ between, pool.Growth between →
      PoolM.Builds (ClassLang.instantiateWithin subst pool.size part) between fun result after =>
        after.Has result := by
    intro part below between growth
    have inPool : pool.Has part := Nat.lt_trans below ofBase.has
    exact (instantiateWithin pool.size part between (held.grow growth) (growth.has inPool)
      inPool).mono
      fun _ _ _ denotes => denotes.has
  unfold ClassLang.instantiateWithin
  split
  · exact pure ofBase
  · refine readNode ofBase.has fun node found => ?_
    obtain ⟨_, stored, same⟩ := ofBase_iff.1 ofBase
    cases stored.symm.trans found
    have parts := valid.parts _ _ found
    cases node with
    | var param variance => exact absurd found (fixed param variance)
    | applied name args =>
      have stable : ∀ (arg : TypeRef) (before after : TypePool), before.Growth after →
          before.Has arg → after.Has arg :=
        fun _ _ _ growth inPool => growth.has inPool
      refine bind (mapEach stable fun arg member => within arg (parts arg member))
        fun replaced between growth inPool => ?_
      split
      · exact pure (ofBase.grow growth)
      · have admits : between.Admits (.applied name replaced) := ⟨inPool, by simp⟩
        exact (entry admits).mono fun _ _ _ entered => ofBase_iff.2 ⟨_, entered, same⟩
    | wildcard variance bound =>
      have made (variance : Variance) {bound : TypeRef} {between : TypePool}
          (inPool : between.Has bound) : PoolM.Builds (PoolM.wildcard variance bound) between
          fun result after => after.OfBase result base? := by
        have admits : between.Admits (.wildcard variance bound) :=
          ⟨by simpa [TypeNode.parts] using inPool, by simp⟩
        exact (entry admits).mono fun _ _ _ entered => ofBase_iff.2 ⟨_, entered, same⟩
      refine bind (within bound (parts bound (by simp [TypeNode.parts])) pool valid.growth)
        fun replaced between growth inPool => ?_
      split
      · exact pure (ofBase.grow growth)
      · refine ofValid fun validBetween => readNode inPool fun node entry => ?_
        split
        · split
          · exact made variance (validBetween.has_bound entry)
          · exact made .invariant validBetween.has_any
        · split
          · exact pure (ofBase.grow growth)
          · exact made variance inPool
    | _ => exact pure ofBase

/-- The class that a class type comes down to is its own. -/
theorem erasure_ofClass (ofClass : pool.OfClass type name) :
    PoolM.Builds (ClassHierarchy.erasure type) pool fun erased after =>
      erased = some name ∧ after = pool := by
  refine readNode ofClass.has fun node found => ?_
  obtain ⟨_, stored, kind⟩ := ofClass_iff.1 ofClass
  cases stored.symm.trans found
  rcases kind with rfl | ⟨args, rfl⟩ <;> exact pure ⟨rfl, rfl⟩

/-- What is built one after the other is of the classes that were given, if each is. -/
theorem mapM_ofBase {build : α → PoolM TypeRef} {elements : List α} {bases : List (Option Name)}
    (each : List.Forall₂ (fun element base? => ∀ between, pool.Growth between →
      PoolM.Builds (build element) between fun type after => after.OfBase type base?)
        elements bases) :
    PoolM.Builds (elements.mapM build) pool fun types after =>
      List.Forall₂ after.OfBase types bases := by
  induction elements generalizing bases pool with
  | nil =>
    cases each
    exact pure .nil
  | cons element elements ih =>
    obtain ⟨base?, bases, first, rest, rfl⟩ := List.forall₂_cons_left_iff.mp each
    rw [List.mapM_cons]
    refine ofValid fun valid => bind (first pool valid.growth) fun type between growth ofBase => ?_
    have later := rest.imp fun _ _ builds later grown => builds later (growth.trans grown)
    exact bind (ih later) fun types after grown found => pure (.cons (ofBase.grow grown) found)

/-- The supertypes of a type are of the classes that its own is declared to inherit from. -/
theorem directSupertypes_ofBase (ofClass : pool.OfClass type name)
    (fixed : ∀ sup ∈ hierarchy.supertypes name, pool.Has sup ∧ pool.Fixed sup) :
    PoolM.Builds (hierarchy.directSupertypes type) pool fun types after =>
      List.Forall₂ after.OfBase types
        ((hierarchy.supertypes name).map fun sup => (pool.tree sup).base?) := by
  refine ofValid fun valid => inspect ofClass ?_
  obtain ⟨args, read, argsHere, _⟩ := valid.args_eq ofClass.has
  refine inspect read ?_
  have held := Substitution.ofArgs_heldBy (hierarchy.typeParams name) argsHere
  refine mapM_ofBase
    (List.forall₂_map_right_iff.mpr (List.forall₂_same.mpr fun sup member between growth => ?_))
  obtain ⟨inPool, kind⟩ := fixed sup member
  exact instantiate_ofBase ((valid.ofBase inPool).grow growth) (kind.grow inPool growth)
    (held.grow growth)

/-- The search for ancestors is the search among classes. -/
theorem ancestorsFrom_search (held : hierarchy.HeldBy start) (valid : start.Valid)
    (fixed : ∀ name, ∀ type ∈ hierarchy.supertypes name, start.Fixed type) :
    ∀ (fuel : Nat) (queue : List TypeRef) (bases : List (Option Name)) (seen :
      List Name) (pool : TypePool), start.Growth pool → List.Forall₂ pool.OfBase queue bases →
      queue.length + hierarchy.pending seen ≤ fuel →
      PoolM.Builds (hierarchy.ancestorsFrom fuel queue seen) pool fun types after =>
        ∃ listed, List.Forall₂ after.OfClass types listed ∧
          Search
            (fun name =>
              ((hierarchy.supertypes name).map fun sup => (start.tree sup).base?).reduceOption)
            bases.reduceOption seen listed ∧
          (seen = [] → ∀ name, bases.head? = some (some name) → types.head? = queue.head?)
  | _, [], _, _, _, _, classes, _ => by
    cases classes
    unfold ClassHierarchy.ancestorsFrom
    exact pure ⟨[], .nil, .done, fun _ _ _ => rfl⟩
  | 0, _ :: _, _, _, _, _, _, enough => by simp at enough
  | fuel + 1, type :: queue, bases, seen, pool, growth, classes, enough => by
    obtain ⟨base?, bases, ofBase, later, rfl⟩ := List.forall₂_cons_left_iff.mp classes
    simp only [List.length_cons] at enough
    refine inspect ofBase ?_
    cases base? with
    | none =>
      refine (ancestorsFrom_search held valid fixed fuel queue bases seen pool growth later
        (by omega)).mono ?_
      rintro types after _ ⟨listed, found, search, _⟩
      exact ⟨listed, found, search, by simp⟩
    | some name =>
      rw [List.reduceOption_cons_of_some]
      dsimp only
      split
      · rename_i accepted
        refine (ancestorsFrom_search held valid fixed fuel queue bases seen pool growth later
          (by omega)).mono ?_
        rintro types after _ ⟨listed, found, search, _⟩
        have member : name ∈ seen := by simpa using accepted
        exact ⟨listed, found, .again member search, fun none =>
          absurd (none ▸ member) List.not_mem_nil⟩
      · rename_i fresh
        have declared : ∀ sup ∈ hierarchy.supertypes name, start.Has sup := held.supertypes name
        have supers : ∀ sup ∈ hierarchy.supertypes name, pool.Has sup ∧ pool.Fixed sup :=
          fun sup member =>
            ⟨growth.has (declared sup member),
              (fixed name sup member).grow (declared sup member) growth⟩
        refine bind (directSupertypes_ofBase ofBase supers) fun types between grown found => ?_
        have trees : ((hierarchy.supertypes name).map fun sup => (pool.tree sup).base?) =
            (hierarchy.supertypes name).map fun sup => (start.tree sup).base? :=
          List.map_congr_left fun sup member =>
            congrArg _ (growth.tree_eq valid (declared sup member))
        rw [trees] at found
        have entering := held.pending_cons (Bool.eq_false_iff.mpr fresh)
        have room : (queue ++ types).length + hierarchy.pending (name :: seen) ≤ fuel := by
          rw [List.length_append, found.length_eq, List.length_map]
          omega
        have queued := List.rel_append (later.imp fun _ _ ofBase => ofBase.grow grown) found
        refine bind (ancestorsFrom_search held valid fixed fuel _ _ _ between (growth.trans grown)
          queued room) ?_
        rintro rest after more ⟨listed, forall₂, search, _⟩
        rw [List.reduceOption_append] at search
        exact pure ⟨name :: listed, .cons (OfClass.grow ofBase (grown.trans more)) forall₂,
          .visit (by simpa using fresh) search, fun _ _ _ => rfl⟩

end PoolM.Builds

namespace ClassHierarchy
open TypePool PoolM.Builds

variable {hierarchy : ClassHierarchy} {pool : TypePool} {type sup : TypeRef} {name target : Name}

/-- The class is that of one of the ancestors of the type. -/
def HasAncestor (hierarchy : ClassHierarchy) (pool : TypePool) (type : TypeRef)
    (class_ : Name) : Prop :=
  ∃ types after, (hierarchy.ancestors type).run pool = .ok (types, after) ∧ ∃ ancestor ∈ types,
    after.OfClass ancestor class_

/-- A type has one list of ancestors. -/
theorem ancestors_hasAncestor (inPool : pool.Has type) (held : hierarchy.HeldBy pool) :
    PoolM.Builds (hierarchy.ancestors type) pool fun types after =>
      (∀ ancestor ∈ types, after.Has ancestor) ∧
      ∀ class_, hierarchy.HasAncestor pool type class_ ↔ ∃ ancestor ∈ types,
        after.OfClass ancestor class_ := by
  refine ((PoolM.Builds.ancestors inPool held).strengthen fun types after ran => ran).mono ?_
  rintro types after _ ⟨listed, ran⟩
  refine ⟨listed.has, fun class_ => ⟨?_, fun member => ⟨types, after, ran, member⟩⟩⟩
  rintro ⟨others, final, again, member⟩
  cases ran.symm.trans again
  exact member

/-- A class type is the first of its ancestors. -/
theorem hasAncestor_self (valid : pool.Valid) (held : hierarchy.HeldBy pool)
    (ofClass : pool.OfClass type name) :
    hierarchy.HasAncestor pool type name := by
  obtain ⟨types, after, ran, growth, _⟩ := PoolM.Builds.ancestors ofClass.has held valid
  refine ⟨types, after, ran, type, ?_, ofClass.grow growth⟩
  have asked : (PoolM.inspect (·.baseName? type)).run pool = .ok (some name, pool) := by
    unfold OfClass at ofClass
    simp [PoolM.inspect, ofClass]
  unfold ancestors ancestorsFrom at ran
  rw [StateT.run_bind, asked, ok_bind] at ran
  obtain ⟨⟨supers, between⟩, _, ran⟩ := Except.bind_eq_ok ran
  obtain ⟨⟨rest, final⟩, _, ran⟩ := Except.bind_eq_ok ran
  cases ran
  exact List.mem_cons_self

/-- A class is found among the ancestors if it is the class of one. -/
theorem ancestorAt?_hasAncestor (inPool : pool.Has type) (held : hierarchy.HeldBy pool)
    (target : Name) : PoolM.Builds (hierarchy.ancestorAt? type target) pool fun found _ =>
      found.isSome = true ↔ hierarchy.HasAncestor pool type target := by
  refine bind (ancestors_hasAncestor inPool held) fun types between growth listed => ?_
  refine (PoolM.Builds.findBase? target listed.1).mono ?_
  rintro found after _ ⟨rfl, rfl⟩
  rw [listed.2, List.find?_isSome]
  refine exists_congr fun ancestor => and_congr_right fun member => ?_
  rw [growth.valid.ofClass_iff_base? (listed.1 ancestor member), beq_iff_eq]

/-- A class type is above exactly those class types that have its class among their ancestors. -/
theorem isSuperclassWithin_hasAncestor (valid : pool.Valid) (held : hierarchy.HeldBy pool)
    (above : pool.OfClass sup target) (ofClass : pool.OfClass type name) (depth : Nat) :
    PoolM.Builds (hierarchy.isSuperclassWithin (depth + 1) sup type) pool fun answer _ =>
      answer = true ↔ hierarchy.HasAncestor pool type target := by
  have trivially : PoolM.Builds (triviallyRelated sup type) pool fun related after =>
      (related = true ↔ sup = type) ∧ after = pool := by
    unfold triviallyRelated
    split
    · exact pure (by simp [*])
    · refine inspect (valid.isLenient_ofClass above)
        (answer (valid.isLenient_ofClass ofClass) (by simp [*]))
  refine bind trivially ?_
  rintro related between _ ⟨same, rfl⟩
  cases related with
  | true =>
    obtain rfl := same.mp rfl
    cases ofClass.symm.trans above
    exact pure (iff_of_true rfl (hasAncestor_self valid held ofClass))
  | false =>
    refine bind (erasure_ofClass above) ?_
    rintro _ between _ ⟨rfl, rfl⟩
    refine readNode ofClass.has fun node found => ?_
    have atClass : PoolM.Builds (do return (← hierarchy.ancestorAt? type target).isSome) between
        fun answer _ => answer = true ↔ hierarchy.HasAncestor between type target :=
      bind (ancestorAt?_hasAncestor ofClass.has held target) fun _ _ _ decides => pure decides
    obtain ⟨_, stored, kind⟩ := ofClass_iff.1 ofClass
    cases stored.symm.trans found
    rcases kind with rfl | ⟨args, rfl⟩ <;> exact atClass

/-- The class is declared to extend or implement the other one. -/
def Inherits (hierarchy : ClassHierarchy) (pool : TypePool) (name super : Name) : Prop :=
  ∃ type ∈ hierarchy.supertypes name, pool.OfClass type super

/-- What classes inherit is settled once they are declared. -/
theorem HeldBy.inherits_eq {before after : TypePool} (held : hierarchy.HeldBy before)
    (growth : before.Growth after) : hierarchy.Inherits after = hierarchy.Inherits before := by
  funext name super
  refine propext ⟨fun ⟨type, member, ofClass⟩ => ?_, fun ⟨type, member, ofClass⟩ =>
    ⟨type, member, ofClass.grow growth⟩⟩
  exact ⟨type, member, ofClass.shrink growth (held.supertypes name type member)⟩

theorem HeldBy.fixed_grow {before after : TypePool} (held : hierarchy.HeldBy before)
    (fixed : ∀ name, ∀ type ∈ hierarchy.supertypes name, before.Fixed type)
    (growth : before.Growth after) : ∀ name, ∀ type ∈ hierarchy.supertypes name, after.Fixed type :=
  fun name type member => (fixed name type member).grow (held.supertypes name type member) growth

/-- The classes that a class is declared to inherit from. -/
def superNames (hierarchy : ClassHierarchy) (pool : TypePool) (name : Name) : List Name :=
  (hierarchy.supertypes name).filterMap fun type => (pool.baseName? type).toOption.join

theorem superNames_eq (valid : pool.Valid) (held : hierarchy.HeldBy pool) :
    hierarchy.superNames pool = fun name =>
      ((hierarchy.supertypes name).map fun sup => (pool.tree sup).base?).reduceOption := by
  funext name
  unfold superNames List.reduceOption
  rw [List.filterMap_map]
  refine List.filterMap_congr fun type member => ?_
  rw [valid.baseName?_eq (held.supertypes name type member)]
  rfl

theorem mem_superNames (name super : Name) :
    super ∈ hierarchy.superNames pool name ↔ hierarchy.Inherits pool name super := by
  unfold superNames Inherits OfClass
  rw [List.mem_filterMap]
  refine exists_congr fun type => and_congr_right fun _ => ?_
  cases pool.baseName? type with
  | error => simp [Except.toOption]
  | ok base => simp [Except.toOption]

section
variable (valid : pool.Valid) (held : hierarchy.HeldBy pool)
  (fixed : ∀ name, ∀ type ∈ hierarchy.supertypes name, pool.Fixed type)
include valid held fixed

/-- The ancestors are found by a search from the class of the type, where no class inherits from a
type variable. -/
theorem ancestors_search_of_fixed (ofClass : pool.OfClass type name) :
    PoolM.Builds (hierarchy.ancestors type) pool fun types after =>
      ∃ names, List.Forall₂ after.OfClass types names ∧
        Search (hierarchy.superNames pool) [name] [] names ∧
        types.head? = some type := by
  refine (ancestorsFrom_search held valid fixed (hierarchy.edges + 1) [type] [some name]
    [] pool valid.growth (.cons ofClass .nil) ?_).mono fun types after _ => ?_
  · rw [pending_nil, List.length_singleton, Nat.add_comm]
  · rintro ⟨names, found, search, head⟩
    rw [superNames_eq valid held]
    exact ⟨names, found, search, head rfl name rfl⟩

/-- The classes among the ancestors are those that can be reached. -/
theorem hasAncestor_reaches (ofClass : pool.OfClass type name) (target : Name) :
    hierarchy.HasAncestor pool type target ↔
    Relation.ReflTransGen (hierarchy.Inherits pool) name target := by
  obtain ⟨types, after, ran, growth, names, found, search, _⟩ :=
    ancestors_search_of_fixed valid held fixed ofClass valid
  obtain ⟨_, _, again, _, inPool, listed⟩ := ancestors_hasAncestor ofClass.has held valid
  cases ran.symm.trans again
  have names := congrArg (some target ∈ ·) (growth.valid.map_base?_eq found)
  rw [listed, ← (search.complete mem_superNames).1 target]
  refine Iff.trans (exists_congr fun ancestor => and_congr_right fun member => ?_)
    (by simpa using names)
  exact growth.valid.ofClass_iff_base? (inPool ancestor member)

theorem isSuperclass_reaches_of_fixed (ofClass : pool.OfClass type name)
    (above : pool.OfClass sup target) :
    PoolM.Builds (hierarchy.isSuperclass sup type) pool fun answer _ =>
      answer = true ↔ Relation.ReflTransGen (hierarchy.Inherits pool) name target :=
  (isSuperclassWithin_hasAncestor valid held above ofClass _).mono fun _ _ _ decides =>
    decides.trans (hasAncestor_reaches valid held fixed ofClass target)

end

section
variable (valid : pool.Valid) (held : hierarchy.HeldBy pool)
  (classes : ∀ name, ∀ type ∈ hierarchy.supertypes name, ∃ super, pool.OfClass type super)
include valid held classes

theorem ancestors_search (ofClass : pool.OfClass type name) :
    PoolM.Builds (hierarchy.ancestors type) pool fun types after =>
      ∃ names, List.Forall₂ after.OfClass types names ∧
        Search (hierarchy.superNames pool) [name] [] names ∧
        types.head? = some type :=
  ancestors_search_of_fixed valid held
    (fun name type member => (classes name type member).elim fun _ ofClass => ofClass.fixed) ofClass

theorem isSuperclass_reaches (ofClass : pool.OfClass type name) (above : pool.OfClass sup target) :
    PoolM.Builds (hierarchy.isSuperclass sup type) pool fun answer _ =>
      answer = true ↔ Relation.ReflTransGen (hierarchy.Inherits pool) name target :=
  isSuperclass_reaches_of_fixed valid held
    (fun name type member => (classes name type member).elim fun _ ofClass => ofClass.fixed)
    ofClass above

end

/-- The ancestors of a class type are a breadth-first enumeration of the classes. -/
theorem ancestors_breadth_first (valid : pool.Valid) (held : hierarchy.HeldBy pool)
    (classes : ∀ name, ∀ type ∈ hierarchy.supertypes name, ∃ super, pool.OfClass type super)
    (ofClass : pool.OfClass type name) :
    (∃ types after names, (hierarchy.ancestors type).run pool = .ok (types, after) ∧
      types.head? = some type ∧
      List.Forall₂ after.OfClass types names ∧ names.Nodup ∧
      (∀ other, other ∈ names ↔ Relation.ReflTransGen (hierarchy.Inherits pool) name other) ∧
      names.Pairwise fun near far =>
        distance (hierarchy.Inherits pool) name near ≤
          distance (hierarchy.Inherits pool) name far) ∧
    ∀ sup target, pool.OfClass sup target → ∃ answer after,
      (hierarchy.isSuperclass sup type).run pool = .ok (answer, after) ∧
        (answer = true ↔ Relation.ReflTransGen (hierarchy.Inherits pool) name target) := by
  constructor
  · obtain ⟨types, after, ran, _, names, found, search, head⟩ :=
      ancestors_search valid held classes ofClass valid
    exact ⟨types, after, names, ran, head, found, search.nodup, search.complete mem_superNames⟩
  · intro sup target above
    obtain ⟨answer, after, ran, _, reaches⟩ :=
      isSuperclass_reaches valid held classes ofClass above valid
    exact ⟨answer, after, ran, reaches⟩

/-- A pool for a class that inherits from ever larger instances of itself. -/
def growingPool : TypePool :=
  .ofEntries
    #[.any, .void, .int, .float, .bool, .char, .string, .var ⟨0⟩ .invariant, .applied "Grow" [⟨7⟩],
      .applied "Grow" [⟨8⟩], .class_ "Left", .class_ "Right", .class_ "Top", .applied "Grow" [⟨2⟩]]
    #[⟨"T", "Grow", .invariant, []⟩]

/-- `Grow<T>` extends `Grow<Grow<T>>` and implements `Left` and `Right`, which both are below `Top`;
and that is below `Left` again. -/
def growingHeaders : List ClassHeader := [
  { name := "Grow", typeParams := [⟨0⟩], superclass := some ⟨9⟩, interfaces := [⟨10⟩, ⟨11⟩] },
  { name := "Left", interfaces := [⟨12⟩] },
  { name := "Right", interfaces := [⟨12⟩] },
  { name := "Top", interfaces := [⟨10⟩] }]

def growingClasses : ClassHierarchy := ofHeaders growingHeaders

/-- The ancestors of `Grow<int>` are four types all the same, and `Top` is the last of them. -/
theorem ancestors_breadth_first_growing :
    (∃ types after names, (growingClasses.ancestors ⟨13⟩).run growingPool = .ok (types, after) ∧
      types.map after.tree = [.applied "Grow" [.int], .class_ "Left", .class_ "Right",
        .class_ "Top"] ∧
      List.Forall₂ after.OfClass types names ∧ names = ["Grow", "Left", "Right", "Top"] ∧
      (∀ other, other ∈ names ↔
        Relation.ReflTransGen (growingClasses.Inherits growingPool) "Grow" other) ∧
      names.Pairwise fun near far => distance (growingClasses.Inherits growingPool) "Grow" near ≤
        distance (growingClasses.Inherits growingPool) "Grow" far) ∧
    ∃ answer after, (growingClasses.isSuperclass ⟨12⟩ ⟨13⟩).run growingPool = .ok (answer, after) ∧
      (answer = true ↔ Relation.ReflTransGen (growingClasses.Inherits growingPool) "Grow"
        "Top") := by
  have held : growingClasses.HeldBy growingPool := heldBy_ofHeaders (by decide)
  have classes : ∀ name, ∀ type ∈ growingClasses.supertypes name, ∃ super,
      growingPool.OfClass type super := by
    intro name type member
    rw [growingClasses, supertypes_ofHeaders] at member
    obtain ⟨header, listed, _, _, declared⟩ := exists_header member
    have each : ∀ header ∈ growingHeaders, ∀ type ∈ header.supertypes,
        ∃ super ∈ ["Grow", "Left", "Right", "Top"], growingPool.OfClass type super := by decide
    exact (each header listed type declared).imp fun _ both => both.2
  obtain ⟨⟨types, after, names, ran, _, found, _, reached, sorted⟩, asked⟩ :=
    ancestors_breadth_first (by decide : growingPool.Valid) held classes
      (by decide : growingPool.OfClass ⟨13⟩ "Grow")
  refine ⟨⟨types, after, names, ran, ?_, found, ?_, reached, sorted⟩, asked ⟨12⟩ "Top" (by decide)⟩
  · cases ran
    rfl
  · cases ran
    rcases found with _ | ⟨⟨⟩, _ | ⟨⟨⟩, _ | ⟨⟨⟩, _ | ⟨⟨⟩, _ | _⟩⟩⟩⟩
    rfl

end ClassHierarchy
end ClassLang
