import ClassLang.Pattern.Coverage
import ClassLang.Proofs.Acyclic
import ClassLang.Proofs.Type.Relation

/-! Following the bounds of variables. Where no parameter is bounded by itself, every chain of
bounds comes to an end before it is as long as the pool. -/

namespace ClassLang

namespace TypePool

/-- Covariant wildcards lead from a type to a variable of a parameter. -/
inductive Under (pool : TypePool) : TypeRef → ParamRef → Prop where
  | var {type : TypeRef} {param : ParamRef} {variance : Variance}
      (found : pool.types[type.raw]? = some (.var param variance)) : pool.Under type param
  | wildcard {type bound : TypeRef} {param : ParamRef}
      (found : pool.types[type.raw]? = some (.wildcard .covariant bound))
      (below : pool.Under bound param) : pool.Under type param

/-- The first bound of a parameter leads only to parameters of smaller rank. -/
def Ranked (pool : TypePool) (rank : ParamRef → Nat) : Prop :=
  ∀ param bound, pool.upperBound param = .ok bound → ∀ other, pool.Under bound other →
    rank other < rank param

/-- No parameter is bounded by itself. -/
def Grounded (pool : TypePool) : Prop := ∃ rank, pool.Ranked rank

/-- What a match looks at after a type: the bound of a variable or of a covariant wildcard. -/
inductive BoundStep (pool : TypePool) : TypeRef → TypeRef → Prop where
  | var {type bound : TypeRef} {param : ParamRef} {variance : Variance}
      (found : pool.types[type.raw]? = some (.var param variance))
      (asked : pool.upperBound param = .ok bound) : pool.BoundStep type bound
  | wildcard {type bound : TypeRef}
      (found : pool.types[type.raw]? = some (.wildcard .covariant bound)) :
      pool.BoundStep type bound

variable {pool before after : TypePool} {type bound : TypeRef} {param other : ParamRef}

theorem Under.unique (first : pool.Under type param) (second : pool.Under type other) :
    param = other := by
  induction first with
  | var found =>
    cases second with
    | var seen =>
      rw [found] at seen
      cases seen
      rfl
    | wildcard seen _ =>
      rw [found] at seen
      cases seen
  | wildcard found _ ih =>
    cases second with
    | var seen =>
      rw [found] at seen
      cases seen
    | wildcard seen below =>
      rw [found] at seen
      cases seen
      exact ih below

/-- What a type of the smaller pool leads to has been there before. -/
theorem Under.shrink (grown : Prefix before after) (valid : before.Valid)
    (under : after.Under type param) (inside : before.Has type) : before.Under type param := by
  induction under with
  | var found =>
    obtain ⟨node, seen⟩ := inside.lookup
    have same := (grown.entries _ _ seen).symm.trans found
    cases same
    exact .var seen
  | wildcard found _ ih =>
    obtain ⟨node, seen⟩ := inside.lookup
    have same := (grown.entries _ _ seen).symm.trans found
    cases same
    exact .wildcard seen (ih (valid.has_bound seen))

theorem Ranked.grow {rank : ParamRef → Nat} (ranked : before.Ranked rank) (valid : before.Valid)
    (growth : before.Growth after) : after.Ranked rank := by
  intro param bound asked other under
  rw [growth.upperBound_eq] at asked
  exact ranked param bound asked other
    (under.shrink growth.grown.types valid (valid.has_upperBound asked))

theorem Grounded.grow (grounded : before.Grounded) (valid : before.Valid)
    (growth : before.Growth after) : after.Grounded :=
  grounded.imp fun _ ranked => ranked.grow valid growth

open Classical in
/-- The rank of the parameter that a type leads to, from 1 on. -/
noncomputable def boundRank (pool : TypePool) (rank : ParamRef → Nat) (type : TypeRef) : Nat :=
  if leads : ∃ param, pool.Under type param then rank leads.choose + 1 else 0

theorem boundRank_of_under {rank : ParamRef → Nat} (under : pool.Under type param) :
    pool.boundRank rank type = rank param + 1 := by
  have leads : ∃ param, pool.Under type param := ⟨param, under⟩
  rw [boundRank, dif_pos leads, leads.choose_spec.unique under]

theorem boundRank_wildcard {rank : ParamRef → Nat}
    (found : pool.types[type.raw]? = some (.wildcard .covariant bound)) :
    pool.boundRank rank bound = pool.boundRank rank type := by
  by_cases leads : ∃ param, pool.Under bound param
  · obtain ⟨param, under⟩ := leads
    rw [boundRank_of_under under, boundRank_of_under (.wildcard found under)]
  · have outer : ¬ ∃ param, pool.Under type param := by
      rintro ⟨param, under⟩
      cases under with
      | var seen =>
        rw [found] at seen
        cases seen
      | wildcard seen below =>
        rw [found] at seen
        cases seen
        exact leads ⟨param, below⟩
    rw [boundRank, boundRank, dif_neg leads, dif_neg outer]

theorem Ranked.boundRank_upperBound {rank : ParamRef → Nat} (ranked : pool.Ranked rank)
    (asked : pool.upperBound param = .ok bound) : pool.boundRank rank bound ≤ rank param := by
  by_cases leads : ∃ other, pool.Under bound other
  · obtain ⟨other, under⟩ := leads
    rw [boundRank_of_under under]
    exact ranked param bound asked other under
  · rw [boundRank, dif_neg leads]
    exact Nat.zero_le _

theorem BoundStep.has (valid : pool.Valid) (step : pool.BoundStep type bound) : pool.Has bound := by
  cases step with
  | var _ asked => exact valid.has_upperBound asked
  | wildcard found => exact valid.has_bound found

/-- A wildcard is entered after its bound, and the bound of a variable leads to a smaller rank. -/
theorem Ranked.measure_lt {rank : ParamRef → Nat} (ranked : pool.Ranked rank) (valid : pool.Valid)
    (step : pool.BoundStep type bound) :
    pool.boundRank rank bound * pool.size + bound.raw <
      pool.boundRank rank type * pool.size + type.raw := by
  have inside : bound.raw < pool.size := step.has valid
  cases step with
  | var found asked =>
    have lower := ranked.boundRank_upperBound asked
    rw [boundRank_of_under (.var found)]
    have scaled := Nat.mul_le_mul_right pool.size lower
    rw [Nat.succ_mul]
    omega
  | wildcard found =>
    have earlier := valid.parts _ _ found bound (by simp [TypeNode.parts])
    rw [boundRank_wildcard found]
    omega

/-- The steps that can still be taken from a type are fewer than the entries of the pool. -/
theorem Grounded.exists_rank (grounded : pool.Grounded) (valid : pool.Valid) :
    ∃ rank : TypeRef → Nat, (∀ type, pool.Has type → rank type < pool.size) ∧
      ∀ type bound, pool.BoundStep type bound → rank bound < rank type := by
  obtain ⟨paramRank, ranked⟩ := grounded
  have acyclic : Acyclic fun source target => pool.BoundStep ⟨source⟩ ⟨target⟩ :=
    .of_measure (fun index => pool.boundRank paramRank ⟨index⟩ * pool.size + index)
      fun _ _ step => ranked.measure_lt valid step
  obtain ⟨rank, bounded, lowers⟩ :=
    acyclic.exists_rank_below fun _ _ step => BoundStep.has valid step
  exact ⟨fun type => rank type.raw, fun type inside => bounded type.raw inside,
    fun type bound step => lowers type.raw bound.raw step⟩

end TypePool

/-- Whenever the action ends in a valid pool, the pool has grown and `post` holds; if `total` holds
it ends. -/
def PoolM.Works (total : Prop) (action : PoolM α) (pool : TypePool) (post : α → TypePool → Prop) :
    Prop :=
  pool.Valid → Runs total action pool fun result after => pool.Growth after ∧ post result after

theorem PoolM.inspect_ensures {query : TypePool → Except Abort α} {next : α → PoolM β}
    {pool : TypePool} {post : β → TypePool → Prop}
    (rest : ∀ answer, query pool = .ok answer → Ensures (next answer) pool post) :
    Ensures (PoolM.inspect query >>= next) pool post := by
  intro value final ran
  obtain ⟨⟨answer, same⟩, asked, continued⟩ := Except.bind_eq_ok ran
  obtain ⟨found, answered, kept⟩ := Except.bind_eq_ok asked
  cases kept
  exact rest _ answered _ _ continued

theorem PoolM.Builds.works {action : PoolM α} {pool : TypePool} {post : α → TypePool → Prop}
    (builds : PoolM.Builds action pool post) (total : Prop) : PoolM.Works total action pool post :=
  fun valid => (builds valid).runs total

namespace PoolM.Works
open TypePool

variable {total : Prop} {pool : TypePool} {post : β → TypePool → Prop}

theorem mono {action : PoolM α} {weak strong : α → TypePool → Prop}
    (works : PoolM.Works total action pool strong)
    (weaken : ∀ result after, pool.Growth after → strong result after → weak result after) :
    PoolM.Works total action pool weak :=
  fun valid => (works valid).mono fun result after holds =>
    ⟨holds.1, weaken result after holds.1 holds.2⟩

/-- What holds of every end may be added. -/
theorem strengthen {action : PoolM α} {post more : α → TypePool → Prop}
    (works : PoolM.Works total action pool post) (ensures : Ensures action pool more) :
    PoolM.Works total action pool fun result after => post result after ∧ more result after := by
  intro valid
  obtain ⟨holds, ends⟩ := works valid
  refine ⟨fun result after ran => ?_, ends⟩
  obtain ⟨growth, promised⟩ := holds result after ran
  exact ⟨growth, promised, ensures result after ran⟩

theorem ofValid {action : PoolM α} {post : α → TypePool → Prop}
    (works : pool.Valid → PoolM.Works total action pool post) :
    PoolM.Works total action pool post :=
  fun valid => works valid valid

theorem pure {result : α} {post : α → TypePool → Prop} (holds : post result pool) :
    PoolM.Works total (Pure.pure result) pool post :=
  fun valid => Runs.pure ⟨valid.growth, holds⟩

theorem bind {action : PoolM α} {next : α → PoolM β} {middle : α → TypePool → Prop}
    (first : PoolM.Works total action pool middle)
    (rest : ∀ result between, pool.Growth between → middle result between →
      PoolM.Works total (next result) between post) :
    PoolM.Works total (action >>= next) pool post := by
  intro valid
  refine Runs.bind ((first valid).mono fun result between holds => ?_)
  refine (rest result between holds.1 holds.2 holds.1.valid).mono fun value after done => ?_
  exact ⟨holds.1.trans done.1, done.2⟩

theorem lift {answer : Except Abort α} {next : α → PoolM β}
    (answers : total → ∃ result, answer = .ok result)
    (rest : ∀ result, answer = .ok result → PoolM.Works total (next result) pool post) :
    PoolM.Works total (liftM answer >>= next) pool post :=
  fun valid => Runs.bind (Runs.lift answers fun result found => rest result found valid)

theorem inspect {query : TypePool → Except Abort α} {next : α → PoolM β}
    (answers : total → ∃ answer, query pool = .ok answer)
    (rest : ∀ answer, query pool = .ok answer → PoolM.Works total (next answer) pool post) :
    PoolM.Works total (PoolM.inspect query >>= next) pool post := by
  intro valid
  have asked : Runs total (liftM (query pool) : PoolM α) pool fun answer after =>
      Runs total (next answer) after fun result final => pool.Growth final ∧ post result final :=
    Runs.lift answers fun answer found => rest answer found valid
  exact Runs.bind (Runs.bind ((Completes.get asked).runs total))

theorem get {next : TypePool → PoolM β} (rest : PoolM.Works total (next pool) pool post) :
    PoolM.Works total (MonadState.get >>= next) pool post :=
  fun valid => Runs.bind ((Completes.get (rest valid)).runs total)

/-- A step that is not reached when `total` holds. -/
theorem fails {fault : Abort} {post : α → TypePool → Prop} (excluded : ¬ total) :
    PoolM.Works total (throw fault) pool post :=
  fun _ => Runs.never excluded fun _ _ ran => nomatch ran

theorem readNode {next : TypeNode → PoolM β} {type : TypeRef} (inside : pool.Has type)
    (rest : ∀ node, pool.types[type.raw]? = some node → PoolM.Works total (next node) pool post) :
    PoolM.Works total (PoolM.inspect (·.node type) >>= next) pool post :=
  inspect (fun _ => inside.lookup.imp fun _ found => node_eq found)
    fun node ran => rest node (lookup_of_node ran)

theorem allM {test : α → PoolM Bool} {elements : List α}
    (each : ∀ element ∈ elements, ∀ between, pool.Growth between →
      PoolM.Works total (test element) between fun _ _ => True) :
    PoolM.Works total (elements.allM test) pool fun _ _ => True := by
  induction elements generalizing pool with
  | nil => exact pure trivial
  | cons first rest ih =>
    refine ofValid fun valid => bind (each first List.mem_cons_self pool valid.growth) ?_
    intro passed between growth _
    cases passed with
    | false => exact pure trivial
    | true =>
      exact ih fun element member after grown =>
        each element (List.mem_cons_of_mem _ member) after (growth.trans grown)

theorem findSomeM? {search : α → PoolM (Option β)} {elements : List α}
    (each : ∀ element ∈ elements, ∀ between, pool.Growth between →
      PoolM.Works total (search element) between fun _ _ => True) :
    PoolM.Works total (elements.findSomeM? search) pool fun _ _ => True := by
  induction elements generalizing pool with
  | nil => exact pure trivial
  | cons first rest ih =>
    refine ofValid fun valid => bind (each first List.mem_cons_self pool valid.growth) ?_
    intro found between growth _
    cases found with
    | some result => exact pure trivial
    | none =>
      exact ih fun element member after grown =>
        each element (List.mem_cons_of_mem _ member) after (growth.trans grown)

theorem filterMapM {search : α → PoolM (Option β)} {elements : List α}
    (each : ∀ element ∈ elements, ∀ between, pool.Growth between →
      PoolM.Works total (search element) between fun _ _ => True) :
    PoolM.Works total (elements.filterMapM search) pool fun _ _ => True := by
  induction elements generalizing pool with
  | nil => exact pure trivial
  | cons first rest ih =>
    rw [List.filterMapM_cons]
    refine ofValid fun valid => bind (each first List.mem_cons_self pool valid.growth) ?_
    intro found between growth _
    have later := ih fun element member after grown =>
      each element (List.mem_cons_of_mem _ member) after (growth.trans grown)
    cases found with
    | none => exact later
    | some result => exact bind later fun _ _ _ _ => pure trivial

end PoolM.Works

namespace ClassHierarchy
open TypePool

variable {hierarchy : ClassHierarchy} {pool : TypePool} {total : Prop}

theorem domainWithin_ok (valid : pool.Valid) {rank : TypeRef → Nat}
    (lowers : ∀ type bound, pool.BoundStep type bound → rank bound < rank type) :
    ∀ (depth : Nat) (type : TypeRef), pool.Has type → rank type < depth →
      ∃ domain, hierarchy.domainWithin pool depth type = .ok domain
  | 0, _, _, deep => absurd deep (Nat.not_lt_zero _)
  | depth + 1, type, inside, deep => by
    obtain ⟨lenient, asked⟩ := inside.isLenient_eq
    obtain ⟨node, found⟩ := inside.lookup
    have below : ∀ bound, pool.BoundStep type bound →
        ∃ domain, hierarchy.domainWithin pool depth bound = .ok domain := by
      intro bound step
      have lower := lowers type bound step
      exact domainWithin_ok valid lowers depth bound (step.has valid) (by omega)
    unfold domainWithin
    rw [asked, ok_bind]
    split
    · exact ⟨_, rfl⟩
    · rw [node_eq found, ok_bind]
      cases node with
      | class_ name | applied name args =>
        dsimp only
        split <;> exact ⟨_, rfl⟩
      | var param variance =>
        obtain ⟨bound, ran⟩ := (valid.named _ _ _ found).upperBound_eq
        dsimp only
        rw [ran, ok_bind]
        exact below bound (.var found ran)
      | wildcard variance bound =>
        cases variance with
        | covariant => exact below bound (.wildcard found)
        | _ => exact ⟨_, rfl⟩
      | _ => exact ⟨_, rfl⟩

/-- Every type of a grounded pool has a domain. -/
theorem domain_ok (valid : pool.Valid) (grounded : pool.Grounded) {type : TypeRef}
    (inside : pool.Has type) : ∃ domain, hierarchy.domain pool type = .ok domain := by
  obtain ⟨rank, bounded, lowers⟩ := grounded.exists_rank valid
  exact domainWithin_ok valid lowers _ type inside (Nat.lt_succ_of_lt (bounded type inside))

end ClassHierarchy

open TypePool in
theorem couldMatchWithin_works {hierarchy : ClassHierarchy} {pool : TypePool} {total : Prop}
    (held : hierarchy.HeldBy pool) {rank : TypeRef → Nat}
    (lowers : total → ∀ type bound, pool.BoundStep type bound → rank bound < rank type)
    {pattern : TypeRef} (patternHere : pool.Has pattern) :
    ∀ (depth : Nat) (subject : TypeRef), pool.Has subject → (total → rank subject < depth) →
      PoolM.Works total (couldMatchWithin hierarchy depth subject pattern) pool fun _ _ => True
  | 0, _, _, deep => PoolM.Works.fails fun sure => absurd (deep sure) (Nat.not_lt_zero _)
  | depth + 1, subject, inside, deep => by
    have below : ∀ bound, pool.Valid → pool.BoundStep subject bound →
        PoolM.Works total (couldMatchWithin hierarchy depth bound pattern) pool
          fun _ _ => True := by
      intro bound valid step
      refine couldMatchWithin_works held lowers patternHere depth bound (step.has valid)
        fun sure => ?_
      have lower := lowers sure subject bound step
      have := deep sure
      omega
    refine PoolM.Works.ofValid fun valid => ?_
    refine PoolM.Works.inspect (fun _ => inside.isLenient_eq) fun lenient _ => ?_
    cases lenient with
    | true => exact PoolM.Works.pure trivial
    | false =>
      refine PoolM.Works.inspect (fun _ => patternHere.isLenient_eq) fun lenient _ => ?_
      cases lenient with
      | true => exact PoolM.Works.pure trivial
      | false =>
        refine PoolM.Works.readNode inside fun node found => ?_
        have classes : PoolM.Works total (do
            if ← hierarchy.isSuperclass subject pattern then return true
            hierarchy.isSuperclass pattern subject) pool fun _ _ => True := by
          refine PoolM.Works.bind ((ClassHierarchy.isSuperclass_settles held inside
            patternHere).works total) fun above between growth _ => ?_
          cases above with
          | true => exact PoolM.Works.pure trivial
          | false =>
            exact (ClassHierarchy.isSuperclass_settles (held.grow growth)
              (growth.has patternHere) (growth.has inside)).works total
        cases node with
        | var param variance =>
          exact PoolM.Works.inspect (fun _ => (valid.named _ _ _ found).upperBound_eq)
            fun bound asked => below bound valid (.var found asked)
        | wildcard variance bound =>
          cases variance with
          | covariant => exact below bound valid (.wildcard found)
          | _ => exact PoolM.Works.pure trivial
        | _ => exact classes

theorem couldMatch_works {hierarchy : ClassHierarchy} {pool : TypePool} {total : Prop}
    (held : hierarchy.HeldBy pool) (grounded : total → pool.Grounded) {subject pattern : TypeRef}
    (subjectHere : pool.Has subject) (patternHere : pool.Has pattern) :
    PoolM.Works total (couldMatch hierarchy subject pattern) pool fun _ _ => True := by
  refine PoolM.Works.ofValid fun valid => PoolM.Works.get ?_
  by_cases sure : total
  · obtain ⟨rank, bounded, lowers⟩ := (grounded sure).exists_rank valid
    exact couldMatchWithin_works held (fun _ => lowers) patternHere _ subject subjectHere
      fun _ => Nat.lt_succ_of_lt (bounded subject subjectHere)
  · have never : total → ∀ type bound, pool.BoundStep type bound → 0 < 0 :=
      fun holds => absurd holds sure
    exact couldMatchWithin_works held never patternHere _ subject subjectHere
      fun holds => absurd holds sure

end ClassLang
