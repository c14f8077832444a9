import ClassLang.Proofs.Pattern.Exhaustiveness
import ClassLang.Proofs.Pattern.FirstMatch
import ClassLang.Proofs.Pattern.Storage
import ClassLang.Proofs.Type.Description
import ClassLang.Proofs.Type.Grounding

/-! The analysis of arms ends: every step of the usefulness test shortens the row or takes a
constructor out of the rows. -/

namespace ClassLang
open TypePool

namespace Shape

theorem rowConstructors_append (first second : List Shape) :
    rowConstructors (first ++ second) = rowConstructors first + rowConstructors second := by
  induction first with
  | nil => simp [rowConstructors]
  | cons shape rest ih =>
    rw [List.cons_append, rowConstructors, rowConstructors, ih]
    omega

@[simp] theorem rowConstructors_replicate_wild (count : Nat) :
    rowConstructors (List.replicate count .wild) = 0 := by
  induction count with
  | zero => rfl
  | succ count ih => simp [List.replicate_succ, rowConstructors, constructors, ih]

theorem rowConstructors_take_le (count : Nat) (row : List Shape) :
    rowConstructors (row.take count) ≤ rowConstructors row := by
  have whole := rowConstructors_append (row.take count) (row.drop count)
  rw [List.take_append_drop] at whole
  omega

end Shape

namespace Row

theorem constructors_resize_le (arity : Nat) (args : List Shape) :
    Shape.rowConstructors (resize arity args) ≤ Shape.rowConstructors args := by
  rw [resize, Shape.rowConstructors_append, Shape.rowConstructors_replicate_wild]
  exact Shape.rowConstructors_take_le arity args

/-- Specializing adds no constructor, and takes the leading one away. -/
theorem constructors_specialize? {head : Head} {arity : Nat} {row rest : Row}
    (kept : specialize? head arity row = some rest) :
    rest.constructors ≤ row.constructors ∧
      (row.leading? ≠ none → rest.constructors < row.constructors) := by
  cases row with
  | nil => cases kept
  | cons shape row =>
    cases shape with
    | wild =>
      cases kept
      simp [Row.constructors, Shape.rowConstructors_append, Shape.rowConstructors,
        Shape.constructors, leading?]
    | node other args =>
      simp only [specialize?] at kept
      split at kept
      · cases kept
        have shorter := constructors_resize_le arity args
        simp only [Row.constructors, Shape.rowConstructors_append, Shape.rowConstructors,
          Shape.constructors]
        omega
      · cases kept

theorem constructors_default? {row rest : Row} (kept : default? row = some rest) :
    rest.constructors ≤ row.constructors := by
  cases row with
  | nil => cases kept
  | cons shape row =>
    cases shape with
    | wild =>
      cases kept
      simp [Row.constructors, Shape.rowConstructors, Shape.constructors]
    | node => cases kept

/-- Number of constructors in the rows and the row. -/
def weight (rows : List Row) (row : Row) : Nat :=
  (rows.map Row.constructors).sum + row.constructors

section
variable {keep : Row → Option Row} {rows : List Row}

theorem sum_filterMap_le
    (less : ∀ row rest, keep row = some rest → rest.constructors ≤ row.constructors) :
    ((rows.filterMap keep).map Row.constructors).sum ≤ (rows.map Row.constructors).sum := by
  induction rows with
  | nil => exact Nat.le_refl 0
  | cons row rows ih =>
    cases kept : keep row with
    | none =>
      rw [List.filterMap_cons_none kept, List.map_cons, List.sum_cons]
      omega
    | some rest =>
      have := less row rest kept
      rw [List.filterMap_cons_some kept, List.map_cons, List.sum_cons, List.map_cons, List.sum_cons]
      omega

/-- One row that loses a constructor, or is dropped with one, makes the sum smaller. -/
theorem sum_filterMap_lt
    (less : ∀ row rest, keep row = some rest → rest.constructors ≤ row.constructors)
    {row : Row} (member : row ∈ rows) (counted : 0 < row.constructors)
    (loses : ∀ rest, keep row = some rest → rest.constructors < row.constructors) :
    ((rows.filterMap keep).map Row.constructors).sum < (rows.map Row.constructors).sum := by
  obtain ⟨before, after, rfl⟩ := List.append_of_mem member
  have first : ((before.filterMap keep).map Row.constructors).sum ≤ _ := sum_filterMap_le less
  have last : ((after.filterMap keep).map Row.constructors).sum ≤ _ := sum_filterMap_le less
  rw [List.filterMap_append, List.map_append, List.sum_append, List.map_append, List.sum_append,
    List.map_cons, List.sum_cons]
  cases kept : keep row with
  | none =>
    rw [List.filterMap_cons_none kept]
    omega
  | some rest =>
    have := loses rest kept
    rw [List.filterMap_cons_some kept, List.map_cons, List.sum_cons]
    omega

end

/-- Specialization by the constructor of the row. -/
theorem weight_node (rows : List Row) (head : Head) (args : List Shape) (rest : Row) :
    weight (rows.filterMap (specialize? head args.length)) (args ++ rest) <
      weight rows (.node head args :: rest) := by
  have fewer : ((rows.filterMap (specialize? head args.length)).map Row.constructors).sum ≤ _ :=
    sum_filterMap_le fun row rest kept => (constructors_specialize? kept).1
  simp only [weight, Row.constructors, Shape.rowConstructors_append, Shape.rowConstructors,
    Shape.constructors]
  omega

/-- Specialization of a wildcard by a constructor that some row has. -/
theorem weight_wild {rows : List Row} {head : Head} (used : head ∈ rows.filterMap leading?)
    (arity : Nat) (rest : Row) :
    weight (rows.filterMap (specialize? head arity)) (List.replicate arity .wild ++ rest) <
      weight rows (.wild :: rest) := by
  obtain ⟨row, member, leads⟩ := List.mem_filterMap.mp used
  have counted : 0 < row.constructors := by
    cases row with
    | nil => cases leads
    | cons shape row =>
      cases shape with
      | wild => cases leads
      | node =>
        simp only [Row.constructors, Shape.rowConstructors, Shape.constructors]
        omega
  have fewer : ((rows.filterMap (specialize? head arity)).map Row.constructors).sum < _ :=
    sum_filterMap_lt (fun row rest kept => (constructors_specialize? kept).1) member counted
      fun rest kept => (constructors_specialize? kept).2 (by simp [leads])
  simp only [weight, Row.constructors, Shape.rowConstructors_append, Shape.rowConstructors,
    Shape.constructors, Shape.rowConstructors_replicate_wild]
  omega

theorem weight_default (rows : List Row) (rest : Row) :
    weight (rows.filterMap default?) rest ≤ weight rows (.wild :: rest) := by
  have fewer : ((rows.filterMap default?).map Row.constructors).sum ≤ _ :=
    sum_filterMap_le fun row rest kept => constructors_default? kept
  simp only [weight, Row.constructors, Shape.rowConstructors, Shape.constructors]
  omega

end Row

/-- The test works on rows whose weight is admitted. -/
def UsefulTest.Works (total : Prop) (test : UsefulTest) (base : TypePool) (admits : Nat → Prop) :
    Prop :=
  ∀ rows row types pool, base.Growth pool → (∀ type ∈ types, pool.Has type) →
    (total → admits (Row.weight rows row)) →
    PoolM.Works total (test rows row types) pool fun _ _ => True

namespace ClassHierarchy

variable {hierarchy : ClassHierarchy} {base pool : TypePool} {total : Prop}

theorem argTypes_works (head : Head) {type : TypeRef} (held : hierarchy.HeldBy pool)
    (inside : pool.Has type) :
    PoolM.Works total (hierarchy.argTypes head type) pool fun types after =>
      ∀ type ∈ types, after.Has type :=
  ((PoolM.Builds.argTypes head inside held).works total).mono fun _ _ _ denotes => denotes.has

theorem usefulHead_works (held : hierarchy.HeldBy base) {deeper : UsefulTest} {limit : Nat}
    (below : deeper.Works total base (· < limit)) {rows : List Row} {head : Head}
    {args : List Shape} {rest : Row} {type : TypeRef} {restTypes : List TypeRef}
    (growth : base.Growth pool) (inPool : pool.Has type)
    (restHere : ∀ type ∈ restTypes, pool.Has type)
    (lighter : total → Row.weight (rows.filterMap (Row.specialize? head args.length))
      (args ++ rest) < limit) :
    PoolM.Works total (hierarchy.usefulHead deeper rows head args rest type restTypes) pool
      fun _ _ => True := by
  refine PoolM.Works.bind (argTypes_works head (held.grow growth) inPool)
    fun argTypes between grown argsHere => ?_
  have columns : ∀ type ∈ argTypes.take args.length ++
      List.replicate (args.length - argTypes.length) .any ++ restTypes, between.Has type := by
    intro other member
    rcases List.mem_append.mp member with inArgs | inRest
    · rcases List.mem_append.mp inArgs with taken | filled
      · exact argsHere other (List.mem_of_mem_take taken)
      · rw [List.eq_of_mem_replicate filled]
        exact grown.valid.has_any
    · exact grown.has (restHere other inRest)
  refine PoolM.Works.bind (below _ _ _ between (growth.trans grown) columns lighter)
    fun witness _ _ _ => ?_
  cases witness <;> exact PoolM.Works.pure trivial

theorem missingHead_works (domain : Domain) (used : List Head) {type : TypeRef}
    (held : hierarchy.HeldBy pool) (inPool : pool.Has type) :
    PoolM.Works total (hierarchy.missingHead domain used type) pool fun _ _ => True := by
  unfold missingHead
  split
  · exact PoolM.Works.pure trivial
  · split
    · exact PoolM.Works.pure trivial
    · split
      · exact PoolM.Works.pure trivial
      · exact PoolM.Works.bind (argTypes_works _ held inPool) fun _ _ _ _ =>
          PoolM.Works.pure trivial

theorem headD_here {types : List TypeRef} (valid : pool.Valid)
    (inside : ∀ type ∈ types, pool.Has type) : pool.Has (types.headD .any) := by
  cases types with
  | nil => exact valid.has_any
  | cons type types => exact inside type List.mem_cons_self

/-- One step, given the test for smaller weights. -/
theorem usefulStep_works (valid : base.Valid) (held : hierarchy.HeldBy base)
    (grounded : total → base.Grounded) {deeper : UsefulTest} {limit : Nat}
    (below : deeper.Works total base (· < limit)) :
    ∀ (row : Row) (rows : List Row) (types : List TypeRef) (pool : TypePool), base.Growth pool →
      (∀ type ∈ types, pool.Has type) → (total → Row.weight rows row ≤ limit) →
      PoolM.Works total (hierarchy.usefulStep deeper rows row types) pool fun _ _ => True
  | [], rows, types, pool, _, _, _ => by
    unfold usefulStep
    exact PoolM.Works.pure trivial
  | .node head args :: rest, rows, types, pool, growth, inside, light => by
    unfold usefulStep
    refine usefulHead_works held below growth (headD_here growth.valid inside)
      (fun type member => inside type (List.mem_of_mem_tail member)) fun sure => ?_
    have lighter := Row.weight_node rows head args rest
    have := light sure
    omega
  | .wild :: rest, rows, types, pool, growth, inside, light => by
    have inPool := headD_here growth.valid inside
    have tailHere : ∀ type ∈ types.tail, pool.Has type :=
      fun type member => inside type (List.mem_of_mem_tail member)
    unfold usefulStep
    refine PoolM.Works.inspect (fun sure => domain_ok growth.valid
      ((grounded sure).grow valid growth) inPool) fun domain _ => ?_
    have byDefault : PoolM.Works total
        (hierarchy.withMissingHead domain (rows.filterMap Row.leading?)
        (types.headD .any)
        (hierarchy.usefulStep deeper (rows.filterMap Row.default?) rest types.tail)) pool
        fun _ _ => True := by
      refine PoolM.Works.bind (usefulStep_works valid held grounded below rest
        (rows.filterMap Row.default?) types.tail pool growth tailHere fun sure => ?_)
        fun witness between grown _ => ?_
      · exact Nat.le_trans (Row.weight_default rows rest) (light sure)
      · cases witness with
        | none => exact PoolM.Works.pure trivial
        | some witness =>
          exact PoolM.Works.bind (missingHead_works domain _ (held.grow (growth.trans grown))
            (grown.has inPool)) fun _ _ _ _ => PoolM.Works.pure trivial
    cases domain with
    | infinite => exact byDefault
    | finite heads =>
      dsimp only
      split
      · rename_i allUsed
        refine PoolM.Works.findSomeM? fun head member between grown => ?_
        have used : head ∈ rows.filterMap Row.leading? :=
          List.contains_iff_mem.mp (List.all_eq_true.mp allUsed head member)
        refine PoolM.Works.bind (argTypes_works head (held.grow (growth.trans grown))
          (grown.has inPool)) fun argTypes after more _ => ?_
        have whole := grown.trans more
        refine usefulHead_works held below (growth.trans whole) (whole.has inPool)
          (fun type present => whole.has (tailHere type present)) fun sure => ?_
        have lighter := Row.weight_wild used argTypes.length rest
        have := light sure
        rw [List.length_replicate]
        omega
      · exact byDefault

theorem usefulWithin_works (valid : base.Valid) (held : hierarchy.HeldBy base)
    (grounded : total → base.Grounded) :
    ∀ limit, (hierarchy.usefulWithin limit).Works total base (· ≤ limit)
  | 0 => fun rows row types pool growth inside light => by
    have below : UsefulTest.Works total (fun _ _ _ => throw .cyclic) base (· < 0) :=
      fun _ _ _ _ _ _ light => PoolM.Works.fails fun sure => absurd (light sure) (Nat.not_lt_zero _)
    exact usefulStep_works valid held grounded below row rows types pool growth inside light
  | limit + 1 => fun rows row types pool growth inside light => by
    have below : (hierarchy.usefulWithin limit).Works total base (· < limit + 1) :=
      fun rows row types pool growth inside light =>
        usefulWithin_works valid held grounded limit rows row types pool growth inside
          fun sure => Nat.le_of_lt_succ (light sure)
    exact usefulStep_works valid held grounded below row rows types pool growth inside light

/-- The number of constructors bounds the recursion. -/
theorem useful_works (valid : base.Valid) (held : hierarchy.HeldBy base)
    (grounded : total → base.Grounded) (rows : List Row) (row : Row) {types : List TypeRef}
    (growth : base.Growth pool) (inside : ∀ type ∈ types, pool.Has type) :
    PoolM.Works total (hierarchy.useful rows row types) pool fun _ _ => True :=
  usefulWithin_works valid held grounded _ rows row types pool growth inside
    fun _ => Nat.le_refl _

/-- The classes that the values of a class are built with, as far as the analysis knows: the
permitted classes of a sealed class with the class itself unless it is abstract, else only the
class itself. -/
def roots (hierarchy : ClassHierarchy) (name : Name) : List Name :=
  match hierarchy.variants name with
  | some variants => variants ++ if hierarchy.isAbstract name then [] else [name]
  | none => [name]

theorem domain_class {subject : TypeRef} {name : Name}
    (found : pool.types[subject.raw]? = some (.class_ name)) (valid : pool.Valid) :
    hierarchy.domain pool subject = .ok (.finite ((hierarchy.roots name).map .class_)) := by
  have other : subject ≠ .any := by
    rintro rfl
    have entry : pool.types[TypeRef.any.raw]? = some .any := valid.primitives.entries 0 .any rfl
    rw [entry] at found
    cases found
  unfold domain domainWithin roots
  simp only [TypePool.isLenient, if_neg other, TypePool.isUnresolved, node_eq found, ok_bind,
    pure_eq_ok, Bool.false_eq_true, if_false]
  cases hierarchy.variants name with
  | none => rfl
  | some variants => cases hierarchy.isAbstract name <;> simp

/-- When rows without wildcards leave nothing out, they name every class of the subject. -/
theorem useful_wild_ensures {rows : List Row} {subject : TypeRef} {name : Name}
    (stored : pool.types[subject.raw]? = some (.class_ name)) (valid : pool.Valid)
    (leads : ∀ row ∈ rows, row.leading? ≠ none) :
    Ensures (hierarchy.useful rows [.wild] [subject]) pool fun answer _ => answer = none →
      ∀ root ∈ hierarchy.roots name, .class_ root ∈ rows.filterMap Row.leading? := by
  have step : ∀ deeper : UsefulTest,
      Ensures (hierarchy.usefulStep deeper rows [.wild] [subject]) pool fun answer _ =>
        answer = none → ∀ root ∈ hierarchy.roots name,
          .class_ root ∈ rows.filterMap Row.leading? := by
    intro deeper
    unfold usefulStep
    refine PoolM.inspect_ensures fun domain asked => ?_
    rw [List.headD_cons, domain_class stored valid] at asked
    cases asked
    have noRows : rows.filterMap Row.default? = [] := by
      refine List.filterMap_eq_nil_iff.mpr fun row member => ?_
      match row, leads row member with
      | [], missing | .wild :: _, missing => exact absurd rfl missing
      | .node _ _ :: _, _ => rfl
    dsimp only
    split
    · rename_i allUsed
      intro answer after _ _ root member
      have used := List.all_eq_true.mp allUsed _ (List.mem_map_of_mem member)
      exact List.contains_iff_mem.mp used
    · -- Nothing is left of the rows, so that a witness is found.
      rw [noRows]
      unfold usefulStep
      intro answer after ran none
      obtain ⟨⟨shape, between⟩, _, ran⟩ := Except.bind_eq_ok ran
      cases ran
      cases none
  intro answer after ran
  unfold useful at ran
  generalize (rows.map Row.constructors).sum + Row.constructors [.wild] = limit at ran
  cases limit with
  | zero => exact step _ answer after ran
  | succ limit => exact step _ answer after ran

/-- Rows without wildcards that leave nothing out name every class of the subject. -/
def NamesRoots (hierarchy : ClassHierarchy) (pool : TypePool) (subject : TypeRef)
    (rows : List Row) : Prop :=
  ∀ name, pool.types[subject.raw]? = some (.class_ name) →
    (∀ row ∈ rows, row.leading? ≠ none) →
    ∀ root ∈ hierarchy.roots name, .class_ root ∈ rows.filterMap Row.leading?

theorem missingValues_works (valid : base.Valid) (held : hierarchy.HeldBy base)
    (grounded : total → base.Grounded) (rows : List Row) {subject : TypeRef}
    (growth : base.Growth pool) (inPool : pool.Has subject) :
    PoolM.Works total (hierarchy.missingValues rows subject) pool fun missing _ =>
      missing = [] → hierarchy.NamesRoots pool subject rows := by
  have column : ∀ {pool : TypePool}, pool.Has subject → ∀ type ∈ [subject], pool.Has type := by
    intro pool inside
    simpa using inside
  have asked : PoolM.Works total (hierarchy.useful rows [.wild] [subject]) pool fun answer _ =>
      answer ≠ some [] ∧ (answer = none → hierarchy.NamesRoots pool subject rows) := by
    refine ((useful_works valid held grounded rows [.wild] growth (column inPool)).strengthen
      ?_).mono
      fun _ _ _ holds => holds.2
    intro answer after ran
    refine ⟨useful_ne_nil rows .wild [] [subject] pool answer after ran, ?_⟩
    intro none name found leads
    exact useful_wild_ensures found growth.valid leads answer after ran none
  refine PoolM.Works.bind asked ?_
  rintro answer between grown ⟨filled, names⟩
  have whole := growth.trans grown
  cases answer with
  | none => exact PoolM.Works.pure fun _ => names rfl
  | some first =>
    have shown : first.take 1 ≠ [] := by
      intro none
      rcases List.take_eq_nil_iff.mp none with zero | empty
      · cases zero
      · exact filled (congrArg some empty)
    refine PoolM.Works.inspect (fun sure => domain_ok grown.valid
      ((grounded sure).grow valid whole) (grown.has inPool)) fun domain _ => ?_
    cases domain with
    | infinite => exact PoolM.Works.pure fun none => absurd none shown
    | finite heads =>
      refine PoolM.Works.bind (PoolM.Works.filterMapM fun head _ later more => ?_)
        fun missing _ _ _ => PoolM.Works.pure fun none => ?_
      · have subjectHere := more.has (grown.has inPool)
        refine PoolM.Works.bind (argTypes_works head (held.grow (whole.trans more)) subjectHere)
          fun argTypes after further _ => ?_
        exact PoolM.Works.bind (useful_works valid held grounded rows _
          ((whole.trans more).trans further) (column (further.has subjectHere)))
          fun _ _ _ _ => PoolM.Works.pure trivial
      · split at none
        · exact absurd none shown
        · rename_i some
          exact absurd (List.isEmpty_iff.mpr none) some

/-- Every row is a row given before or the shape of an arm. -/
theorem armRows_works (valid : base.Valid) (held : hierarchy.HeldBy base)
    (grounded : total → base.Grounded) {store : PatternStore} {storePool : TypePool}
    (sound : store.Sound storePool) {subject : TypeRef} :
    ∀ (live : List (Nat × Nat)) (before : List Row) (pool : TypePool), base.Growth pool →
      pool.Has subject → (∀ entry ∈ live, entry.2 < store.size) →
      PoolM.Works total (hierarchy.armRows store subject before live) pool fun result _ =>
        ∀ row ∈ result.1, row ∈ before ∨
          ∃ entry ∈ live, ∃ shape, Shape.ofStore store entry.2 = .ok shape ∧ row = [shape]
  | [], _, _, _, _, _ => PoolM.Works.pure fun _ member => .inl member
  | (index, id) :: live, before, pool, growth, inPool, inside => by
    refine PoolM.Works.lift (fun _ => sound.ofStore_ok (inside _ List.mem_cons_self))
      fun shape read => ?_
    refine PoolM.Works.bind (useful_works valid held grounded before [shape] growth
      (by simpa using inPool)) fun witness between grown _ => ?_
    refine PoolM.Works.bind (armRows_works valid held grounded sound live _ between
      (growth.trans grown) (grown.has inPool)
      fun entry member => inside entry (List.mem_cons_of_mem _ member)) fun result _ _ rows => ?_
    refine PoolM.Works.pure fun row member => ?_
    rcases rows row member with old | ⟨entry, present, other, ran, same⟩
    · rcases List.mem_append.mp old with first | new
      · exact .inl first
      · exact .inr ⟨(index, id), List.mem_cons_self, shape, read, List.mem_singleton.mp new⟩
    · exact .inr ⟨entry, List.mem_cons_of_mem _ present, other, ran, same⟩

/-- If every arm only takes a class apart, the classes of the arms are all classes of the
subject. -/
def CoversRoots (hierarchy : ClassHierarchy) (pool : TypePool) (store : PatternStore)
    (arms : List (Option Nat)) (subject : TypeRef) : Prop :=
  ∀ name, pool.types[subject.raw]? = some (.class_ name) →
    (∀ id, some id ∈ arms → ∃ class_, store.TakesClass id class_) →
    ∀ root ∈ hierarchy.roots name, ∃ id, some id ∈ arms ∧ store.TakesClass id root

theorem mem_live {arms : List (Option Nat)} {entry : Nat × Nat}
    (member : entry ∈ arms.zipIdx.filterMap fun (arm, index) => arm.map (index, ·)) :
    some entry.2 ∈ arms :=
  List.mem_of_getElem? ((live_spec arms).1 entry member)

theorem analyzeArms_works (held : hierarchy.HeldBy pool) (grounded : total → pool.Grounded)
    {store : PatternStore} (sound : store.Sound pool) {arms : List (Option Nat)}
    (inside : ∀ id, some id ∈ arms → id < store.size) {subject : TypeRef}
    (inPool : pool.Has subject) :
    PoolM.Works total (analyzeArms hierarchy store arms subject) pool fun coverage _ =>
      coverage.witnesses = [] → hierarchy.CoversRoots pool store arms subject := by
  refine PoolM.Works.ofValid fun valid => ?_
  refine PoolM.Works.bind (armRows_works valid held grounded sound _ [] pool valid.growth inPool
    fun entry member => inside _ (mem_live member)) ?_
  rintro ⟨rows, unreachable⟩ between grown fromArms
  refine PoolM.Works.bind (missingValues_works valid held grounded rows grown (grown.has inPool))
    fun missing _ _ names => PoolM.Works.pure ?_
  intro nothing name stored classes root member
  have taken : ∀ row ∈ rows, ∃ id class_ args, some id ∈ arms ∧ store.TakesClass id class_ ∧
      row = [.node (.class_ class_) args] := by
    intro row present
    rcases fromArms row present with old | ⟨entry, live, shape, read, rfl⟩
    · cases old
    · obtain ⟨class_, takes⟩ := classes entry.2 (mem_live live)
      obtain ⟨args, rfl, _⟩ := takes.ofStore_eq read
      exact ⟨entry.2, class_, args, mem_live live, takes, rfl⟩
  have leads : ∀ row ∈ rows, row.leading? ≠ none := by
    intro row present
    obtain ⟨_, _, _, _, _, rfl⟩ := taken row present
    simp [Row.leading?]
  have found := names (List.map_eq_nil_iff.mp nothing) name
    (grown.grown.types.entries _ _ stored) leads root member
  obtain ⟨row, present, led⟩ := List.mem_filterMap.mp found
  obtain ⟨id, class_, args, arm, takes, rfl⟩ := taken row present
  cases led
  exact ⟨id, arm, takes⟩

end ClassHierarchy

/-- Marking patterns keeps the store sound. -/
theorem PatternStore.Sound.marked {before after : PatternStore} {pool : TypePool}
    (sound : before.Sound pool) (marked : before.Marked after) : after.Sound pool := by
  have entry : ∀ (id : Nat) (found : PatternNode), after.nodes[id]? = some found →
      ∃ node, before.nodes[id]? = some node ∧ found.kind = node.kind ∧
        found.subject = node.subject ∧ (node.state ≠ .unbound → found.state ≠ .unbound) := by
    intro id found present
    have inside : id < before.size := marked.size ▸ (Array.getElem?_eq_some_iff.mp present).1
    obtain ⟨node, stored⟩ := PatternStore.lookup_of_lt inside
    obtain ⟨state, held, typed⟩ := marked.keeps id node stored
    rw [present] at held
    cases held
    exact ⟨node, stored, rfl, rfl, typed⟩
  refine ⟨fun id found present part member => ?_, fun id found present wild => ?_,
    fun id found present => ?_⟩
  · obtain ⟨node, stored, kind, _⟩ := entry id found present
    exact sound.descends id node stored part (kind ▸ member)
  · obtain ⟨node, stored, kind, _, typed⟩ := entry id found present
    exact typed (sound.wildcards id node stored (kind.symm.trans wild))
  · obtain ⟨node, stored, _, subject, _⟩ := entry id found present
    exact subject ▸ sound.subjects id node stored

namespace MatchGroup

variable {total : Prop} {hierarchy : ClassHierarchy} {pool : TypePool} {store : PatternStore}
  {group : MatchGroup}

/-- The subject and the typed arms of a group are where they should be. -/
structure HeldBy (group : MatchGroup) (pool : TypePool) (store : PatternStore) : Prop where
  subject : pool.Has group.subject
  arms : ∀ id, some id ∈ group.arms.map (·.pattern) → ∃ tree, store.Represents tree id

theorem coverageReports_standard (coverage : Coverage) :
    ∀ report ∈ group.coverageReports coverage, report.Standard := by
  intro report member
  have listed : ∀ report ∈ coverage.unreachable.filterMap (fun index =>
      (group.arms[index]?).map fun arm => ({ code := .unreachablePattern, span := arm.span } :
        Diagnostic)), report.Standard := by
    intro report member
    obtain ⟨index, _, made⟩ := List.mem_filterMap.mp member
    obtain ⟨arm, _, rfl⟩ := Option.map_eq_some_iff.mp made
    rfl
  unfold coverageReports at member
  dsimp only at member
  split at member
  · exact listed report member
  · rcases List.mem_append.mp member with old | new
    · exact listed report old
    · rw [List.mem_singleton.mp new]
      rfl

theorem coverageReports_error {coverage : Coverage} (open_ : coverage.witnesses ≠ []) :
    ∃ report ∈ group.coverageReports coverage, report.isError = true := by
  have missing : coverage.isExhaustive = false := by
    simpa [Coverage.isExhaustive] using open_
  unfold coverageReports
  simp only [missing, Bool.false_eq_true, if_false]
  exact ⟨_, List.mem_append_right _ List.mem_cons_self, rfl⟩

/-- A check is the analysis of the arms, excused when a name in the subject is unresolved, with its
reports. -/
theorem check_spec {post : Coverage → TypePool → Prop}
    (analysed : PoolM.Works total
      (analyzeArms hierarchy store (group.arms.map (·.pattern)) group.subject) pool post)
    (held : group.HeldBy pool store) :
    PoolM.Works total (group.check hierarchy store) pool fun result after =>
      ∃ coverage between excused, pool.Growth between ∧ between.Growth after ∧
        post coverage between ∧ between.containsUnresolved group.subject = .ok excused ∧
        result.1.coverage = (if excused then { coverage with witnesses := [] } else coverage) ∧
        result.2 = group.coverageReports result.1.coverage := by
  refine PoolM.Works.bind analysed fun coverage between grown holds => ?_
  refine PoolM.Works.inspect
    (fun _ => grown.valid.containsUnresolved_ok (grown.has held.subject)) fun excused asked => ?_
  refine PoolM.Works.bind (PoolM.Works.allM fun arm member later _ => ?_)
    fun switchable _ more _ => ?_
  · cases pattern : arm.pattern with
    | none => exact PoolM.Works.pure trivial
    | some id =>
      obtain ⟨tree, represents⟩ := held.arms id (List.mem_map.mpr ⟨arm, member, pattern⟩)
      exact fun valid => Runs.lift (fun _ => ⟨_, represents.isSwitchable_eq⟩)
        fun _ _ => ⟨valid.growth, trivial⟩
  · exact PoolM.Works.pure ⟨coverage, between, excused, grown, more, holds, asked, rfl, rfl⟩

/-- A group without an error names every class of its subject. -/
theorem check_works (hierarchyHeld : hierarchy.HeldBy pool) (grounded : total → pool.Grounded)
    (sound : store.Sound pool) (held : group.HeldBy pool store) :
    PoolM.Works total (group.check hierarchy store) pool fun result _ =>
      (∀ report ∈ result.2, report.Standard) ∧
        ((∀ report ∈ result.2, report.isError = false) →
          hierarchy.CoversRoots pool store (group.arms.map (·.pattern)) group.subject) := by
  have inside : ∀ id, some id ∈ group.arms.map (·.pattern) → id < store.size := by
    intro id member
    obtain ⟨tree, represents⟩ := held.arms id member
    exact represents.inside
  refine (check_spec (ClassHierarchy.analyzeArms_works hierarchyHeld grounded sound inside
    held.subject) held).mono ?_
  rintro ⟨analysis, reports⟩ _ _ ⟨coverage, between, excused, grown, _, covers, asked, same, made⟩
  dsimp only at same made ⊢
  subst made
  refine ⟨coverageReports_standard _, fun clean name found => ?_⟩
  have there := grown.grown.types.entries _ _ found
  unfold TypePool.containsUnresolved TypePool.containsUnresolvedWithin at asked
  rw [node_eq there] at asked
  cases asked
  refine covers ?_ name found
  by_contra open_
  obtain ⟨report, member, error⟩ :
      ∃ report ∈ group.coverageReports analysis.coverage, report.isError = true :=
    coverageReports_error (same ▸ open_)
  have := clean report member
  rw [error] at this
  cases this

/-- Checking and lowering a group ends, and changes no pattern but by marking it. -/
theorem compile_works (hierarchyHeld : hierarchy.HeldBy pool) (grounded : total → pool.Grounded)
    (sound : store.Sound pool) (held : group.HeldBy pool store) :
    PoolM.Works total (group.compile hierarchy store) pool fun result _ =>
      store.Marked result.2.2 ∧ (∀ report ∈ result.1.2, report.Standard) ∧
        ((∀ report ∈ result.1.2, report.isError = false) →
          hierarchy.CoversRoots pool store (group.arms.map (·.pattern)) group.subject) := by
  refine PoolM.Works.bind (check_works hierarchyHeld grounded sound held) ?_
  rintro ⟨analysis, reports⟩ between grown ⟨standard, covers⟩
  obtain ⟨arms, represents⟩ : ∃ arms, RepresentsArms store arms group.live :=
    exists_representsArms fun entry member => by
      obtain ⟨arm, present, pattern⟩ := mem_live.mp member
      exact held.arms entry.2 (List.mem_map.mpr ⟨arm, List.mem_of_getElem? present, pattern⟩)
  obtain ⟨lowered, after, ran, marked, _⟩ := lower_completes analysis represents
  refine PoolM.Works.lift (fun _ => ⟨_, ran⟩) fun result answered => PoolM.Works.pure ?_
  rw [ran] at answered
  cases answered
  exact ⟨marked, standard, covers⟩

end MatchGroup
end ClassLang
