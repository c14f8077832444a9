import ClassLang.Pattern.Coverage
import ClassLang.Proofs.Type.Inheritance

/-! Values as trees of constructors, which of them a shape takes, and which belong to a type. -/

namespace ClassLang

/-- A value: a constructor on arguments. -/
inductive ValueTree where
  | node (head : Head) (args : List ValueTree)
deriving Repr, Inhabited

namespace Shape

mutual

/-- The shape takes the value. -/
def Accepts : Shape → ValueTree → Prop
  | wild, _ => True
  | node head args, .node other values => head = other ∧ AcceptsAll args values

/-- The shapes take the values, one each. -/
def AcceptsAll : List Shape → List ValueTree → Prop
  | [], [] => True
  | shape :: shapes, value :: values => Accepts shape value ∧ AcceptsAll shapes values
  | _, _ => False

end

theorem AcceptsAll.length_eq : ∀ {shapes : List Shape} {values : List ValueTree},
    AcceptsAll shapes values → shapes.length = values.length
  | [], [], _ => rfl
  | _ :: _, _ :: _, ⟨_, rest⟩ => congrArg (· + 1) rest.length_eq

/-- Shapes side by side take values side by side. -/
theorem acceptsAll_append (second : List Shape) (others : List ValueTree) :
    ∀ {first : List Shape} {values : List ValueTree}, first.length = values.length →
      (AcceptsAll (first ++ second) (values ++ others) ↔
        AcceptsAll first values ∧ AcceptsAll second others)
  | [], [], _ => by simp [AcceptsAll]
  | shape :: first, value :: values, same => by
    have rest := acceptsAll_append second others (Nat.succ.inj same)
    simp only [List.cons_append, AcceptsAll, rest, and_assoc]

theorem acceptsAll_replicate : ∀ (values : List ValueTree),
    AcceptsAll (List.replicate values.length wild) values
  | [] => trivial
  | _ :: values => ⟨trivial, acceptsAll_replicate values⟩

end Shape

/-- Number of arguments of a constructor. -/
def ClassHierarchy.arity (hierarchy : ClassHierarchy) : Head → Nat
  | .class_ name => (hierarchy.components name).length
  | .bool _ | .literal _ => 0

namespace Shape

mutual

/-- Constructors have as many arguments as they take. -/
def Sized (hierarchy : ClassHierarchy) : Shape → Prop
  | wild => True
  | node head args => args.length = hierarchy.arity head ∧ AllSized hierarchy args

def AllSized (hierarchy : ClassHierarchy) : List Shape → Prop
  | [] => True
  | shape :: shapes => Sized hierarchy shape ∧ AllSized hierarchy shapes

end

variable {hierarchy : ClassHierarchy}

theorem allSized_append (second : List Shape) : ∀ first : List Shape,
    AllSized hierarchy (first ++ second) ↔ AllSized hierarchy first ∧ AllSized hierarchy second
  | [] => by simp [AllSized]
  | shape :: first => by
    simp only [List.cons_append, AllSized, allSized_append second first, and_assoc]

theorem allSized_replicate : ∀ count : Nat, AllSized hierarchy (List.replicate count wild)
  | 0 => trivial
  | count + 1 => ⟨trivial, allSized_replicate count⟩

end Shape

/-- The constructor belongs to the domain. -/
def Domain.Admits (domain : Domain) (head : Head) : Prop :=
  domain = .infinite ∨ ∃ heads, domain = .finite heads ∧ head ∈ heads

namespace ValueTree

mutual

/-- A value belongs to a type: the type has its constructor, and its arguments belong to the types
of that constructor's arguments. The pool they are entered in stays within its limit. -/
def Inhabits (hierarchy : ClassHierarchy) : ValueTree → TypePool → TypeRef → Prop
  | node head args, pool, type =>
    (∃ domain, hierarchy.domain pool type = .ok domain ∧ domain.Admits head) ∧
      ∃ types after, (hierarchy.argTypes head type).run pool = .ok (types, after) ∧ after.Small ∧
        InhabitAll hierarchy args after types

/-- Values belong to types, one each. -/
def InhabitAll (hierarchy : ClassHierarchy) : List ValueTree → TypePool → List TypeRef → Prop
  | [], _, [] => True
  | value :: values, pool, type :: types =>
    Inhabits hierarchy value pool type ∧ InhabitAll hierarchy values pool types
  | _, _, _ => False

end

end ValueTree

/-! The same on trees: what a type is like does not depend on when it was entered. -/

namespace TreeHierarchy

/-- Types of the arguments of a constructor. -/
def argTypes (hierarchy : TreeHierarchy) (head : Head) (tree : TypeTree) : List TypeTree :=
  match head with
  | .class_ name => hierarchy.componentsOf (hierarchy.narrow name tree)
  | .bool _ | .literal _ => []

theorem base?_instantiate_selfType (hierarchy : TreeHierarchy) (name : Name)
    (subst : TreeSubstitution) :
    ((hierarchy.selfType name).instantiate subst).base? = some name := by
  unfold selfType
  split <;> rfl

theorem base?_narrow (hierarchy : TreeHierarchy) (name : Name) (tree : TypeTree) :
    (hierarchy.narrow name tree).base? = some name :=
  base?_instantiate_selfType hierarchy name _

end TreeHierarchy

namespace ClassHierarchy
variable {hierarchy : ClassHierarchy} {pool : TypePool}

theorem length_argTypes (pool : TypePool) (head : Head) (tree : TypeTree) :
    ((hierarchy.unfold pool).argTypes head tree).length = hierarchy.arity head := by
  cases head with
  | bool | literal => rfl
  | class_ name =>
    simp [TreeHierarchy.argTypes, TreeHierarchy.componentsOf, TreeHierarchy.instantiateParts,
      TreeHierarchy.base?_narrow, arity, ClassHierarchy.unfold]

end ClassHierarchy

namespace PoolM.Builds
open TypePool

theorem argTypes {hierarchy : ClassHierarchy} {pool : TypePool} {type : TypeRef} (head : Head)
    (inside : pool.Has type) (held : hierarchy.HeldBy pool) :
    PoolM.Builds (hierarchy.argTypes head type) pool fun types after =>
      after.DenotesAll types ((hierarchy.unfold pool).argTypes head (pool.tree type)) := by
  refine ofValid fun valid => ?_
  cases head with
  | bool | literal => exact pure .nil
  | class_ name =>
    refine bind (narrow name held inside) fun variant between growth denotes => ?_
    refine (componentsOf denotes.has (held.grow growth)).mono fun types after grown built => ?_
    refine ⟨built.1.has, fun small => ?_⟩
    rw [built.1.reads small, held.unfold_eq valid growth, denotes.reads (grown.small small)]
    rfl

end PoolM.Builds

namespace ClassHierarchy
open TypePool

variable {hierarchy : ClassHierarchy} {base pool other : TypePool}

/-- The domain of a type by the entry it has. -/
theorem domainWithin_succ (valid : pool.Valid) {type : TypeRef} {node : TypeNode}
    (found : pool.types[type.raw]? = some node) (depth : Nat) :
    hierarchy.domainWithin pool (depth + 1) type = match node with
      | .bool => .ok (.finite [.bool true, .bool false])
      | .class_ name | .applied name _ => .ok <| match hierarchy.variants name with
        | some variants => .finite (variants.map Head.class_ ++
            if hierarchy.isAbstract name then [] else [Head.class_ name])
        | none => .finite [.class_ name]
      | .var param _ => (pool.upperBound param) >>= hierarchy.domainWithin pool depth
      | .wildcard .covariant bound => hierarchy.domainWithin pool depth bound
      | _ => .ok .infinite := by
  have read := node_eq found
  rw [domainWithin]
  by_cases lenient : type = .any
  · subst lenient
    have first : pool.types[TypeRef.any.raw]? = some .any := valid.primitives.entries _ _ rfl
    rw [first] at found
    cases found
    simp [isLenient]
  · cases node with
    | class_ name | applied name args =>
      cases missing : hierarchy.variants name <;>
        simp [isLenient, lenient, isUnresolved, read, missing]
    | wildcard variance bound =>
      cases variance <;> simp [isLenient, lenient, isUnresolved, read]
    | _ => simp [isLenient, lenient, isUnresolved, read]

/-- Pools that grew from one pool give the same domain to the same tree. -/
theorem domainWithin_unique (baseValid : base.Valid) (earlier : base.Growth pool)
    (later : base.Growth other) : ∀ (depth deeper : Nat) (type type' : TypeRef)
    (domain domain' : Domain), pool.Has type → other.Has type' →
      pool.tree type = other.tree type' → hierarchy.domainWithin pool depth type = .ok domain →
      hierarchy.domainWithin other deeper type' = .ok domain' → domain = domain' := by
  intro depth
  induction depth with
  | zero =>
    intro _ _ _ _ _ _ _ _ ran
    cases ran
  | succ depth ih =>
    rintro (_ | deeper) type type' domain domain' inside inside' same ran ran'
    · cases ran'
    obtain ⟨node, found⟩ := inside.lookup
    obtain ⟨node', found'⟩ := inside'.lookup
    have below := earlier.valid.parts _ _ found
    have below' := later.valid.parts _ _ found'
    rw [domainWithin_succ earlier.valid found] at ran
    rw [domainWithin_succ later.valid found'] at ran'
    rw [earlier.valid.tree_eq found, later.valid.tree_eq found'] at same
    cases node with
    | var param variance =>
      cases node' with
      | var =>
        cases same
        obtain ⟨bound, asked, continued⟩ := Except.bind_eq_ok ran
        obtain ⟨bound', asked', continued'⟩ := Except.bind_eq_ok ran'
        rw [earlier.upperBound_eq] at asked
        rw [later.upperBound_eq, asked] at asked'
        cases asked'
        have held := baseValid.has_upperBound asked
        exact ih deeper bound bound domain domain' (earlier.has held) (later.has held)
          ((earlier.tree_eq baseValid held).trans (later.tree_eq baseValid held).symm)
          continued continued'
      | _ => cases same
    | wildcard variance bound =>
      cases node' with
      | wildcard variance' bound' =>
        obtain ⟨rfl, trees⟩ := TypeTree.wildcard.inj same
        cases variance with
        | covariant =>
          exact ih deeper bound bound' domain domain'
            (Nat.lt_trans (below bound List.mem_cons_self) inside)
            (Nat.lt_trans (below' bound' List.mem_cons_self) inside') trees ran ran'
        | invariant | contravariant =>
          cases ran
          cases ran'
          rfl
      | _ => cases same
    | applied name args =>
      cases node' with
      | applied =>
        obtain ⟨rfl, _⟩ := TypeTree.applied.inj same
        cases ran
        cases ran'
        rfl
      | _ => cases same
    | _ =>
      cases node' <;> cases same
      cases ran
      cases ran'
      rfl

/-- The domain of a tree, as it is found once the tree has been entered. -/
def DomainOf (hierarchy : ClassHierarchy) (base : TypePool) (tree : TypeTree) (domain : Domain) :
    Prop :=
  ∃ pool type, base.Growth pool ∧ pool.Has type ∧ pool.tree type = tree ∧
    hierarchy.domain pool type = .ok domain

theorem DomainOf.unique (valid : base.Valid) {tree : TypeTree} {domain domain' : Domain}
    (earlier : hierarchy.DomainOf base tree domain) (later : hierarchy.DomainOf base tree domain') :
    domain = domain' := by
  obtain ⟨pool, type, growth, inside, reads, asked⟩ := earlier
  obtain ⟨other, type', growth', inside', reads', asked'⟩ := later
  exact domainWithin_unique valid growth growth' _ _ type type' domain domain' inside inside'
    (reads.trans reads'.symm) asked asked'

end ClassHierarchy

namespace ValueTree
open TypePool

mutual

/-- A value belongs to a tree. -/
def Fits (hierarchy : ClassHierarchy) (base : TypePool) : ValueTree → TypeTree → Prop
  | node head args, tree =>
    (∃ domain, hierarchy.DomainOf base tree domain ∧ domain.Admits head) ∧
      FitAll hierarchy base args ((hierarchy.unfold base).argTypes head tree)

/-- Values belong to trees, one each. -/
def FitAll (hierarchy : ClassHierarchy) (base : TypePool) :
    List ValueTree → List TypeTree → Prop
  | [], [] => True
  | value :: values, tree :: trees =>
    Fits hierarchy base value tree ∧ FitAll hierarchy base values trees
  | _, _ => False

end

variable {hierarchy : ClassHierarchy} {base : TypePool}

theorem FitAll.length_eq : ∀ {values : List ValueTree} {trees : List TypeTree},
    FitAll hierarchy base values trees → values.length = trees.length
  | [], [], _ => rfl
  | _ :: _, _ :: _, ⟨_, rest⟩ => congrArg (· + 1) rest.length_eq

theorem fitAll_append (others : List ValueTree) (more : List TypeTree) :
    ∀ {values : List ValueTree} {trees : List TypeTree}, values.length = trees.length →
      (FitAll hierarchy base (values ++ others) (trees ++ more) ↔
        FitAll hierarchy base values trees ∧ FitAll hierarchy base others more)
  | [], [], _ => by simp [FitAll]
  | value :: values, tree :: trees, same => by
    have rest := fitAll_append others more (Nat.succ.inj same)
    simp only [List.cons_append, FitAll, rest, and_assoc]

mutual

/-- A value that belongs to an entered type belongs to its tree. -/
theorem Inhabits.fits (valid : base.Valid) (held : hierarchy.HeldBy base) :
    ∀ (value : ValueTree) (pool : TypePool) (type : TypeRef), base.Growth pool → pool.Has type →
      Inhabits hierarchy value pool type → Fits hierarchy base value (pool.tree type)
  | node head args, pool, type, growth, inside, ⟨⟨domain, asked, admits⟩, types, after, ran, small,
      members⟩ => by
    obtain ⟨grown, built⟩ :=
      (PoolM.Builds.argTypes head inside (held.grow growth)).ensures growth.valid _ _ ran
    have below := InhabitAll.fitAll valid held args after types (growth.trans grown)
      built.has members
    rw [built.reads small, held.unfold_eq valid growth] at below
    exact ⟨⟨domain, ⟨pool, type, growth, inside, rfl, asked⟩, admits⟩, below⟩

theorem InhabitAll.fitAll (valid : base.Valid) (held : hierarchy.HeldBy base) :
    ∀ (values : List ValueTree) (pool : TypePool) (types : List TypeRef), base.Growth pool →
      (∀ type ∈ types, pool.Has type) → InhabitAll hierarchy values pool types →
      FitAll hierarchy base values (types.map pool.tree)
  | [], _, [], _, _, _ => trivial
  | value :: values, pool, type :: types, growth, inside, ⟨first, rest⟩ =>
    ⟨Inhabits.fits valid held value pool type growth (inside type List.mem_cons_self) first,
      InhabitAll.fitAll valid held values pool types growth
        (fun other member => inside other (List.mem_cons_of_mem _ member)) rest⟩

end
end ValueTree
end ClassLang
