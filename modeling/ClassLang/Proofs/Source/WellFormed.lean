import ClassLang.Proofs.Acyclic
import ClassLang.Source.Decl

/-! Well-formed units: positions are in range, expressions and patterns are trees with sharing, and
no type parameter is bounded by itself. -/

namespace ClassLang
open Relation

/-- The subpatterns of a pattern. -/
def PatternKind.parts : PatternKind → List Nat
  | .wildcard | .constant _ | .binding _ none => []
  | .binding _ (some inner) => [inner]
  | .deconstruct _ fields => fields

/-- The slots that must hold an expression: all but the second branch of an `if`. -/
def ExprKind.required : ExprKind → List ExprRef
  | .ifElse cond thenBranch _ => [cond, thenBranch]
  | kind => kind.children

/-- The arms of a match. -/
def ExprKind.arms : ExprKind → List MatchArm
  | .matchOn _ arms => arms
  | _ => []

/-- The expression is an operation: a constant may take its place. -/
def ExprKind.isOperation : ExprKind → Bool
  | .binary .. | .unary .. => true
  | _ => false

namespace Arena

/-- A slot of the node at `parent` holds the node at `child`. -/
def HasChild (arena : Arena) (parent child : Nat) : Prop :=
  ∃ expr, arena.exprs[parent]? = some expr ∧ .node child ∈ expr.kind.children

/-- `part` is a subpattern of the pattern at `index`. -/
def HasPart (arena : Arena) (index part : Nat) : Prop :=
  ∃ pattern, arena.patterns[index]? = some pattern ∧ part ∈ pattern.kind.parts

/-- The node is in the tree of a slot. -/
def Contains (arena : Arena) (root : ExprRef) (index : Nat) : Prop :=
  ∃ start, root = .node start ∧ ReflTransGen arena.HasChild start index

theorem expr_eq {arena : Arena} {index : Nat} {expr : Expr}
    (found : arena.exprs[index]? = some expr) : arena.expr (.node index) = .ok expr := by
  simp [Arena.expr, found]

theorem lookup_of_expr {arena : Arena} {index : Nat} {expr : Expr}
    (read : arena.expr (.node index) = .ok expr) : arena.exprs[index]? = some expr := by
  simp only [Arena.expr] at read
  split at read
  · cases read
    assumption
  · cases read

structure WellFormed (arena : Arena) : Prop where
  present : ∀ (index : Nat) (expr : Expr), arena.exprs[index]? = some expr →
    ∀ ref ∈ expr.kind.required, ref ≠ .missing
  children : ∀ parent child, arena.HasChild parent child → child < arena.size
  acyclic : Acyclic arena.HasChild
  armPatterns : ∀ (index : Nat) (scrutinee : ExprRef) (arms : List MatchArm) (span : Span),
    arena.exprs[index]? = some ⟨.matchOn scrutinee arms, span⟩ →
    ∀ arm ∈ arms, arm.pattern < arena.patterns.size
  parts : ∀ index part, arena.HasPart index part → part < arena.patterns.size
  acyclicParts : Acyclic arena.HasPart

/-- Slots lead back to earlier nodes and subpatterns to earlier patterns, as they do when a unit is
written from the leaves up. -/
structure Ordered (arena : Arena) : Prop where
  present : ∀ entry ∈ arena.exprs.toList.zipIdx, ∀ ref ∈ entry.1.kind.required, ref ≠ .missing
  children : ∀ entry ∈ arena.exprs.toList.zipIdx, ∀ ref ∈ entry.1.kind.children, ref.raw < entry.2
  arms : ∀ entry ∈ arena.exprs.toList.zipIdx, ∀ arm ∈ entry.1.kind.arms,
    arm.pattern < arena.patterns.size
  parts : ∀ entry ∈ arena.patterns.toList.zipIdx, ∀ part ∈ entry.1.kind.parts, part < entry.2

theorem Ordered.wellFormed {arena : Arena} (ordered : arena.Ordered) : arena.WellFormed := by
  have node {index : Nat} {expr : Expr} (found : arena.exprs[index]? = some expr) :
      (expr, index) ∈ arena.exprs.toList.zipIdx := by
    rwa [List.mk_mem_zipIdx_iff_getElem?, Array.getElem?_toList]
  have pattern {index : Nat} {pattern : Pattern} (found : arena.patterns[index]? = some pattern) :
      (pattern, index) ∈ arena.patterns.toList.zipIdx := by
    rwa [List.mk_mem_zipIdx_iff_getElem?, Array.getElem?_toList]
  have backward (parent child : Nat) (step : arena.HasChild parent child) : child < parent ∧
      parent < arena.size := by
    obtain ⟨expr, found, member⟩ := step
    exact ⟨ordered.children _ (node found) _ member, (Array.getElem?_eq_some_iff.mp found).1⟩
  have backwardPart (index part : Nat) (step : arena.HasPart index part) : part < index ∧
      index < arena.patterns.size := by
    obtain ⟨entry, found, member⟩ := step
    exact ⟨ordered.parts _ (pattern found) part member, (Array.getElem?_eq_some_iff.mp found).1⟩
  exact {
    present := fun index expr found => ordered.present _ (node found)
    children := fun parent child step =>
      (backward parent child step).1.trans (backward parent child step).2
    acyclic := .of_measure id fun parent child step => (backward parent child step).1
    armPatterns := fun index scrutinee arms span found => ordered.arms _ (node found)
    parts := fun index part step =>
      (backwardPart index part step).1.trans (backwardPart index part step).2
    acyclicParts := .of_measure id fun index part step => (backwardPart index part step).1 }

/-- A slot that must hold an expression holds one. -/
theorem WellFormed.slot {arena : Arena} (wellFormed : arena.WellFormed) {index : Nat} {expr : Expr}
    (found : arena.exprs[index]? = some expr) {ref : ExprRef} (member : ref ∈ expr.kind.required) :
    ∃ child < arena.size, ref = .node child := by
  cases ref with
  | missing => exact absurd rfl (wellFormed.present index expr found _ member)
  | node child =>
    refine ⟨child, wellFormed.children index child ⟨expr, found, ?_⟩, rfl⟩
    obtain ⟨kind, span⟩ := expr
    cases kind with
    | ifElse cond thenBranch elseBranch =>
      refine List.mem_filter.mpr ⟨?_, rfl⟩
      rcases List.mem_cons.mp member with same | later
      · exact same ▸ List.mem_cons_self
      · rw [List.mem_singleton.mp later]
        exact List.mem_cons_of_mem _ List.mem_cons_self
    | _ => exact member

/-- The written pattern takes a class apart and looks at none of its components. -/
def TakesClass (arena : Arena) (index : Nat) (class_ : Name) : Prop :=
  ∃ fields span, arena.patterns[index]? = some ⟨.deconstruct class_ fields, span⟩ ∧
    ∀ field ∈ fields, ∃ span, arena.patterns[field]? = some ⟨.wildcard, span⟩

end Arena

namespace TypeExpr

mutual

/-- The name that covariant wildcards lead to. -/
def boundName? : TypeExpr → Option Name
  | named name _ _ => some name
  | wildcard .covariant bound _ => nameOfBound? bound
  | _ => none

def nameOfBound? : Option TypeExpr → Option Name
  | some bound => bound.boundName?
  | none => none

end
end TypeExpr

/-- The name of the first bound. -/
def TypeParamDecl.boundName? (decl : TypeParamDecl) : Option Name :=
  decl.bounds.head?.bind TypeExpr.boundName?

/-- The first bound of the parameter called `name` is the parameter called `other`. Of parameters
with one name the last is meant. -/
def BoundedBy (params : List TypeParamDecl) (name other : Name) : Prop :=
  ∃ decl, params.reverse.find? (·.name == name) = some decl ∧ decl.boundName? = some other ∧
    other ∈ params.map (·.name)

namespace ClassDecl

/-- Initializers and bodies of the members. -/
def bodies (decl : ClassDecl) : List ExprRef :=
  decl.fields.filterMap (·.init) ++ decl.methods.filterMap (·.body)

/-- No type parameter of the class or of a method is bounded by itself. -/
structure Grounded (decl : ClassDecl) : Prop where
  own : Acyclic (BoundedBy decl.typeParams)
  methods : ∀ method ∈ decl.methods, Acyclic (BoundedBy method.typeParams)

/-- A measure of names that falls from every parameter to the one that bounds it excludes cycles. -/
theorem grounded_of_measure {decl : ClassDecl} (measure : Name → Nat)
    (falls : ∀ params ∈ decl.typeParams :: decl.methods.map (·.typeParams), ∀ param ∈ params,
      ∀ bound ∈ param.boundName?, bound ∈ params.map (·.name) →
      measure bound < measure param.name) :
    decl.Grounded := by
  have acyclic (params : List TypeParamDecl)
      (listed : params ∈ decl.typeParams :: decl.methods.map (·.typeParams)) :
      Acyclic (BoundedBy params) := by
    refine .of_measure measure fun name bound bounded => ?_
    obtain ⟨param, found, leads, declared⟩ := bounded
    have member := List.mem_reverse.mp (List.mem_of_find?_eq_some found)
    have named : param.name = name := by simpa using List.find?_some found
    exact named ▸ falls params listed param member bound leads declared
  constructor
  case own => exact acyclic _ List.mem_cons_self
  case methods =>
    intro method member
    exact acyclic _ (List.mem_cons_of_mem _ (List.mem_map_of_mem member))

/-- No parameter is bounded by another one of its list. -/
theorem grounded_of_free {decl : ClassDecl}
    (free : ∀ params ∈ decl.typeParams :: decl.methods.map (·.typeParams), ∀ param ∈ params,
      ∀ bound ∈ param.boundName?, bound ∉ params.map (·.name)) : decl.Grounded :=
  grounded_of_measure (fun _ => 0) fun params listed param member bound leads declared =>
    absurd declared (free params listed param member bound leads)

end ClassDecl

namespace SourceUnit

def bodies (source : SourceUnit) : List ExprRef := source.classes.flatMap (·.bodies)

/-- What the parser promises. -/
structure WellFormed (source : SourceUnit) : Prop where
  arena : source.arena.WellFormed
  bodies : ∀ body ∈ source.bodies, ∃ index < source.arena.size, body = .node index
  grounded : ∀ decl ∈ source.classes, decl.Grounded

end SourceUnit
end ClassLang
