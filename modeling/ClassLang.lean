import ClassLang.Abort
import ClassLang.CompilationUnit
import ClassLang.Declaration
import ClassLang.Diagnostic.Basic
import ClassLang.Diagnostic.Buffer
import ClassLang.Diagnostic.Code
import ClassLang.IdMap
import ClassLang.Inspect.Program
import ClassLang.Member
import ClassLang.Name
import ClassLang.Pattern.Code
import ClassLang.Pattern.Coverage
import ClassLang.Pattern.Group
import ClassLang.Pattern.Store
import ClassLang.Pattern.Typing
import ClassLang.Pipeline
import ClassLang.Progress
import ClassLang.Proofs.Completion
import ClassLang.Proofs.Pattern.Tree
import ClassLang.Session
import ClassLang.Source.Builder
import ClassLang.Source.Decimal
import ClassLang.Source.Decl
import ClassLang.Source.Expr
import ClassLang.Source.Literal
import ClassLang.Source.TypeExpr
import ClassLang.Span
import ClassLang.Stage.Bodies
import ClassLang.Stage.Conformance
import ClassLang.Stage.Constants
import ClassLang.Stage.Overload
import ClassLang.Stage.Signatures
import ClassLang.SymbolTable
import ClassLang.Type.Display
import ClassLang.Type.Fault
import ClassLang.Type.Hierarchy
import ClassLang.Type.Pool
import ClassLang.Type.Ref
import ClassLang.Type.Relation
import ClassLang.Type.Substitution
import ClassLang.Variance
import ClassLang.Proofs.Pattern.Execution
import ClassLang.Proofs.Pattern.BranchCode
import ClassLang.Proofs.Pattern.Emission
import ClassLang.Proofs.Pattern.Dispatch
import ClassLang.Proofs.Pattern.FirstMatch
import ClassLang.Proofs.Acyclic
import ClassLang.Proofs.Diagnostic
import ClassLang.Proofs.Pattern.Analysis
import ClassLang.Proofs.Pattern.Typing
import ClassLang.Proofs.Source.Walk
import ClassLang.Proofs.Source.Preorder
import ClassLang.Proofs.Stage.Arms
import ClassLang.Proofs.Stage.Bodies
import ClassLang.Proofs.Stage.Conformance
import ClassLang.Proofs.Stage.Constants
import ClassLang.Proofs.Declaration
import ClassLang.Proofs.Layout
import ClassLang.Proofs.Pipeline
import ClassLang.Proofs.Unit
import ClassLang.Proofs.Session
import ClassLang.Proofs.Emission
import ClassLang.Proofs.Acceptance
import ClassLang.Proofs.Pattern.Reachability
import ClassLang.Proofs.Pattern.Subjects
import ClassLang.Proofs.Pattern.Irrefutability
import ClassLang.Proofs.Invariance
import ClassLang.Proofs.Type.Params
import ClassLang.Proofs.Type.Entries
import ClassLang.Proofs.Type.Requests
import ClassLang.Proofs.Accounts
import ClassLang.Proofs.Pattern.Entries
import ClassLang.Proofs.Stage.Entries
import ClassLang.Proofs.Stage.Accounts
import ClassLang.Proofs.Stage.Mentions
import ClassLang.Proofs.Orderly
import ClassLang.Proofs.Type.Orderly
import ClassLang.Proofs.Pattern.Orderly
import ClassLang.Proofs.Stage.Confinement
import ClassLang.Proofs.Stage.ConfinedBodies
import ClassLang.Proofs.Stage.ConfinedMembers
import ClassLang.Proofs.StageOrder
import ClassLang.Proofs.ErrorLimit
import ClassLang.Proofs.Stage.Annotation
import ClassLang.Proofs.Stage.Lowering
import ClassLang.Proofs.Stage.Folding
import ClassLang.Proofs.Annotation
import ClassLang.Proofs.Pattern.Scope
import ClassLang.Proofs.Stage.Scope
import ClassLang.Proofs.Stage.ScopedBodies
import ClassLang.Proofs.Pattern.ControlFlow
import ClassLang.Proofs.Pattern.LoweredCode
import ClassLang.Proofs.Stage.Refolding
import ClassLang.Proofs.Pattern.Witnesses
import ClassLang.Proofs.Type.Coverage
import ClassLang.Proofs.Type.Handing
import ClassLang.Proofs.Type.Narrowing
import ClassLang.Proofs.Stage.ScopedConstants
import ClassLang.Proofs.Stage.ScopedMembers
import ClassLang.Proofs.Linkage
import ClassLang.Proofs.Scope
import ClassLang.Proofs.Stage.Arithmetic
import ClassLang.Proofs.Type.FixedPoints
import ClassLang.Proofs.Type.BreadthFirst
import ClassLang.Proofs.Type.Commutation
import ClassLang.Proofs.Type.Polarity
import ClassLang.Proofs.Stage.Visits
import ClassLang.Proofs.Stage.Joins
import ClassLang.Proofs.Stage.VisitedBodies
import ClassLang.Proofs.Stage.VisitedMembers
import ClassLang.Proofs.Stage.Replacements
import ClassLang.Proofs.Coherence
import ClassLang.Proofs.Branches
import ClassLang.Proofs.FoldedTypes
import ClassLang.Proofs.Order.Sessions
import ClassLang.Proofs.Type.Inference
import ClassLang.Proofs.Type.Subclassing
import ClassLang.Proofs.Type.Passing
import ClassLang.Proofs.ParameterCount
import ClassLang.Proofs.Stage.Reordering
import ClassLang.Proofs.Pattern.Rejection
import ClassLang.Proofs.Stage.Lookup
import ClassLang.Proofs.Stage.Implementation
import ClassLang.Proofs.Checking
import ClassLang.Proofs.Implementation
import ClassLang.Proofs.Publication
import ClassLang.Proofs.Stage.Overriding
import ClassLang.Proofs.Stage.Reports
import ClassLang.Proofs.Stage.Visibility
import ClassLang.Proofs.Pattern.Copies
import ClassLang.Proofs.MemberGraph
import ClassLang.Proofs.Repetition
import ClassLang.Proofs.Order.Queries
import ClassLang.Proofs.Diagnostic.History
import ClassLang.Proofs.Pattern.Termination
import ClassLang.Proofs.Stage.LocalScope
