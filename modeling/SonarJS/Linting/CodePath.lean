import SonarJS.Foundation.OrderedCollections
import Mathlib.Data.Set.Finite.Basic
import Mathlib.Data.Rat.Defs

/-!
# Code paths, variables and references

The part of ESLint's data that the two dataflow rules look at: the segments of the
code paths with their edges, variables, scopes and the references that a rule
collects. Objects that the source compares by identity carry a number for it.

Only fields that a modelled function reads are kept. A syntax node is represented
where it is inspected: the right-hand side of a write, the parent of an identifier
and the parent of a right-hand side.
-/

namespace SonarJS

/-- The segments of the code paths of a file. The two edge lists of a segment are
kept by ESLint and are converse of each other. -/
structure CodePathGraph (ι : Type*) where
  prevSegments : ι → List ι
  nextSegments : ι → List ι
  converse : ∀ s t, t ∈ nextSegments s ↔ s ∈ prevSegments t

/-- A path along `nextSegments`. -/
def CodePathGraph.IsPath {ι : Type*} (G : CodePathGraph ι) (path : List ι) : Prop :=
  path.IsChain fun s t => t ∈ G.nextSegments s

/-- The order in which a rule inserted the segments into its map. Every segment is
inserted once, when ESLint starts it. -/
structure SegmentOrder (ι : Type*) where
  segments : List ι
  nodup : segments.Nodup
  complete : ∀ s, s ∈ segments

namespace SegmentOrder

theorem finite {ι : Type*} (order : SegmentOrder ι) : Finite ι :=
  Set.finite_univ_iff.mp ((List.finite_toSet order.segments).subset fun s _ => order.complete s)

end SegmentOrder

/-- What a definition of a variable is: a parameter, a variable with or without an
initialiser, or anything else. -/
inductive Definition
  | parameter
  | variableDef (init : Bool)
  | other
deriving DecidableEq, Repr

/-- The block of the scope that declares a variable. -/
inductive ScopeBlock
  | program
  | tsModuleDeclaration
  | other
deriving DecidableEq, Repr

/-- `Scope.Variable`. `writeReferences` is the number of its references, in the
whole file, that are writes. -/
structure Variable where
  id : ℕ
  name : String
  defs : List Definition := []
  scopeBlock : ScopeBlock := .other
  writeReferences : ℕ := 2
deriving DecidableEq, Repr

/-- `Scope.Scope`: the declared variables and the enclosing scope. -/
inductive Scope
  | global (declared : List Variable)
  | nested (declared : List Variable) (upper : Scope)
deriving DecidableEq, Repr

namespace Scope

def declared : Scope → List Variable
  | global vs => vs
  | nested vs _ => vs

def upper : Scope → Option Scope
  | global _ => none
  | nested _ up => some up

end Scope

/-- The value of a literal, as `isBasicValue` inspects it. -/
inductive LiteralKind
  | string (value : String)
  | number (value : ℚ)
  | null
  | boolean (value : Bool)
  | other
deriving DecidableEq, Repr

/-- The right-hand side of a write. A missing `raw` text is the empty one: both are
falsy, which is all that is asked of them. -/
inductive WriteExpr
  | literal (raw : String) (value : LiteralKind)
  | identifier (name : String)
  | unary (argument : WriteExpr)
  | object (properties : ℕ)
  | array (elements : ℕ)
  | other
deriving DecidableEq, Repr

/-- The operator of an assignment expression: `=`, or one that also reads. -/
inductive AssignmentOperator
  | assign
  | compound
deriving DecidableEq, Repr

/-- The parent of a right-hand side, if there is one. -/
inductive WriteExprParent
  | assignmentExpression (operator : AssignmentOperator)
  | other
deriving DecidableEq, Repr

/-- The parent of a referring identifier. -/
inductive IdentifierParent
  | assignmentExpression (rightIsNull : Bool)
  | updateExpression
  | assignmentPattern
  | other
deriving DecidableEq, Repr

/-- `Scope.Reference`, and `ReferenceLike` for JSX identifiers. -/
structure Reference where
  id : ℕ
  resolved : Option Variable
  isRead : Bool
  isWrite : Bool
  writeExpr : Option WriteExpr := none
  writeExprParent : WriteExprParent := .other
  scope : Scope := .global []
  init : Bool := false
  isJSX : Bool := false
  identifierParent : IdentifierParent := .other
deriving DecidableEq, Repr

namespace Reference

def isWriteOnly (ref : Reference) : Bool := ref.isWrite && !ref.isRead

/-- The reference writes the variable `v`. -/
def Writes (ref : Reference) (v : Variable) : Prop := ref.resolved = some v ∧ ref.isWrite = true

/-- The reference reads the variable `v`. -/
def Reads (ref : Reference) (v : Variable) : Prop := ref.resolved = some v ∧ ref.isRead = true

instance (ref : Reference) (v : Variable) : Decidable (ref.Writes v) :=
  inferInstanceAs (Decidable (_ ∧ _))

instance (ref : Reference) (v : Variable) : Decidable (ref.Reads v) :=
  inferInstanceAs (Decidable (_ ∧ _))

theorem Writes.unique {ref : Reference} {v w : Variable} (hv : ref.Writes v)
    (hw : ref.Writes w) : v = w :=
  Option.some.inj (hv.1.symm.trans hw.1)

end Reference

end SonarJS
