import Mathlib.Data.Int.Notation
import Mathlib.Tactic.Common

/-!
# Functions that always return the same value

`no-invariant-returns` reports functions whose return statements all return the same literal, also
by way of variables, or the same variable that is written at most once. What is known of a variable
is the list of its references, from which the first one is left out, since it is taken for the
initialisation. Where it is not, or is not always executed before, the report is wrong.
-/

namespace SonarJS.InvariantReturns

/-! ## Values -/

/-- The numbers of the language. -/
structure Numbers (ν : Type) where
  neg : ν → ν
  bitNot : ν → ν
  isTruthy : ν → Bool
  ofString : String → ν
  ofInt : ℤ → ν
  nan : ν
  zero : ν
  one : ν
  /-- `===`, by which `NaN` is not equal to itself. -/
  equals : ν → ν → Bool
  symm : ∀ a b, equals a b = true → equals b a = true
  trans : ∀ a b c, equals a b = true → equals b c = true → equals a c = true

/-- The value of a literal. A regular expression is known by its literal. -/
inductive LiteralValue (ν : Type)
  | number (n : ν)
  | regExp (id : ℕ)
  | string (s : String)
  | null
  | boolean (b : Bool)
  | bigint (i : ℤ)
deriving DecidableEq

inductive Operator
  | minus
  | plus
  | tilde
  | not
  | typeof
  | other
deriving DecidableEq

def Operator.isNumeric : Operator → Bool
  | .minus | .plus | .tilde => true
  | _ => false

section Literals

variable {ν : Type} (numbers : Numbers ν)

namespace LiteralValue

/-- `Number(value)`. -/
def toNumber : LiteralValue ν → ν
  | .number n => n
  | .regExp _ => numbers.nan
  | .string s => numbers.ofString s
  | .null => numbers.zero
  | .boolean b => if b then numbers.one else numbers.zero
  | .bigint i => numbers.ofInt i

/-- `Boolean(value)`. -/
def toBoolean : LiteralValue ν → Bool
  | .number n => numbers.isTruthy n
  | .regExp _ => true
  | .string s => s ≠ ""
  | .null => false
  | .boolean b => b
  | .bigint i => i ≠ 0

def typeof : LiteralValue ν → String
  | .number _ => "number"
  | .regExp _ => "object"
  | .string _ => "string"
  | .null => "object"
  | .boolean _ => "boolean"
  | .bigint _ => "bigint"

/-- `===`. -/
def strictEquals : LiteralValue ν → LiteralValue ν → Bool
  | .number n, .number m => numbers.equals n m
  | .regExp id, .regExp id' => id = id'
  | .string s, .string s' => s = s'
  | .null, .null => true
  | .boolean b, .boolean b' => b = b'
  | .bigint i, .bigint i' => i = i'
  | _, _ => false

end LiteralValue

def evaluateUnaryLiteralExpression (operator : Operator) (inner : LiteralValue ν) :
    Option (LiteralValue ν) :=
  match operator with
  | .minus => some (.number (numbers.neg (inner.toNumber numbers)))
  | .plus => some (.number (inner.toNumber numbers))
  | .tilde => some (.number (numbers.bitNot (inner.toNumber numbers)))
  | .not => some (.boolean !(inner.toBoolean numbers))
  | .typeof => some (.string inner.typeof)
  | .other => none

end Literals

/-! ## Functions -/

/-- A name in the text, with the variable that it means. -/
structure Identifier where
  id : ℕ
  name : String
  binding : ℕ
deriving DecidableEq

/-- Expressions that are no literals, names or unary expressions have a label and read some
variables. -/
inductive Expression (ν : Type)
  | literal (value : LiteralValue ν)
  | identifier (name : Identifier)
  | unary (operator : Operator) (argument : Expression ν)
  | other (label : ℕ) (reads : List Identifier)
deriving DecidableEq

/-- A name that is declared, as the whole initialiser or as the component of it with this label. -/
structure Target where
  identifier : Identifier
  component : Option ℕ
deriving DecidableEq

inductive Statement (ν : Type)
  | skip
  | sequence (first second : Statement ν)
  | block (locals : List ℕ) (body : Statement ν)
  | declare (targets : List Target) (init : Option (Expression ν))
  | assign (target : Identifier) (value : Expression ν)
  /-- `x += e`, `x++` and the like. -/
  | update (target : Identifier) (label : ℕ) (reads : List Identifier)
  /-- Another expression statement: a call, or a write to an element of a variable, or neither. -/
  | evaluate (isCall : Bool) (element : Option Identifier) (label : ℕ) (reads : List Identifier)
  | branch (test : Expression ν) (consequent alternate : Statement ν)
  | whileLoop (test : Expression ν) (body : Statement ν)
  | tryCatch (body handler : Statement ν)
  | break
  | continue
  | throw (argument : Expression ν)
  | returns (id : ℕ) (argument : Option (Expression ν))

/-- A reference, as the scope manager has it, and whether the expression statement around it could
update an object. -/
structure Reference where
  identifier : Identifier
  isWrite : Bool
  isPossibleObjectUpdate : Bool
deriving DecidableEq

section Functions

variable {ν : Type}

def Expression.reads : Expression ν → List Identifier
  | .literal _ => []
  | .identifier name => [name]
  | .unary _ argument => argument.reads
  | .other _ reads => reads

def read (isPossibleObjectUpdate : Bool) (identifier : Identifier) : Reference :=
  ⟨identifier, false, isPossibleObjectUpdate⟩

def write (identifier : Identifier) : Reference := ⟨identifier, true, false⟩

namespace Statement

/-- The references in the order of the text. -/
def references : Statement ν → List Reference
  | .sequence first second => first.references ++ second.references
  | .block _ body => body.references
  | .declare targets (some init) =>
    targets.map (fun target => write target.identifier) ++ init.reads.map (read false)
  | .assign target value => write target :: value.reads.map (read false)
  | .update target _ reads => write target :: reads.map (read false)
  | .evaluate isCall element _ reads =>
    element.toList.map (read true) ++ reads.map (read isCall)
  | .branch test consequent alternate =>
    test.reads.map (read false) ++ consequent.references ++ alternate.references
  | .whileLoop test body => test.reads.map (read false) ++ body.references
  | .tryCatch body handler => body.references ++ handler.references
  | .throw argument => argument.reads.map (read false)
  | .returns _ (some argument) => argument.reads.map (read false)
  | .skip | .declare _ none | .break | .continue | .returns _ none => []

/-- The statement with all statements in it. -/
def parts : Statement ν → List (Statement ν)
  | .sequence first second => .sequence first second :: (first.parts ++ second.parts)
  | .block locals body => .block locals body :: body.parts
  | .branch test consequent alternate =>
    .branch test consequent alternate :: (consequent.parts ++ alternate.parts)
  | .whileLoop test body => .whileLoop test body :: body.parts
  | .tryCatch body handler => .tryCatch body handler :: (body.parts ++ handler.parts)
  | s => [s]

/-- The variables that are declared, with the initialisers of their declarators. -/
def definitions (s : Statement ν) : List (ℕ × Option (Expression ν)) :=
  s.parts.flatMap fun
    | .declare targets init => targets.map fun target => (target.identifier.binding, init)
    | _ => []

def returnStatements (s : Statement ν) : List (Option (Expression ν)) :=
  s.parts.filterMap fun
    | .returns _ argument => some argument
    | _ => none

/-- The variables of blocks. -/
def blockLocals (s : Statement ν) : List ℕ :=
  s.parts.flatMap fun
    | .block locals _ => locals
    | _ => []

end Statement

/-- The code path of a function at its end. -/
structure CodePath where
  /-- Whether the current segments are reachable. -/
  currentSegments : List Bool
  thrownSegments : ℕ

/-- A function with its scope: the parameters, and the variables of the function by name. -/
structure Function (ν : Type) where
  parameters : List ℕ
  scope : String → Option ℕ
  body : Statement ν
  codePath : CodePath
  apart : ∀ name, ∀ v ∈ scope name, v ∉ body.blockLocals

end Functions

/-! ## The rule -/

section Rule

variable {ν : Type} (numbers : Numbers ν) (f : Function ν)

namespace Function

def references (v : ℕ) : List Reference :=
  f.body.references.filter fun reference => reference.identifier.binding = v

inductive Definition (ν : Type)
  | parameter
  | declarator (init : Option (Expression ν))
deriving DecidableEq

/-- The definitions of a variable. -/
def defs (v : ℕ) : List (Definition ν) :=
  (f.parameters.filter (· = v)).map (fun _ => .parameter) ++
    (f.body.definitions.filter fun definition => definition.1 = v).map
      fun definition => .declarator definition.2

end Function

/-- The variable of the function with this name, if it is written at most by its first reference,
and its initialiser. -/
def getSingleWriteDefinition (variableName : String) : Option (ℕ × Option (Expression ν)) :=
  match f.scope variableName with
  | none => none
  | some v =>
    if (f.references v).tail.any fun ref => ref.isWrite || ref.isPossibleObjectUpdate then none
    else
      match f.defs v with
      | [.declarator init] => some (v, init)
      | _ => some (v, none)

/-- The value that an expression is known to have. There is no result if the initialisers go round
in a circle. -/
def getLiteralValue : ℕ → Expression ν → Option (Option (LiteralValue ν))
  | 0, _ => none
  | fuel + 1, returnedValue =>
    match returnedValue with
    | .literal value => some (some value)
    | .unary operator argument =>
      (getLiteralValue fuel argument).map fun inner =>
        inner.bind (evaluateUnaryLiteralExpression numbers operator)
    | .identifier identifier =>
      match getSingleWriteDefinition f identifier.name with
      | some (_, some init) => getLiteralValue fuel init
      | _ => some none
    | .other _ _ => some none

def areAllSameValue (fuel : ℕ) : List (Expression ν) → Option Bool
  | [] => some false
  | firstReturnedValue :: others => do
    match ← getLiteralValue numbers f fuel firstReturnedValue with
    | some firstValue =>
      let values ← others.mapM (getLiteralValue numbers f fuel)
      return values.all fun value => value.any fun value => value.strictEquals numbers firstValue
    | none =>
      match firstReturnedValue with
      | .identifier identifier =>
        match getSingleWriteDefinition f identifier.name with
        | some (v, _) =>
          let readReferenceIdentifiers := (f.references v).tail.map Reference.identifier
          return (firstReturnedValue :: others).all fun returnedValue =>
            match returnedValue with
            | .identifier identifier => readReferenceIdentifiers.contains identifier
            | _ => false
        | none => return false
      | _ => return false

def hasDifferentReturnTypes : Bool :=
  f.codePath.currentSegments.any id || f.body.returnStatements.any Option.isNone ||
    f.body.returnStatements.length ≤ 1 || 0 < f.codePath.thrownSegments

/-- Whether the function is reported. -/
def checkInvariantReturnStatements (fuel : ℕ) : Option Bool :=
  if hasDifferentReturnTypes f then some false
  else areAllSameValue numbers f fuel (f.body.returnStatements.filterMap id)

def Reported : Prop := ∃ fuel, checkInvariantReturnStatements numbers f fuel = some true

end Rule

end SonarJS.InvariantReturns
