import Mathlib.Data.Fintype.Card
import Mathlib.Logic.Relation

/-!
# Fully qualified names

`getFullyQualifiedName` reduces an expression to the identifier that it starts from and
collects the accessed properties on the way. Then it jumps to the definition of the
identifier: an import or a call of `require` ends the name with the parts of the module
name, any other expression is resolved in turn, in the scope of its variable.

The resolution is given fuel, one unit for each jump. It remembers the variables it has
jumped from and stops at the first one that comes again, so that one unit more than there
are variables is always enough.
-/

namespace SonarJS

namespace FullyQualifiedNames

/-! ## Syntax, scopes and definitions -/

inductive NodeType
  | identifier
  | literal
  | memberExpression
  | callExpression
  | newExpression
  | chainExpression
  | tsNonNullExpression
  | tsQualifiedName
  | other
deriving DecidableEq

/-- Expressions and qualified names. A literal has a value here if it is a string. -/
inductive Node
  | identifier (name : String)
  | literal (value : Option String)
  | memberExpression (object property : Node)
  | callExpression (callee : Node) (arguments : List Node)
  | newExpression (callee : Node) (arguments : List Node)
  | chainExpression (expression : Node)
  | tsNonNullExpression (expression : Node)
  | tsQualifiedName (left : Node) (right : String)
  | other

def Node.type : Node → NodeType
  | .identifier _ => .identifier
  | .literal _ => .literal
  | .memberExpression .. => .memberExpression
  | .callExpression .. => .callExpression
  | .newExpression .. => .newExpression
  | .chainExpression _ => .chainExpression
  | .tsNonNullExpression _ => .tsNonNullExpression
  | .tsQualifiedName .. => .tsQualifiedName
  | .other => .other

/-- The variables of a scope and those of the scopes above it, by their names. -/
abbrev Scope (V : Type) := List (List (String × V))

def getVariableFromScope {V : Type} : Scope V → String → Option V
  | [], _ => none
  | scope :: upper, name =>
    match scope.find? (·.1 = name) with
    | some found => some found.2
    | none => getVariableFromScope upper name

/-- A property of an object pattern: whether its value is the name that is defined, and its
key, which is empty if it is no identifier. -/
structure PatternProperty where
  bindsName : Bool
  key : String

inductive Pattern
  | objectPattern (properties : List PatternProperty)
  | other

inductive ImportSpecifier
  | importSpecifier (imported : Option String)
  | other

inductive ModuleReference
  | tsExternalModuleReference (expression : Node)
  | entityName (name : Node)

inductive ImportParent
  | importDeclaration (source : String)
  | tsImportEqualsDeclaration (moduleReference : ModuleReference)

inductive Definition
  | importBinding (node : ImportSpecifier) (parent : ImportParent)
  | declarator (id : Pattern)
  | other

structure Reference where
  isWrite : Bool
  writeExpr : Option Node

structure Variable (V : Type) where
  defs : List Definition
  /-- Not written for the variables that are built in. -/
  writeable : Bool
  references : List Reference
  scope : Scope V

/-- The variables of a program. -/
abbrev Program (V : Type) := V → Variable V

def getUniqueWriteReference {V : Type} (declared : Variable V) : Option Node :=
  match declared.references.filter (·.isWrite) with
  | [reference] => reference.writeExpr
  | _ => none

/-! ## Strings -/

def join (fqn : List String) : String := ".".intercalate fqn

/-- `split('/')`. -/
def splitPath (path : String) : List String := (path.toList.splitOn '/').map String.ofList

def NODE_NAMESPACE : String := "node:"

def removeNodePrefixIfExists (fqn : String) : String :=
  if NODE_NAMESPACE.toList.isPrefixOf fqn.toList then
    String.ofList (fqn.toList.drop NODE_NAMESPACE.length)
  else fqn

/-! ## The resolution -/

def isRequire : Node → Bool
  | .callExpression (.identifier name) arguments => name = "require" && arguments.length = 1
  | _ => false

/-- The value of the literal, if there is one. -/
def getModuleNameFromRequire : Node → Option (Option String)
  | .callExpression callee (.literal value :: arguments) =>
    if isRequire (.callExpression callee (.literal value :: arguments)) then some value else none
  | _ => none

/-- The qualifier that a property of a member expression adds. -/
def qualifier : Node → Option String
  | .literal value => value
  | .identifier name => some name
  | _ => none

@[grind =] def reduceTo (type : NodeType) : Node → List String → Node × List String
  | .memberExpression object property, fqn =>
    if type = .memberExpression then (.memberExpression object property, fqn)
    else reduceTo type object ((qualifier property).toList ++ fqn)
  | .callExpression callee arguments, fqn =>
    if type = .callExpression ∨
        (getModuleNameFromRequire (.callExpression callee arguments)).isSome then
      (.callExpression callee arguments, fqn)
    else reduceTo type callee fqn
  | .newExpression callee arguments, fqn =>
    if type = .newExpression then (.newExpression callee arguments, fqn)
    else reduceTo type callee fqn
  | .chainExpression expression, fqn =>
    if type = .chainExpression then (.chainExpression expression, fqn)
    else reduceTo type expression fqn
  | .tsNonNullExpression expression, fqn =>
    if type = .tsNonNullExpression then (.tsNonNullExpression expression, fqn)
    else reduceTo type expression fqn
  | .tsQualifiedName left right, fqn =>
    if type = .tsQualifiedName then (.tsQualifiedName left right, fqn)
    else reduceTo type left (right :: fqn)
  | node, fqn => (node, fqn)

section Resolution

variable {V : Type} (program : Program V)

/-- What a jump goes on with: nothing if the resolution has used up its fuel. -/
abbrev Resolve (V : Type) := Scope V → Node → List String → List V → Option (Option String)

def checkFqnFromImport (resolve : Resolve V) (declared : V) (definition : Definition)
    (fqn : List String) (visitedVars : List V) : Option (Option String) :=
  match definition with
  | .importBinding specifier importDeclaration =>
    let fqn := match specifier with
      | .importSpecifier imported =>
        if imported ≠ some "default" then imported.getD "" :: fqn else fqn
      | .other => fqn
    match importDeclaration with
    | .importDeclaration source => some (some (join (splitPath source ++ fqn)))
    | .tsImportEqualsDeclaration (.tsExternalModuleReference (.literal (some value))) =>
      some (some (join (splitPath value ++ fqn)))
    | .tsImportEqualsDeclaration (.entityName (.tsQualifiedName left right)) =>
      resolve (program declared).scope (.tsQualifiedName left right) fqn
        (visitedVars ++ [declared])
    | _ => some none
  | _ => some none

def checkFqnFromRequire (resolve : Resolve V) (declared : V) (definition : Definition)
    (fqn : List String) (visitedVars : List V) : Option (Option String) :=
  match definition, getUniqueWriteReference (program declared) with
  | .declarator id, some value =>
    let fqn := match id with
      | .objectPattern properties =>
        properties.foldl (fun fqn property =>
          if property.bindsName then property.key :: fqn else fqn) fqn
      | .other => fqn
    let (nodeToCheck, fqn) := reduceTo .callExpression value fqn
    match getModuleNameFromRequire nodeToCheck with
    | some (some value) => some (some (join (splitPath value ++ fqn)))
    | _ => resolve (program declared).scope nodeToCheck fqn (visitedVars ++ [declared])
  | _, _ => some none

/-- The kinds of definitions that are looked for. -/
def Definition.isResolvable : Definition → Bool
  | .importBinding .. => true
  | .declarator _ => true
  | .other => false

/-- A chain that starts from a call of `require`, for example `require('lib').prop()`. -/
def fromRequireChain : Node → Option String
  | .callExpression callee _ =>
    match reduceTo .callExpression callee [] with
    | (maybeRequire, qualifiers) =>
      match getModuleNameFromRequire maybeRequire with
      | some (some value) => some (join (value :: qualifiers))
      | _ => none
  | _ => none

/-- The rest of `getFullyQualifiedNameRaw`, once the expression has been reduced to an
identifier. -/
def resolveIdentifier [DecidableEq V] (resolve : Resolve V) (scope : Scope V) (name : String)
    (fqn : List String) (visitedVars : List V) : Option (Option String) :=
  match getVariableFromScope scope name with
  | none => some none
  | some declared =>
    if 1 < (program declared).defs.length then some none
    else if (program declared).writeable = false ∨ declared ∈ visitedVars then
      some (some (join (name :: fqn)))
    else
      match (program declared).defs.find? Definition.isResolvable with
      | none => some none
      | some definition => do
        match ← checkFqnFromImport program resolve declared definition fqn visitedVars with
        | some fqnFromImport => some (some fqnFromImport)
        | none => checkFqnFromRequire program resolve declared definition fqn visitedVars

def getFullyQualifiedNameRaw [DecidableEq V] : ℕ → Resolve V
  | 0, _, _, _, _ => none
  | fuel + 1, scope, node, fqn, visitedVars =>
    match reduceTo .identifier node fqn with
    | (.identifier name, fqn) =>
      resolveIdentifier program (getFullyQualifiedNameRaw fuel) scope name fqn visitedVars
    | _ => some (fromRequireChain node)

/-! ## Termination -/

section Termination

variable {program} {resolve : Resolve V} {declared : V} (definition : Definition)
variable (fqn : List String) {visitedVars : List V}

/-- A jump is made with the variable that it starts from among the visited ones. -/
theorem isSome_checkFqnFromImport
    (returns : ∀ scope node fqn, (resolve scope node fqn (visitedVars ++ [declared])).isSome) :
    (checkFqnFromImport program resolve declared definition fqn visitedVars).isSome := by
  unfold checkFqnFromImport
  split
  case h_1 =>
    dsimp only
    split
    case h_3 => exact returns _ _ _
    all_goals rfl
  case h_2 => rfl

theorem isSome_checkFqnFromRequire
    (returns : ∀ scope node fqn, (resolve scope node fqn (visitedVars ++ [declared])).isSome) :
    (checkFqnFromRequire program resolve declared definition fqn visitedVars).isSome := by
  unfold checkFqnFromRequire
  split
  case h_1 =>
    dsimp only
    split
    · rfl
    · exact returns _ _ _
  case h_2 => rfl

theorem isSome_resolveIdentifier [DecidableEq V] (scope : Scope V) (name : String)
    (returns : ∀ declared, declared ∉ visitedVars →
      ∀ scope node fqn, (resolve scope node fqn (visitedVars ++ [declared])).isSome) :
    (resolveIdentifier program resolve scope name fqn visitedVars).isSome := by
  rw [resolveIdentifier]
  cases getVariableFromScope scope name with
  | none => rfl
  | some declared =>
      dsimp only
      split
      case isTrue => rfl
      case isFalse =>
        split
        case isTrue => rfl
        case isFalse new =>
          have returns := returns declared (not_or.mp new).2
          cases (program declared).defs.find? Definition.isResolvable with
          | none => rfl
          | some definition =>
              obtain ⟨fqnFromImport, known⟩ := Option.isSome_iff_exists.mp
                (isSome_checkFqnFromImport definition fqn returns)
              dsimp only
              rw [known]
              cases fqnFromImport with
              | some _ => rfl
              | none => exact isSome_checkFqnFromRequire definition fqn returns

/-- One unit more than there are variables left to visit is enough. -/
theorem isSome_getFullyQualifiedNameRaw [Fintype V] [DecidableEq V] (fuel : ℕ) (scope : Scope V)
    (node : Node) (fqn : List String) (visitedVars : List V)
    (enough : (Finset.univ.filter (· ∉ visitedVars)).card < fuel) :
    (getFullyQualifiedNameRaw program fuel scope node fqn visitedVars).isSome := by
  induction fuel generalizing scope node fqn visitedVars with
  | zero => omega
  | succ fuel ih =>
      rw [getFullyQualifiedNameRaw]
      split
      case h_2 => rfl
      case h_1 =>
        apply isSome_resolveIdentifier
        intro declared new scope node fqn
        -- the variable is among the visited ones in every call from here on
        apply ih scope node fqn _
        refine lt_of_lt_of_le (Finset.card_lt_card ?_) (Nat.lt_succ_iff.mp enough)
        refine (Finset.ssubset_iff_of_subset ?_).mpr ⟨declared, ?_, ?_⟩
        · intro v hv
          simp only [Finset.mem_filter, List.mem_append, not_or] at hv ⊢
          exact ⟨hv.1, hv.2.1⟩
        · simpa using new
        · simp

end Termination

/-- Whatever the definitions refer to, the resolution returns. -/
theorem getFullyQualifiedNameRaw_returns [Fintype V] [DecidableEq V] (scope : Scope V)
    (node : Node) (fqn : List String) (visitedVars : List V) :
    ∃ name, getFullyQualifiedNameRaw program (Fintype.card V + 1) scope node fqn visitedVars =
      some name := by
  apply Option.isSome_iff_exists.mp
  apply isSome_getFullyQualifiedNameRaw
  exact Nat.lt_succ_iff.mpr (Finset.card_le_univ _)

/-- There is always enough fuel for a name. -/
def getFullyQualifiedName [Fintype V] [DecidableEq V] (scope : Scope V) (node : Node) :
    Option String :=
  ((getFullyQualifiedNameRaw program (Fintype.card V + 1) scope node [] []).getD none).map
    removeNodePrefixIfExists

end Resolution

end FullyQualifiedNames

end SonarJS
