import Mathlib.Data.List.Basic

/-!
# Variables and their only writes

A variable is looked up by its name, from a scope to the scopes above it. The helpers of the
rules that follow definitions take the expression that is written to it, if there is a single
write. What an expression is depends on the rule.
-/

namespace SonarJS.Scopes

structure Reference (N : Type) where
  isWrite : Bool
  writeExpr : Option N

structure Variable (N : Type) where
  name : String
  references : List (Reference N)

/-- The variables of a scope and those of the scopes above it, from the inside out. -/
abbrev Scope (N : Type) := List (List (Variable N))

section Lookup

variable {N : Type}

def getVariableFromScope : Scope N → String → Option (Variable N)
  | [], _ => none
  | scope :: upper, name =>
    match scope.find? (·.name = name) with
    | some found => some found
    | none => getVariableFromScope upper name

def getUniqueWriteReference : Option (Variable N) → Option N
  | none => none
  | some declared =>
    match declared.references.filter (·.isWrite) with
    | [reference] => reference.writeExpr
    | _ => none

def getUniqueWriteUsage (scope : Scope N) (name : String) : Option N :=
  getUniqueWriteReference (getVariableFromScope scope name)

end Lookup

end SonarJS.Scopes
