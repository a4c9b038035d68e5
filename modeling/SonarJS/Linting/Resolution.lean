import Mathlib.Data.List.Basic
import SonarJS.Foundation.Action
import SonarJS.Foundation.Recursion

/-!
# Following the definitions of variables

Several helpers replace an identifier by the expression of the only write to its variable
and go on from there: `getUniqueWriteUsageOrNode` and `getValueOfExpression` if they are
told to, `getLiteralValue`, `flattenArgs` and `getPatternFromNode` always. None of them
remembers where it has been. The variable is looked up by its name in the scope of the
node that the rule is visiting, the same scope on the whole way.

The helpers are given fuel here, one unit for each nested call; a helper returns if some
fuel is enough for it. Each of them follows expressions of its own: the definition of an
identifier only, the elements of arrays, or the operands of a concatenation.
-/

namespace SonarJS.Resolution

open Action Recursion Relation

/-! ## Syntax and scopes -/

inductive Literal
  | string (value : String)
  | regex (pattern flags : String)
  | other
deriving DecidableEq

inductive NodeType
  | identifier
  | literal
  | templateLiteral
  | arrayExpression
  | memberExpression
  | callExpression
  | newExpression
  | binaryExpression
  | variableDeclarator
  | other (name : String)
deriving DecidableEq

/-- Expressions. The elements of an array can be missing, as in `[, 1]`. -/
inductive Node
  | identifier (name : String)
  | literal (value : Literal)
  | templateLiteral (quasis : List String) (expressions : List Node)
  | arrayExpression (elements : List (Option Node))
  | memberExpression (object property : Node)
  | callExpression (callee : Node) (arguments : List Node)
  | newExpression (callee : Node) (arguments : List Node)
  | binaryExpression (operator : String) (left right : Node)
  | other (type : String)

def Node.type : Node → NodeType
  | .identifier _ => .identifier
  | .literal _ => .literal
  | .templateLiteral .. => .templateLiteral
  | .arrayExpression _ => .arrayExpression
  | .memberExpression .. => .memberExpression
  | .callExpression .. => .callExpression
  | .newExpression .. => .newExpression
  | .binaryExpression .. => .binaryExpression
  | .other type => .other type

/-- A written expression, with the type of the node it stands in. -/
structure WriteExpr where
  node : Node
  parent : Option NodeType

structure Reference where
  isWrite : Bool
  writeExpr : Option WriteExpr

structure Variable where
  name : String
  references : List Reference

/-- The variables of a scope and those of the scopes above it, from the inside out. -/
abbrev Scope := List (List Variable)

def getVariableFromScope : Scope → String → Option Variable
  | [], _ => none
  | scope :: upper, name =>
    match scope.find? (·.name = name) with
    | some found => some found
    | none => getVariableFromScope upper name

def getUniqueWriteReference : Option Variable → Option WriteExpr
  | none => none
  | some declared =>
    match declared.references.filter (·.isWrite) with
    | [reference] => reference.writeExpr
    | _ => none

def getUniqueWriteUsage (scope : Scope) (name : String) : Option WriteExpr :=
  getUniqueWriteReference (getVariableFromScope scope name)

/-! ## The helpers -/

/-- Why a helper does not return. -/
inductive Stop
  | outOfFuel
  | typeError
deriving DecidableEq

def getUniqueWriteUsageOrNode (scope : Scope) (recursive : Bool) : ℕ → Node → Except Stop Node
  | 0, _ => .error .outOfFuel
  | fuel + 1, .identifier name =>
    match getUniqueWriteUsage scope name with
    | some usage =>
      if recursive then getUniqueWriteUsageOrNode scope recursive fuel usage.node
      else .ok usage.node
    | none => .ok (.identifier name)
  | _ + 1, node => .ok node

def getValueOfExpression (scope : Scope) (type : NodeType) (recursive : Bool) :
    ℕ → Option Node → Except Stop (Option Node)
  | 0, _ => .error .outOfFuel
  | _ + 1, none => .ok none
  | fuel + 1, some expr =>
    if expr.type = type then .ok (some expr)
    else
      match expr with
      | .identifier name =>
        match getUniqueWriteUsage scope name with
        | some usage =>
          if usage.node.type = type then .ok (some usage.node)
          else if recursive then getValueOfExpression scope type true fuel (some usage.node)
          else .ok none
        | none => .ok none
      | _ => .ok none

def getLiteralValue (scope : Scope) : ℕ → Node → Except Stop (Option Literal)
  | 0, _ => .error .outOfFuel
  | _ + 1, .literal value => .ok (some value)
  | fuel + 1, .identifier name =>
    match getUniqueWriteUsage scope name with
    | some usage => getLiteralValue scope fuel usage.node
    | none => .ok none
  | _ + 1, _ => .ok none

def flatMap {A B : Type} (xs : List A) (f : A → Except Stop (List B)) : Except Stop (List B) := do
  let parts ← xs.mapM f
  return parts.flatten

/-- `recHelper` of `flattenArgs`. A missing element has no type to ask for. -/
def recHelper (scope : Scope) : ℕ → Option Node → Except Stop (List Node)
  | 0, _ => .error .outOfFuel
  | _ + 1, none => .error .typeError
  | fuel + 1, some node => do
    let n ← getUniqueWriteUsageOrNode scope false 1 node
    match n with
    | .arrayExpression elements => flatMap elements (recHelper scope fuel)
    | n => return [n]

def flattenArgs (scope : Scope) (fuel : ℕ) (args : List Node) : Except Stop (List Node) :=
  flatMap (args.map some) (recHelper scope fuel)

structure PatternAndFlags where
  pattern : String
  flags : String
deriving DecidableEq

def isIdentifier (node : Node) (value : String) : Bool :=
  match node with
  | .identifier name => name = value
  | _ => false

def isRegExpWithGlobalThis (callee : Node) : Bool :=
  match callee with
  | .memberExpression object property =>
    isIdentifier object "globalThis" && isIdentifier property "RegExp"
  | _ => false

/-- The arguments of a call of the `RegExp` constructor, of which there is at least one. -/
def regExpConstructor : Node → Option (Node × List Node)
  | .callExpression callee (first :: rest) =>
    if isIdentifier callee "RegExp" then some (first, rest) else none
  | .newExpression callee (first :: rest) =>
    if isIdentifier callee "RegExp" || isRegExpWithGlobalThis callee then some (first, rest)
    else none
  | _ => none

def getFlags : List Node → Option String
  | [] => some ""
  | .literal (.string value) :: _ => some value
  | _ => none

def getPatternFromNode (scope : Scope) : ℕ → Node → Except Stop (Option PatternAndFlags)
  | 0, _ => .error .outOfFuel
  | fuel + 1, node =>
    match regExpConstructor node with
    | some (first, rest) => do
      let patternOnly ← getPatternFromNode scope fuel first
      return do
        let patternOnly ← patternOnly
        let flags ← getFlags rest
        return ⟨patternOnly.pattern, flags⟩
    | none =>
      match node with
      | .literal (.regex pattern flags) => .ok (some ⟨pattern, flags⟩)
      | .literal (.string value) => .ok (some ⟨value, ""⟩)
      | .templateLiteral [raw] [] => .ok (some ⟨raw, ""⟩)
      | .identifier name =>
        match getUniqueWriteUsage scope name with
        | some usage =>
          if usage.parent = some .variableDeclarator then getPatternFromNode scope fuel usage.node
          else .ok none
        | none => .ok none
      | .binaryExpression "+" left right => do
        let left ← getPatternFromNode scope fuel left
        let right ← getPatternFromNode scope fuel right
        return do
          let left ← left
          let right ← right
          return ⟨left.pattern ++ right.pattern, ""⟩
      | _ => .ok none

/-! ## What the helpers follow -/

/-- The definition of an identifier. -/
def aliases (scope : Scope) : Node → List Node
  | .identifier name => (getUniqueWriteUsage scope name).toList.map (·.node)
  | _ => []

/-- The definition of an identifier, unless one of the two has the type that is looked for. -/
def valueCalls (scope : Scope) (type : NodeType) (node : Node) : List Node :=
  if node.type = type then [] else (aliases scope node).filter (·.type ≠ type)

def usageOrNode (scope : Scope) : Node → Node
  | .identifier name => ((getUniqueWriteUsage scope name).map (·.node)).getD (.identifier name)
  | node => node

/-- The elements of an array, or of the array that an identifier is defined as. -/
def elements (scope : Scope) : Option Node → List (Option Node)
  | none => []
  | some node =>
    match usageOrNode scope node with
    | .arrayExpression elements => elements
    | _ => []

/-- The argument of a `RegExp` constructor, the operands of a concatenation and the
initialiser of an identifier. -/
def operands (scope : Scope) (node : Node) : List Node :=
  match regExpConstructor node with
  | some (first, _) => [first]
  | none =>
    match node with
    | .identifier name =>
      match getUniqueWriteUsage scope name with
      | some usage => if usage.parent = some .variableDeclarator then [usage.node] else []
      | none => []
    | .binaryExpression "+" left right => [left, right]
    | _ => []

/-- Some fuel is enough. -/
def Returns {A B : Type} (helper : ℕ → A → Except Stop B) (input : A) : Prop :=
  ∃ fuel, ∃ result, helper fuel input = .ok result

/-! ## Identifiers that are defined -/

section Jumps

variable {scope : Scope}

theorem name_mem_of_getVariableFromScope {name : String} {found : Variable}
    (h : getVariableFromScope scope name = some found) :
    name ∈ scope.flatten.map (·.name) := by
  induction scope with
  | nil => cases h
  | cons inner upper ih =>
      unfold getVariableFromScope at h
      split at h
      · rename_i declared here
        have named : declared.name = name := by simpa using List.find?_some here
        exact List.mem_map.mpr ⟨declared, by simp [List.mem_of_find?_eq_some here], named⟩
      · have above := ih h
        simp only [List.flatten_cons, List.map_append, List.mem_append]
        exact .inr above

/-- The identifiers that have a definition. -/
def defined (scope : Scope) : Set Node :=
  {node | ∃ name, node = .identifier name ∧ getUniqueWriteUsage scope name ≠ none}

theorem finite_defined (scope : Scope) : (defined scope).Finite := by
  apply Set.Finite.subset (List.finite_toSet ((scope.flatten.map (·.name)).map Node.identifier))
  rintro node ⟨name, rfl, written⟩
  have found : getVariableFromScope scope name ≠ none := by
    intro unknown
    simp [getUniqueWriteUsage, unknown, getUniqueWriteReference] at written
  obtain ⟨declared, found⟩ := Option.ne_none_iff_exists'.mp found
  exact List.mem_map.mpr ⟨name, name_mem_of_getVariableFromScope found, rfl⟩

theorem getUniqueWriteUsage_eq_none {name : String} (h : .identifier name ∉ defined scope) :
    getUniqueWriteUsage scope name = none := by
  by_contra written
  exact h ⟨name, rfl, written⟩

theorem aliases_eq_nil {node : Node} (h : node ∉ defined scope) : aliases scope node = [] := by
  unfold aliases
  split
  · rename_i name
    simp [getUniqueWriteUsage_eq_none h]
  · rfl

theorem ends_aliases_iff (node : Node) :
    Ends (aliases scope) node ↔ Acyclic (aliases scope) node := by
  apply ends_iff_acyclic sizeOf (finite_defined scope)
  intro n undefined m called
  simp [aliases_eq_nil undefined] at called

theorem usageOrNode_eq_self {node : Node} (h : node ∉ defined scope) :
    usageOrNode scope node = node := by
  unfold usageOrNode
  split
  · rename_i name
    simp [getUniqueWriteUsage_eq_none h]
  · rfl

theorem smaller_of_elements (node : Option Node) (h : node ∉ some '' defined scope) :
    ∀ m ∈ elements scope node, sizeOf m < sizeOf node := by
  intro m called
  cases node with
  | none => cases called
  | some node =>
      have undefined : node ∉ defined scope := fun known => h ⟨node, known, rfl⟩
      simp only [elements, usageOrNode_eq_self undefined] at called
      split at called
      · have := List.sizeOf_lt_of_mem called
        simp only [Option.some.sizeOf_spec, Node.arrayExpression.sizeOf_spec]
        omega
      · cases called

theorem ends_elements_iff (node : Option Node) :
    Ends (elements scope) node ↔ Acyclic (elements scope) node :=
  ends_iff_acyclic sizeOf ((finite_defined scope).image some) smaller_of_elements node

theorem sizeOf_regExpConstructor {node first : Node} {rest : List Node}
    (h : regExpConstructor node = some (first, rest)) : sizeOf first < sizeOf node := by
  unfold regExpConstructor at h
  split at h
  · split at h
    · cases h
      simp only [Node.callExpression.sizeOf_spec, List.cons.sizeOf_spec]
      omega
    · cases h
  · split at h
    · cases h
      simp only [Node.newExpression.sizeOf_spec, List.cons.sizeOf_spec]
      omega
    · cases h
  · cases h

theorem smaller_of_operands (node : Node) (h : node ∉ defined scope) :
    ∀ m ∈ operands scope node, sizeOf m < sizeOf node := by
  intro m called
  unfold operands at called
  split at called
  · rename_i first rest constructs
    obtain rfl := List.mem_singleton.mp called
    exact sizeOf_regExpConstructor constructs
  · split at called
    · split at called
      · rename_i usage written
        exact absurd ⟨_, rfl, by simp [written]⟩ h
      · cases called
    · simp only [List.mem_cons, List.not_mem_nil, or_false] at called
      simp only [Node.binaryExpression.sizeOf_spec]
      obtain rfl | rfl := called
      · omega
      · omega
    · cases called

theorem ends_operands_iff (node : Node) :
    Ends (operands scope) node ↔ Acyclic (operands scope) node :=
  ends_iff_acyclic sizeOf (finite_defined scope) smaller_of_operands node

theorem type_of_mem_aliases {node m : Node} (h : m ∈ aliases scope node) :
    node.type = .identifier := by
  unfold aliases at h
  split at h
  · rfl
  · cases h

theorem mem_valueCalls {type : NodeType} {node m : Node} :
    m ∈ valueCalls scope type node ↔
      node.type ≠ type ∧ m ∈ aliases scope node ∧ m.type ≠ type := by
  unfold valueCalls
  split
  · simp [*]
  · simp [*]

/-- A value of another type than `Identifier` is looked for along all the definitions. -/
theorem ends_valueCalls_iff {type : NodeType} (ne : type ≠ .identifier) (node : Node) :
    Ends (valueCalls scope type) node ↔ Ends (aliases scope) node := by
  constructor
  · intro ends
    induction ends with
    | intro node _ ih =>
        apply Acc.intro node
        intro m called
        by_cases found : m.type = type
        · -- What is found is not an identifier, so nothing is followed from it.
          apply Acc.intro m
          intro k calledThen
          exact absurd (found.symm.trans (type_of_mem_aliases calledThen)) ne
        · have here : node.type ≠ type := by
            rw [type_of_mem_aliases called]
            exact ne.symm
          exact ih m (mem_valueCalls.2 ⟨here, called, found⟩)
  · exact Subrelation.accessible fun called => (mem_valueCalls.1 called).2.1

end Jumps

/-! ## When the helpers return -/

section Returns

variable (scope : Scope)

/-- A helper that calls itself on everything in a list. -/
theorem returns_iff {A B : Type} {helper : ℕ → A → Except Stop B} {calls : A → List A}
    {good : A → Prop} (zero : ∀ input, helper 0 input = .error .outOfFuel)
    (succ : ∀ fuel input, (∃ result, helper (fuel + 1) input = .ok result) ↔
      good input ∧ ∀ next ∈ calls input, ∃ result, helper fuel next = .ok result) (input : A) :
    Returns helper input ↔
      Ends calls input ∧ ∀ met, ReflTransGen (Calls calls) input met → good met :=
  @exists_succeeds_iff A calls good (fun fuel input => ∃ result, helper fuel input = .ok result)
    (by simp [zero]) succ input

theorem returns_iff_ends {A B : Type} {helper : ℕ → A → Except Stop B} {calls : A → List A}
    (zero : ∀ input, helper 0 input = .error .outOfFuel)
    (succ : ∀ fuel input, (∃ result, helper (fuel + 1) input = .ok result) ↔
      ∀ next ∈ calls input, ∃ result, helper fuel next = .ok result) (input : A) :
    Returns helper input ↔ Ends calls input := by
  have general : Returns helper input ↔
      Ends calls input ∧ ∀ met, ReflTransGen (Calls calls) input met → True :=
    returns_iff zero (fun fuel input => by simpa using succ fuel input) input
  simpa using general

theorem getUniqueWriteUsageOrNode_returns_iff (node : Node) :
    Returns (getUniqueWriteUsageOrNode scope true) node ↔ Acyclic (aliases scope) node := by
  rw [← ends_aliases_iff]
  refine returns_iff_ends (fun _ => rfl) (fun fuel node => ?_) node
  cases node with
  | identifier name =>
      cases usage : getUniqueWriteUsage scope name with
      | none => simp [getUniqueWriteUsageOrNode, aliases, usage]
      | some written => simp [getUniqueWriteUsageOrNode, aliases, usage]
  | _ => simp [getUniqueWriteUsageOrNode, aliases]

theorem getLiteralValue_returns_iff (node : Node) :
    Returns (getLiteralValue scope) node ↔ Acyclic (aliases scope) node := by
  rw [← ends_aliases_iff]
  refine returns_iff_ends (fun _ => rfl) (fun fuel node => ?_) node
  cases node with
  | identifier name =>
      cases usage : getUniqueWriteUsage scope name with
      | none => simp [getLiteralValue, aliases, usage]
      | some written => simp [getLiteralValue, aliases, usage]
  | _ => simp [getLiteralValue, aliases]

theorem getValueOfExpression_returns_iff (type : NodeType) (expr : Option Node) :
    Returns (getValueOfExpression scope type true) expr ↔
      ∀ node, expr = some node → type = .identifier ∨ Acyclic (aliases scope) node := by
  cases expr with
  | none => exact iff_of_true ⟨1, none, rfl⟩ (by simp)
  | some node =>
      simp only [Option.some.injEq, forall_eq']
      by_cases any : type = .identifier
      · refine iff_of_true ⟨1, ?_⟩ (.inl any)
        by_cases here : node.type = type
        · simp [getValueOfExpression, here]
        · cases node with
          | identifier name => exact absurd any.symm here
          | _ => simp [getValueOfExpression, here]
      · rw [or_iff_right any, ← ends_aliases_iff, ← ends_valueCalls_iff any]
        change
          Returns (fun fuel node => getValueOfExpression scope type true fuel (some node)) node ↔ _
        refine returns_iff_ends (fun _ => rfl) (fun fuel node => ?_) node
        by_cases here : node.type = type
        · simp [getValueOfExpression, valueCalls, here]
        · cases node with
          | identifier name =>
              cases usage : getUniqueWriteUsage scope name with
              | none => simp [getValueOfExpression, valueCalls, aliases, here, usage]
              | some written =>
                  by_cases found : written.node.type = type
                  · simp [getValueOfExpression, valueCalls, aliases, here, usage, found]
                  · simp [getValueOfExpression, valueCalls, aliases, here, usage, found]
          | _ => simp [getValueOfExpression, valueCalls, aliases, here]

theorem flatMap_returns_iff {A B : Type} (f : A → Except Stop (List B)) (xs : List A) :
    (∃ ys, flatMap xs f = .ok ys) ↔ ∀ x ∈ xs, ∃ ys, f x = .ok ys := by
  rw [← exists_mapM_eq_ok_iff]
  constructor
  · rintro ⟨_, ran⟩
    obtain ⟨parts, collected, -⟩ := except_bind_eq_ok.mp ran
    exact ⟨parts, collected⟩
  · rintro ⟨parts, collected⟩
    exact ⟨parts.flatten, except_bind_eq_ok.mpr ⟨parts, collected, rfl⟩⟩

theorem getUniqueWriteUsageOrNode_once (node : Node) :
    getUniqueWriteUsageOrNode scope false 1 node = .ok (usageOrNode scope node) := by
  cases node with
  | identifier name =>
      cases usage : getUniqueWriteUsage scope name with
      | none => simp [getUniqueWriteUsageOrNode, usageOrNode, usage]
      | some written => simp [getUniqueWriteUsageOrNode, usageOrNode, usage]
  | _ => rfl

theorem recHelper_succ (fuel : ℕ) (input : Option Node) :
    (∃ result, recHelper scope (fuel + 1) input = .ok result) ↔
      input ≠ none ∧
        ∀ next ∈ elements scope input, ∃ result, recHelper scope fuel next = .ok result := by
  cases input with
  | none => simp [recHelper]
  | some node =>
      rw [← flatMap_returns_iff, recHelper, getUniqueWriteUsageOrNode_once]
      cases resolved : usageOrNode scope node with
      | arrayExpression members => simp [elements, resolved, bind, Except.bind]
      | _ => simp [elements, resolved, bind, Except.bind, pure, Except.pure, flatMap]

theorem recHelper_returns_iff (input : Option Node) :
    Returns (recHelper scope) input ↔ Acyclic (elements scope) input ∧
      ∀ met, ReflTransGen (Calls (elements scope)) input met → met ≠ none := by
  rw [← ends_elements_iff]
  exact returns_iff (fun _ => rfl) (recHelper_succ scope) input

theorem flattenArgs_returns_iff (args : List Node) :
    Returns (flattenArgs scope) args ↔ ∀ arg ∈ args, Acyclic (elements scope) (some arg) ∧
      ∀ met, ReflTransGen (Calls (elements scope)) (some arg) met → met ≠ none := by
  simp only [← recHelper_returns_iff]
  constructor
  · rintro ⟨fuel, returned⟩ arg member
    exact ⟨fuel, (flatMap_returns_iff _ _).mp returned _ (List.mem_map_of_mem member)⟩
  · intro each
    have mono {fuel fuel' : ℕ} (le : fuel ≤ fuel') {input : Option Node}
        (h : ∃ result, recHelper scope fuel input = .ok result) :
        ∃ result, recHelper scope fuel' input = .ok result :=
      @succeeds_mono _ (elements scope) (· ≠ none)
        (fun fuel input => ∃ result, recHelper scope fuel input = .ok result)
        (by simp [recHelper]) (recHelper_succ scope) _ _ le _ h
    have every : ∀ input ∈ args.map some, Returns (recHelper scope) input := by
      simpa using each
    obtain ⟨fuel, enough⟩ := exists_common_fuel mono (args.map some) every
    exact ⟨fuel, (flatMap_returns_iff _ _).mpr enough⟩

theorem bind_pure_returns_iff {A B : Type} (x : Except Stop A) (f : A → B) :
    (∃ result, (x >>= fun a => pure (f a)) = .ok result) ↔ ∃ result, x = .ok result := by
  constructor
  · rintro ⟨_, ran⟩
    obtain ⟨a, first, -⟩ := except_bind_eq_ok.mp ran
    exact ⟨a, first⟩
  · rintro ⟨a, first⟩
    exact ⟨f a, except_bind_eq_ok.mpr ⟨a, first, rfl⟩⟩

theorem bind_bind_pure_returns_iff {A B C : Type} (x : Except Stop A) (y : Except Stop B)
    (f : A → B → C) :
    (∃ result, (x >>= fun a => y >>= fun b => pure (f a b)) = .ok result) ↔
      (∃ result, x = .ok result) ∧ ∃ result, y = .ok result := by
  constructor
  · rintro ⟨result, ran⟩
    obtain ⟨a, first, then_⟩ := except_bind_eq_ok.mp ran
    exact ⟨⟨a, first⟩, (bind_pure_returns_iff y (f a)).mp ⟨result, then_⟩⟩
  · rintro ⟨⟨a, first⟩, second⟩
    obtain ⟨result, then_⟩ := (bind_pure_returns_iff y (f a)).mpr second
    exact ⟨result, except_bind_eq_ok.mpr ⟨a, first, then_⟩⟩

theorem getPatternFromNode_returns_iff (node : Node) :
    Returns (getPatternFromNode scope) node ↔ Acyclic (operands scope) node := by
  rw [← ends_operands_iff]
  refine returns_iff_ends (fun _ => rfl) (fun fuel node => ?_) node
  rw [getPatternFromNode.eq_def, operands.eq_def]
  dsimp only
  cases constructs : regExpConstructor node with
  | some call =>
      obtain ⟨first, rest⟩ := call
      simp only [List.mem_singleton, forall_eq]
      exact bind_pure_returns_iff _ _
  | none =>
      dsimp only
      split
      · simp
      · simp
      · simp
      · rename_i _ name
        cases usage : getUniqueWriteUsage scope name with
        | none => simp [usage]
        | some written =>
            by_cases declared : written.parent = some .variableDeclarator
            · simp [usage, declared]
            · simp [usage, declared]
      · simp only [List.mem_cons, List.not_mem_nil, or_false, forall_eq_or_imp, forall_eq]
        exact bind_bind_pure_returns_iff _ _ _
      · rename_i notIdentifier notPlus
        split
        · exact absurd rfl (notIdentifier _)
        · exact absurd rfl (notPlus _ _)
        · simp

/-- The helpers return exactly where no definition that they follow leads back to itself:
along identifiers for the first three, of which `getValueOfExpression` need not follow any
if it looks for an identifier; through arrays for `flattenArgs`, which must not meet a
missing element either; through concatenations and `RegExp` for `getPatternFromNode`. -/
theorem resolution_returns_iff :
    (∀ node, Returns (getUniqueWriteUsageOrNode scope true) node ↔
      Acyclic (aliases scope) node) ∧
    (∀ type expr, Returns (getValueOfExpression scope type true) expr ↔
      ∀ node, expr = some node → type = .identifier ∨ Acyclic (aliases scope) node) ∧
    (∀ node, Returns (getLiteralValue scope) node ↔ Acyclic (aliases scope) node) ∧
    (∀ args, Returns (flattenArgs scope) args ↔
      ∀ arg ∈ args, Acyclic (elements scope) (some arg) ∧
        ∀ met, ReflTransGen (Calls (elements scope)) (some arg) met → met ≠ none) ∧
    (∀ node, Returns (getPatternFromNode scope) node ↔ Acyclic (operands scope) node) :=
  ⟨getUniqueWriteUsageOrNode_returns_iff scope, getValueOfExpression_returns_iff scope,
    getLiteralValue_returns_iff scope, flattenArgs_returns_iff scope,
    getPatternFromNode_returns_iff scope⟩

end Returns

/-- The scope of `var x = x; var a = [a]; var p = p + "";`. -/
def selfReferences : Scope :=
  let variableOf (name : String) (init : Node) : Variable :=
    ⟨name, [⟨true, some ⟨init, some .variableDeclarator⟩⟩, ⟨false, none⟩]⟩
  [[variableOf "x" (.identifier "x"), variableOf "a" (.arrayExpression [some (.identifier "a")]),
    variableOf "p" (.binaryExpression "+" (.identifier "p") (.literal (.string "")))]]

theorem not_acyclic_of_mem {A : Type} {calls : A → List A} {a b : A} (h : b ∈ calls a)
    (back : ReflTransGen (Calls calls) b a) : ¬ Acyclic calls a :=
  fun acyclic => acyclic a .refl (TransGen.head' h back)

theorem selfReferences_not_returned :
    ¬ Returns (getUniqueWriteUsageOrNode selfReferences true) (.identifier "x") ∧
    ¬ Returns (getValueOfExpression selfReferences .literal true) (some (.identifier "x")) ∧
    ¬ Returns (getLiteralValue selfReferences) (.identifier "x") ∧
    ¬ Returns (flattenArgs selfReferences) [.identifier "a"] ∧
    ¬ Returns (flattenArgs selfReferences) [.arrayExpression [none]] ∧
    ¬ Returns (getPatternFromNode selfReferences) (.identifier "p") := by
  have x : Node.identifier "x" ∈ aliases selfReferences (.identifier "x") := by
    simp [aliases, selfReferences, getUniqueWriteUsage, getVariableFromScope,
      getUniqueWriteReference]
  have a : some (Node.identifier "a") ∈ elements selfReferences (some (.identifier "a")) := by
    simp [elements, usageOrNode, selfReferences, getUniqueWriteUsage, getVariableFromScope,
      getUniqueWriteReference]
  have sum : Node.binaryExpression "+" (.identifier "p") (.literal (.string "")) ∈
      operands selfReferences (.identifier "p") := by
    simp [operands, regExpConstructor, selfReferences, getUniqueWriteUsage, getVariableFromScope,
      getUniqueWriteReference]
  have p : Node.identifier "p" ∈ operands selfReferences
      (.binaryExpression "+" (.identifier "p") (.literal (.string ""))) := by
    simp [operands, regExpConstructor]
  have cyclic := not_acyclic_of_mem x .refl
  refine ⟨?_, ?_, ?_, ?_, ?_, ?_⟩
  · rwa [getUniqueWriteUsageOrNode_returns_iff]
  · rw [getValueOfExpression_returns_iff]
    intro returns
    obtain other | acyclic := returns _ rfl
    · cases other
    · exact cyclic acyclic
  · rwa [getLiteralValue_returns_iff]
  · rw [flattenArgs_returns_iff]
    intro returns
    exact not_acyclic_of_mem a .refl (returns _ (by simp)).1
  · rw [flattenArgs_returns_iff]
    intro returns
    have hole : none ∈ elements selfReferences (some (.arrayExpression [none])) := by
      simp [elements, usageOrNode]
    exact (returns _ (by simp)).2 none (.single hole) rfl
  · rw [getPatternFromNode_returns_iff]
    exact not_acyclic_of_mem sum (.single p)

end SonarJS.Resolution
