import Mathlib.Data.Int.Notation
import Mathlib.Data.List.Forall2
import Mathlib.Tactic.Common
import SonarJS.Linting.SyntaxTree

/-!
# Conditional operators of expressions

`expression-complexity` counts the conditional operators of an expression while the syntax tree is
traversed. Calls, object literals, functions and elements in between have their own count, so that
there is a stack of counts. The count of an expression is complete when the outermost conditional
or logical expression is left.
-/

namespace SonarJS.ConditionalOperators

open SyntaxTree

/-! ## The rule -/

structure ExpressionComplexity where
  nestedLevel : ℤ
  operators : List (Option Token)
deriving DecidableEq

namespace ExpressionComplexity

def new : ExpressionComplexity := ⟨0, []⟩

def addOperator (expr : ExpressionComplexity) (operator : Option Token) : ExpressionComplexity :=
  { expr with operators := expr.operators ++ [operator] }

def incrementNestedExprLevel (expr : ExpressionComplexity) : ExpressionComplexity :=
  { expr with nestedLevel := expr.nestedLevel + 1 }

def decrementNestedExprLevel (expr : ExpressionComplexity) : ExpressionComplexity :=
  { expr with nestedLevel := expr.nestedLevel - 1 }

def isOnFirstExprLevel (expr : ExpressionComplexity) : Bool := expr.nestedLevel = 0

def resetExpressionComplexityOperators (expr : ExpressionComplexity) : ExpressionComplexity :=
  { expr with operators := [] }

end ExpressionComplexity

/-- A call of `reportIssue`. -/
structure Report where
  node : Node
  operators : List (Option Token)
deriving DecidableEq

def Report.complexity (report : Report) : ℕ := report.operators.length

def Report.message (report : Report) (max : ℤ) : String :=
  s!"Reduce the number of conditional operators ({report.complexity}) used in the expression " ++
    s!"(maximum allowed {max})."

def Report.cost (report : Report) (max : ℤ) : ℤ := report.complexity - max

/-- The entries of the stack, with the last one in front, and the calls so far. -/
structure State where
  statementLevel : List ExpressionComplexity
  reports : List Report
deriving DecidableEq

def initialState : State := ⟨[.new], []⟩

def isScopeLike : NodeType → Bool
  | .FunctionExpression => true
  | .FunctionDeclaration generator => generator
  | .ObjectExpression => true
  | .CallExpression => true
  | .JSXElement => true
  | _ => false

def isConditionalLike : NodeType → Bool
  | .ConditionalExpression _ _ => true
  | .LogicalExpression _ _ => true
  | _ => false

def getOperatorToken (tokens : List Token) (node : Node) : Option Token :=
  match node.type with
  | .ConditionalExpression test _ =>
    getTokenAfter tokens (fun token => token.type == "Punctuator" && token.value == "?") test
  | .LogicalExpression operator left =>
    getTokenAfter tokens (fun token => token.type == "Punctuator" && token.value == operator.text)
      left
  | _ => none

/-- `*`. There is no result where the stack is empty. -/
def enter (tokens : List Token) (node : Node) (state : State) : Option State :=
  if isConditionalLike node.type then
    match state.statementLevel with
    | [] => none
    | expr :: outer =>
      let expr := expr.incrementNestedExprLevel.addOperator (getOperatorToken tokens node)
      some { state with statementLevel := expr :: outer }
  else if isScopeLike node.type then
    some { state with statementLevel := .new :: state.statementLevel }
  else some state

/-- `*:exit`. -/
def exit (max : ℤ) (node : Node) (state : State) : Option State :=
  if isConditionalLike node.type then
    match state.statementLevel with
    | [] => none
    | expr :: outer =>
      let expr := expr.decrementNestedExprLevel
      if expr.isOnFirstExprLevel then
        let reports :=
          if max < expr.operators.length then state.reports ++ [⟨node, expr.operators⟩]
          else state.reports
        some ⟨expr.resetExpressionComplexityOperators :: outer, reports⟩
      else some { state with statementLevel := expr :: outer }
  else if isScopeLike node.type then
    some { state with statementLevel := state.statementLevel.tail }
  else some state

/-- The traversal: a node is entered before its children and left after them. -/
def traverse (tokens : List Token) (max : ℤ) : Tree → State → Option State
  | .nil, state => some state
  | .cons node children siblings, state => do
    let state ← enter tokens node state
    let state ← traverse tokens max children state
    let state ← exit max node state
    traverse tokens max siblings state

/-! ## The recursion -/

/-- The conditional and logical expressions that are not in a scope of their own. -/
def conditionals : Tree → List Node
  | .nil => []
  | .cons node children siblings =>
    (if isConditionalLike node.type then node :: conditionals children
      else if isScopeLike node.type then []
      else conditionals children) ++ conditionals siblings

/-- The outermost conditional and logical expressions of each scope, in the order in which they are
left, with those that they contain. -/
@[grind =] def expressions (inside : Bool) : Tree → List (Node × List Node)
  | .nil => []
  | .cons node children siblings =>
    (if isConditionalLike node.type then
      expressions true children ++ if inside then [] else [(node, node :: conditionals children)]
      else if isScopeLike node.type then expressions false children
      else expressions inside children) ++ expressions inside siblings

/-- The expressions that are too complex. -/
def complexExpressions (max : ℤ) (inside : Bool) (tree : Tree) : List (Node × List Node) :=
  (expressions inside tree).filter fun expression => max < expression.2.length

/-- The expression is reported with its operators. -/
structure Reports (tokens : List Token) (expression : Node × List Node) (report : Report) :
    Prop where
  node : report.node = expression.1
  operators : List.Forall₂
    (fun node operator => ∃ token, operator = some token ∧ OperatorToken tokens node token)
    expression.2 report.operators

/-! ## The stack follows the recursion -/

section Traverse

variable (tokens : List Token) (max : ℤ)

def operatorsOf (nodes : List Node) : List (Option Token) := nodes.map (getOperatorToken tokens)

def report (expression : Node × List Node) : Report :=
  ⟨expression.1, operatorsOf tokens expression.2⟩

/-- What the traversal of a tree adds to the calls. -/
def reportsOf (inside : Bool) (tree : Tree) : List Report :=
  (complexExpressions max inside tree).map (report tokens)

section Equations

variable (node : Node) (children siblings : Tree)

theorem reportsOf_scope (inside : Bool) (other : isConditionalLike node.type = false)
    (scope : isScopeLike node.type = true) :
    reportsOf tokens max inside (.cons node children siblings) =
      reportsOf tokens max false children ++ reportsOf tokens max inside siblings := by
  simp [reportsOf, complexExpressions, expressions, other, scope]

theorem reportsOf_other (inside : Bool) (other : isConditionalLike node.type = false)
    (notScope : isScopeLike node.type = false) :
    reportsOf tokens max inside (.cons node children siblings) =
      reportsOf tokens max inside children ++ reportsOf tokens max inside siblings := by
  simp [reportsOf, complexExpressions, expressions, other, notScope]

theorem reportsOf_inner (conditional : isConditionalLike node.type = true) :
    reportsOf tokens max true (.cons node children siblings) =
      reportsOf tokens max true children ++ reportsOf tokens max true siblings := by
  simp [reportsOf, complexExpressions, expressions, conditional]

theorem reportsOf_outermost (conditional : isConditionalLike node.type = true) :
    reportsOf tokens max false (.cons node children siblings) =
      reportsOf tokens max true children ++
        (if max < (conditionals children).length + 1 then
          [⟨node, operatorsOf tokens (node :: conditionals children)⟩] else []) ++
        reportsOf tokens max false siblings := by
  simp only [reportsOf, complexExpressions, expressions, conditional]
  by_cases complex : max < (conditionals children).length + 1
  · simp [complex, report]
  · simp [complex]

end Equations

section Steps

variable {node : Node} {level : ℤ} {operators : List (Option Token)}
  {outer : List ExpressionComplexity} {reports : List Report}

theorem enter_conditional (conditional : isConditionalLike node.type = true) :
    enter tokens node ⟨⟨level, operators⟩ :: outer, reports⟩ =
      some ⟨⟨level + 1, operators ++ [getOperatorToken tokens node]⟩ :: outer, reports⟩ := by
  simp [enter, conditional, ExpressionComplexity.incrementNestedExprLevel,
    ExpressionComplexity.addOperator]

theorem enter_outermost (conditional : isConditionalLike node.type = true) :
    enter tokens node ⟨.new :: outer, reports⟩ =
      some ⟨⟨1, [getOperatorToken tokens node]⟩ :: outer, reports⟩ :=
  enter_conditional tokens conditional

theorem exit_inner (conditional : isConditionalLike node.type = true) (inside : 0 < level) :
    exit max node ⟨⟨level + 1, operators⟩ :: outer, reports⟩ =
      some ⟨⟨level, operators⟩ :: outer, reports⟩ := by
  have : level ≠ 0 := by omega
  simp [exit, conditional, ExpressionComplexity.decrementNestedExprLevel,
    ExpressionComplexity.isOnFirstExprLevel, this]

theorem exit_outermost (conditional : isConditionalLike node.type = true) :
    exit max node ⟨⟨1, operators⟩ :: outer, reports⟩ =
      some ⟨.new :: outer,
        reports ++ if max < operators.length then [⟨node, operators⟩] else []⟩ := by
  by_cases complex : max < operators.length
  · simp [exit, conditional, ExpressionComplexity.decrementNestedExprLevel,
      ExpressionComplexity.isOnFirstExprLevel, ExpressionComplexity.new,
      ExpressionComplexity.resetExpressionComplexityOperators, complex]
  · simp [exit, conditional, ExpressionComplexity.decrementNestedExprLevel,
      ExpressionComplexity.isOnFirstExprLevel, ExpressionComplexity.new,
      ExpressionComplexity.resetExpressionComplexityOperators, complex]

variable {state : State} (other : isConditionalLike node.type = false)

include other

theorem enter_scope (scope : isScopeLike node.type = true) :
    enter tokens node state =
      some { state with statementLevel := .new :: state.statementLevel } := by
  simp [enter, other, scope]

theorem exit_scope (scope : isScopeLike node.type = true) :
    exit max node state = some { state with statementLevel := state.statementLevel.tail } := by
  simp [exit, other, scope]

theorem enter_other (notScope : isScopeLike node.type = false) :
    enter tokens node state = some state := by
  simp [enter, other, notScope]

theorem exit_other (notScope : isScopeLike node.type = false) :
    exit max node state = some state := by
  simp [exit, other, notScope]

end Steps

/-- Within an expression the operators are collected; outside, each entry is empty before and
after. Each entry below is left as it is. -/
theorem traverse_eq (tree : Tree) (outer : List ExpressionComplexity) (reports : List Report) :
    traverse tokens max tree ⟨.new :: outer, reports⟩ =
        some ⟨.new :: outer, reports ++ reportsOf tokens max false tree⟩ ∧
      ∀ level operators, 0 < level →
        traverse tokens max tree ⟨⟨level, operators⟩ :: outer, reports⟩ =
          some ⟨⟨level, operators ++ operatorsOf tokens (conditionals tree)⟩ :: outer,
            reports ++ reportsOf tokens max true tree⟩ := by
  induction tree generalizing outer reports with
  | nil => simp [traverse, reportsOf, complexExpressions, expressions, operatorsOf, conditionals]
  | cons node children siblings childrenIh siblingsIh =>
      by_cases conditional : isConditionalLike node.type = true
      · constructor
        · have inside := (childrenIh outer reports).2 1 [getOperatorToken tokens node] (by omega)
          simp only [traverse, enter_outermost tokens conditional, Option.bind_eq_bind,
            Option.bind_some, inside, exit_outermost max conditional]
          rw [(siblingsIh outer _).1, reportsOf_outermost _ _ _ _ _ conditional]
          simp [operatorsOf]
        · intro level operators positive
          have inside := (childrenIh outer reports).2 (level + 1)
            (operators ++ [getOperatorToken tokens node]) (by omega)
          simp only [traverse, enter_conditional tokens conditional, Option.bind_eq_bind,
            Option.bind_some, inside, exit_inner max conditional positive]
          rw [(siblingsIh outer _).2 level _ positive, reportsOf_inner _ _ _ _ _ conditional]
          simp [operatorsOf, conditionals, conditional]
      · have conditional : isConditionalLike node.type = false := by simpa using conditional
        by_cases scope : isScopeLike node.type = true
        · -- The scope begins with an entry of its own, which is empty again at its end.
          constructor
          · have within := (childrenIh (.new :: outer) reports).1
            simp only [traverse, enter_scope tokens conditional scope, Option.bind_eq_bind,
              Option.bind_some, within, exit_scope max conditional scope, List.tail_cons]
            rw [(siblingsIh outer _).1, reportsOf_scope _ _ _ _ _ _ conditional scope]
            simp
          · intro level operators positive
            have within := (childrenIh (⟨level, operators⟩ :: outer) reports).1
            simp only [traverse, enter_scope tokens conditional scope, Option.bind_eq_bind,
              Option.bind_some, within, exit_scope max conditional scope, List.tail_cons]
            rw [(siblingsIh outer _).2 level _ positive,
              reportsOf_scope _ _ _ _ _ _ conditional scope]
            simp [conditionals, conditional, scope]
        · have scope : isScopeLike node.type = false := by simpa using scope
          constructor
          · have within := (childrenIh outer reports).1
            simp only [traverse, enter_other tokens conditional scope, Option.bind_eq_bind,
              Option.bind_some, within, exit_other max conditional scope]
            rw [(siblingsIh outer _).1, reportsOf_other _ _ _ _ _ _ conditional scope]
            simp
          · intro level operators positive
            have within := (childrenIh outer reports).2 level operators positive
            simp only [traverse, enter_other tokens conditional scope, Option.bind_eq_bind,
              Option.bind_some, within, exit_other max conditional scope]
            rw [(siblingsIh outer _).2 level _ positive,
              reportsOf_other _ _ _ _ _ _ conditional scope]
            simp [operatorsOf, conditionals, conditional, scope]

end Traverse

/-! ## The operators -/

theorem operator?_of_conditional {type : NodeType} (conditional : isConditionalLike type = true) :
    ∃ operand operator, type.operator? = some (operand, operator) := by
  unfold isConditionalLike at conditional
  split at conditional
  · exact ⟨_, _, rfl⟩
  · exact ⟨_, _, rfl⟩
  · cases conditional

theorem getOperatorToken_eq {tokens : List Token} {node : Node} {operand : Range}
    {operator : String} (isOperator : node.type.operator? = some (operand, operator)) :
    getOperatorToken tokens node =
      getTokenAfter tokens (fun token => token.type == "Punctuator" && token.value == operator)
        operand := by
  obtain ⟨id, type, range⟩ := node
  cases type
  case ConditionalExpression test consequent =>
    cases isOperator
    rfl
  case LogicalExpression operator left =>
    cases isOperator
    rfl
  all_goals cases isOperator

theorem mem_conditionals {tree : Tree} {node : Node} (member : node ∈ conditionals tree) :
    node ∈ tree.nodes ∧ isConditionalLike node.type = true := by
  induction tree with
  | nil => cases member
  | cons root children siblings childrenIh siblingsIh =>
      rw [Forest.nodes, List.mem_cons, List.mem_append]
      obtain member | member := List.mem_append.mp member
      · split_ifs at member with conditional scope
        · obtain rfl | member := List.mem_cons.mp member
          · exact ⟨Or.inl rfl, conditional⟩
          · exact ⟨Or.inr (Or.inl (childrenIh member).1), (childrenIh member).2⟩
        · cases member
        · exact ⟨Or.inr (Or.inl (childrenIh member).1), (childrenIh member).2⟩
      · exact ⟨Or.inr (Or.inr (siblingsIh member).1), (siblingsIh member).2⟩

theorem mem_expressions {inside : Bool} {tree : Tree} {expression : Node × List Node}
    (member : expression ∈ expressions inside tree) {node : Node} (counted : node ∈ expression.2) :
    node ∈ tree.nodes ∧ isConditionalLike node.type = true := by
  induction tree generalizing inside with
  | nil => cases member
  | cons root children siblings childrenIh siblingsIh =>
      have below : node ∈ children.nodes ∧ isConditionalLike node.type = true →
          node ∈ (Forest.cons root children siblings).nodes ∧ isConditionalLike node.type = true :=
        fun found => ⟨by simp [Forest.nodes, found.1], found.2⟩
      obtain member | member := List.mem_append.mp member
      · split_ifs at member with conditional isInside scope
        · exact below (childrenIh (by simpa using member))
        · obtain member | member := List.mem_append.mp member
          · exact below (childrenIh member)
          · rw [List.mem_singleton.mp member] at counted
            obtain rfl | counted := List.mem_cons.mp counted
            · exact ⟨by simp [Forest.nodes], conditional⟩
            · exact below (mem_conditionals counted)
        · exact below (childrenIh member)
        · exact below (childrenIh member)
      · have := siblingsIh member
        exact ⟨by simp [Forest.nodes, this.1], this.2⟩

/-- The operators that are collected are those of the expressions. -/
theorem reports_report (file : SourceFile) {inside : Bool} {expression : Node × List Node}
    (member : expression ∈ expressions inside file.tree) :
    Reports file.tokens expression (report file.tokens expression) := by
  refine ⟨rfl, List.forall₂_map_right_iff.mpr (List.forall₂_same.mpr fun node counted => ?_)⟩
  obtain ⟨inTree, conditional⟩ := mem_expressions member counted
  obtain ⟨operand, operator, isOperator⟩ := operator?_of_conditional conditional
  obtain ⟨token, found, -⟩ := file.operators node inTree operand operator isOperator
  refine ⟨token, ?_, operand, operator, isOperator, found⟩
  rw [getOperatorToken_eq isOperator]
  exact found.getTokenAfter (operator?_ne_closing isOperator)

/-- The calls are those of the recursion, and the stack is as it was. -/
theorem traverse_reports (file : SourceFile) (max : ℤ) :
    ∃ reports, traverse file.tokens max file.tree initialState = some ⟨[.new], reports⟩ ∧
      List.Forall₂ (Reports file.tokens) (complexExpressions max false file.tree) reports := by
  refine ⟨reportsOf file.tokens max false file.tree, ?_, ?_⟩
  · exact (traverse_eq file.tokens max file.tree [] []).1
  · refine List.forall₂_map_right_iff.mpr (List.forall₂_same.mpr fun expression member => ?_)
    exact reports_report file (List.mem_filter.mp member).1

end SonarJS.ConditionalOperators
