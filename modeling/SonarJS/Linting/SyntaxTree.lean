import SonarJS.Foundation.Forest

/-!
# Syntax trees and their tokens

A source file as the complexity rules see it: a tree of nodes with the children in the order of the
visitor keys, and all tokens of the file. Tokens are found by searching in the list of tokens from
the range of a node on, and nothing keeps the search within the node.
-/

namespace SonarJS.SyntaxTree

abbrev Range := ℕ × ℕ

/-- Lines are numbered from 1 and columns from 0. -/
structure Position where
  line : ℕ
  column : ℕ
deriving DecidableEq

/-- The range from one position up to another one. -/
structure SourceLocation where
  start : Position
  stop : Position
deriving DecidableEq

def Position.Before (p q : Position) : Prop :=
  p.line < q.line ∨ p.line = q.line ∧ p.column < q.column

instance : DecidableRel Position.Before := fun _ _ => inferInstanceAs (Decidable (_ ∨ _))

structure Token where
  type : String
  value : String
  range : Range
deriving DecidableEq

inductive LogicalOperator
  | or
  | and
  | nullish
deriving DecidableEq

def LogicalOperator.text : LogicalOperator → String
  | .or => "||"
  | .and => "&&"
  | .nullish => "??"

/-- The types of nodes that matter, with the ranges of the operands that are looked at. -/
inductive NodeType
  | ConditionalExpression (test consequent : Range)
  | LogicalExpression (operator : LogicalOperator) (left : Range)
  | IfStatement
  | ForStatement
  | ForInStatement
  | ForOfStatement
  | WhileStatement
  | DoWhileStatement
  | SwitchCase (test : Option Range)
  | FunctionDeclaration (generator : Bool)
  | FunctionExpression
  | ArrowFunctionExpression
  | ObjectExpression
  | CallExpression
  | JSXElement
  | other
deriving DecidableEq

/-- A node without its children. -/
structure Node where
  id : ℕ
  type : NodeType
  range : Range
deriving DecidableEq

abbrev Tree := Forest Node

/-! ## Searching for tokens -/

section Search

variable (tokens : List Token) (filter : Token → Bool)

def getTokenAfter (range : Range) : Option Token :=
  tokens.find? fun token => range.2 ≤ token.range.1 && filter token

def getFirstToken (range : Range) : Option Token :=
  tokens.find? fun token => range.1 ≤ token.range.1 && token.range.2 ≤ range.2

def getFirstTokenBetween (left right : Range) : Option Token :=
  tokens.find? fun token =>
    left.2 ≤ token.range.1 && (token.range.2 ≤ right.1 && filter token)

end Search

/-! ## Operators -/

/-- The first operand of a conditional or logical expression, and its operator. -/
def NodeType.operator? : NodeType → Option (Range × String)
  | .ConditionalExpression test _ => some (test, "?")
  | .LogicalExpression operator left => some (left, operator.text)
  | _ => none

/-- The token is the operator behind an operand: there are only closing parentheses in between. -/
structure IsOperatorOf (tokens : List Token) (operand : Range) (operator : String)
    (token : Token) : Prop where
  place : ∃ before closings after, tokens = before ++ closings ++ token :: after ∧
    (∀ other ∈ before, other.range.1 < operand.2) ∧ ∀ other ∈ closings, other.value = ")"
  behind : operand.2 ≤ token.range.1
  type : token.type = "Punctuator"
  value : token.value = operator

/-- The operator token of a conditional or logical expression. -/
def OperatorToken (tokens : List Token) (node : Node) (token : Token) : Prop :=
  ∃ operand operator, node.type.operator? = some (operand, operator) ∧
    IsOperatorOf tokens operand operator token

/-- Statements and cases that begin with a keyword. -/
def NodeType.beginsWithKeyword : NodeType → Bool
  | .IfStatement | .ForStatement | .ForInStatement | .ForOfStatement | .WhileStatement
  | .DoWhileStatement | .SwitchCase _ => true
  | _ => false

/-- What parsers make of a text. Each conditional and each logical expression has its operator
behind its first operand, and the question mark is before the consequent. The keywords are in the
ranges of their nodes. -/
structure SourceFile where
  tokens : List Token
  tree : Tree
  distinct : (tree.nodes.map Node.id).Nodup
  operators : ∀ node ∈ tree.nodes, ∀ operand operator,
    node.type.operator? = some (operand, operator) →
      ∃ token, IsOperatorOf tokens operand operator token ∧
        ∀ test consequent, node.type = .ConditionalExpression test consequent →
          token.range.2 ≤ consequent.1
  keywords : ∀ node ∈ tree.nodes, node.type.beginsWithKeyword = true →
    ∃ token ∈ tokens, node.range.1 ≤ token.range.1 ∧ token.range.2 ≤ node.range.2

theorem operator?_ne_closing {type : NodeType} {operand : Range} {operator : String}
    (isOperator : type.operator? = some (operand, operator)) : operator ≠ ")" := by
  unfold NodeType.operator? at isOperator
  split at isOperator
  · cases isOperator
    decide
  · next logical _ =>
    cases isOperator
    cases logical <;> decide
  · cases isOperator

theorem IsOperatorOf.mem {tokens : List Token} {operand : Range} {operator : String}
    {token : Token} (isOperator : IsOperatorOf tokens operand operator token) :
    token ∈ tokens := by
  obtain ⟨before, closings, after, rfl, -⟩ := isOperator.place
  simp

/-- A search behind the operand finds the operator. -/
theorem IsOperatorOf.getTokenAfter {tokens : List Token} {operand : Range} {operator : String}
    {token : Token} (isOperator : IsOperatorOf tokens operand operator token)
    (notClosing : operator ≠ ")") :
    getTokenAfter tokens
        (fun token => token.type == "Punctuator" && token.value == operator) operand =
      some token := by
  obtain ⟨before, closings, after, rfl, earlier, closing⟩ := isOperator.place
  refine List.find?_eq_some_iff_append.mpr ⟨?_, before ++ closings, after, rfl, ?_⟩
  · simp [isOperator.behind, isOperator.type, isOperator.value]
  · intro other member
    obtain member | member := List.mem_append.mp member
    · have := earlier other member
      simp [this]
    · simp [closing other member, notClosing.symm]

theorem OperatorToken.unique {tokens : List Token} {node : Node} {token other : Token}
    (first : OperatorToken tokens node token) (second : OperatorToken tokens node other) :
    token = other := by
  obtain ⟨operand, operator, isOperator, found⟩ := first
  obtain ⟨_, _, same, found'⟩ := second
  cases isOperator.symm.trans same
  have notClosing := operator?_ne_closing isOperator
  exact Option.some.inj ((found.getTokenAfter notClosing).symm.trans
    (found'.getTokenAfter notClosing))

end SonarJS.SyntaxTree
