import Mathlib.Tactic.Common
import SonarJS.Linting.SyntaxTree

/-!
# The complexity of functions

`cyclomatic-complexity` goes through a function without its nested functions and collects a token
for the function and for each branch in it. The operators of logical expressions are found by
searching from the left operand on for `||` or `&&`. With `??` there is no such operator, and the
search goes on through the rest of the file.

Where the main token of a function is comes from another package and is a parameter.
-/

namespace SonarJS.CyclomaticComplexity

open SyntaxTree

/-! ## The visitor -/

def isFunctionNode : NodeType → Bool
  | .FunctionDeclaration _ | .FunctionExpression | .ArrowFunctionExpression => true
  | _ => false

section Visitor

variable (tokens : List Token) (getMainFunctionTokenLocation : Node → Range)

/-- The token for a node, by its location. -/
def complexityToken (node : Node) : Option Range :=
  if isFunctionNode node.type then some (getMainFunctionTokenLocation node)
  else
    match node.type with
    | .ConditionalExpression test consequent =>
      (getFirstTokenBetween tokens (fun token => token.value == "?") test consequent).map
        Token.range
    -- the default case is left out
    | .SwitchCase none => none
    | .SwitchCase (some _) | .IfStatement | .ForStatement | .ForInStatement | .ForOfStatement
    | .WhileStatement | .DoWhileStatement => (getFirstToken tokens node.range).map Token.range
    | .LogicalExpression _ left =>
      (getTokenAfter tokens
        (fun token => ["||", "&&"].contains token.value && token.type == "Punctuator") left).map
        Token.range
    | _ => none

/-- `visitNode`, for one node after another. -/
def visitNodes (root : Node) : Tree → List Range
  | .nil => []
  | .cons node children siblings =>
    (if isFunctionNode node.type ∧ node.id ≠ root.id then []
      else (complexityToken tokens getMainFunctionTokenLocation node).toList ++
        visitNodes root children) ++
      visitNodes root siblings

/-- The tokens of the function. -/
def visit (root : Node) (children : Tree) : List Range :=
  visitNodes tokens getMainFunctionTokenLocation root (.cons root children .nil)

end Visitor

/-! ## Branches of a function -/

/-- The node with these children is in the tree. -/
def HasSubtree (root : Node) (below : Tree) : Tree → Prop
  | .nil => False
  | .cons node children siblings =>
    (node = root ∧ children = below) ∨ HasSubtree root below children ∨
      HasSubtree root below siblings

/-- The nodes outside of nested functions. -/
def ownNodes : Tree → List Node
  | .nil => []
  | .cons node children siblings =>
    (if isFunctionNode node.type then [] else node :: ownNodes children) ++ ownNodes siblings

/-- If statements, loops, cases with a test, conditional expressions, and expressions with `&&` or
`||`. -/
def isBranch : NodeType → Bool
  | .IfStatement | .ForStatement | .ForInStatement | .ForOfStatement | .WhileStatement
  | .DoWhileStatement => true
  | .SwitchCase test => test.isSome
  | .ConditionalExpression _ _ => true
  | .LogicalExpression operator _ => operator ≠ .nullish
  | _ => false

/-- A `??` whose left operand has a `||` or `&&` behind it, anywhere in the file. -/
def FindsOther (tokens : List Token) (node : Node) : Prop :=
  ∃ left, node.type = .LogicalExpression .nullish left ∧
    ∃ token ∈ tokens, left.2 ≤ token.range.1 ∧ token.type = "Punctuator" ∧
      (token.value = "||" ∨ token.value = "&&")

/-! ## Tokens and branches -/

section Tokens

variable (file : SourceFile) (mainLocation : Node → Range)

variable {file mainLocation} {node : Node}

theorem isSome_conditional (member : node ∈ file.tree.nodes) {test consequent : Range}
    (type : node.type = .ConditionalExpression test consequent) :
    (getFirstTokenBetween file.tokens (fun token => token.value == "?") test consequent).isSome =
      true := by
  obtain ⟨token, isOperator, before⟩ := file.operators node member test "?" (by rw [type]; rfl)
  refine List.find?_isSome.mpr ⟨token, isOperator.mem, ?_⟩
  simp [isOperator.behind, before test consequent type, isOperator.value]

theorem isSome_keyword (member : node ∈ file.tree.nodes)
    (begins : node.type.beginsWithKeyword = true) :
    (getFirstToken file.tokens node.range).isSome = true := by
  obtain ⟨token, present, first, last⟩ := file.keywords node member begins
  exact List.find?_isSome.mpr ⟨token, present, by simp [first, last]⟩

theorem isSome_logical_iff (member : node ∈ file.tree.nodes) {operator : LogicalOperator}
    {left : Range} (type : node.type = .LogicalExpression operator left) :
    (getTokenAfter file.tokens
        (fun token => ["||", "&&"].contains token.value && token.type == "Punctuator")
        left).isSome = true ↔
      operator ≠ .nullish ∨ FindsOther file.tokens node := by
  rw [getTokenAfter, List.find?_isSome]
  simp only [FindsOther, type, NodeType.LogicalExpression.injEq]
  cases operator with
  | nullish =>
      simp only [ne_eq, not_true_eq_false, true_and, exists_eq_left', false_or]
      refine exists_congr fun token => and_congr_right fun _ => ?_
      simp [and_comm, and_assoc]
  | or =>
      obtain ⟨token, isOperator, -⟩ := file.operators node member left "||" (by rw [type]; rfl)
      refine iff_of_true ⟨token, isOperator.mem, ?_⟩ (Or.inl (by decide))
      simp [isOperator.behind, isOperator.type, isOperator.value]
  | and =>
      obtain ⟨token, isOperator, -⟩ := file.operators node member left "&&" (by rw [type]; rfl)
      refine iff_of_true ⟨token, isOperator.mem, ?_⟩ (Or.inl (by decide))
      simp [isOperator.behind, isOperator.type, isOperator.value]

/-- Nodes outside of functions have a token if they are branches, or if the search goes astray. -/
theorem isSome_complexityToken_iff (member : node ∈ file.tree.nodes)
    (notFunction : isFunctionNode node.type = false) :
    (complexityToken file.tokens mainLocation node).isSome = true ↔
      isBranch node.type = true ∨ FindsOther file.tokens node := by
  unfold complexityToken
  rw [notFunction]
  simp only [Bool.false_eq_true, if_false]
  split
  case h_1 test consequent type =>
    simp [isSome_conditional member type, isBranch, type]
  case h_2 type => simp [isBranch, type, FindsOther]
  case h_10 operator left type =>
    rw [Option.isSome_map, isSome_logical_iff member type]
    simp [isBranch, type]
  case h_11 notConditional noDefault noTest _ _ _ _ _ _ notLogical =>
    have notBranch : isBranch node.type = false := by
      unfold isBranch
      split
      case h_7 test type =>
        cases test with
        | none => rfl
        | some test => exact absurd type (noTest test)
      all_goals simp_all
    simp only [Option.isSome_none, Bool.false_eq_true, notBranch, false_or, false_iff]
    rintro ⟨left, type, -⟩
    exact notLogical _ left type
  all_goals
    rename_i type
    rw [Option.isSome_map]
    exact iff_of_true (isSome_keyword member (by rw [type]; rfl)) (Or.inl (by rw [type]; rfl))

end Tokens

/-! ## The function and its own nodes -/

section Function

variable {tokens : List Token} {mainLocation : Node → Range} {root : Node}

theorem HasSubtree.mem {below tree : Tree} (has : HasSubtree root below tree) :
    root ∈ tree.nodes ∧ ∀ node ∈ below.nodes, node ∈ tree.nodes := by
  induction tree with
  | nil => cases has
  | cons node children siblings childrenIh siblingsIh =>
      simp only [Forest.nodes, List.mem_cons, List.mem_append]
      obtain ⟨rfl, rfl⟩ | has | has := has
      · exact ⟨Or.inl rfl, fun other member => Or.inr (Or.inl member)⟩
      · exact ⟨Or.inr (Or.inl (childrenIh has).1),
          fun other member => Or.inr (Or.inl ((childrenIh has).2 other member))⟩
      · exact ⟨Or.inr (Or.inr (siblingsIh has).1),
          fun other member => Or.inr (Or.inr ((siblingsIh has).2 other member))⟩

/-- No node below another one is that node. -/
theorem HasSubtree.ne {below tree : Tree} (has : HasSubtree root below tree)
    (distinct : (tree.nodes.map Node.id).Nodup) : ∀ node ∈ below.nodes, node.id ≠ root.id := by
  induction tree with
  | nil => cases has
  | cons node children siblings childrenIh siblingsIh =>
      simp only [Forest.nodes, List.map_cons, List.map_append, List.nodup_cons, List.nodup_append,
        List.mem_append, List.mem_map] at distinct
      obtain ⟨fresh, inChildren, inSiblings, -⟩ := distinct
      obtain ⟨rfl, rfl⟩ | has | has := has
      · intro other member same
        exact fresh (Or.inl ⟨other, member, same⟩)
      · exact childrenIh has inChildren
      · exact siblingsIh has inSiblings

theorem mem_ownNodes {tree : Tree} {node : Node} (own : node ∈ ownNodes tree) :
    node ∈ tree.nodes ∧ isFunctionNode node.type = false := by
  induction tree with
  | nil => cases own
  | cons first children siblings childrenIh siblingsIh =>
      simp only [Forest.nodes, List.mem_cons, List.mem_append]
      obtain own | own := List.mem_append.mp own
      · split_ifs at own with function
        · cases own
        · obtain rfl | own := List.mem_cons.mp own
          · exact ⟨Or.inl rfl, by simpa using function⟩
          · exact ⟨Or.inr (Or.inl (childrenIh own).1), (childrenIh own).2⟩
      · exact ⟨Or.inr (Or.inr (siblingsIh own).1), (siblingsIh own).2⟩

/-- Below the function, each own node gives its token. -/
theorem visitNodes_eq {tree : Tree} (others : ∀ node ∈ tree.nodes, node.id ≠ root.id) :
    visitNodes tokens mainLocation root tree =
      (ownNodes tree).filterMap (complexityToken tokens mainLocation) := by
  induction tree with
  | nil => rfl
  | cons node children siblings childrenIh siblingsIh =>
      have here := others node (by simp [Forest.nodes])
      rw [visitNodes, ownNodes, childrenIh fun other member => others other (by
        simp [Forest.nodes, member]), siblingsIh fun other member => others other (by
        simp [Forest.nodes, member])]
      by_cases function : isFunctionNode node.type = true
      · simp [function, here]
      · simp only [function, Bool.false_eq_true, false_and, if_false, List.filterMap_append,
          List.filterMap_cons]
        cases complexityToken tokens mainLocation node with
        | none => simp
        | some token => simp

/-- The number of branches of the function. -/
def branches (children : Tree) : ℕ := (ownNodes children).countP fun node => isBranch node.type

theorem countP_eq_iff {α : Type} {p q : α → Bool} {l : List α}
    (implies : ∀ x ∈ l, q x = true → p x = true) :
    l.countP p = l.countP q ↔ ∀ x ∈ l, p x = true → q x = true := by
  have both : l.filter q = (l.filter p).filter q := by
    rw [List.filter_filter]
    refine List.filter_congr fun x member => ?_
    by_cases holds : q x = true
    · simp [holds, implies x member holds]
    · simp [holds]
  rw [List.countP_eq_length_filter, List.countP_eq_length_filter, both, eq_comm,
    List.length_filter_eq_length_iff]
  simp only [List.mem_filter, and_imp]

/-- Each branch is counted once, and nothing else, unless a search goes astray. -/
theorem length_visit_iff (file : SourceFile) {children : Tree}
    (has : HasSubtree root children file.tree) (function : isFunctionNode root.type = true) :
    (visit file.tokens mainLocation root children).length = 1 + branches children ↔
      ∀ node ∈ ownNodes children, ¬FindsOther file.tokens node := by
  have others := has.ne file.distinct
  have tokens : (visit file.tokens mainLocation root children).length =
      1 + (ownNodes children).countP fun node =>
        (complexityToken file.tokens mainLocation node).isSome := by
    rw [visit, visitNodes, visitNodes_eq others]
    simp [visitNodes, complexityToken, function, List.length_filterMap_eq_countP, Nat.add_comm]
  have isSome : ∀ node ∈ ownNodes children,
      ((complexityToken file.tokens mainLocation node).isSome = true ↔
        isBranch node.type = true ∨ FindsOther file.tokens node) := by
    intro node own
    obtain ⟨member, notFunction⟩ := mem_ownNodes own
    exact isSome_complexityToken_iff (has.mem.2 node member) notFunction
  rw [tokens, branches, Nat.add_left_cancel_iff, countP_eq_iff fun node own branch =>
    (isSome node own).mpr (Or.inl branch)]
  refine forall₂_congr fun node own => ?_
  rw [isSome node own]
  constructor
  · intro exactly finds
    have branch := exactly (Or.inr finds)
    obtain ⟨left, type, -⟩ := finds
    simp [isBranch, type] at branch
  · rintro notFinds (branch | finds)
    · exact branch
    · exact absurd finds notFinds

end Function

/-! ## A later statement -/

/-- The arrow function in `() => a ?? b; c || d`. -/
def arrow : Node := ⟨2, .ArrowFunctionExpression, (0, 12)⟩

def nullish : Node := ⟨3, .LogicalExpression .nullish (6, 7), (6, 12)⟩

def disjunction : Node := ⟨7, .LogicalExpression .or (14, 15), (14, 20)⟩

def operands (first second : Node) : Tree := .cons first .nil (.cons second .nil .nil)

def arrowBody : Tree :=
  .cons nullish (operands ⟨4, .other, (6, 7)⟩ ⟨5, .other, (11, 12)⟩) .nil

def arrowTokens : List Token :=
  [⟨"Punctuator", "(", (0, 1)⟩, ⟨"Punctuator", ")", (1, 2)⟩, ⟨"Punctuator", "=>", (3, 5)⟩,
    ⟨"Identifier", "a", (6, 7)⟩, ⟨"Punctuator", "??", (8, 10)⟩, ⟨"Identifier", "b", (11, 12)⟩,
    ⟨"Punctuator", ";", (12, 13)⟩, ⟨"Identifier", "c", (14, 15)⟩, ⟨"Punctuator", "||", (16, 18)⟩,
    ⟨"Identifier", "d", (19, 20)⟩]

def arrowTree : Tree :=
  .cons ⟨0, .other, (0, 20)⟩
    (.cons ⟨1, .other, (0, 13)⟩ (.cons arrow arrowBody .nil)
      (.cons ⟨6, .other, (14, 20)⟩
        (.cons disjunction (operands ⟨8, .other, (14, 15)⟩ ⟨9, .other, (19, 20)⟩) .nil) .nil))
    .nil

theorem arrowTree_operators : ∀ node ∈ arrowTree.nodes,
    node = nullish ∨ node = disjunction ∨ node.type.operator? = none := by
  decide

def laterDisjunction : SourceFile where
  tokens := arrowTokens
  tree := arrowTree
  distinct := by decide
  operators := by
    intro node member operand operator isOperator
    obtain rfl | rfl | noOperator := arrowTree_operators node member
    · cases isOperator
      exact ⟨⟨"Punctuator", "??", (8, 10)⟩,
        ⟨⟨arrowTokens.take 4, [], arrowTokens.drop 5, rfl, by decide, by decide⟩, by decide, rfl,
          rfl⟩, by simp [nullish]⟩
    · cases isOperator
      exact ⟨⟨"Punctuator", "||", (16, 18)⟩,
        ⟨⟨arrowTokens.take 8, [], arrowTokens.drop 9, rfl, by decide, by decide⟩, by decide, rfl,
          rfl⟩, by simp [disjunction]⟩
    · cases noOperator.symm.trans isOperator
  keywords := by decide

theorem laterDisjunction_arrow : HasSubtree arrow arrowBody laterDisjunction.tree :=
  Or.inr (Or.inl (Or.inr (Or.inl (Or.inl ⟨rfl, rfl⟩))))

/-- The complexity of the function depends on the `??` only. -/
theorem length_visit_arrow :
    (visit laterDisjunction.tokens Node.range arrow arrowBody).length = 1 + branches arrowBody ↔
      ∀ node ∈ ownNodes arrowBody, ¬FindsOther laterDisjunction.tokens node :=
  length_visit_iff laterDisjunction laterDisjunction_arrow rfl

/-- There is no branch in the function, but the `||` behind it is counted. -/
theorem not_length_visit_later :
    ¬∀ (file : SourceFile) (mainLocation : Node → Range) (root : Node) (children : Tree),
      HasSubtree root children file.tree → isFunctionNode root.type = true →
        (visit file.tokens mainLocation root children).length = 1 + branches children := by
  intro claim
  have := claim laterDisjunction Node.range arrow arrowBody laterDisjunction_arrow rfl
  revert this
  decide

end SonarJS.CyclomaticComplexity
