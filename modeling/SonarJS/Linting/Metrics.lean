import SonarJS.Linting.LinesOfCode
import SonarJS.Linting.Visitor

/-!
# Metrics of a file

The nodes of some types are counted, and the lines of others, of comments and of tokens are
collected. All of this is done for main files only: for test files and in SonarLint, the lines of
`NOSONAR` comments are all that is needed.
-/

namespace SonarJS.FileMetrics

open Embedded (NodeId NodeData Heap SourceLocation Text CodeUnit childrenOf eslintBreaks)
open LinesOfCode (addLines)

/-! ## Files -/

/-- A comment with the text between its delimiters. -/
structure Comment where
  value : Text
  range : ℕ × ℕ
  loc : Option SourceLocation

/-- A file: the syntax tree, the ranges of the tokens, the comments, and the text with the tokens of
a template for the lines of code. -/
structure SourceCode where
  ast : Embedded.SourceCode
  tokens : List (ℕ × ℕ)
  comments : List Comment
  lines : LinesOfCode.SourceCode CodeUnit

structure Metrics where
  ncloc : List ℕ
  commentLines : List ℕ
  nosonarLines : List ℕ
  executableLines : List ℕ
  functions : ℕ
  statements : ℕ
  classes : ℕ
  complexity : ℕ
  cognitiveComplexity : ℕ
deriving DecidableEq

/-- What is known of characters: which are white space, and what texts are in upper case. -/
structure Characters where
  isSpace : CodeUnit → Bool
  toUpperCase : Text → Text

/-! ## Counting nodes -/

section Nodes

variable (fuel : ℕ) (sourceCode : SourceCode)

/-- A callback that only looks at nodes. -/
def observe {τ : Type} (callback : NodeData → τ → τ) (node : NodeId) (state : Heap × τ) :
    Heap × τ :=
  (state.1, callback (state.1 node) state.2)

/-- `visit`, for at most so many nodes. -/
def visit {τ : Type} (callback : NodeData → τ → τ) (state : τ) : Option τ :=
  (Visitor.visit fuel sourceCode.ast (observe callback) state).map Prod.snd

def visitAndCountIf (predicate : NodeData → Bool) : Option ℕ :=
  visit fuel sourceCode (fun node results => if predicate node then results + 1 else results) 0

def STATEMENT_NODES : List String :=
  ["VariableDeclaration", "EmptyStatement", "ExpressionStatement", "IfStatement",
    "DoWhileStatement", "WhileStatement", "ForInStatement", "ForOfStatement", "ForStatement",
    "ContinueStatement", "BreakStatement", "ReturnStatement", "WithStatement", "SwitchStatement",
    "ThrowStatement", "TryStatement", "DebuggerStatement"]

def countStatements : Option ℕ :=
  visitAndCountIf fuel sourceCode fun node => STATEMENT_NODES.contains node.type

def FUNCTION_NODES : List String :=
  ["FunctionDeclaration", "FunctionExpression", "ArrowFunctionExpression"]

def countFunctions : Option ℕ :=
  visitAndCountIf fuel sourceCode fun node => FUNCTION_NODES.contains node.type

def CLASS_NODES : List String := ["ClassDeclaration", "ClassExpression"]

def countClasses : Option ℕ :=
  visitAndCountIf fuel sourceCode fun node => CLASS_NODES.contains node.type

def LOOP_NODES : List String :=
  ["ForStatement", "ForInStatement", "ForOfStatement", "WhileStatement", "DoWhileStatement"]

def CONDITIONAL_NODES : List String := ["IfStatement", "ConditionalExpression", "SwitchCase"]

def COMPLEXITY_NODES : List String :=
  CONDITIONAL_NODES ++ FUNCTION_NODES ++ LOOP_NODES ++ ["LogicalExpression"]

def computeCyclomaticComplexity : Option ℕ :=
  visit fuel sourceCode
    (fun node complexity =>
      if COMPLEXITY_NODES.contains node.type then complexity + 1 else complexity) 0

def EXECUTABLE_NODES : List String :=
  ["ExpressionStatement", "IfStatement", "LabeledStatement", "BreakStatement",
    "ContinueStatement", "WithStatement", "SwitchStatement", "ReturnStatement", "ThrowStatement",
    "TryStatement", "WhileStatement", "DoWhileStatement", "ForStatement", "ForInStatement",
    "DebuggerStatement", "VariableDeclaration", "ForOfStatement"]

/-- The lines of a set in ascending order. -/
def sortedLines (lines : OrderedSet ℕ) : List ℕ := lines.elems.mergeSort

def addExecutableLine (node : NodeData) (lines : OrderedSet ℕ) : OrderedSet ℕ :=
  match node.loc with
  | some loc => if EXECUTABLE_NODES.contains node.type then lines.add loc.start.line else lines
  | none => lines

def findExecutableLines : Option (List ℕ) :=
  (visit fuel sourceCode addExecutableLine OrderedSet.empty).map sortedLines

end Nodes

/-! ## Lines of comments -/

section Comments

variable (characters : Characters) (sourceCode : SourceCode)

def trim (text : Text) : Text :=
  ((text.dropWhile characters.isSpace).reverse.dropWhile characters.isSpace).reverse

/-- The code unit of an ASCII character. -/
def unit (c : Char) : CodeUnit := UInt16.ofNat c.toNat

def NOSONAR : Text := "NOSONAR".toList.map unit

def commentValue (comment : Comment) : Text :=
  if comment.value.head? = some (unit '*') then trim characters comment.value.tail
  else trim characters comment.value

def isNoSonar (comment : Comment) : Bool :=
  NOSONAR.isPrefixOf (characters.toUpperCase (commentValue characters comment))

/-- The first token in the range of the program. -/
def getFirstToken : Option (ℕ × ℕ) :=
  match (sourceCode.ast.heap sourceCode.ast.ast).range with
  | some range => sourceCode.tokens.find? fun token => range.1 ≤ token.1 && token.2 ≤ range.2
  | none => none

/-- The comments before a token and behind the token before it. -/
def getCommentsBefore (token : ℕ × ℕ) : List Comment :=
  sourceCode.comments.filter fun comment => comment.range.2 ≤ token.1 &&
    sourceCode.tokens.all fun other => !(comment.range.2 ≤ other.1 && other.2 ≤ token.1)

/-- The lines of other comments and those of `NOSONAR` comments. -/
structure CommentLines where
  commentLines : OrderedSet ℕ
  nosonarLines : OrderedSet ℕ

def addComment (lines : CommentLines) (comment : Comment) : CommentLines :=
  match comment.loc with
  | none => lines
  | some loc =>
    if isNoSonar characters comment then
      { lines with nosonarLines := addLines loc.start.line loc.stop.line lines.nosonarLines }
    else if 0 < (commentValue characters comment).length then
      { lines with commentLines := addLines loc.start.line loc.stop.line lines.commentLines }
    else lines

def consideredComments (ignoreHeaderComments : Bool) : List Comment :=
  match getFirstToken sourceCode with
  | some firstToken =>
    if ignoreHeaderComments then
      sourceCode.comments.drop (getCommentsBefore sourceCode firstToken).length
    else sourceCode.comments
  | none => sourceCode.comments

def collectComments (ignoreHeaderComments : Bool) : CommentLines :=
  (consideredComments sourceCode ignoreHeaderComments).foldl (addComment characters)
    ⟨OrderedSet.empty, OrderedSet.empty⟩

/-- The lines of comments, then those of `NOSONAR` comments. -/
def findCommentLines (ignoreHeaderComments : Bool) : List ℕ × List ℕ :=
  let lines := collectComments characters sourceCode ignoreHeaderComments
  (sortedLines lines.commentLines, sortedLines lines.nosonarLines)

def findNoSonarLines : List ℕ := (findCommentLines characters sourceCode false).2

end Comments

/-! ## All metrics -/

section Compute

variable (characters : Characters) (fuel : ℕ) (sourceCode : SourceCode)

def computeMetrics (ignoreHeaderComments : Bool) (cognitiveComplexity : ℕ) : Option Metrics := do
  let (commentLines, nosonarLines) :=
    findCommentLines characters sourceCode ignoreHeaderComments
  let executableLines ← findExecutableLines fuel sourceCode
  let functions ← countFunctions fuel sourceCode
  let statements ← countStatements fuel sourceCode
  let classes ← countClasses fuel sourceCode
  let complexity ← computeCyclomaticComplexity fuel sourceCode
  return {
    ncloc := LinesOfCode.findNcloc eslintBreaks sourceCode.lines
    commentLines := commentLines
    nosonarLines := nosonarLines
    executableLines := executableLines
    functions := functions
    statements := statements
    classes := classes
    complexity := complexity
    cognitiveComplexity := cognitiveComplexity }

inductive FileType
  | main
  | test
deriving DecidableEq

/-- The metrics of an analysis: all of them, or the lines of `NOSONAR` comments. -/
inductive AnalysisMetrics
  | all (metrics : Metrics)
  | nosonarLines (lines : List ℕ)
deriving DecidableEq

def computeExtendedMetrics (sonarlint : Bool) (fileType : FileType)
    (ignoreHeaderComments : Option Bool) (cognitiveComplexity : Option ℕ) :
    Option AnalysisMetrics :=
  if sonarlint then some (.nosonarLines (findNoSonarLines characters sourceCode))
  else
    match fileType with
    | .main =>
      (computeMetrics characters fuel sourceCode (ignoreHeaderComments.getD false)
        (cognitiveComplexity.getD 0)).map AnalysisMetrics.all
    | .test => some (.nosonarLines (findNoSonarLines characters sourceCode))

def AnalysisMetrics.nosonar : AnalysisMetrics → List ℕ
  | all metrics => metrics.nosonarLines
  | nosonarLines lines => lines

end Compute

/-! ## The visited nodes -/

section Visits

/-- The syntax tree of a file, with each node once. -/
structure IsTree (ast : Embedded.SourceCode) (tree : Forest NodeId) : Prop where
  root : tree.roots = [ast.ast]
  represents : tree.Represents (childrenOf ast.visitorKeys ast.heap)
  distinct : tree.nodes.Nodup

variable {sourceCode : SourceCode} {tree : Forest NodeId} {fuel : ℕ} {τ : Type}

theorem foldl_observe (callback : NodeData → τ → τ) (nodes : List NodeId) (heap : Heap)
    (state : τ) :
    nodes.foldl (fun state node => observe callback node state) (heap, state) =
      (heap, nodes.foldl (fun state node => callback (heap node) state) state) := by
  induction nodes generalizing state with
  | nil => rfl
  | cons node nodes ih => exact ih (callback (heap node) state)

/-- A visit calls the callback for the nodes of the tree. -/
theorem visit_eq (isTree : IsTree sourceCode.ast tree) (enough : tree.nodes.length ≤ fuel)
    (callback : NodeData → τ → τ) (state : τ) :
    visit fuel sourceCode callback state =
      some (tree.nodes.foldl
        (fun state node => callback (sourceCode.ast.heap node) state) state) := by
  have relocates : Visitor.Relocates (observe callback) := fun _ _ _ => ⟨rfl, rfl⟩
  obtain ⟨calls, preorder, -, -, visits⟩ := Visitor.visit_preorder sourceCode.ast tree isTree.root
    isTree.represents isTree.distinct (observe callback) relocates state
  have inTree := Visitor.preorder_of_represents isTree.represents
  rw [isTree.root] at inTree
  obtain rfl := preorder.unique inTree
  rw [visit, visits fuel enough, foldl_observe]
  rfl

theorem foldl_count (predicate : NodeId → Bool) (nodes : List NodeId) (results : ℕ) :
    nodes.foldl (fun results node => if predicate node then results + 1 else results) results =
      results + nodes.countP predicate := by
  induction nodes generalizing results with
  | nil => rfl
  | cons node nodes ih =>
      rw [List.foldl_cons, ih, List.countP_cons]
      split
      · omega
      · omega

theorem visitAndCountIf_eq (isTree : IsTree sourceCode.ast tree)
    (enough : tree.nodes.length ≤ fuel) (predicate : NodeData → Bool) :
    visitAndCountIf fuel sourceCode predicate =
      some (tree.nodes.countP fun node => predicate (sourceCode.ast.heap node)) := by
  rw [visitAndCountIf, visit_eq isTree enough,
    foldl_count fun node => predicate (sourceCode.ast.heap node), Nat.zero_add]

theorem mem_addExecutableLine {node : NodeData} {lines : OrderedSet ℕ} {n : ℕ} :
    n ∈ addExecutableLine node lines ↔ n ∈ lines ∨
      node.type ∈ EXECUTABLE_NODES ∧ ∃ loc, node.loc = some loc ∧ loc.start.line = n := by
  unfold addExecutableLine
  cases node.loc with
  | none => simp
  | some loc =>
      simp only [List.contains_iff_mem, Option.some.injEq, exists_eq_left']
      split
      next executable => simp [executable, eq_comm]
      next other => simp [other]

theorem mem_foldl_addExecutableLine {nodes : List NodeId} {heap : Heap} {lines : OrderedSet ℕ}
    {n : ℕ} :
    n ∈ nodes.foldl (fun lines node => addExecutableLine (heap node) lines) lines ↔ n ∈ lines ∨
      ∃ node ∈ nodes, (heap node).type ∈ EXECUTABLE_NODES ∧
        ∃ loc, (heap node).loc = some loc ∧ loc.start.line = n := by
  induction nodes generalizing lines with
  | nil => simp
  | cons node nodes ih =>
      rw [List.foldl_cons, ih, mem_addExecutableLine, List.exists_mem_cons_iff, or_assoc]

end Visits

/-! ## The lines that are collected -/

section Lines

variable {characters : Characters} {sourceCode : SourceCode} {n : ℕ}

theorem mem_sortedLines {lines : OrderedSet ℕ} : n ∈ sortedLines lines ↔ n ∈ lines :=
  List.mem_mergeSort

/-- The lines are in ascending order, each of them once. -/
theorem pairwise_sortedLines (lines : OrderedSet ℕ) :
    (sortedLines lines).Pairwise (· < ·) := by
  have sorted := @List.pairwise_mergeSort _ (fun a b : ℕ => decide (a ≤ b))
    (fun a b c => by simp only [decide_eq_true_eq]; omega)
    (fun a b => by simp only [Bool.or_eq_true, decide_eq_true_eq]; omega) lines.elems
  have nodup := (List.mergeSort_perm lines.elems (fun a b : ℕ => decide (a ≤ b))).nodup_iff.mpr
    lines.nodup
  refine (sorted.and nodup).imp fun both => ?_
  exact lt_of_le_of_ne (of_decide_eq_true both.1) both.2

/-- The comment goes over the line. -/
def Comment.Covers (comment : Comment) (n : ℕ) : Prop :=
  ∃ loc, comment.loc = some loc ∧ loc.start.line ≤ n ∧ n ≤ loc.stop.line

/-- A comment that says something else than `NOSONAR`. -/
def IsOther (characters : Characters) (comment : Comment) : Prop :=
  isNoSonar characters comment = false ∧ commentValue characters comment ≠ []

theorem mem_addComment {lines : CommentLines} {comment : Comment} :
    (n ∈ (addComment characters lines comment).commentLines ↔
      n ∈ lines.commentLines ∨ IsOther characters comment ∧ comment.Covers n) ∧
    (n ∈ (addComment characters lines comment).nosonarLines ↔
      n ∈ lines.nosonarLines ∨ isNoSonar characters comment = true ∧ comment.Covers n) := by
  unfold addComment Comment.Covers IsOther
  cases comment.loc with
  | none => simp
  | some loc =>
      simp only [Option.some.injEq, exists_eq_left', List.length_pos_iff]
      split_ifs with noSonar some
      · simp [noSonar, LinesOfCode.mem_addLines]
      · simp [noSonar, some, LinesOfCode.mem_addLines]
      · simp [noSonar, some]

theorem mem_foldl_addComment {comments : List Comment} {lines : CommentLines} :
    (n ∈ (comments.foldl (addComment characters) lines).commentLines ↔
      n ∈ lines.commentLines ∨ ∃ comment ∈ comments,
        IsOther characters comment ∧ comment.Covers n) ∧
    (n ∈ (comments.foldl (addComment characters) lines).nosonarLines ↔
      n ∈ lines.nosonarLines ∨ ∃ comment ∈ comments,
        isNoSonar characters comment = true ∧ comment.Covers n) := by
  induction comments generalizing lines with
  | nil => simp
  | cons comment comments ih =>
      rw [List.foldl_cons, ih.1, ih.2, mem_addComment.1, mem_addComment.2,
        List.exists_mem_cons_iff, List.exists_mem_cons_iff, or_assoc, or_assoc]
      exact ⟨Iff.rfl, Iff.rfl⟩

/-- The comment stands before all tokens. -/
def IsHeader (sourceCode : SourceCode) (comment : Comment) : Prop :=
  sourceCode.tokens ≠ [] ∧ ∀ token ∈ sourceCode.tokens, comment.range.2 ≤ token.1

/-- Tokens and comments come one after another, and the program has the range of its tokens. -/
structure IsOrdered (sourceCode : SourceCode) : Prop where
  tokens : sourceCode.tokens.Pairwise fun first second => first.1 < second.1
  nonempty : ∀ token ∈ sourceCode.tokens, token.1 < token.2
  comments : sourceCode.comments.Pairwise fun first second => first.range.2 ≤ second.range.2
  program : ∃ range, (sourceCode.ast.heap sourceCode.ast.ast).range = some range ∧
    ∀ token ∈ sourceCode.tokens, range.1 ≤ token.1 ∧ token.2 ≤ range.2

theorem getFirstToken_eq (ordered : IsOrdered sourceCode) :
    getFirstToken sourceCode = sourceCode.tokens.head? := by
  obtain ⟨range, isRange, inside⟩ := ordered.program
  rw [getFirstToken, isRange]
  cases isTokens : sourceCode.tokens with
  | nil => rfl
  | cons token tokens =>
      obtain ⟨first, last⟩ := inside token (by simp [isTokens])
      simp [first, last]

/-- The comments that end early are those at the beginning. -/
theorem drop_length_filter {comments : List Comment} {limit : ℕ}
    (pairwise : comments.Pairwise fun first second => first.range.2 ≤ second.range.2) :
    comments.drop (comments.filter fun comment => comment.range.2 ≤ limit).length =
      comments.filter fun comment => !decide (comment.range.2 ≤ limit) := by
  induction comments with
  | nil => rfl
  | cons comment comments ih =>
      obtain ⟨before, pairwise⟩ := List.pairwise_cons.mp pairwise
      by_cases small : comment.range.2 ≤ limit
      · simpa [small] using ih pairwise
      · have none : ∀ other ∈ comments, ¬other.range.2 ≤ limit := by
          intro other member
          have := before other member
          omega
        have empty : comments.filter (fun other => decide (other.range.2 ≤ limit)) = [] := by
          simpa using none
        have all : comments.filter (fun other => !decide (other.range.2 ≤ limit)) = comments := by
          simpa using none
        simp [small, empty, all]

/-- The comments that are considered are all or those behind the header. -/
theorem mem_consideredComments (ordered : IsOrdered sourceCode) {ignoreHeaderComments : Bool}
    {comment : Comment} :
    comment ∈ consideredComments sourceCode ignoreHeaderComments ↔
      comment ∈ sourceCode.comments ∧
        ¬(ignoreHeaderComments = true ∧ IsHeader sourceCode comment) := by
  rw [consideredComments, getFirstToken_eq ordered]
  cases isTokens : sourceCode.tokens with
  | nil => simp [IsHeader, isTokens]
  | cons token tokens =>
      have later : ∀ other ∈ tokens, token.1 < other.1 := by
        have pairwise := ordered.tokens
        rw [isTokens] at pairwise
        exact (List.pairwise_cons.mp pairwise).1
      have header : getCommentsBefore sourceCode token =
          sourceCode.comments.filter fun comment => comment.range.2 ≤ token.1 := by
        refine List.filter_congr fun comment _ => ?_
        have noneBetween : sourceCode.tokens.all (fun other =>
            !(decide (comment.range.2 ≤ other.1) && decide (other.2 ≤ token.1))) = true := by
          refine List.all_eq_true.mpr fun other member => ?_
          have wide := ordered.nonempty other member
          rw [isTokens] at member
          have behind : token.1 ≤ other.1 := by
            obtain rfl | member := List.mem_cons.mp member
            · exact le_rfl
            · exact (later other member).le
          simp only [Bool.not_eq_true', Bool.and_eq_false_iff, decide_eq_false_iff_not]
          right
          omega
        rw [noneBetween, Bool.and_true]
      have isHeader : IsHeader sourceCode comment ↔ comment.range.2 ≤ token.1 := by
        rw [IsHeader, isTokens]
        constructor
        · rintro ⟨-, before⟩
          exact before token List.mem_cons_self
        · intro before
          refine ⟨List.cons_ne_nil _ _, fun other member => ?_⟩
          obtain rfl | member := List.mem_cons.mp member
          · exact before
          · exact before.trans (later other member).le
      rw [List.head?_cons]
      simp only [isHeader]
      cases ignoreHeaderComments with
      | false => simp
      | true =>
          rw [if_pos rfl, header, drop_length_filter ordered.comments]
          simp

end Lines

/-! ## What the metrics are -/

/-- The lines are in ascending order, and they are those with a property. -/
def AreLines (lines : List ℕ) (P : ℕ → Prop) : Prop :=
  lines.Pairwise (· < ·) ∧ ∀ n, n ∈ lines ↔ P n

/-- The number of nodes of some types. -/
def numberOf (heap : Heap) (tree : Forest NodeId) (types : List String) : ℕ :=
  tree.nodes.countP fun node => (heap node).type ∈ types

/-- A comment that counts although headers may be ignored. -/
def Counts (sourceCode : SourceCode) (ignoreHeaderComments : Bool) (comment : Comment) : Prop :=
  comment ∈ sourceCode.comments ∧ ¬(ignoreHeaderComments = true ∧ IsHeader sourceCode comment)

structure IsMetrics (characters : Characters) (sourceCode : SourceCode) (tree : Forest NodeId)
    (ignoreHeaderComments : Bool) (metrics : Metrics) : Prop where
  ncloc : AreLines metrics.ncloc fun n => ∃ token ∈ LinesOfCode.allTokens sourceCode.lines,
    LinesOfCode.Spans eslintBreaks sourceCode.lines token n
  commentLines : AreLines metrics.commentLines fun n => ∃ comment,
    Counts sourceCode ignoreHeaderComments comment ∧ IsOther characters comment ∧ comment.Covers n
  executableLines : AreLines metrics.executableLines fun n => ∃ node ∈ tree.nodes,
    (sourceCode.ast.heap node).type ∈ EXECUTABLE_NODES ∧
      ∃ loc, (sourceCode.ast.heap node).loc = some loc ∧ loc.start.line = n
  functions : metrics.functions = numberOf sourceCode.ast.heap tree FUNCTION_NODES
  statements : metrics.statements = numberOf sourceCode.ast.heap tree STATEMENT_NODES
  classes : metrics.classes = numberOf sourceCode.ast.heap tree CLASS_NODES
  complexity : metrics.complexity = numberOf sourceCode.ast.heap tree COMPLEXITY_NODES

section Result

variable (characters : Characters) {sourceCode : SourceCode} {tree : Forest NodeId} {fuel : ℕ}

theorem areLines_commentLines (ordered : IsOrdered sourceCode) (ignoreHeaderComments : Bool) :
    AreLines (findCommentLines characters sourceCode ignoreHeaderComments).1 fun n =>
      ∃ comment, Counts sourceCode ignoreHeaderComments comment ∧
        IsOther characters comment ∧ comment.Covers n := by
  refine ⟨pairwise_sortedLines _, fun n => ?_⟩
  rw [findCommentLines, mem_sortedLines, collectComments, mem_foldl_addComment.1]
  simp only [OrderedSet.not_mem_empty, false_or, mem_consideredComments ordered, Counts]

theorem areLines_nosonarLines (ordered : IsOrdered sourceCode) (ignoreHeaderComments : Bool) :
    AreLines (findCommentLines characters sourceCode ignoreHeaderComments).2 fun n =>
      ∃ comment, Counts sourceCode ignoreHeaderComments comment ∧
        isNoSonar characters comment = true ∧ comment.Covers n := by
  refine ⟨pairwise_sortedLines _, fun n => ?_⟩
  rw [findCommentLines, mem_sortedLines, collectComments, mem_foldl_addComment.2]
  simp only [OrderedSet.not_mem_empty, false_or, mem_consideredComments ordered, Counts]

theorem count_contains (isTree : IsTree sourceCode.ast tree) (enough : tree.nodes.length ≤ fuel)
    (types : List String) :
    visitAndCountIf fuel sourceCode (fun node => types.contains node.type) =
      some (numberOf sourceCode.ast.heap tree types) := by
  rw [visitAndCountIf_eq isTree enough]
  simp [numberOf]

/-- The metrics of a main file are computed, and they are what they say. -/
theorem computeMetrics_eq (isTree : IsTree sourceCode.ast tree) (ordered : IsOrdered sourceCode)
    (enough : tree.nodes.length ≤ fuel) (ignoreHeaderComments : Bool) (cognitiveComplexity : ℕ) :
    ∃ metrics, computeMetrics characters fuel sourceCode ignoreHeaderComments
        cognitiveComplexity = some metrics ∧
      IsMetrics characters sourceCode tree ignoreHeaderComments metrics ∧
      metrics.nosonarLines = (findCommentLines characters sourceCode ignoreHeaderComments).2 ∧
      metrics.cognitiveComplexity = cognitiveComplexity := by
  have executable := visit_eq isTree enough addExecutableLine OrderedSet.empty
  have complexity : computeCyclomaticComplexity fuel sourceCode =
      some (numberOf sourceCode.ast.heap tree COMPLEXITY_NODES) :=
    count_contains isTree enough COMPLEXITY_NODES
  rw [computeMetrics, findExecutableLines, executable, countFunctions, countStatements,
    countClasses, count_contains isTree enough, count_contains isTree enough,
    count_contains isTree enough, complexity]
  refine ⟨_, rfl, ⟨?_, ?_, ?_, rfl, rfl, rfl, rfl⟩, rfl, rfl⟩
  · exact ⟨LinesOfCode.findNcloc_pairwise eslintBreaks sourceCode.lines,
      fun n => LinesOfCode.mem_findNcloc eslintBreaks sourceCode.lines⟩
  · exact areLines_commentLines characters ordered ignoreHeaderComments
  · refine ⟨pairwise_sortedLines _, fun n => ?_⟩
    rw [mem_sortedLines, mem_foldl_addExecutableLine]
    simp

/-- The file `/*nosonar*/x;`, with the text of the comment. -/
def withHeader : SourceCode where
  ast :=
    { text := "/*nosonar*/x;".toList.map unit
      lineStartIndices := [0]
      heap := fun node =>
        match node with
        | 0 => ⟨"Program", [("body", .array [some 1])], some (11, 13), some ⟨⟨1, 11⟩, ⟨1, 13⟩⟩⟩
        | 1 => ⟨"ExpressionStatement", [("expression", .node (some 2))], some (11, 13),
            some ⟨⟨1, 11⟩, ⟨1, 13⟩⟩⟩
        | _ => ⟨"Identifier", [], some (11, 12), some ⟨⟨1, 11⟩, ⟨1, 12⟩⟩⟩
      ast := 0
      comments := []
      tokens := []
      visitorKeys := fun type =>
        if type = "Program" then some ["body"]
        else if type = "ExpressionStatement" then some ["expression"]
        else none }
  tokens := [(11, 12), (12, 13)]
  comments := [⟨"nosonar".toList.map unit, (0, 11), some ⟨⟨1, 0⟩, ⟨1, 11⟩⟩⟩]
  lines :=
    { text := "/*nosonar*/x;".toList.map unit
      comments := [(0, 11)]
      tokens := [⟨.other, "x", (11, 12)⟩, ⟨.other, ";", (12, 13)⟩]
      templateBody := none }

def treeOfStatement : Forest NodeId := .cons 0 (.cons 1 (.cons 2 .nil .nil) .nil) .nil

/-- Lower-case ASCII letters have an upper-case form. -/
def asciiCharacters : Characters where
  isSpace c := c = 0x20
  toUpperCase text := text.map fun c => if 0x61 ≤ c ∧ c ≤ 0x7A then c - 0x20 else c

end Result

end SonarJS.FileMetrics
