import Mathlib.Data.List.Basic
import Mathlib.Tactic.Common

/-!
# Redundant parentheses

A syntax tree does not tell how many parentheses are around an expression: this is read off
the tokens. `no-redundant-parentheses` pairs the tokens before and after a node, as long as
they are parentheses. The innermost pair is tolerated, and the outermost one can belong to the
parent, as in a call or in the head of a loop. All others can be removed with a quick fix.

Here a tree has its tokens, and for each child the number of its grouping parentheses. The
parentheses of a call, of a function or of a statement are tokens of the node itself.
-/

namespace SonarJS.RedundantParentheses

/-- The types of nodes that matter. -/
inductive NodeType
  | DoWhileStatement
  | IfStatement
  | SwitchStatement
  | WhileStatement
  | WithStatement
  | ArrowFunctionExpression
  | ImportExpression
  | CallExpression
  | NewExpression
  | other
deriving DecidableEq

abbrev Token := String

/-- The parts of a node: its tokens and its children, each of them with its attribute and its
grouping parentheses. -/
inductive Parts
  | nil
  | token (value : Token) (rest : Parts)
  | child (parentAttribute : String) (parentheses : ℕ) (type : NodeType) (parts rest : Parts)
deriving DecidableEq

structure Node where
  type : NodeType
  parts : Parts
deriving DecidableEq

namespace Parts

def tokens : Parts → List Token
  | nil => []
  | token value rest => value :: rest.tokens
  | child _ parentheses _ parts rest =>
    List.replicate parentheses "(" ++ parts.tokens ++ List.replicate parentheses ")" ++ rest.tokens

def append : Parts → Parts → Parts
  | nil, others => others
  | token value rest, others => token value (rest.append others)
  | child parentAttribute parentheses type parts rest, others =>
    child parentAttribute parentheses type parts (rest.append others)

/-- The syntax tree, for which grouping does not matter. -/
def ungrouped : Parts → Parts
  | nil => nil
  | token value rest => token value rest.ungrouped
  | child parentAttribute _ type parts rest =>
    child parentAttribute 0 type parts.ungrouped rest.ungrouped

end Parts

/-- The surroundings of a node in its parent. -/
structure Frame where
  type : NodeType
  before : Parts
  parentAttribute : String
  parentheses : ℕ
  after : Parts

/-- What is around a node, its parent first. -/
abbrev Surroundings := List Frame

def Frame.parent (frame : Frame) (node : Node) : Node where
  type := frame.type
  parts := frame.before.append
    (.child frame.parentAttribute frame.parentheses node.type node.parts frame.after)

/-- The whole program. -/
def program : Surroundings → Node → Node
  | [], node => node
  | frame :: outer, node => program outer (frame.parent node)

def tokensBefore : Surroundings → List Token
  | [] => []
  | frame :: outer =>
    tokensBefore outer ++ (frame.before.tokens ++ List.replicate frame.parentheses "(")

def tokensAfter : Surroundings → List Token
  | [] => []
  | frame :: outer =>
    List.replicate frame.parentheses ")" ++ frame.after.tokens ++ tokensAfter outer

/-! ## The rule -/

/-- The indices of two tokens. -/
structure ParenthesesPair where
  openingParenthesis : ℕ
  closingParenthesis : ℕ
deriving DecidableEq

/-- The parts of the grammar that are required to have parentheses. -/
def parenthesized : NodeType → Option String
  | .DoWhileStatement => some "test"
  | .IfStatement => some "test"
  | .SwitchStatement => some "discriminant"
  | .WhileStatement => some "test"
  | .WithStatement => some "object"
  | .ArrowFunctionExpression => some "body"
  | .ImportExpression => some "source"
  | _ => none

/-- The pairs around the tokens from `start` up to `stop`. -/
def getParenthesesPairsAround (tokens : List Token) (start stop : ℕ) : List ParenthesesPair :=
  match start with
  | 0 => []
  | start + 1 =>
    if tokens[start]? = some "(" ∧ tokens[stop]? = some ")" then
      ⟨start, stop⟩ :: getParenthesesPairsAround tokens start (stop + 1)
    else []

def isInParentNodeParentheses (parent : Frame) : Bool :=
  let nodeIsInConditionOfParent := parenthesized parent.type = some parent.parentAttribute
  let nodeIsArgumentOfCallExpression :=
    (parent.type = .CallExpression ∨ parent.type = .NewExpression) ∧
      parent.parentAttribute = "arguments"
  nodeIsInConditionOfParent ∨ nodeIsArgumentOfCallExpression

/-- The pairs that are reported for a node. -/
def checkRedundantParentheses (tokens : List Token) (start stop : ℕ) (parent : Option Frame) :
    List ParenthesesPair :=
  let parenthesesPairsAroundNode := getParenthesesPairsAround tokens start stop
  let parenthesesPairsAroundNode :=
    if parent.any isInParentNodeParentheses then parenthesesPairsAroundNode.dropLast
    else parenthesesPairsAroundNode
  parenthesesPairsAroundNode.tail

/-- The suggestion: both tokens are removed. -/
def fix (tokens : List Token) (pair : ParenthesesPair) : List Token :=
  (tokens.eraseIdx pair.closingParenthesis).eraseIdx pair.openingParenthesis

/-- What the rule reports for a node of a program. -/
def reports (surroundings : Surroundings) (node : Node) : List ParenthesesPair :=
  let start := (tokensBefore surroundings).length
  checkRedundantParentheses (program surroundings node).parts.tokens start
    (start + node.parts.tokens.length) surroundings.head?

/-! ## Pairs of parentheses -/

/-- The number of pairs between the tokens before, backwards, and the tokens after. -/
def pairs : List Token → List Token → ℕ
  | first :: before, second :: after =>
    if first = "(" ∧ second = ")" then pairs before after + 1 else 0
  | _, _ => 0

/-- The number of pairs around a node. -/
def Surroundings.pairs (surroundings : Surroundings) : ℕ :=
  RedundantParentheses.pairs (tokensBefore surroundings).reverse (tokensAfter surroundings)

/-- The own parentheses of the parent around a child come as a pair, which is not in another
pair of parentheses. -/
structure Frame.Delimited (frame : Frame) (outer : Surroundings) : Prop where
  closed : ∀ before, frame.before.tokens = before ++ ["("] → frame.after.tokens ≠ []
  opened : ∀ after, frame.after.tokens = ")" :: after → frame.before.tokens ≠ []
  alone : ∀ before after, frame.before.tokens = before ++ ["("] →
    frame.after.tokens = ")" :: after →
    RedundantParentheses.pairs (tokensBefore outer ++ before).reverse
      (after ++ tokensAfter outer) = 0

/-- The own parentheses of all nodes around are delimited. -/
def Delimited : Surroundings → Prop
  | [] => True
  | frame :: outer => frame.Delimited outer ∧ Delimited outer

section Pairs

theorem getParenthesesPairsAround_eq (before inside after : List Token) :
    getParenthesesPairsAround (before.reverse ++ (inside ++ after)) before.length
        (before.length + inside.length) =
      (List.range (pairs before after)).map fun k =>
        ⟨before.length - 1 - k, before.length + inside.length + k⟩ := by
  induction before generalizing inside after with
  | nil => rfl
  | cons first before ih =>
      have opening : ((first :: before).reverse ++ (inside ++ after))[before.length]? =
          some first := by simp
      have closing : ((first :: before).reverse ++ (inside ++ after))[
          before.length + 1 + inside.length]? = after.head? := by
        rw [List.getElem?_append_right (by simp), List.length_reverse, List.length_cons,
          Nat.add_sub_cancel_left, List.getElem?_append_right (Nat.le_refl _), Nat.sub_self,
          List.head?_eq_getElem?]
      rw [List.length_cons, getParenthesesPairsAround, opening, closing]
      cases after with
      | nil => simp [pairs]
      | cons second after =>
          simp only [pairs, List.head?_cons, Option.some.injEq]
          split_ifs with both
          · have rest := ih (first :: (inside ++ [second])) after
            have length : before.length + (first :: (inside ++ [second])).length =
                before.length + 1 + inside.length + 1 := by simp; omega
            have tokens : before.reverse ++ (first :: (inside ++ [second]) ++ after) =
                (first :: before).reverse ++ (inside ++ second :: after) := by simp
            rw [length, tokens] at rest
            rw [rest, List.range_succ_eq_map, List.map_cons, List.map_map]
            refine congrArg (_ :: ·) (List.map_congr_left fun k _ => ?_)
            simp only [Function.comp_apply, ParenthesesPair.mk.injEq]
            omega
          · rfl

/-- As many parentheses as there are pairs are directly before and after. -/
theorem split_of_pairs (before after : List Token) :
    ∃ outside behind, before = List.replicate (pairs before after) "(" ++ outside ∧
      after = List.replicate (pairs before after) ")" ++ behind := by
  induction before generalizing after with
  | nil => exact ⟨[], after, rfl, rfl⟩
  | cons first before ih =>
      cases after with
      | nil => exact ⟨_, [], rfl, rfl⟩
      | cons second after =>
          unfold pairs
          split_ifs with both
          · obtain ⟨rfl, rfl⟩ := both
            obtain ⟨outside, behind, isBefore, isAfter⟩ := ih after
            exact ⟨outside, behind, congrArg ("(" :: ·) isBefore, congrArg (")" :: ·) isAfter⟩
          · exact ⟨_, _, rfl, rfl⟩

/-- It does not matter which of the pairs is removed. -/
theorem fix_pair {inside outside behind : List Token} {n k : ℕ} (lt : k < n) :
    fix ((outside ++ List.replicate n "(") ++ (inside ++ (List.replicate n ")" ++ behind)))
        ⟨(outside ++ List.replicate n "(").length - 1 - k,
          (outside ++ List.replicate n "(").length + inside.length + k⟩ =
      (outside ++ List.replicate (n - 1) "(") ++
        (inside ++ (List.replicate (n - 1) ")" ++ behind)) := by
  have closing : (outside ++ List.replicate n "(").length + inside.length + k =
      (outside ++ List.replicate n "(").length + (inside.length + k) := Nat.add_assoc ..
  have opening : (outside ++ List.replicate n "(").length - 1 - k =
      outside.length + (n - 1 - k) := by simp; omega
  have behindErased : (inside ++ (List.replicate n ")" ++ behind)).eraseIdx (inside.length + k) =
      inside ++ (List.replicate (n - 1) ")" ++ behind) := by
    rw [List.eraseIdx_append_of_length_le (by omega), Nat.add_sub_cancel_left,
      List.eraseIdx_append_of_lt_length (by simpa using lt), List.eraseIdx_replicate, if_pos lt]
  have beforeErased : (outside ++ List.replicate n "(").eraseIdx (outside.length + (n - 1 - k)) =
      outside ++ List.replicate (n - 1) "(" := by
    rw [List.eraseIdx_append_of_length_le (by omega), Nat.add_sub_cancel_left,
      List.eraseIdx_replicate, if_pos (by omega)]
  dsimp only [fix]
  rw [closing, opening, List.eraseIdx_append_of_length_le (by omega), Nat.add_sub_cancel_left,
    behindErased, List.eraseIdx_append_of_lt_length (by simp; omega), beforeErased]

theorem pairs_of_ne {first : Token} {before after : List Token} (ne : first ≠ "(") :
    pairs (first :: before) after = 0 := by
  cases after with
  | nil => rfl
  | cons second after => exact if_neg fun both => ne both.1

theorem pairs_of_head_ne {second : Token} {before after : List Token} (ne : second ≠ ")") :
    pairs before (second :: after) = 0 := by
  cases before with
  | nil => rfl
  | cons first before => exact if_neg fun both => ne both.2

end Pairs

/-! ## Programs -/

def Node.ungrouped (node : Node) : Node := { node with parts := node.parts.ungrouped }

section Programs

variable {node : Node}

theorem tokens_append (parts others : Parts) :
    (parts.append others).tokens = parts.tokens ++ others.tokens := by
  induction parts with
  | nil => rfl
  | token value rest ih => simp [Parts.append, Parts.tokens, ih]
  | child parentAttribute parentheses type parts rest _ ih =>
      simp [Parts.append, Parts.tokens, ih]

theorem ungrouped_append (parts others : Parts) :
    (parts.append others).ungrouped = parts.ungrouped.append others.ungrouped := by
  induction parts with
  | nil => rfl
  | token value rest ih => simp [Parts.append, Parts.ungrouped, ih]
  | child parentAttribute parentheses type parts rest _ ih =>
      simp [Parts.append, Parts.ungrouped, ih]

theorem tokens_program (surroundings : Surroundings) (node : Node) :
    (program surroundings node).parts.tokens =
      tokensBefore surroundings ++ (node.parts.tokens ++ tokensAfter surroundings) := by
  induction surroundings generalizing node with
  | nil => simp [program, tokensBefore, tokensAfter]
  | cons frame outer ih =>
      simp [program, ih, Frame.parent, tokens_append, Parts.tokens, tokensBefore, tokensAfter]

theorem ungrouped_program (surroundings : Surroundings) {other : Node}
    (same : node.ungrouped = other.ungrouped) :
    (program surroundings node).ungrouped = (program surroundings other).ungrouped := by
  induction surroundings generalizing node other with
  | nil => exact same
  | cons frame outer ih =>
      obtain ⟨type, parts⟩ := Node.mk.inj same
      refine ih ?_
      simp [Node.ungrouped, Frame.parent, ungrouped_append, Parts.ungrouped, type, parts]

/-- Two pairs are around a node only if one of them is for grouping. -/
theorem exists_regrouped {surroundings : Surroundings} (delimited : Delimited surroundings)
    (two : 2 ≤ surroundings.pairs) :
    ∃ regrouped : Surroundings,
      (∀ node, (program regrouped node).ungrouped = (program surroundings node).ungrouped) ∧
      tokensBefore surroundings = tokensBefore regrouped ++ ["("] ∧
      tokensAfter surroundings = ")" :: tokensAfter regrouped ∧
      regrouped.head?.any isInParentNodeParentheses =
        surroundings.head?.any isInParentNodeParentheses := by
  induction surroundings with
  | nil => exact absurd two (by decide)
  | cons frame outer ih =>
      obtain ⟨type, before, parentAttribute, parentheses, after⟩ := frame
      obtain ⟨own, delimited⟩ := delimited
      cases parentheses with
      | succ parentheses =>
          refine ⟨⟨type, before, parentAttribute, parentheses, after⟩ :: outer, fun node => ?_,
            ?_, ?_, rfl⟩
          · refine ungrouped_program outer ?_
            simp [Node.ungrouped, Frame.parent, ungrouped_append, Parts.ungrouped]
          · simp [tokensBefore, List.replicate_succ']
          · simp [tokensAfter, List.replicate_succ]
      | zero =>
          simp only [Surroundings.pairs, tokensBefore, tokensAfter, List.replicate_zero,
            List.append_nil, List.nil_append, List.reverse_append] at two ⊢
          have noPair (first second : List Token) (none : pairs first second = 0)
              (some : 2 ≤ pairs first second) : False := by omega
          obtain none | ⟨inner, last, isBefore⟩ := List.eq_nil_or_concat before.tokens
          · cases isAfter : after.tokens with
            | nil =>
                -- the parent has the same tokens as the node
                rw [none, isAfter, List.reverse_nil, List.nil_append, List.nil_append] at two
                obtain ⟨regrouped, same, opening, closing, -⟩ := ih delimited two
                refine ⟨⟨type, before, parentAttribute, 0, after⟩ :: regrouped,
                  fun node => same _, ?_, ?_, rfl⟩
                · simpa [tokensBefore, none] using opening
                · simpa [tokensAfter, isAfter] using closing
            | cons second behind =>
                rw [isAfter, List.cons_append] at two
                by_cases closes : second = ")"
                · subst closes
                  exact absurd none (own.opened behind isAfter)
                · exact (noPair _ _ (pairs_of_head_ne closes) two).elim
          · rw [isBefore, List.concat_eq_append, List.reverse_append, List.reverse_singleton,
              List.append_assoc, List.singleton_append] at two
            rw [List.concat_eq_append] at isBefore
            by_cases opens : last = "("
            · subst opens
              cases isAfter : after.tokens with
              | nil => exact absurd isAfter (own.closed inner isBefore)
              | cons second behind =>
                  rw [isAfter, List.cons_append] at two
                  by_cases closes : second = ")"
                  · subst closes
                    have alone := own.alone inner behind isBefore isAfter
                    rw [List.reverse_append] at alone
                    rw [pairs, if_pos ⟨rfl, rfl⟩, alone] at two
                    exact absurd two (by decide)
                  · exact (noPair _ _ (pairs_of_head_ne closes) two).elim
            · exact (noPair _ _ (pairs_of_ne opens) two).elim

end Programs

/-! ## The suggestions -/

section Suggestions

variable {surroundings : Surroundings} {node : Node}

/-- The pairs around a node, the innermost one first. -/
theorem reports_eq (surroundings : Surroundings) (node : Node) :
    reports surroundings node =
      (if surroundings.head?.any isInParentNodeParentheses then
        ((List.range surroundings.pairs).map fun k =>
          ParenthesesPair.mk ((tokensBefore surroundings).length - 1 - k)
            ((tokensBefore surroundings).length + node.parts.tokens.length + k)).dropLast
      else (List.range surroundings.pairs).map fun k =>
        ParenthesesPair.mk ((tokensBefore surroundings).length - 1 - k)
          ((tokensBefore surroundings).length + node.parts.tokens.length + k)).tail := by
  have around := getParenthesesPairsAround_eq (tokensBefore surroundings).reverse
    node.parts.tokens (tokensAfter surroundings)
  rw [List.reverse_reverse, List.length_reverse] at around
  rw [reports, checkRedundantParentheses, tokens_program, around]
  rfl

/-- All pairs are reported but the innermost one, and that of the parent. -/
theorem length_reports (surroundings : Surroundings) (node : Node) :
    (reports surroundings node).length =
      surroundings.pairs - (if surroundings.head?.any isInParentNodeParentheses then 2 else 1) := by
  rw [reports_eq]
  split_ifs
  · simp
    omega
  · simp

theorem exists_of_mem_reports {pair : ParenthesesPair}
    (reported : pair ∈ reports surroundings node) :
    2 ≤ surroundings.pairs ∧ ∃ k < surroundings.pairs,
      pair = ⟨(tokensBefore surroundings).length - 1 - k,
        (tokensBefore surroundings).length + node.parts.tokens.length + k⟩ := by
  have some := List.length_pos_of_mem reported
  rw [length_reports] at some
  refine ⟨by split_ifs at some <;> omega, ?_⟩
  rw [reports_eq] at reported
  have known := List.mem_of_mem_tail reported
  have among : pair ∈ (List.range surroundings.pairs).map fun k =>
      ParenthesesPair.mk ((tokensBefore surroundings).length - 1 - k)
        ((tokensBefore surroundings).length + node.parts.tokens.length + k) := by
    split_ifs at known
    · exact List.dropLast_subset _ known
    · exact known
  obtain ⟨k, inRange, rfl⟩ := List.mem_map.mp among
  exact ⟨k, List.mem_range.mp inRange, rfl⟩

end Suggestions

/-- `a?.b` in a chain, which is the argument of a call: `f((a?.b))`. -/
def chainArgument : Surroundings :=
  [{ type := .other
     before := .nil
     parentAttribute := "expression"
     parentheses := 0
     after := .nil },
   { type := .CallExpression
     before := .child "callee" 0 .other (.token "f" .nil) (.token "(" .nil)
     parentAttribute := "arguments"
     parentheses := 1
     after := .token ")" .nil }]

def member : Node := ⟨.other, .token "a" (.token "?." (.token "b" .nil))⟩

theorem delimited_chainArgument : Delimited chainArgument := by
  refine ⟨⟨?_, ?_, ?_⟩, ⟨?_, ?_, ?_⟩, trivial⟩
  · intro before same
    exact absurd same.symm (by simp [Parts.tokens])
  · intro after same
    cases same
  · intro before after _ same
    cases same
  · exact fun _ _ => List.cons_ne_nil _ _
  · exact fun _ _ => List.cons_ne_nil _ _
  · intro before after isBefore isAfter
    obtain rfl : before = ["f"] := (List.append_left_inj _).mp isBefore.symm
    obtain rfl : after = [] := (List.cons.inj isAfter).2.symm
    decide

end SonarJS.RedundantParentheses
