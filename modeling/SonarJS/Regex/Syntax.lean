import Mathlib.Logic.Relation
import Mathlib.Order.Nat

/-!
# Syntax trees of regular expressions

The nodes of regexpp, each with its position in the pattern. The visitor of regexpp enters a
node, visits its children one after another and leaves the node.
-/

namespace SonarJS.Regex

/-- The position of a node. -/
structure Span where
  start : ℕ
  last : ℕ
deriving DecidableEq, Repr

inductive LookaroundKind
  | lookahead
  | lookbehind
deriving DecidableEq, Repr

/-- Assertions are divided into lookarounds and the others: borders of the input and of words.
A quantifier without an upper bound has no `max`. -/
inductive Node
  | regExpLiteral (span : Span) (pattern flags : Node)
  | flags (span : Span)
  | pattern (span : Span) (alternatives : List Node)
  | alternative (span : Span) (elements : List Node)
  | group (span : Span) (alternatives : List Node)
  | capturingGroup (span : Span) (alternatives : List Node)
  | lookaround (span : Span) (kind : LookaroundKind) (alternatives : List Node)
  | assertion (span : Span)
  | quantifier (span : Span) (min : ℕ) (max : Option ℕ) (element : Node)
  | characterClass (span : Span) (elements : List Node)
  | characterClassRange (span : Span) (min max : Node)
  | characterSet (span : Span)
  | character (span : Span) (value : ℕ)
  | backreference (span : Span)

namespace Node

def span : Node → Span
  | regExpLiteral span _ _ | flags span | pattern span _ | alternative span _ | group span _
  | capturingGroup span _ | lookaround span _ _ | assertion span | quantifier span _ _ _
  | characterClass span _ | characterClassRange span _ _ | characterSet span
  | character span _ | backreference span => span

/-- The nodes that are visited below a node. -/
def children : Node → List Node
  | regExpLiteral _ p f => [p, f]
  | pattern _ alternatives | group _ alternatives | capturingGroup _ alternatives
  | lookaround _ _ alternatives => alternatives
  | alternative _ elements | characterClass _ elements => elements
  | quantifier _ _ _ element => [element]
  | characterClassRange _ min max => [min, max]
  | flags _ | assertion _ | characterSet _ | character _ _ | backreference _ => []

theorem sizeOf_lt_of_mem_children {node child : Node} (h : child ∈ node.children) :
    sizeOf child < sizeOf node := by
  cases node with
  | regExpLiteral | quantifier | characterClassRange =>
      simp only [children, List.mem_cons, List.not_mem_nil, or_false] at h
      grind
  | pattern | group | capturingGroup | lookaround | alternative | characterClass =>
      have smaller := List.sizeOf_lt_of_mem h
      grind [children]
  | flags | assertion | characterSet | character | backreference => cases h

/-- What holds of a node if it holds of its children holds of all nodes. -/
theorem induction {P : Node → Prop} (step : ∀ node, (∀ child ∈ node.children, P child) → P node)
    (node : Node) : P node :=
  step node fun child _ => induction step child
termination_by node
decreasing_by exact sizeOf_lt_of_mem_children ‹_›

/-- The nodes of the tree with some root. -/
def Within (root : Node) : Node → Prop :=
  Relation.ReflTransGen (fun parent child => child ∈ parent.children) root

theorem Within.child {root node child : Node} (h : root.Within node)
    (member : child ∈ node.children) : root.Within child :=
  h.tail member

end Node

/-- The handlers of the nodes that are entered and left. -/
structure Handlers (ε σ : Type) where
  enter : Node → EStateM ε σ Unit
  leave : Node → EStateM ε σ Unit

/-- `visitRegExpAST` of regexpp, and how it goes through a tree. -/
structure Visitor (ε σ : Type) where
  visitRegExpAST : Node → Handlers ε σ → EStateM ε σ Unit
  visits : ∀ node handlers, visitRegExpAST node handlers = do
    handlers.enter node
    forM node.children fun child => visitRegExpAST child handlers
    handlers.leave node

/-- The visitor that the syntax trees define. -/
def visitDepthFirst {ε σ : Type} (node : Node) (handlers : Handlers ε σ) :
    EStateM ε σ Unit := do
  handlers.enter node
  forM node.children.attach fun child => visitDepthFirst child.val handlers
  handlers.leave node
termination_by node
decreasing_by exact Node.sizeOf_lt_of_mem_children child.property

def Visitor.depthFirst (ε σ : Type) : Visitor ε σ where
  visitRegExpAST := visitDepthFirst
  visits node handlers := by
    have each : (forM node.children.attach fun child => visitDepthFirst child.val handlers) =
        forM (node.children.attach.map Subtype.val)
          fun child => visitDepthFirst child handlers := by
      rw [List.forM_map]
    rw [visitDepthFirst, each, List.attach_map_subtype_val]

end SonarJS.Regex
