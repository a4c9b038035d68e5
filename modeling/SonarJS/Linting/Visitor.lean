import Mathlib.Data.List.Nodup
import Mathlib.Logic.Relation
import SonarJS.Embedded.SourceCode

/-!
# Visiting syntax trees

`visit` goes through a syntax tree with a stack: it takes the last node, calls the callback and
puts the children on the stack, in reversed order. It sees the nodes in the order of the recursion
over `childrenOf`, also if the callback changes where nodes are.
-/

namespace SonarJS.Visitor

open Embedded

/-! ## The loop -/

section Loop

variable {τ : Type}

/-- The callback is called with the objects and whatever else it changes. The top of the stack is
the end of the list. -/
def visitFrom (visitorKeys : String → Option (List String))
    (callback : NodeId → Heap × τ → Heap × τ) : ℕ → List NodeId → Heap × τ → Option (Heap × τ)
  | fuel, stack, state =>
    match stack.getLast? with
    | none => some state
    | some node =>
      match fuel with
      | 0 => none
      | fuel + 1 =>
        let state := callback node state
        visitFrom visitorKeys callback fuel
          (stack.dropLast ++ (childrenOf visitorKeys state.1 node).reverse) state

/-- `visit`, for at most so many nodes. -/
def visit (fuel : ℕ) (sourceCode : SourceCode) (callback : NodeId → Heap × τ → Heap × τ)
    (state : τ) : Option (Heap × τ) :=
  visitFrom sourceCode.visitorKeys callback fuel [sourceCode.ast] (sourceCode.heap, state)

/-- The callback replaces locations and ranges of objects, and nothing else of them. -/
def Relocates (callback : NodeId → Heap × τ → Heap × τ) : Prop :=
  ∀ node state other, ((callback node state).1 other).type = (state.1 other).type ∧
    ((callback node state).1 other).fields = (state.1 other).fields

variable {visitorKeys : String → Option (List String)} {callback : NodeId → Heap × τ → Heap × τ}

theorem childrenOf_callback (relocates : Relocates callback) (node : NodeId) (state : Heap × τ) :
    childrenOf visitorKeys (callback node state).1 = childrenOf visitorKeys state.1 := by
  funext other
  obtain ⟨type, fields⟩ := relocates node state other
  rw [childrenOf, childrenOf, type, fields]

/-- With the top of the stack in front, this is the traversal with a stack. -/
theorem visitFrom_eq (fuel : ℕ) (stack : List NodeId) (state : Heap × τ) :
    visitFrom visitorKeys callback fuel stack state =
      Forest.visit (fun state => childrenOf visitorKeys state.1) callback fuel stack.reverse
        state := by
  induction fuel generalizing stack state with
  | zero =>
      obtain rfl | ⟨rest, node, rfl⟩ := stack.eq_nil_or_concat
      · rfl
      · simp [visitFrom, Forest.visit]
  | succ fuel ih =>
      obtain rfl | ⟨rest, node, rfl⟩ := stack.eq_nil_or_concat
      · rfl
      · simp [visitFrom, Forest.visit, ih]

end Loop

/-! ## The recursion -/

/-- The calls of the recursion over the children for some nodes, one after another: each node
before those below it. -/
inductive Preorder (childrenOf : NodeId → List NodeId) : List NodeId → List NodeId → Prop
  | nil : Preorder childrenOf [] []
  | cons {node : NodeId} {nodes below behind : List NodeId} :
    Preorder childrenOf (childrenOf node) below → Preorder childrenOf nodes behind →
      Preorder childrenOf (node :: nodes) (node :: (below ++ behind))

section Recursion

variable {childrenOf : NodeId → List NodeId}

/-- The recursion makes the same calls each time. -/
theorem Preorder.unique {nodes calls calls' : List NodeId} (first : Preorder childrenOf nodes calls)
    (second : Preorder childrenOf nodes calls') : calls = calls' := by
  induction first generalizing calls' with
  | nil =>
      cases second
      rfl
  | cons below behind belowIh behindIh =>
      cases second with
      | cons below' behind' => rw [belowIh below', behindIh behind']

theorem preorder_of_represents {tree : Forest NodeId} (isTree : tree.Represents childrenOf) :
    Preorder childrenOf tree.roots tree.nodes := by
  induction tree with
  | nil => exact .nil
  | cons root children siblings childrenIh siblingsIh =>
      obtain ⟨here, below, behind⟩ := isTree
      exact .cons (here ▸ childrenIh below) (siblingsIh behind)

/-- The recursion sees what can be reached. -/
theorem Preorder.mem_iff {nodes calls : List NodeId} (preorder : Preorder childrenOf nodes calls)
    {node : NodeId} : node ∈ calls ↔ ∃ root ∈ nodes,
      Relation.ReflTransGen (fun parent child => child ∈ childrenOf parent) root node := by
  induction preorder with
  | nil => simp
  | @cons root nodes below behind _ _ belowIh behindIh =>
      rw [List.mem_cons, List.mem_append, belowIh, behindIh, List.exists_mem_cons_iff,
        Relation.ReflTransGen.cases_head_iff, eq_comm, or_assoc]

end Recursion

/-! ## The order of the visits -/

section Order

variable {τ : Type}

/-- For a syntax tree, the loop ends after as many steps as there are nodes, and it has called the
callback for the nodes in the order of the recursion: for each node of the tree once. -/
theorem visit_preorder (sourceCode : SourceCode) (tree : Forest NodeId)
    (root : tree.roots = [sourceCode.ast])
    (isTree : tree.Represents (childrenOf sourceCode.visitorKeys sourceCode.heap))
    (distinct : tree.nodes.Nodup) (callback : NodeId → Heap × τ → Heap × τ)
    (relocates : Relocates callback) (state : τ) :
    ∃ calls, Preorder (childrenOf sourceCode.visitorKeys sourceCode.heap) [sourceCode.ast] calls ∧
      calls.Nodup ∧
      (∀ node, node ∈ calls ↔ Relation.ReflTransGen (fun parent child =>
        child ∈ childrenOf sourceCode.visitorKeys sourceCode.heap parent) sourceCode.ast node) ∧
      ∀ fuel, calls.length ≤ fuel → visit fuel sourceCode callback state =
        some (calls.foldl (fun state node => callback node state) (sourceCode.heap, state)) := by
  have preorder := preorder_of_represents isTree
  rw [root] at preorder
  refine ⟨tree.nodes, preorder, distinct, fun node => ?_, fun fuel enough => ?_⟩
  · rw [preorder.mem_iff]
    simp
  · obtain ⟨rest, rfl⟩ := Nat.exists_eq_add_of_le enough
    have visited := @Forest.visit_append _ _
      (fun state => childrenOf sourceCode.visitorKeys state.1) callback
      (childrenOf_callback relocates) tree (sourceCode.heap, state) isTree rest []
    rw [List.append_nil, root] at visited
    rw [visit, visitFrom_eq, List.reverse_singleton, visited]
    cases rest with
    | zero => rfl
    | succ rest => rfl

end Order

/-! ### A program of two statements -/

/-- The tree of `x;;`, where the array of the statements has a hole. -/
def twoStatements : SourceCode where
  text := []
  lineStartIndices := [0]
  heap := fun node =>
    match node with
    | 0 => ⟨"Program", [("body", .array [some 1, none, some 2])], some (0, 3), none⟩
    | 1 => ⟨"ExpressionStatement", [("expression", .node (some 3))], some (0, 2), none⟩
    | 2 => ⟨"EmptyStatement", [], some (2, 3), none⟩
    | _ => ⟨"Identifier", [], some (0, 1), none⟩
  ast := 0
  comments := []
  tokens := []
  visitorKeys := fun type =>
    if type = "Program" then some ["body"]
    else if type = "ExpressionStatement" then some ["expression"]
    else if type = "Identifier" then some ["decorators", "typeAnnotation"]
    else none

def treeOfTwoStatements : Forest NodeId :=
  .cons 0 (.cons 1 (.cons 3 .nil .nil) (.cons 2 .nil .nil)) .nil

/-- Each node is moved by ten, and its visit is recorded. -/
def moveAndRecord (node : NodeId) (state : Heap × List NodeId) : Heap × List NodeId :=
  let moved := (state.1 node).range.map fun range => (range.1 + 10, range.2 + 10)
  (Function.update state.1 node { state.1 node with range := moved }, state.2 ++ [node])

theorem relocates_moveAndRecord : Relocates moveAndRecord := by
  intro node state other
  by_cases same : other = node
  · subst same
    simp [moveAndRecord]
  · simp [moveAndRecord, same]

theorem visit_twoStatements :
    (visit 4 twoStatements moveAndRecord []).map Prod.snd = some [0, 1, 3, 2] := by
  have isTree : treeOfTwoStatements.Represents
      (childrenOf twoStatements.visitorKeys twoStatements.heap) := by
    repeat' constructor
  obtain ⟨calls, preorder, -, -, visits⟩ := visit_preorder twoStatements treeOfTwoStatements rfl
    isTree (by decide) moveAndRecord relocates_moveAndRecord []
  obtain rfl : calls = [0, 1, 3, 2] := preorder.unique (preorder_of_represents isTree)
  rw [visits 4 (Nat.le_refl 4)]
  rfl

end SonarJS.Visitor
