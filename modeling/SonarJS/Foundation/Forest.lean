import Mathlib.Data.List.Basic
import Mathlib.Logic.Function.Basic

/-!
# Traversing a tree with a stack

A stack holds nodes. The top node is visited, and then its children take its place, the
first one on top. The children of a node are looked up in a state that the visits change.
If the visits leave the children as they are, and the children make up a tree, the loop
ends, and it visits each node of the tree once, a parent before its children.

A tree, or a list of trees, is given by the first root, the trees below it and the trees
beside it.
-/

inductive Forest (ι : Type)
  | nil
  | cons (root : ι) (children siblings : Forest ι)

namespace Forest

variable {ι σ : Type}

def roots : Forest ι → List ι
  | .nil => []
  | .cons root _ siblings => root :: siblings.roots

/-- The nodes, each before those below it. -/
def nodes : Forest ι → List ι
  | .nil => []
  | .cons root children siblings => root :: (children.nodes ++ siblings.nodes)

/-- The forest is what its roots lead to. -/
def Represents (childrenOf : ι → List ι) : Forest ι → Prop
  | .nil => True
  | .cons root children siblings =>
    childrenOf root = children.roots ∧ children.Represents childrenOf ∧
      siblings.Represents childrenOf

/-- The loop over a stack, for at most so many visits. -/
def visit (childrenOf : σ → ι → List ι) (callback : ι → σ → σ) : ℕ → List ι → σ → Option σ
  | _, [], s => some s
  | 0, _ :: _, _ => none
  | fuel + 1, node :: stack, s =>
    let s' := callback node s
    visit childrenOf callback fuel (childrenOf s' node ++ stack) s'

section Visit

variable {childrenOf : σ → ι → List ι} {callback : ι → σ → σ}
  (keeps : ∀ node s, childrenOf (callback node s) = childrenOf s)

include keeps

theorem childrenOf_foldl (nodes : List ι) (s : σ) :
    childrenOf (nodes.foldl (fun s node => callback node s) s) = childrenOf s := by
  induction nodes generalizing s with
  | nil => rfl
  | cons node nodes ih => rw [List.foldl_cons, ih, keeps]

/-- What is below on the stack is visited after the forest. -/
theorem visit_append (forest : Forest ι) (s : σ) (represents : forest.Represents (childrenOf s))
    (fuel : ℕ) (stack : List ι) :
    visit childrenOf callback (forest.nodes.length + fuel) (forest.roots ++ stack) s =
      visit childrenOf callback fuel stack
        (forest.nodes.foldl (fun s node => callback node s) s) := by
  induction forest generalizing s fuel stack with
  | nil => simp [nodes, roots]
  | cons root children siblings children_ih siblings_ih =>
      obtain ⟨below, inChildren, inSiblings⟩ := represents
      have kept := keeps root s
      have kept' := childrenOf_foldl keeps children.nodes (callback root s)
      have fuel_eq : (nodes (.cons root children siblings)).length + fuel =
          children.nodes.length + (siblings.nodes.length + fuel) + 1 := by
        simp only [nodes, List.length_cons, List.length_append]
        omega
      rw [fuel_eq, roots, List.cons_append, visit, kept, below, nodes, List.foldl_cons,
        List.foldl_append, children_ih _ (kept ▸ inChildren),
        siblings_ih _ (by rwa [kept', kept])]

theorem visit_eq (forest : Forest ι) (s : σ) (represents : forest.Represents (childrenOf s)) :
    visit childrenOf callback forest.nodes.length forest.roots s =
      some (forest.nodes.foldl (fun s node => callback node s) s) := by
  have whole := visit_append keeps forest s represents 0 []
  rw [List.append_nil] at whole
  exact whole.trans (by unfold visit; rfl)

end Visit

/-! ## Changing each object once -/

/-- Objects of a store are changed one after another. -/
theorem foldl_update {β : Type} [DecidableEq ι] (change : β → β) (nodes : List ι)
    (nodup : nodes.Nodup) (store : ι → β) (node : ι) :
    nodes.foldl (fun store node => Function.update store node (change (store node))) store node =
      if node ∈ nodes then change (store node) else store node := by
  induction nodes generalizing store with
  | nil => rfl
  | cons first nodes ih =>
      obtain ⟨new, nodup⟩ := List.nodup_cons.mp nodup
      rw [List.foldl_cons, ih nodup]
      by_cases same : node = first
      · subst same
        simp [new]
      · simp [same]

end Forest
