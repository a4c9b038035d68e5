import Mathlib.Data.List.Basic

/-!
# Leaving a loop

`no-infinite-loop` looks into the body of a loop without an end condition for statements that
leave it. The visitor carries one boolean down the tree, whether the node is in a nested loop;
the target of a jump depends on all the loops, switches, labels and functions around it.
-/

namespace SonarJS.InfiniteLoops

inductive LoopKind
  | whileStatement
  | doWhileStatement
  | forStatement
  | forInStatement
  | forOfStatement
deriving DecidableEq, Repr

inductive FunctionKind
  | functionDeclaration
  | functionExpression
  | arrowFunctionExpression
deriving DecidableEq, Repr

/-- A node with the children that `childrenOf` returns: the nodes under its visitor keys,
without those that are missing. The label of a statement is no child here. -/
inductive Node
  | loop (kind : LoopKind) (children : List Node)
  | switchStatement (children : List Node)
  | labeledStatement (label : String) (children : List Node)
  | function (kind : FunctionKind) (children : List Node)
  | breakStatement (label : Option String)
  | continueStatement (label : Option String)
  | returnStatement (children : List Node)
  | throwStatement (children : List Node)
  | yieldExpression (children : List Node)
  | other (children : List Node)

/-! ## The visitor -/

/-- The loops that the visitor takes for nested ones. -/
def isVisitedLoop : LoopKind → Bool
  | .whileStatement | .doWhileStatement | .forStatement => true
  | .forInStatement | .forOfStatement => false

/-- The functions that the visitor does not enter. -/
def isVisitedFunction : FunctionKind → Bool
  | .functionExpression | .functionDeclaration => true
  | .arrowFunctionExpression => false

mutual

/-- `visitNode`: whether it sets `hasEndCondition`. -/
def visitNode (isNestedLoop : Bool) : Node → Bool
  | .loop kind children => visitChildren (isVisitedLoop kind || isNestedLoop) children
  | .function kind children =>
    if isVisitedFunction kind then false else visitChildren isNestedLoop children
  | .breakStatement label => !isNestedLoop || label.isSome
  | .yieldExpression _ | .returnStatement _ | .throwStatement _ => true
  | .continueStatement _ => false
  | .switchStatement children | .labeledStatement _ children | .other children =>
    visitChildren isNestedLoop children

def visitChildren (isNestedLoop : Bool) : List Node → Bool
  | [] => false
  | child :: children => visitNode isNestedLoop child || visitChildren isNestedLoop children

end

def hasEndCondition (body : Node) : Bool := visitNode false body

/-! ## Jumps and their targets -/

/-- What stands around a jump. -/
inductive Enclosing
  | loop (kind : LoopKind)
  | switchStatement
  | label (name : String)
  | function (kind : FunctionKind)
deriving DecidableEq, Repr

/-- `exit` is a `return`, a `throw` or a `yield`. -/
inductive Jump
  | exit
  | breakTo (label : Option String)
  | continueTo (label : Option String)
deriving DecidableEq, Repr

/-- A jump in the body of a loop, with what stands around it in the body. -/
structure Occurrence where
  enclosing : List Enclosing
  jump : Jump
deriving DecidableEq, Repr

mutual

/-- The jumps of a node. -/
def jumps (enclosing : List Enclosing) : Node → List Occurrence
  | .loop kind children => jumpsOfAll (.loop kind :: enclosing) children
  | .switchStatement children => jumpsOfAll (.switchStatement :: enclosing) children
  | .labeledStatement label children => jumpsOfAll (.label label :: enclosing) children
  | .function kind children => jumpsOfAll (.function kind :: enclosing) children
  | .breakStatement label => [⟨enclosing, .breakTo label⟩]
  | .continueStatement label => [⟨enclosing, .continueTo label⟩]
  | .returnStatement children | .throwStatement children | .yieldExpression children =>
    ⟨enclosing, .exit⟩ :: jumpsOfAll enclosing children
  | .other children => jumpsOfAll enclosing children

def jumpsOfAll (enclosing : List Enclosing) : List Node → List Occurrence
  | [] => []
  | child :: children => jumps enclosing child ++ jumpsOfAll enclosing children

end

/-- A statement of the body, the loop itself, or a statement outside of it. -/
inductive Target
  | inside
  | examinedLoop
  | outside
deriving DecidableEq, Repr

namespace Enclosing

def isLoop : Enclosing → Bool
  | .loop _ => true
  | _ => false

def isSwitch : Enclosing → Bool
  | .switchStatement => true
  | _ => false

def isFunction : Enclosing → Bool
  | .function _ => true
  | _ => false

end Enclosing

/-- The target of a label, by the labels of the loop. -/
def labelTarget (labels : List String) (enclosing : List Enclosing) (label : String) : Target :=
  if .label label ∈ enclosing then .inside
  else if label ∈ labels then .examinedLoop
  else .outside

def Occurrence.target (labels : List String) (o : Occurrence) : Target :=
  match o.jump with
  | .exit => .outside
  | .breakTo none =>
    if o.enclosing.any fun e => e.isLoop || e.isSwitch then .inside else .examinedLoop
  | .continueTo none => if o.enclosing.any Enclosing.isLoop then .inside else .examinedLoop
  | .breakTo (some label) | .continueTo (some label) => labelTarget labels o.enclosing label

/-- A jump leaves the loop if it is not part of a nested function and goes outside, or breaks
off the loop. -/
def Leaves (labels : List String) (o : Occurrence) : Prop :=
  o.enclosing.any Enclosing.isFunction = false ∧
    match o.jump with
    | .exit => True
    | .breakTo _ => o.target labels ≠ .inside
    | .continueTo _ => o.target labels = .outside

/-! ## What the visitor counts -/

def isVisitedEnclosingLoop : Enclosing → Bool
  | .loop kind => isVisitedLoop kind
  | _ => false

def isVisitedEnclosingFunction : Enclosing → Bool
  | .function kind => isVisitedFunction kind
  | _ => false

/-- A jump that sets `hasEndCondition`. -/
def Counts (o : Occurrence) : Prop :=
  o.enclosing.any isVisitedEnclosingFunction = false ∧
    match o.jump with
    | .exit => True
    | .breakTo none => o.enclosing.any isVisitedEnclosingLoop = false
    | .breakTo (some _) => True
    | .continueTo _ => False

/-- A `return`, `throw`, `yield` or `break` that leaves the loop. -/
def Recognised (labels : List String) (o : Occurrence) : Prop :=
  Leaves labels o ∧ ∀ label, o.jump ≠ .continueTo label

/-- A labelled `continue` that leaves the loop. -/
def Missed (labels : List String) (o : Occurrence) : Prop :=
  Leaves labels o ∧ ∃ label, o.jump = .continueTo (some label)

/-- A jump that counts and does not leave the loop: one in an arrow function, a `break` whose
target is a `switch`, a `for`-`in` or a `for`-`of` loop, or one with a label of the body. -/
def Miscounted (o : Occurrence) : Prop :=
  Counts o ∧
    (.function .arrowFunctionExpression ∈ o.enclosing ∨
      o.jump = .breakTo none ∧ (.switchStatement ∈ o.enclosing ∨
        .loop .forInStatement ∈ o.enclosing ∨ .loop .forOfStatement ∈ o.enclosing) ∨
      ∃ label, o.jump = .breakTo (some label) ∧ .label label ∈ o.enclosing)

section Jumps

variable {enclosing : List Enclosing} {o : Occurrence}

mutual

/-- What stands around a node stands around its jumps. -/
theorem suffix_of_mem_jumps {enclosing : List Enclosing} : ∀ {node : Node},
    o ∈ jumps enclosing node → enclosing <:+ o.enclosing
  | .loop _ _, h | .switchStatement _, h | .labeledStatement _ _, h | .function _ _, h =>
    (List.suffix_cons _ enclosing).trans (suffix_of_mem_jumpsOfAll h)
  | .breakStatement _, h | .continueStatement _, h =>
    List.mem_singleton.mp h ▸ List.suffix_rfl
  | .returnStatement _, h | .throwStatement _, h | .yieldExpression _, h =>
    (List.mem_cons.mp h).elim (fun same => same ▸ List.suffix_rfl) suffix_of_mem_jumpsOfAll
  | .other _, h => suffix_of_mem_jumpsOfAll h

theorem suffix_of_mem_jumpsOfAll {enclosing : List Enclosing} : ∀ {nodes : List Node},
    o ∈ jumpsOfAll enclosing nodes → enclosing <:+ o.enclosing
  | _ :: _, h => (List.mem_append.mp h).elim suffix_of_mem_jumps suffix_of_mem_jumpsOfAll

end

theorem not_counts_of_function {kind : FunctionKind} {nodes : List Node}
    (isVisited : isVisitedFunction kind = true)
    (member : o ∈ jumpsOfAll (.function kind :: enclosing) nodes) : ¬ Counts o := by
  intro counts
  have inside := (suffix_of_mem_jumpsOfAll member).mem List.mem_cons_self
  exact absurd isVisited (List.any_eq_false.mp counts.1 _ inside)

theorem exists_mem_append {l l' : List Occurrence} {P : Occurrence → Prop} :
    (∃ o ∈ l ++ l', P o) ↔ (∃ o ∈ l, P o) ∨ ∃ o ∈ l', P o := by
  simp only [List.mem_append, or_and_right, exists_or]

/-- A `return`, a `throw` or a `yield` that the visitor comes to. -/
theorem counts_exit (free : enclosing.any isVisitedEnclosingFunction = false) :
    Counts ⟨enclosing, .exit⟩ :=
  ⟨free, trivial⟩

mutual

/-- The boolean of the visitor says whether one of the loops around a node is a visited one. -/
theorem visitNode_iff {enclosing : List Enclosing}
    (free : enclosing.any isVisitedEnclosingFunction = false) : ∀ node : Node,
    visitNode (enclosing.any isVisitedEnclosingLoop) node = true ↔
      ∃ o ∈ jumps enclosing node, Counts o
  | .loop kind children => @visitChildren_iff (.loop kind :: enclosing) free children
  | .function kind children => by
      rw [visitNode, jumps]
      split
      next isVisited =>
        refine iff_of_false Bool.false_ne_true ?_
        rintro ⟨o, member, counts⟩
        exact not_counts_of_function isVisited member counts
      next isEntered =>
        have inside : (Enclosing.function kind :: enclosing).any isVisitedEnclosingFunction =
            false := by
          rw [List.any_cons, free, Bool.or_false]
          exact eq_false_of_ne_true isEntered
        exact visitChildren_iff inside children
  | .breakStatement label => by
      simp only [visitNode, jumps, List.mem_singleton, exists_eq_left, Counts, free, true_and]
      cases label with
      | none => simp
      | some label => simp
  | .continueStatement label => by simp [visitNode, jumps, Counts]
  | .returnStatement children | .throwStatement children | .yieldExpression children =>
      iff_of_true rfl ⟨_, List.mem_cons_self, counts_exit free⟩
  | .switchStatement children => @visitChildren_iff (.switchStatement :: enclosing) free children
  | .labeledStatement label children =>
      @visitChildren_iff (.label label :: enclosing) free children
  | .other children => visitChildren_iff free children

theorem visitChildren_iff {enclosing : List Enclosing}
    (free : enclosing.any isVisitedEnclosingFunction = false) : ∀ children : List Node,
    visitChildren (enclosing.any isVisitedEnclosingLoop) children = true ↔
      ∃ o ∈ jumpsOfAll enclosing children, Counts o
  | [] => by simp [visitChildren, jumpsOfAll]
  | child :: children => by
      rw [visitChildren, jumpsOfAll, exists_mem_append, Bool.or_eq_true, visitNode_iff free child,
        visitChildren_iff free children]

end

end Jumps

/-! ## When the answer is right -/

section Answer

variable {labels : List String} {o : Occurrence}

theorem leaves_iff : Leaves labels o ↔ Recognised labels o ∨ Missed labels o := by
  constructor
  · intro leaves
    by_cases isContinue : ∃ label, o.jump = .continueTo label
    · obtain ⟨label, jump⟩ := isContinue
      cases label with
      | some label => exact .inr ⟨leaves, label, jump⟩
      | none =>
          -- the target of a continue without a label is a loop
          have outside := leaves.2
          simp only [jump, Occurrence.target] at outside
          split at outside <;> cases outside
    · exact .inl ⟨leaves, fun label jump => isContinue ⟨label, jump⟩⟩
  · rintro (recognised | missed)
    · exact recognised.1
    · exact missed.1

theorem any_isVisitedEnclosingFunction {enclosing : List Enclosing}
    (noFunction : enclosing.any Enclosing.isFunction = false) :
    enclosing.any isVisitedEnclosingFunction = false := by
  refine List.any_eq_false.mpr fun e member => ?_
  have notFunction := List.any_eq_false.mp noFunction e member
  cases e with
  | function kind => exact absurd rfl notFunction
  | loop | switchStatement | label => exact Bool.false_ne_true

theorem any_isVisitedEnclosingLoop {enclosing : List Enclosing}
    (noTarget : (enclosing.any fun e => e.isLoop || e.isSwitch) = false) :
    enclosing.any isVisitedEnclosingLoop = false := by
  refine List.any_eq_false.mpr fun e member => ?_
  have notLoop := List.any_eq_false.mp noTarget e member
  cases e with
  | loop kind => exact absurd rfl notLoop
  | switchStatement | function | label => exact Bool.false_ne_true

theorem any_isFunction {enclosing : List Enclosing}
    (noArrow : .function .arrowFunctionExpression ∉ enclosing)
    (free : enclosing.any isVisitedEnclosingFunction = false) :
    enclosing.any Enclosing.isFunction = false := by
  refine List.any_eq_false.mpr fun e member => ?_
  have notVisited := List.any_eq_false.mp free e member
  cases e with
  | function kind =>
      cases kind with
      | arrowFunctionExpression => exact absurd member noArrow
      | functionDeclaration | functionExpression => exact absurd rfl notVisited
  | loop | switchStatement | label => exact Bool.false_ne_true

/-- A `break` goes to a statement of the body past the visited loops. -/
theorem any_isLoop_or_isSwitch {enclosing : List Enclosing}
    (free : enclosing.any isVisitedEnclosingLoop = false)
    (noOther : ¬ (.switchStatement ∈ enclosing ∨ .loop .forInStatement ∈ enclosing ∨
      .loop .forOfStatement ∈ enclosing)) :
    (enclosing.any fun e => e.isLoop || e.isSwitch) = false := by
  refine List.any_eq_false.mpr fun e member => ?_
  have notVisited := List.any_eq_false.mp free e member
  cases e with
  | loop kind =>
      cases kind with
      | forInStatement => exact absurd (.inr (.inl member)) noOther
      | forOfStatement => exact absurd (.inr (.inr member)) noOther
      | whileStatement | doWhileStatement | forStatement => exact absurd rfl notVisited
  | switchStatement => exact absurd (.inl member) noOther
  | function | label => exact Bool.false_ne_true

theorem Recognised.counts (h : Recognised labels o) : Counts o := by
  obtain ⟨⟨noFunction, leaves⟩, noContinue⟩ := h
  refine ⟨any_isVisitedEnclosingFunction noFunction, ?_⟩
  obtain ⟨enclosing, jump⟩ := o
  cases jump with
  | exit => trivial
  | continueTo label => exact noContinue label rfl
  | breakTo label =>
      cases label with
      | some label => trivial
      | none =>
          refine any_isVisitedEnclosingLoop (eq_false_of_ne_true fun isTarget => leaves ?_)
          exact if_pos isTarget

/-- What counts and is not one of the three kinds of miscounted jumps leaves the loop. -/
theorem Counts.recognised (h : Counts o) (notMiscounted : ¬ Miscounted o) :
    Recognised labels o := by
  obtain ⟨enclosing, jump⟩ := o
  obtain ⟨noArrow, other⟩ := not_or.mp fun wrong => notMiscounted ⟨h, wrong⟩
  obtain ⟨noTarget, noLabel⟩ := not_or.mp other
  have noFunction := any_isFunction noArrow h.1
  cases jump with
  | exit => exact ⟨⟨noFunction, trivial⟩, by simp⟩
  | continueTo label => exact h.2.elim
  | breakTo label =>
      refine ⟨⟨noFunction, ?_⟩, by simp⟩
      cases label with
      | none =>
          have noOther := fun wrong => noTarget ⟨rfl, wrong⟩
          have isOutside := any_isLoop_or_isSwitch h.2 noOther
          simp [Occurrence.target, isOutside]
      | some label =>
          have isOutside : .label label ∉ enclosing := fun member => noLabel ⟨label, rfl, member⟩
          simp only [Occurrence.target, labelTarget, isOutside, if_false]
          split <;> simp

theorem counts_iff : Counts o ↔ Recognised labels o ∨ Miscounted o := by
  constructor
  · intro counts
    by_cases miscounted : Miscounted o
    · exact .inr miscounted
    · exact .inl (counts.recognised miscounted)
  · rintro (recognised | miscounted)
    · exact recognised.counts
    · exact miscounted.1

/-- The answer is right if a statement that leaves the loop is recognised, or if jumps are
miscounted exactly where others are missed. -/
theorem hasEndCondition_exact_iff (labels : List String) (body : Node) :
    (hasEndCondition body = true ↔ ∃ o ∈ jumps [] body, Leaves labels o) ↔
      (∃ o ∈ jumps [] body, Recognised labels o) ∨
        ((∃ o ∈ jumps [] body, Miscounted o) ↔ ∃ o ∈ jumps [] body, Missed labels o) := by
  have visited : hasEndCondition body = true ↔ ∃ o ∈ jumps [] body, Counts o :=
    @visitNode_iff [] rfl body
  have counted (o : Occurrence) : Counts o ↔ Recognised labels o ∨ Miscounted o := counts_iff
  simp only [visited, counted, leaves_iff, and_or_left, exists_or]
  by_cases recognised : ∃ o ∈ jumps [] body, Recognised labels o
  · simp only [recognised, true_or]
  · simp only [recognised, false_or]

/-- `{ switch (x) { case 0: break; } }`, where the `break` ends the `switch`. -/
def breakOfSwitch : Node := .other [.switchStatement [.other [.other [], .breakStatement none]]]

theorem not_hasEndCondition_switch :
    ¬ (hasEndCondition breakOfSwitch = true ↔ ∃ o ∈ jumps [] breakOfSwitch, Leaves [] o) := by
  intro exact
  obtain ⟨o, member, leaves⟩ := exact.mp rfl
  obtain rfl : o = ⟨[.switchStatement], .breakTo none⟩ := List.mem_singleton.mp member
  exact leaves.2 rfl

end Answer

end SonarJS.InfiniteLoops
