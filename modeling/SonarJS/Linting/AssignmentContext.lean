import SonarJS.Linting.CodePath
import Mathlib.Data.List.Infix

/-!
# Attribution of references to segments

While ESLint walks through a file, `no-dead-store` and `no-redundant-assignments`
collect the references of each segment. Both do it in the same way. A reference
outside any assignment goes to the current segments at once. Inside an assignment
it goes to the innermost assignment context, which keeps the references of its two
sides apart; when the assignment is left, those of the right-hand side and then
those of the left-hand side are handed on, to the enclosing context or to the
segments that are current by then.

The model has two halves. `traverse` is the sequence of events that ESLint sends for
an expression, and `handle` is what the rules do with an event. Against them stands
`evaluate`, which lists the references in the order of their evaluation together
with the points where ESLint starts new segments. The two agree exactly on those
expressions in which the right-hand side of each outermost assignment evaluates its
references after its last fork.
-/

namespace SonarJS

namespace AssignmentContext

/-- A syntax node, by the way down to it from the root: the index of the last child
comes first, so that the parent of a node is the tail. -/
abbrev Position := List ℕ

/-- A reference with its `identifier`. -/
structure LocatedReference where
  reference : Reference
  identifier : Position
deriving DecidableEq

/-- Expressions. An assignment is an `AssignmentExpression` or a `VariableDeclarator`
with an initialiser; its children are `left` and `right`, or `id` and `init`. A
binary node stands for every node that evaluates its operands in turn. -/
inductive Expr
  | literal
  | identifier (ref : Reference)
  | assignment (left : Reference) (right : Expr)
  | logical (left right : Expr)
  | conditional (test consequent alternate : Expr)
  | binary (left right : Expr)

/-! ## ESLint's events -/

/-- What the rules are told. At a fork the current segments are replaced by new
ones; this covers the joins after a logical or conditional expression as well. -/
inductive Event
  | fork
  | enterAssignment (node : Position)
  | exitAssignment
  | identifier (ref : LocatedReference)

/-- The events of a traversal. New segments are started before the right operand of
a logical expression and before both branches of a conditional one. The paths are
joined at the end, except for a logical expression whose result forks: one that is
the test of a conditional or an operand of another logical expression. -/
def traverse (forkingAsResult : Bool) (p : Position) : Expr → List Event
  | .literal => []
  | .identifier ref => [.identifier ⟨ref, p⟩]
  | .assignment left right =>
    .enterAssignment p :: .identifier ⟨left, 0 :: p⟩ ::
      (traverse false (1 :: p) right ++ [.exitAssignment])
  | .logical left right =>
    traverse true (0 :: p) left ++ .fork :: (traverse true (1 :: p) right ++
      if forkingAsResult then [] else [.fork])
  | .conditional test consequent alternate =>
    traverse true (0 :: p) test ++ .fork :: (traverse false (1 :: p) consequent ++
      .fork :: (traverse false (2 :: p) alternate ++ [.fork]))
  | .binary left right => traverse false (0 :: p) left ++ traverse false (1 :: p) right

/-! ## The rules' handlers -/

/-- `AssignmentContext`. -/
structure Context where
  node : Position
  lhs : OrderedSet LocatedReference := .empty
  rhs : OrderedSet LocatedReference := .empty

inductive Side
  | lhs
  | rhs
deriving DecidableEq

/-- The search of `add` for a parent that is the left or the right child of the
assignment, from the identifier upwards. -/
def findSide (node : Position) : Position → Option Side
  | [] => none
  | i :: parent =>
    if i :: parent = 0 :: node then some .lhs
    else if i :: parent = 1 :: node then some .rhs
    else findSide node parent

inductive RuleError
  /-- `failed to find assignment lhs/rhs` -/
  | noSide
  /-- `popAssignmentContext` on an empty stack -/
  | noContext
deriving DecidableEq

/-- `AssignmentContext.add`. -/
@[grind =] def Context.add (context : Context) (ref : LocatedReference) : Except RuleError Context :=
  match findSide context.node ref.identifier with
  | some .lhs => .ok { context with lhs := context.lhs.add ref }
  | some .rhs => .ok { context with rhs := context.rhs.add ref }
  | none => .error .noSide

/-- The segments of the code path: the current ones, the id for the next one, and
the references with which `add` was called for each. -/
structure Segments where
  current : List ℕ
  next : ℕ
  recorded : ℕ → List LocatedReference
  nonempty : current ≠ []
  current_lt : ∀ s ∈ current, s < next
  unrecorded : ∀ s, next ≤ s → recorded s = []

namespace Segments

/-- `onCodePathSegmentStart`, for as many new segments as there are current ones. -/
def start (segments : Segments) : Segments where
  current := List.range' segments.next segments.current.length
  next := segments.next + segments.current.length
  recorded s :=
    if s ∈ List.range' segments.next segments.current.length then [] else segments.recorded s
  nonempty := by simpa using segments.nonempty
  current_lt s hs := (List.mem_range'_1.mp hs).2
  unrecorded s hs := by
    split
    · rfl
    · exact segments.unrecorded s (by omega)

/-- The reference is added to all current segments. -/
def record (segments : Segments) (ref : LocatedReference) : Segments where
  __ := segments
  recorded s :=
    if s ∈ segments.current then segments.recorded s ++ [ref] else segments.recorded s
  unrecorded s hs := by
    rw [if_neg fun member => absurd (segments.current_lt s member) (by omega)]
    exact segments.unrecorded s hs

end Segments

/-- The stack of assignment contexts, innermost first, and the segments. -/
structure State where
  assignmentStack : List Context
  segments : Segments

/-- `processReference`. -/
def processReference (state : State) (ref : LocatedReference) : Except RuleError State :=
  match state.assignmentStack with
  | [] => .ok { state with segments := state.segments.record ref }
  | context :: rest => do
    let context ← context.add ref
    return { state with assignmentStack := context :: rest }

/-- `popAssignmentContext`. -/
def popAssignmentContext (state : State) : Except RuleError State :=
  match state.assignmentStack with
  | [] => .error .noContext
  | assignment :: rest => do
    let state ← assignment.rhs.elems.foldlM processReference { state with assignmentStack := rest }
    assignment.lhs.elems.foldlM processReference state

/-- The handlers of both rules. -/
def handle (state : State) : Event → Except RuleError State
  | .fork => .ok { state with segments := state.segments.start }
  | .enterAssignment node =>
    .ok { state with assignmentStack := ⟨node, .empty, .empty⟩ :: state.assignmentStack }
  | .exitAssignment => popAssignmentContext state
  | .identifier ref => processReference state ref

def run (events : List Event) (state : State) : Except RuleError State :=
  events.foldlM handle state

/-! ## Evaluation -/

/-- A step of an evaluation: new segments are started, or a reference is evaluated. -/
inductive Step
  | fork
  | evaluate (ref : LocatedReference)
deriving DecidableEq

/-- The evaluation of an expression. The target of an assignment is written after
the right-hand side has been evaluated. -/
@[grind =] def evaluate (forkingAsResult : Bool) (p : Position) : Expr → List Step
  | .literal => []
  | .identifier ref => [.evaluate ⟨ref, p⟩]
  | .assignment left right => evaluate false (1 :: p) right ++ [.evaluate ⟨left, 0 :: p⟩]
  | .logical left right =>
    evaluate true (0 :: p) left ++ .fork :: (evaluate true (1 :: p) right ++
      if forkingAsResult then [] else [.fork])
  | .conditional test consequent alternate =>
    evaluate true (0 :: p) test ++ .fork :: (evaluate false (1 :: p) consequent ++
      .fork :: (evaluate false (2 :: p) alternate ++ [.fork]))
  | .binary left right => evaluate false (0 :: p) left ++ evaluate false (1 :: p) right

/-- The references that belong to a segment, in the order of their evaluation: those
that are evaluated while the segment is current. -/
def attributed (current : List ℕ) (next : ℕ) : List Step → ℕ → List LocatedReference
  | [], _ => []
  | .fork :: steps, s =>
    attributed (List.range' next current.length) (next + current.length) steps s
  | .evaluate ref :: steps, s =>
    if s ∈ current then ref :: attributed current next steps s else attributed current next steps s

/-- No reference is evaluated before a later fork. -/
def ForksFirst (steps : List Step) : Prop :=
  steps.Pairwise fun earlier later => earlier = .fork ∨ later ≠ .fork

/-- Each outermost assignment evaluates the references of its right-hand side after
the last fork in it. -/
def Attributable (p : Position) : Expr → Prop
  | .literal => True
  | .identifier _ => True
  | .assignment _ right => ForksFirst (evaluate false (1 :: p) right)
  | .logical left right => Attributable (0 :: p) left ∧ Attributable (1 :: p) right
  | .conditional test consequent alternate =>
    Attributable (0 :: p) test ∧ Attributable (1 :: p) consequent ∧ Attributable (2 :: p) alternate
  | .binary left right => Attributable (0 :: p) left ∧ Attributable (1 :: p) right

/-! ## Steps -/

/-- The references that are evaluated. -/
def references (steps : List Step) : List LocatedReference :=
  steps.filterMap fun
    | .fork => none
    | .evaluate ref => some ref

@[simp] theorem references_nil : references [] = [] := rfl

@[simp] theorem references_fork (steps : List Step) :
    references (.fork :: steps) = references steps := rfl

@[simp] theorem references_evaluate (ref : LocatedReference) (steps : List Step) :
    references (.evaluate ref :: steps) = ref :: references steps := rfl

@[simp] theorem references_append (steps later : List Step) :
    references (steps ++ later) = references steps ++ references later :=
  List.filterMap_append

/-- All forks, and then all references. -/
def forksFirst (steps : List Step) : List Step :=
  List.replicate (steps.count .fork) .fork ++ (references steps).map .evaluate

theorem forksFirst_eq_of_notMem {steps : List Step} (h : Step.fork ∉ steps) :
    forksFirst steps = steps := by
  rw [forksFirst, List.count_eq_zero_of_not_mem h, List.replicate_zero, List.nil_append]
  induction steps with
  | nil => rfl
  | cons step steps ih =>
      obtain ⟨head, tail⟩ := not_or.mp (List.mem_cons.not.mp h)
      cases step with
      | fork => exact absurd rfl head
      | evaluate ref => rw [references_evaluate, List.map_cons, ih tail]

theorem forksFirst_eq_iff (steps : List Step) : forksFirst steps = steps ↔ ForksFirst steps := by
  induction steps with
  | nil => simp [forksFirst, ForksFirst]
  | cons step steps ih =>
      cases step with
      | fork => simpa [forksFirst, ForksFirst, List.replicate_succ] using ih
      | evaluate ref =>
          constructor
          · intro same
            have none : Step.fork ∉ steps := by
              intro member
              obtain ⟨k, hk⟩ := Nat.exists_eq_succ_of_ne_zero (List.count_pos_iff.mpr member).ne'
              rw [forksFirst, List.count_cons_of_ne (by simp), hk, List.replicate_succ] at same
              exact absurd (List.cons.inj same).1 (by simp)
            refine List.pairwise_of_forall_mem_list fun _ _ later member => .inr ?_
            rintro rfl
            simp [none] at member
          · intro ordered
            have none : Step.fork ∉ steps := fun member =>
              (((List.pairwise_cons.mp ordered).1 _ member).resolve_left (by simp)) rfl
            exact forksFirst_eq_of_notMem (by simpa using none)

theorem forksFirst_perm (steps : List Step) : (forksFirst steps).Perm steps := by
  induction steps with
  | nil => exact .nil
  | cons step steps ih =>
      cases step with
      | fork => simpa [forksFirst, List.replicate_succ] using ih
      | evaluate ref =>
          have moved : (forksFirst (.evaluate ref :: steps)).Perm
              (.evaluate ref :: forksFirst steps) := by
            simp [forksFirst]
          exact moved.trans (ih.cons _)

@[simp] theorem attributed_fork (current : List ℕ) (next s : ℕ) (steps : List Step) :
    attributed current next (.fork :: steps) s =
      attributed (List.range' next current.length) (next + current.length) steps s := rfl

theorem attributed_evaluate (current : List ℕ) (next s : ℕ) (ref : LocatedReference)
    (steps : List Step) : attributed current next (.evaluate ref :: steps) s =
      if s ∈ current then ref :: attributed current next steps s
      else attributed current next steps s := rfl

/-- Segments that are not current any more get no further references. -/
theorem attributed_eq_nil {current : List ℕ} {next s : ℕ} (steps : List Step)
    (notCurrent : s ∉ current) (lt : s < next) : attributed current next steps s = [] := by
  induction steps generalizing current next with
  | nil => rfl
  | cons step steps ih =>
      cases step with
      | fork =>
          refine ih (fun member => ?_) (by omega)
          have := (List.mem_range'_1.mp member).1
          omega
      | evaluate ref => rw [attributed_evaluate, if_neg notCurrent, ih notCurrent lt]

theorem attributed_fork_eq_nil {current : List ℕ} {next s : ℕ} (steps : List Step)
    (lt : s < next) : attributed current next (.fork :: steps) s = [] := by
  refine attributed_eq_nil steps (fun member => ?_) (by omega)
  have := (List.mem_range'_1.mp member).1
  omega

/-- The attribution determines the evaluation, if the number of forks is known. -/
theorem eq_of_attributed_eq {current : List ℕ} {next : ℕ} {steps other : List Step}
    (nonempty : current ≠ []) (lt : ∀ s ∈ current, s < next)
    (count : steps.count .fork = other.count .fork)
    (same : ∀ s, attributed current next steps s = attributed current next other s) :
    steps = other := by
  induction steps generalizing current next other with
  | nil =>
      cases other with
      | nil => rfl
      | cons step other =>
          cases step with
          | fork => simp at count
          | evaluate ref =>
              obtain ⟨s, hs⟩ := List.exists_mem_of_ne_nil current nonempty
              have here := same s
              rw [attributed_evaluate, if_pos hs] at here
              exact absurd here (List.cons_ne_nil _ _).symm
  | cons step steps ih =>
      obtain ⟨s, hs⟩ := List.exists_mem_of_ne_nil current nonempty
      have here := same s
      match step, other with
      | .fork, [] => simp at count
      | .fork, .fork :: other =>
          have later : ∀ s, attributed (List.range' next current.length) (next + current.length)
              steps s = attributed (List.range' next current.length) (next + current.length)
                other s := same
          rw [ih (by simpa using nonempty) (fun s hs => (List.mem_range'_1.mp hs).2)
            (by simpa using count) later]
      | .fork, .evaluate ref :: other =>
          rw [attributed_fork_eq_nil steps (lt s hs), attributed_evaluate, if_pos hs] at here
          exact absurd here (List.cons_ne_nil _ _).symm
      | .evaluate ref, [] =>
          rw [attributed_evaluate, if_pos hs] at here
          exact absurd here (List.cons_ne_nil _ _)
      | .evaluate ref, .fork :: other =>
          rw [attributed_fork_eq_nil other (lt s hs), attributed_evaluate, if_pos hs] at here
          exact absurd here (List.cons_ne_nil _ _)
      | .evaluate ref, .evaluate ref' :: other =>
          rw [attributed_evaluate, attributed_evaluate, if_pos hs, if_pos hs] at here
          obtain ⟨rfl, -⟩ := List.cons.inj here
          refine congrArg _ (ih nonempty lt (by simpa using count) fun t => ?_)
          have there := same t
          rw [attributed_evaluate, attributed_evaluate] at there
          split at there
          · exact (List.cons.inj there).2
          · exact there

/-! ## What the rules record -/

/-- The evaluation as the rules record it: an outermost assignment is recorded when
it is left, after all its forks. -/
def recordedSteps (forkingAsResult : Bool) (p : Position) : Expr → List Step
  | .literal => []
  | .identifier ref => [.evaluate ⟨ref, p⟩]
  | .assignment left right => forksFirst (evaluate false p (.assignment left right))
  | .logical left right =>
    recordedSteps true (0 :: p) left ++ .fork :: (recordedSteps true (1 :: p) right ++
      if forkingAsResult then [] else [.fork])
  | .conditional test consequent alternate =>
    recordedSteps true (0 :: p) test ++ .fork :: (recordedSteps false (1 :: p) consequent ++
      .fork :: (recordedSteps false (2 :: p) alternate ++ [.fork]))
  | .binary left right => recordedSteps false (0 :: p) left ++ recordedSteps false (1 :: p) right

theorem recordedSteps_perm (forkingAsResult : Bool) (p : Position) (e : Expr) :
    (recordedSteps forkingAsResult p e).Perm (evaluate forkingAsResult p e) := by
  induction e generalizing forkingAsResult p with
  | literal => exact .nil
  | identifier ref => exact .refl _
  | assignment left right _ => exact forksFirst_perm _
  | logical left right ihl ihr => exact (ihl _ _).append (((ihr _ _).append_right _).cons _)
  | conditional test consequent alternate iht ihc iha =>
      exact (iht _ _).append (((ihc _ _).append (((iha _ _).append_right _).cons _)).cons _)
  | binary left right ihl ihr => exact (ihl _ _).append (ihr _ _)

private theorem append_eq_iff {a b c d : List Step} (length : a.length = b.length) :
    a ++ c = b ++ d ↔ a = b ∧ c = d :=
  ⟨fun same => List.append_inj same length, fun ⟨first, second⟩ => by rw [first, second]⟩

theorem recordedSteps_eq_iff (forkingAsResult : Bool) (p : Position) (e : Expr) :
    recordedSteps forkingAsResult p e = evaluate forkingAsResult p e ↔ Attributable p e := by
  induction e generalizing forkingAsResult p with
  | literal => simp [recordedSteps, evaluate, Attributable]
  | identifier ref => simp [recordedSteps, evaluate, Attributable]
  | assignment left right _ =>
      apply (forksFirst_eq_iff (evaluate false p (.assignment left right))).trans
      rw [evaluate, ForksFirst, List.pairwise_append]
      simp [Attributable, ForksFirst]
  | logical left right ihl ihr =>
      rw [recordedSteps, evaluate, append_eq_iff (recordedSteps_perm _ _ _).length_eq,
        List.cons_inj_right, append_eq_iff (recordedSteps_perm _ _ _).length_eq, ihl, ihr,
        Attributable]
      simp only [and_true]
  | conditional test consequent alternate iht ihc iha =>
      rw [recordedSteps, evaluate, append_eq_iff (recordedSteps_perm _ _ _).length_eq,
        List.cons_inj_right, append_eq_iff (recordedSteps_perm _ _ _).length_eq,
        List.cons_inj_right, append_eq_iff (recordedSteps_perm _ _ _).length_eq, iht, ihc, iha,
        Attributable]
      simp only [and_true]
  | binary left right ihl ihr =>
      rw [recordedSteps, evaluate, append_eq_iff (recordedSteps_perm _ _ _).length_eq, ihl, ihr,
        Attributable]

/-! ## The handlers inside an assignment -/

theorem findSide_left (node : Position) : findSide node (0 :: node) = some .lhs := by
  simp [findSide]

/-- Everything below the right child is on the right-hand side. -/
theorem findSide_right {node p : Position} (h : 1 :: node <:+ p) :
    findSide node p = some .rhs := by
  obtain ⟨q, rfl⟩ := h
  induction q with
  | nil => simp [findSide]
  | cons i q ih =>
      have longer (j : ℕ) : i :: (q ++ 1 :: node) ≠ j :: node := fun same => by
        have := congrArg List.length same
        simp at this
        omega
      rw [List.cons_append, findSide, if_neg (longer 0), if_neg (longer 1), ih]

/-- References below the node are handed to the right-hand side of the context. -/
theorem foldlM_processReference {context : Context} {rest : List Context} {segments : Segments}
    {refs : List LocatedReference} (below : ∀ ref ∈ refs, 1 :: context.node <:+ ref.identifier) :
    refs.foldlM processReference ⟨context :: rest, segments⟩ =
      .ok ⟨{ context with rhs := refs.foldl OrderedSet.add context.rhs } :: rest, segments⟩ := by
  induction refs generalizing context with
  | nil => rfl
  | cons ref refs ih =>
      rw [List.forall_mem_cons] at below
      have added : processReference ⟨context :: rest, segments⟩ ref =
          .ok ⟨{ context with rhs := context.rhs.add ref } :: rest, segments⟩ := by
        simp only [processReference, Context.add, findSide_right below.1]
        rfl
      rw [List.foldlM_cons, added]
      exact ih below.2

/-- Outside of all assignments, references go to the current segments. -/
theorem foldlM_processReference_nil (segments : Segments) (refs : List LocatedReference) :
    refs.foldlM processReference ⟨[], segments⟩ =
      .ok ⟨[], refs.foldl Segments.record segments⟩ := by
  induction refs generalizing segments with
  | nil => rfl
  | cons ref refs ih =>
      rw [List.foldlM_cons]
      exact ih (segments.record ref)

private theorem suffix_of_child {i : ℕ} {p q : Position} (h : i :: p <:+ q) : p <:+ q :=
  (List.suffix_cons i p).trans h

/-- The references of an expression lie below it. -/
theorem suffix_of_mem_references {forkingAsResult : Bool} {p : Position} {e : Expr}
    {ref : LocatedReference} (h : ref ∈ references (evaluate forkingAsResult p e)) :
    p <:+ ref.identifier := by
  induction e generalizing forkingAsResult p with
  | literal => cases h
  | identifier ref =>
      obtain rfl := List.mem_singleton.mp h
      exact List.suffix_rfl
  | assignment left right ih =>
      simp only [evaluate, references_append, List.mem_append, references_evaluate, references_nil,
        List.mem_singleton] at h
      obtain inRight | rfl := h
      · exact suffix_of_child (ih inRight)
      · exact List.suffix_cons 0 p
  | logical left right ihl ihr =>
      simp only [evaluate, references_append, List.mem_append, references_fork] at h
      obtain inLeft | inRight | joined := h
      · exact suffix_of_child (ihl inLeft)
      · exact suffix_of_child (ihr inRight)
      · cases forkingAsResult <;> cases joined
  | conditional test consequent alternate iht ihc iha =>
      simp only [evaluate, references_append, List.mem_append, references_fork] at h
      obtain inTest | inConsequent | inAlternate | joined := h
      · exact suffix_of_child (iht inTest)
      · exact suffix_of_child (ihc inConsequent)
      · exact suffix_of_child (iha inAlternate)
      · cases joined
  | binary left right ihl ihr =>
      simp only [evaluate, references_append, List.mem_append] at h
      obtain inLeft | inRight := h
      · exact suffix_of_child (ihl inLeft)
      · exact suffix_of_child (ihr inRight)

/-- Different children have no references in common. -/
theorem disjoint_references {f g : Bool} {i j : ℕ} (ne : i ≠ j) {p : Position} {a b : Expr} :
    (references (evaluate f (i :: p) a)).Disjoint (references (evaluate g (j :: p) b)) := by
  intro ref inA inB
  have same := List.suffix_of_suffix_length_le (suffix_of_mem_references inA)
    (suffix_of_mem_references inB) (by simp)
  exact ne (List.cons.inj (same.eq_of_length (by simp))).1

/-- No reference is evaluated twice. -/
theorem nodup_references (forkingAsResult : Bool) (p : Position) (e : Expr) :
    (references (evaluate forkingAsResult p e)).Nodup := by
  induction e generalizing forkingAsResult p with
  | literal => exact List.nodup_nil
  | identifier ref => exact List.nodup_singleton _
  | assignment left right ih =>
      rw [evaluate, references_append]
      have target : (references (evaluate false (1 :: p) right)).Disjoint
          (references (evaluate false (0 :: p) (.identifier left))) :=
        disjoint_references (by decide)
      exact (ih _ _).append (List.nodup_singleton _) target
  | logical left right ihl ihr =>
      have joined : references (if forkingAsResult then [] else [.fork]) = [] := by
        cases forkingAsResult <;> rfl
      rw [evaluate, references_append, references_fork, references_append, joined, List.append_nil]
      exact (ihl _ _).append (ihr _ _) (disjoint_references (by decide))
  | conditional test consequent alternate iht ihc iha =>
      simp only [evaluate, references_append, references_fork, references_nil, List.append_nil]
      apply (iht _ _).append ((ihc _ _).append (iha _ _) (disjoint_references (by decide)))
      exact List.disjoint_append_right.mpr
        ⟨disjoint_references (by decide), disjoint_references (by decide)⟩
  | binary left right ihl ihr =>
      rw [evaluate, references_append]
      exact (ihl _ _).append (ihr _ _) (disjoint_references (by decide))

theorem run_append (events later : List Event) (state : State) :
    run (events ++ later) state = run events state >>= run later :=
  List.foldlM_append

theorem run_singleton (event : Event) (state : State) : run [event] state = handle state event := by
  simp [run]

/-- The context after references were added to its right-hand side. -/
def Context.buffer (context : Context) (refs : List LocatedReference) : Context :=
  { context with rhs := refs.foldl OrderedSet.add context.rhs }

/-- Inside the right-hand side of the assignment `node`, the events have the effect
of the steps: they fork, and the references go to the context. -/
def Buffers (node : Position) (events : List Event) (steps : List Step) : Prop :=
  ∀ context rest segments, context.node = node →
    run events ⟨context :: rest, segments⟩ = .ok ⟨context.buffer (references steps) :: rest,
      Segments.start^[steps.count .fork] segments⟩

namespace Buffers

variable {node : Position} {events later : List Event} {steps more : List Step}

theorem nil : Buffers node [] [] := fun _ _ _ _ => rfl

theorem fork : Buffers node [.fork] [.fork] := fun _ _ _ _ => rfl

theorem append (first : Buffers node events steps) (second : Buffers node later more) :
    Buffers node (events ++ later) (steps ++ more) := by
  intro context rest segments hnode
  rw [run_append, first context rest segments hnode]
  apply (second (context.buffer (references steps)) rest _ hnode).trans
  rw [references_append, Context.buffer, Context.buffer, Context.buffer, List.foldl_append,
    List.count_append, Nat.add_comm, Function.iterate_add_apply]

theorem cons_fork (h : Buffers node events steps) :
    Buffers node (.fork :: events) (.fork :: steps) :=
  fork.append h

end Buffers

/-- An assignment, on any stack: when it is left, its context holds the references
of its right-hand side and its target. -/
theorem run_assignment {p : Position} {left : Reference} {right : Expr}
    (buffers : Buffers p (traverse false (1 :: p) right) (evaluate false (1 :: p) right))
    (forkingAsResult : Bool) (stack : List Context) (segments : Segments) :
    run (traverse forkingAsResult p (.assignment left right)) ⟨stack, segments⟩ =
      popAssignmentContext ⟨⟨p, OrderedSet.empty.add ⟨left, 0 :: p⟩,
        OrderedSet.ofList (references (evaluate false (1 :: p) right))⟩ :: stack,
        Segments.start^[(evaluate false (1 :: p) right).count .fork] segments⟩ := by
  have target : processReference ⟨⟨p, .empty, .empty⟩ :: stack, segments⟩ ⟨left, 0 :: p⟩ =
      .ok ⟨⟨p, OrderedSet.empty.add ⟨left, 0 :: p⟩, .empty⟩ :: stack, segments⟩ := by
    simp only [processReference, Context.add, findSide_left]
    rfl
  show (processReference ⟨⟨p, .empty, .empty⟩ :: stack, segments⟩ ⟨left, 0 :: p⟩ >>=
    run (traverse false (1 :: p) right ++ [.exitAssignment])) = _
  rw [target]
  show run (traverse false (1 :: p) right ++ [.exitAssignment]) _ = _
  rw [run_append, buffers _ stack segments rfl]
  exact run_singleton .exitAssignment _

/-- The references of an assignment are handed on in the order of its evaluation. -/
theorem popAssignmentContext_eq (p : Position) (left : LocatedReference) (right : Expr)
    (stack : List Context) (segments : Segments) :
    popAssignmentContext ⟨⟨p, OrderedSet.empty.add left,
        OrderedSet.ofList (references (evaluate false (1 :: p) right))⟩ :: stack, segments⟩ =
      (references (evaluate false (1 :: p) right) ++ [left]).foldlM processReference
        ⟨stack, segments⟩ := by
  rw [popAssignmentContext]
  simp only [OrderedSet.elems_ofList (nodup_references false (1 :: p) right)]
  exact List.foldlM_append.symm

/-- A nested assignment is handed on to the context around it. -/
theorem buffers_assignment {node p : Position} (inside : 1 :: node <:+ p) {left : Reference}
    {right : Expr}
    (buffers : Buffers p (traverse false (1 :: p) right) (evaluate false (1 :: p) right))
    (forkingAsResult : Bool) :
    Buffers node (traverse forkingAsResult p (.assignment left right))
      (evaluate forkingAsResult p (.assignment left right)) := by
  rintro context rest segments rfl
  have below : ∀ ref ∈ references (evaluate forkingAsResult p (.assignment left right)),
      1 :: context.node <:+ ref.identifier :=
    fun ref member => inside.trans (suffix_of_mem_references member)
  rw [evaluate, references_append] at below
  rw [run_assignment buffers, popAssignmentContext_eq, evaluate, references_append,
    List.count_append]
  exact foldlM_processReference below

/-- Inside an assignment a whole expression is buffered, in the order of its
evaluation. -/
theorem buffers_traverse (forkingAsResult : Bool) {node p : Position} (inside : 1 :: node <:+ p)
    (e : Expr) :
    Buffers node (traverse forkingAsResult p e) (evaluate forkingAsResult p e) := by
  induction e generalizing forkingAsResult node p with
  | literal => exact .nil
  | identifier ref =>
      rintro context rest segments rfl
      have added : processReference ⟨context :: rest, segments⟩ ⟨ref, p⟩ =
          .ok ⟨{ context with rhs := context.rhs.add ⟨ref, p⟩ } :: rest, segments⟩ := by
        simp only [processReference, Context.add, findSide_right inside]
        rfl
      rw [traverse, run, List.foldlM_cons, handle, added]
      rfl
  | assignment left right ih =>
      exact buffers_assignment inside (ih false List.suffix_rfl) forkingAsResult
  | logical left right ihl ihr =>
      have child (i : ℕ) : 1 :: node <:+ i :: p := inside.trans (List.suffix_cons i p)
      have joined : Buffers node (if forkingAsResult then [] else [.fork])
          (if forkingAsResult then [] else [.fork]) := by
        cases forkingAsResult
        · exact .fork
        · exact .nil
      exact (ihl _ (child 0)).append ((ihr _ (child 1)).append joined).cons_fork
  | conditional test consequent alternate iht ihc iha =>
      have child (i : ℕ) : 1 :: node <:+ i :: p := inside.trans (List.suffix_cons i p)
      exact (iht _ (child 0)).append ((ihc _ (child 1)).append
        ((iha _ (child 2)).append .fork).cons_fork).cons_fork
  | binary left right ihl ihr =>
      have child (i : ℕ) : 1 :: node <:+ i :: p := inside.trans (List.suffix_cons i p)
      exact (ihl _ (child 0)).append (ihr _ (child 1))

/-! ## The handlers outside of assignments -/

/-- One step, where there is no assignment around. -/
def Segments.step (segments : Segments) : Step → Segments
  | .fork => segments.start
  | .evaluate ref => segments.record ref

/-- Without an assignment around them, the events have the effect of the steps. -/
def Records (events : List Event) (steps : List Step) : Prop :=
  ∀ segments, run events ⟨[], segments⟩ = .ok ⟨[], steps.foldl Segments.step segments⟩

namespace Records

variable {events later : List Event} {steps more : List Step}

theorem nil : Records [] [] := fun _ => rfl

theorem fork : Records [.fork] [.fork] := fun _ => rfl

theorem append (first : Records events steps) (second : Records later more) :
    Records (events ++ later) (steps ++ more) := by
  intro segments
  rw [run_append, first segments, List.foldl_append]
  exact second _

theorem cons_fork (h : Records events steps) : Records (.fork :: events) (.fork :: steps) :=
  fork.append h

end Records

theorem foldl_step_replicate (k : ℕ) (segments : Segments) :
    (List.replicate k Step.fork).foldl Segments.step segments = Segments.start^[k] segments := by
  induction k generalizing segments with
  | zero => rfl
  | succ k ih => exact ih segments.start

/-- An outermost assignment is recorded as a whole when it is left. -/
theorem records_assignment (p : Position) (left : Reference) (right : Expr)
    (forkingAsResult : Bool) :
    Records (traverse forkingAsResult p (.assignment left right))
      (forksFirst (evaluate false p (.assignment left right))) := by
  intro segments
  rw [run_assignment (buffers_traverse false List.suffix_rfl right), popAssignmentContext_eq,
    foldlM_processReference_nil, forksFirst, evaluate, references_append, List.count_append]
  simp only [List.foldl_append, foldl_step_replicate, List.foldl_map]
  rfl

/-- What the rules record for an expression. -/
theorem records_traverse (forkingAsResult : Bool) (p : Position) (e : Expr) :
    Records (traverse forkingAsResult p e) (recordedSteps forkingAsResult p e) := by
  induction e generalizing forkingAsResult p with
  | literal => exact .nil
  | identifier ref => exact fun _ => rfl
  | assignment left right _ => exact records_assignment p left right forkingAsResult
  | logical left right ihl ihr =>
      have joined : Records (if forkingAsResult then [] else [.fork])
          (if forkingAsResult then [] else [.fork]) := by
        cases forkingAsResult
        · exact .fork
        · exact .nil
      exact (ihl _ _).append ((ihr _ _).append joined).cons_fork
  | conditional test consequent alternate iht ihc iha =>
      exact (iht _ _).append ((ihc _ _).append ((iha _ _).append .fork).cons_fork).cons_fork
  | binary left right ihl ihr => exact (ihl _ _).append (ihr _ _)

/-- Recording the steps of an evaluation adds to each segment what belongs to it. -/
theorem recorded_foldl_step (steps : List Step) (segments : Segments) (s : ℕ) :
    (steps.foldl Segments.step segments).recorded s =
      segments.recorded s ++ attributed segments.current segments.next steps s := by
  induction steps generalizing segments with
  | nil => simp [attributed]
  | cons step steps ih =>
      rw [List.foldl_cons, ih]
      cases step with
      | fork =>
          rw [attributed_fork]
          show (if s ∈ List.range' segments.next segments.current.length then []
            else segments.recorded s) ++ _ = _
          split
          · -- a new segment has no references yet
            rename_i member
            rw [segments.unrecorded s (List.mem_range'_1.mp member).1]
            rfl
          · rfl
      | evaluate ref =>
          rw [attributed_evaluate]
          show (if s ∈ segments.current then segments.recorded s ++ [ref]
            else segments.recorded s) ++ attributed segments.current segments.next steps s = _
          split <;> simp

/-- The rules always process an expression to its end, and they add each reference
to the segments that are current when it is evaluated, in the order of evaluation,
exactly if the right-hand side of each outermost assignment evaluates its references
after its last fork. -/
theorem references_attributed_iff (e : Expr) (forkingAsResult : Bool) (segments : Segments) :
    ∃ final, run (traverse forkingAsResult [] e) ⟨[], segments⟩ = .ok ⟨[], final⟩ ∧
      ((∀ s, final.recorded s = segments.recorded s ++
          attributed segments.current segments.next (evaluate forkingAsResult [] e) s) ↔
        Attributable [] e) := by
  refine ⟨_, records_traverse forkingAsResult [] e segments, ?_⟩
  rw [← recordedSteps_eq_iff forkingAsResult]
  constructor
  · intro same
    refine eq_of_attributed_eq segments.nonempty segments.current_lt
      ((recordedSteps_perm _ _ _).count_eq _) fun s => ?_
    have here := same s
    rw [recorded_foldl_step] at here
    exact List.append_cancel_left here
  · intro same s
    rw [recorded_foldl_step, same]

private def referenceTo (id : ℕ) (name : String) (isWrite : Bool) : Reference :=
  { id, resolved := some { id, name }, isRead := !isWrite, isWrite }

/-- `x = a && (y = 1)` -/
private def conditionalWrite : Expr :=
  .assignment (referenceTo 0 "x" true)
    (.logical (.identifier (referenceTo 1 "a" false))
      (.assignment (referenceTo 2 "y" true) .literal))

private def firstSegment : Segments :=
  ⟨[0], 1, fun _ => [], by decide, by decide, fun _ _ => rfl⟩

/-- The write of `y` belongs to the segment `1` of the right operand. It is recorded
for the segment `2` after the join, which is also reached when `a` is false. -/
theorem conditionalWrite_not_attributed :
    ¬ ∀ final, run (traverse false [] conditionalWrite) ⟨[], firstSegment⟩ = .ok ⟨[], final⟩ →
      ∀ s, final.recorded s = firstSegment.recorded s ++ attributed firstSegment.current
        firstSegment.next (evaluate false [] conditionalWrite) s := by
  intro attributes
  have wrong := attributes _ (records_traverse false [] conditionalWrite firstSegment) 1
  exact absurd wrong (by decide)

end AssignmentContext

end SonarJS
