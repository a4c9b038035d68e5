import Mathlib.Algebra.Ring.Int.Defs
import SonarJS.Foundation.Action
import SonarJS.Regex.Locations
import SonarJS.Regex.Syntax

/-!
# The complexity of a regular expression

`ComplexityCalculator` walks over the syntax tree and counts. The nesting is raised and
lowered by the handlers of the visitor, a part of the counter that every subtree has to
restore. What is counted for a node depends on the nesting where it stands: it is given
here by recursion on the tree as well, and both agree.
-/

namespace SonarJS.Regex.Complexity

/-! ## The calculator -/

/-- The literal that a regular expression is written in: the node, the beginning of its
range and its location. -/
structure RegexPart (Position : Type) where
  node : PatternNode
  start : ℕ
  loc : Position × Position

structure Component (Position : Type) where
  location : Position × Position
  message : String

structure ComplexityCalculator (Position : Type) where
  nesting : ℤ := 1
  complexity : ℤ := 0
  components : List (Component Position) := []

/-- `getLocFromIndex` of ESLint, and the literal. -/
structure Setting (Position : Type) where
  getLocFromIndex : ℤ → Except Failure Position
  regexPart : RegexPart Position

variable {Position : Type} (setting : Setting Position)

abbrev Calculation (Position : Type) := EStateM Failure (ComplexityCalculator Position)

def rangeOf (node : Node) : Except Failure (ℕ × ℕ) :=
  getRegexpRange setting.regexPart.node node.span.start node.span.last

def getRegexpLocation (node : Node) (offset : ℤ × ℤ) : Except Failure (Position × Position) :=
  match setting.regexPart.node with
  | .regexLiteral | .stringLiteral _ _ _ => do
    let (reStart, reEnd) ← rangeOf setting node
    let start ← setting.getLocFromIndex (setting.regexPart.start + reStart + offset.1)
    let last ← setting.getLocFromIndex (setting.regexPart.start + reEnd + offset.2)
    return (start, last)
  | _ => .ok setting.regexPart.loc

def message (increment : ℤ) : String :=
  "+" ++ toString increment ++
    if increment > 1 then " (incl " ++ toString (increment - 1) ++ " for nesting)" else ""

def increaseComplexity (increment : ℤ) (node : Node) (offset : ℤ × ℤ) :
    Calculation Position Unit := do
  modify fun calculator => { calculator with complexity := calculator.complexity + increment }
  let location ← Action.ofExcept (getRegexpLocation setting node offset)
  modify fun calculator =>
    { calculator with components := calculator.components ++ [⟨location, message increment⟩] }

def changeNesting (change : ℤ) : Calculation Position Unit :=
  modify fun calculator => { calculator with nesting := calculator.nesting + change }

/-- The loop of `onDisjunctionEnter`. -/
def countAlternatives (increment : ℤ) : List Node → Calculation Position Unit
  | _ :: second :: rest => do
    let (start, last) ← Action.ofExcept (rangeOf setting second)
    increaseComplexity setting increment second (-1, -(last - start))
    countAlternatives 1 (second :: rest)
  | _ => pure ()

def onDisjunctionEnter (alternatives : List Node) : Calculation Position Unit :=
  if alternatives.length > 1 then do
    let calculator ← get
    countAlternatives setting calculator.nesting alternatives
    changeNesting 1
  else pure ()

def onDisjunctionLeave (alternatives : List Node) : Calculation Position Unit :=
  if alternatives.length > 1 then changeNesting (-1) else pure ()

/-- The length of `?=` and of `?<=`. -/
def openingLength : LookaroundKind → ℤ
  | .lookahead => 2
  | .lookbehind => 3

def enter (node : Node) : Calculation Position Unit :=
  match node with
  | .lookaround _ kind alternatives => do
    let (start, last) ← Action.ofExcept (rangeOf setting node)
    let calculator ← get
    increaseComplexity setting calculator.nesting node (0, -(last - start - 1) + openingLength kind)
    changeNesting 1
    onDisjunctionEnter setting alternatives
  | .backreference _ => increaseComplexity setting 1 node (0, 0)
  | .capturingGroup _ alternatives | .group _ alternatives | .pattern _ alternatives =>
    onDisjunctionEnter setting alternatives
  | .characterClass _ _ => do
    let (start, last) ← Action.ofExcept (rangeOf setting node)
    increaseComplexity setting 1 node (0, -(last - start - 1))
    changeNesting 1
  | .quantifier _ _ _ element => do
    let (start, _) ← Action.ofExcept (rangeOf setting node)
    let (_, last) ← Action.ofExcept (rangeOf setting element)
    let calculator ← get
    increaseComplexity setting calculator.nesting node (last - start, 0)
    changeNesting 1
  | _ => pure ()

def leave (node : Node) : Calculation Position Unit :=
  match node with
  | .lookaround _ _ alternatives => do
    onDisjunctionLeave alternatives
    changeNesting (-1)
  | .capturingGroup _ alternatives | .group _ alternatives | .pattern _ alternatives =>
    onDisjunctionLeave alternatives
  | .characterClass _ _ | .quantifier _ _ _ _ => changeNesting (-1)
  | _ => pure ()

/-- `visit`. There is no tree if the regular expression is not valid. -/
def visit (regexpp : Visitor Failure (ComplexityCalculator Position)) :
    Option Node → Calculation Position Unit
  | none => pure ()
  | some regexPartAST => regexpp.visitRegExpAST regexPartAST ⟨enter setting, leave⟩

/-! ## The complexity by recursion -/

/-- What a disjunction adds, and what it adds to the nesting of its alternatives. -/
def disjunction (nesting : ℤ) (alternatives : List Node) : ℤ :=
  if alternatives.length ≥ 2 then nesting + (alternatives.length - 2) else 0

def nestingOf (alternatives : List Node) : ℤ := if alternatives.length ≥ 2 then 1 else 0

mutual

/-- The complexity of a node under some nesting. -/
def complexityOf (nesting : ℤ) : Node → ℤ
  | .lookaround _ _ alternatives =>
    nesting + disjunction (nesting + 1) alternatives +
      complexityOfAll (nesting + 1 + nestingOf alternatives) alternatives
  | .pattern _ alternatives | .group _ alternatives | .capturingGroup _ alternatives =>
    disjunction nesting alternatives +
      complexityOfAll (nesting + nestingOf alternatives) alternatives
  | .quantifier _ _ _ element => nesting + complexityOf (nesting + 1) element
  | .characterClass _ elements => 1 + complexityOfAll (nesting + 1) elements
  | .backreference _ => 1
  | .regExpLiteral _ pattern flags => complexityOf nesting pattern + complexityOf nesting flags
  | .alternative _ elements => complexityOfAll nesting elements
  | .characterClassRange _ min max => complexityOf nesting min + complexityOf nesting max
  | .flags _ | .assertion _ | .characterSet _ | .character _ _ => 0

def complexityOfAll (nesting : ℤ) : List Node → ℤ
  | [] => 0
  | node :: nodes => complexityOf nesting node + complexityOfAll nesting nodes

end

/-- The quantifier counts 1, the two alternatives 2 and the back reference 1. -/
example (span : Span) :
    complexityOf 1 (.quantifier span 0 none (.group span [.alternative span [],
      .alternative span [.backreference span]])) = 4 := rfl

/-- The second alternative counts for the nesting, each further one for itself. -/
def disjunctionIncrements (nesting : ℤ) : List Node → List ℤ
  | _ :: _ :: rest => nesting :: rest.map fun _ => 1
  | _ => []

mutual

/-- The increments of a node, in the order of the components. -/
def increments (nesting : ℤ) : Node → List ℤ
  | .lookaround _ _ alternatives =>
    nesting :: (disjunctionIncrements (nesting + 1) alternatives ++
      incrementsOfAll (nesting + 1 + nestingOf alternatives) alternatives)
  | .pattern _ alternatives | .group _ alternatives | .capturingGroup _ alternatives =>
    disjunctionIncrements nesting alternatives ++
      incrementsOfAll (nesting + nestingOf alternatives) alternatives
  | .quantifier _ _ _ element => nesting :: increments (nesting + 1) element
  | .characterClass _ elements => 1 :: incrementsOfAll (nesting + 1) elements
  | .backreference _ => [1]
  | .regExpLiteral _ pattern flags => increments nesting pattern ++ increments nesting flags
  | .alternative _ elements => incrementsOfAll nesting elements
  | .characterClassRange _ min max => increments nesting min ++ increments nesting max
  | .flags _ | .assertion _ | .characterSet _ | .character _ _ => []

def incrementsOfAll (nesting : ℤ) : List Node → List ℤ
  | [] => []
  | node :: nodes => increments nesting node ++ incrementsOfAll nesting nodes

end

theorem sum_disjunctionIncrements (nesting : ℤ) (alternatives : List Node) :
    (disjunctionIncrements nesting alternatives).sum = disjunction nesting alternatives := by
  match alternatives with
  | [] => rfl
  | [_] => rfl
  | _ :: _ :: rest =>
      have several : (rest.length + 1 + 1 : ℕ) ≥ 2 := Nat.le_add_left 2 rest.length
      simp only [disjunctionIncrements, disjunction, List.length_cons, List.sum_cons, several,
        if_true, List.map_const', List.sum_replicate_int]
      omega

theorem nestingOf_of_several {alternatives : List Node} (several : alternatives.length > 1) :
    nestingOf alternatives = 1 :=
  if_pos several

theorem nestingOf_of_single {alternatives : List Node} (single : ¬ alternatives.length > 1) :
    nestingOf alternatives = 0 :=
  if_neg single

theorem disjunctionIncrements_of_single (nesting : ℤ) {alternatives : List Node}
    (single : ¬ alternatives.length > 1) : disjunctionIncrements nesting alternatives = [] := by
  match alternatives with
  | [] => rfl
  | [_] => rfl
  | _ :: _ :: rest => exact (single (Nat.le_add_left 2 rest.length)).elim

mutual

theorem sum_increments (nesting : ℤ) : ∀ node, (increments nesting node).sum =
    complexityOf nesting node
  | .lookaround _ _ alternatives => by
      rw [increments, complexityOf, List.sum_cons, List.sum_append, sum_disjunctionIncrements,
        sum_incrementsOfAll]
      exact (Int.add_assoc _ _ _).symm
  | .pattern _ alternatives | .group _ alternatives | .capturingGroup _ alternatives => by
      rw [increments, complexityOf, List.sum_append, sum_disjunctionIncrements,
        sum_incrementsOfAll]
  | .quantifier _ _ _ element => by
      rw [increments, complexityOf, List.sum_cons, sum_increments]
  | .characterClass _ elements => by
      rw [increments, complexityOf, List.sum_cons, sum_incrementsOfAll]
  | .backreference _ => rfl
  | .regExpLiteral _ pattern flags => by
      rw [increments, complexityOf, List.sum_append, sum_increments, sum_increments]
  | .alternative _ elements => by
      rw [increments, complexityOf, sum_incrementsOfAll]
  | .characterClassRange _ min max => by
      rw [increments, complexityOf, List.sum_append, sum_increments, sum_increments]
  | .flags _ | .assertion _ | .characterSet _ | .character _ _ => rfl

theorem sum_incrementsOfAll (nesting : ℤ) : ∀ nodes, (incrementsOfAll nesting nodes).sum =
    complexityOfAll nesting nodes
  | [] => rfl
  | node :: nodes => by
      rw [incrementsOfAll, complexityOfAll, List.sum_append, sum_increments, sum_incrementsOfAll]

end

theorem incrementsOfAll_eq_flatMap (nesting : ℤ) (nodes : List Node) :
    incrementsOfAll nesting nodes = nodes.flatMap (increments nesting) := by
  induction nodes with
  | nil => rfl
  | cons node nodes ih => rw [incrementsOfAll, List.flatMap_cons, ih]

/-! ## What an action counts -/

/-- The exception of a lookup of a range or of a location, for a node of a tree. -/
inductive LookupFails (root : Node) : Failure → Prop
  | range {node : Node} {failure : Failure} (within : root.Within node)
      (thrown : rangeOf setting node = .error failure) : LookupFails root failure
  | location {index : ℤ} {failure : Failure}
      (thrown : setting.getLocFromIndex index = .error failure) : LookupFails root failure

/-- What was added to the counters, and to the components. -/
structure Counted (before after : ComplexityCalculator Position) (change : ℤ)
    (increments : List ℤ) : Prop where
  nesting : after.nesting = before.nesting + change
  complexity : after.complexity = before.complexity + increments.sum
  messages : after.components.map Component.message =
    before.components.map Component.message ++ increments.map message

theorem Counted.trans {before between after : ComplexityCalculator Position} {change change' : ℤ}
    {l l' : List ℤ} (first : Counted before between change l)
    (second : Counted between after change' l') :
    Counted before after (change + change') (l ++ l') where
  nesting := by rw [second.nesting, first.nesting, Int.add_assoc]
  complexity := by rw [second.complexity, first.complexity, List.sum_append, Int.add_assoc]
  messages := by rw [second.messages, first.messages, List.map_append, List.append_assoc]

/-- What an action counts under each nesting, unless a lookup fails. -/
def Counts (root : Node) (action : Calculation Position Unit) (change : ℤ)
    (increments : ℤ → List ℤ) : Prop :=
  ∀ before, Action.wp action
    (fun _ after => Counted before after change (increments before.nesting))
    (fun failure _ => LookupFails setting root failure) before

section Counts

variable {setting} {root node : Node} {action action' : Calculation Position Unit}
  {change change' : ℤ} {l l' : ℤ → List ℤ}

theorem Counts.pure : Counts setting root (pure ()) 0 fun _ => [] := by
  intro before
  exact ⟨(Int.add_zero _).symm, (Int.add_zero _).symm, (List.append_nil _).symm⟩

theorem Counts.bind (h : Counts setting root action change l)
    (h' : Counts setting root action' change' l') :
    Counts setting root (do action; action') (change + change')
      fun nesting => l nesting ++ l' (nesting + change) := by
  intro before
  rw [Action.wp_bind]
  refine Action.wp_mono (h before) (fun _ between first => ?_) fun _ _ fails => fails
  refine Action.wp_mono (h' between) (fun _ after second => ?_) fun _ _ fails => fails
  rw [first.nesting] at second
  exact first.trans second

theorem Counts.congr (h : Counts setting root action change l) (same : change = change')
    (same' : ∀ nesting, l nesting = l' nesting) : Counts setting root action change' l' := by
  obtain rfl := same
  obtain rfl := funext same'
  exact h

/-- Nothing is counted by looking up a range. -/
theorem Counts.rangeOf {next : ℕ × ℕ → Calculation Position Unit} (within : root.Within node)
    (h : ∀ range, Counts setting root (next range) change l) :
    Counts setting root (do next (← Action.ofExcept (rangeOf setting node))) change l := by
  intro before
  rw [Action.wp_bind, Action.wp_ofExcept]
  exact ⟨fun range _ => h range before, fun _ thrown => .range within thrown⟩

/-- An action that reads the nesting counts what it does when started there. -/
theorem Counts.get {next : ComplexityCalculator Position → Calculation Position Unit}
    (h : ∀ calculator, ∃ l', Counts setting root (next calculator) change l' ∧
      l' calculator.nesting = l calculator.nesting) :
    Counts setting root (do next (← MonadState.get)) change l := by
  intro before
  obtain ⟨l', counts, same⟩ := h before
  rw [Action.wp_bind, ← same]
  exact counts before

theorem counts_changeNesting (change : ℤ) :
    Counts setting root (changeNesting change) change fun _ => [] := by
  intro before
  rw [changeNesting, Action.wp_modify]
  exact ⟨rfl, (Int.add_zero _).symm, (List.append_nil _).symm⟩

theorem forM_counts {nodes : List Node} {visit : Node → Calculation Position Unit}
    {l : Node → ℤ → List ℤ} (h : ∀ node ∈ nodes, Counts setting root (visit node) 0 (l node)) :
    Counts setting root (forM nodes visit) 0 fun nesting => nodes.flatMap (l · nesting) := by
  induction nodes with
  | nil => exact .pure
  | cons node nodes ih =>
      obtain ⟨first, rest⟩ := List.forall_mem_cons.mp h
      rw [List.forM_cons]
      refine (first.bind (ih rest)).congr rfl fun nesting => ?_
      rw [Int.add_zero, List.flatMap_cons]

/-- A location is not found if a lookup fails. -/
theorem lookupFails_of_getRegexpLocation (within : root.Within node) {offset : ℤ × ℤ}
    {failure : Failure} (thrown : getRegexpLocation setting node offset = .error failure) :
    LookupFails setting root failure := by
  unfold getRegexpLocation at thrown
  split at thrown
  case h_3 => cases thrown
  all_goals
    obtain thrown | ⟨_, -, thrown⟩ := Action.except_bind_eq_error.mp thrown
    · exact .range within thrown
    · obtain thrown | ⟨_, -, thrown⟩ := Action.except_bind_eq_error.mp thrown
      · exact .location thrown
      · obtain thrown | ⟨_, -, thrown⟩ := Action.except_bind_eq_error.mp thrown
        · exact .location thrown
        · cases thrown

theorem counts_increaseComplexity (within : root.Within node) (increment : ℤ) (offset : ℤ × ℤ) :
    Counts setting root (increaseComplexity setting increment node offset) 0
      fun _ => [increment] := by
  intro before
  rw [increaseComplexity, Action.wp_bind, Action.wp_modify, Action.wp_bind, Action.wp_ofExcept]
  refine ⟨fun location _ => ?_, fun _ thrown => lookupFails_of_getRegexpLocation within thrown⟩
  rw [Action.wp_modify]
  exact ⟨(Int.add_zero _).symm, by simp, by simp⟩

theorem counts_countAlternatives {alternatives : List Node}
    (within : ∀ alternative ∈ alternatives, root.Within alternative) (increment : ℤ) :
    Counts setting root (countAlternatives setting increment alternatives) 0
      fun _ => disjunctionIncrements increment alternatives := by
  fun_induction countAlternatives setting increment alternatives with
  | case1 increment first second rest ih =>
      obtain ⟨-, others⟩ := List.forall_mem_cons.mp within
      have here := others second List.mem_cons_self
      refine .rangeOf here fun range => ?_
      refine ((counts_increaseComplexity here _ _).bind (ih others)).congr rfl fun _ => ?_
      cases rest with
      | nil => rfl
      | cons third rest => rfl
  | case2 alternatives increment single =>
      refine Counts.pure.congr rfl fun _ => ?_
      match alternatives with
      | [] => rfl
      | [_] => rfl
      | first :: second :: rest => exact (single first second rest rfl).elim

theorem counts_onDisjunctionEnter {alternatives : List Node}
    (within : ∀ alternative ∈ alternatives, root.Within alternative) :
    Counts setting root (onDisjunctionEnter setting alternatives) (nestingOf alternatives)
      fun nesting => disjunctionIncrements nesting alternatives := by
  by_cases several : alternatives.length > 1
  · rw [onDisjunctionEnter, if_pos several, nestingOf_of_several several]
    have body (nesting : ℤ) := (@counts_countAlternatives _ setting _ _ within nesting).bind
      (counts_changeNesting 1)
    exact .get fun calculator => ⟨_, body _, List.append_nil _⟩
  · rw [onDisjunctionEnter, if_neg several, nestingOf_of_single several]
    refine Counts.pure.congr rfl fun nesting => ?_
    exact (disjunctionIncrements_of_single nesting several).symm

theorem counts_onDisjunctionLeave (alternatives : List Node) :
    Counts setting root (onDisjunctionLeave alternatives) (-nestingOf alternatives)
      fun _ => [] := by
  by_cases several : alternatives.length > 1
  · rw [onDisjunctionLeave, if_pos several, nestingOf_of_several several]
    exact counts_changeNesting (-1)
  · rw [onDisjunctionLeave, if_neg several, nestingOf_of_single several]
    exact .pure

/-! ## The handlers -/

/-- What is counted when a node is entered, and how the nesting changes. -/
def entered (nesting : ℤ) : Node → List ℤ
  | .lookaround _ _ alternatives => nesting :: disjunctionIncrements (nesting + 1) alternatives
  | .pattern _ alternatives | .group _ alternatives | .capturingGroup _ alternatives =>
    disjunctionIncrements nesting alternatives
  | .quantifier _ _ _ _ => [nesting]
  | .characterClass _ _ | .backreference _ => [1]
  | .regExpLiteral _ _ _ | .alternative _ _ | .characterClassRange _ _ _ | .flags _
  | .assertion _ | .characterSet _ | .character _ _ => []

def raised : Node → ℤ
  | .lookaround _ _ alternatives => 1 + nestingOf alternatives
  | .pattern _ alternatives | .group _ alternatives | .capturingGroup _ alternatives =>
    nestingOf alternatives
  | .quantifier _ _ _ _ | .characterClass _ _ => 1
  | .regExpLiteral _ _ _ | .alternative _ _ | .characterClassRange _ _ _ | .flags _
  | .assertion _ | .characterSet _ | .character _ _ | .backreference _ => 0

theorem counts_enter (within : root.Within node) :
    Counts setting root (enter setting node) (raised node) (entered · node) := by
  have below : ∀ child ∈ node.children, root.Within child := fun child => within.child
  cases node with
  | lookaround span kind alternatives =>
      refine .rangeOf within ?_
      rintro ⟨start, last⟩
      have body (nesting : ℤ) (offset : ℤ × ℤ) :=
        (@counts_increaseComplexity _ setting _ _ within nesting offset).bind
          ((counts_changeNesting 1).bind (counts_onDisjunctionEnter below))
      refine .get fun calculator => ⟨_, (body _ _).congr (Int.zero_add _) fun _ => rfl, ?_⟩
      rw [Int.add_zero]
      rfl
  | pattern span alternatives => exact counts_onDisjunctionEnter below
  | group span alternatives => exact counts_onDisjunctionEnter below
  | capturingGroup span alternatives => exact counts_onDisjunctionEnter below
  | quantifier span min max element =>
      refine .rangeOf within ?_
      rintro ⟨start, -⟩
      refine .rangeOf (below element List.mem_cons_self) ?_
      rintro ⟨-, last⟩
      have body (nesting : ℤ) (offset : ℤ × ℤ) :=
        (@counts_increaseComplexity _ setting _ _ within nesting offset).bind
          (counts_changeNesting 1)
      exact .get fun calculator => ⟨_, body _ _, rfl⟩
  | characterClass span elements =>
      refine .rangeOf within ?_
      rintro ⟨start, last⟩
      exact (counts_increaseComplexity within 1 _).bind (counts_changeNesting 1)
  | backreference span => exact counts_increaseComplexity within 1 _
  | regExpLiteral | alternative | characterClassRange | flags | assertion | characterSet
  | character => exact .pure

theorem counts_leave (node : Node) :
    Counts setting root (leave node) (-raised node) fun _ => [] := by
  cases node with
  | lookaround span kind alternatives =>
      refine ((counts_onDisjunctionLeave alternatives).bind (counts_changeNesting (-1))).congr
        (by rw [raised]; omega) fun _ => rfl
  | pattern span alternatives => exact counts_onDisjunctionLeave alternatives
  | group span alternatives => exact counts_onDisjunctionLeave alternatives
  | capturingGroup span alternatives => exact counts_onDisjunctionLeave alternatives
  | quantifier | characterClass => exact counts_changeNesting (-1)
  | backreference | regExpLiteral | alternative | characterClassRange | flags | assertion
  | characterSet | character => exact .pure

/-- The increments of a node are those of its handlers, and those of its children at the
raised nesting. -/
theorem increments_eq (nesting : ℤ) (node : Node) :
    increments nesting node =
      entered nesting node ++ node.children.flatMap (increments (nesting + raised node)) := by
  rw [← incrementsOfAll_eq_flatMap]
  cases node with
  | lookaround span kind alternatives =>
      rw [increments, entered, raised, Node.children, Int.add_assoc]
      rfl
  | pattern | group | capturingGroup => rfl
  | quantifier span min max element =>
      rw [increments, entered, raised, Node.children, incrementsOfAll, incrementsOfAll,
        List.append_nil]
      rfl
  | characterClass => rfl
  | regExpLiteral span pattern flags =>
      rw [increments, entered, raised, Node.children, incrementsOfAll, incrementsOfAll,
        incrementsOfAll, List.append_nil, Int.add_zero]
      rfl
  | characterClassRange span min max =>
      rw [increments, entered, raised, Node.children, incrementsOfAll, incrementsOfAll,
        incrementsOfAll, List.append_nil, Int.add_zero]
      rfl
  | alternative span elements =>
      rw [increments, entered, raised, Node.children, Int.add_zero]
      rfl
  | flags | assertion | characterSet | character | backreference => rfl

theorem counts_visit (regexpp : Visitor Failure (ComplexityCalculator Position))
    (within : root.Within node) :
    Counts setting root (regexpp.visitRegExpAST node ⟨enter setting, leave⟩) 0
      (increments · node) := by
  induction node using Node.induction with
  | step node ih =>
      rw [regexpp.visits]
      have inside := forM_counts fun child member => ih child member (within.child member)
      refine ((counts_enter within).bind (inside.bind (counts_leave node))).congr ?_ ?_
      · omega
      · intro nesting
        rw [increments_eq, List.append_nil]

end Counts

/-! ## The whole run -/

/-- The complexity of the tree of a regular expression, if there is one. -/
def expectedComplexity (ast : Option Node) : ℤ := (ast.map (complexityOf 1)).getD 0

/-- The increments that the components tell, in their order. -/
def expectedIncrements (ast : Option Node) : List ℤ := (ast.map (increments 1)).getD []

/-- A lookup that the tree needs throws. -/
def Throws (ast : Option Node) (failure : Failure) : Prop :=
  ∃ root, ast = some root ∧ LookupFails setting root failure

/-- The calculator restores the nesting and computes the complexity by recursion, which is
the sum of the increments of the components, unless a location is not found. -/
theorem visit_computes (regexpp : Visitor Failure (ComplexityCalculator Position))
    (ast : Option Node) :
    Action.wp (visit setting regexpp ast)
      (fun _ calculator => calculator.nesting = 1 ∧
        calculator.complexity = expectedComplexity ast ∧
        calculator.components.map Component.message = (expectedIncrements ast).map message ∧
        calculator.complexity = (expectedIncrements ast).sum)
      (fun failure _ => Throws setting ast failure) {} := by
  cases ast with
  | none => exact ⟨rfl, rfl, rfl, rfl⟩
  | some root =>
      refine Action.wp_mono (counts_visit regexpp (.refl : root.Within root) {}) ?_ ?_
      · intro _ calculator counted
        have total : calculator.complexity = (increments 1 root).sum := by
          rw [counted.complexity]
          exact Int.zero_add _
        refine ⟨counted.nesting, total.trans (sum_increments 1 root), ?_, total⟩
        exact counted.messages
      · exact fun failure _ fails => ⟨root, rfl, fails⟩

/-- Every node of a regular expression literal is located, as far as the source is. -/
theorem not_throws_of_regexLiteral (isLiteral : setting.regexPart.node = .regexLiteral)
    (located : ∀ index, ∃ position, setting.getLocFromIndex index = .ok position)
    (ast : Option Node) (failure : Failure) : ¬ Throws setting ast failure := by
  rintro ⟨root, -, fails⟩
  cases fails with
  | range within thrown =>
      rw [rangeOf, isLiteral] at thrown
      cases thrown
  | location thrown =>
      obtain ⟨position, found⟩ := located _
      cases found.symm.trans thrown

end SonarJS.Regex.Complexity
