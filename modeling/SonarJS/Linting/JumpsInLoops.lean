import Mathlib.Data.List.Nodup
import SonarJS.Foundation.Forest

/-!
# Jumps in loops

`too-many-break-or-continue-in-loop` counts the `break` and `continue` statements of a loop
while the syntax tree is traversed. Loops, `switch` and labeled statements are the targets of
jumps, and those around the current node are on a stack. A jump is counted at each target up
to its own: without a label, this is the next target without a label.

A `continue` without a label jumps to a loop also from within a `switch`. The rule stops at
the `switch`. This is the only difference between the jumps that it counts at a loop and
those that end an iteration of the loop.
-/

namespace SonarJS.JumpsInLoops

inductive NodeType
  | Program
  | BreakStatement (label : Option String)
  | ContinueStatement (label : Option String)
  | SwitchStatement
  | ForStatement
  | ForInStatement
  | ForOfStatement
  | WhileStatement
  | DoWhileStatement
  | LabeledStatement (label : String)
  | other
deriving DecidableEq

/-- A node without its children. -/
structure Node where
  id : ℕ
  type : NodeType
deriving DecidableEq

abbrev Tree := Forest Node

/-! ## The rule -/

structure JumpTarget where
  label : Option String
  jumps : List Node
deriving DecidableEq

def JumpTarget.new (label : Option String) : JumpTarget := ⟨label, []⟩

/-- An issue at the first token of a loop, with the jumps as secondary locations. -/
structure Report where
  node : Node
  jumps : List Node
deriving DecidableEq

def Report.message : String :=
  "Reduce the total number of \"break\" and \"continue\" statements in this loop to use one " ++
    "at most."

def Report.secondaryMessages (report : Report) : List String :=
  report.jumps.map fun jump =>
    match jump.type with
    | .BreakStatement _ => "\"break\" statement."
    | _ => "\"continue\" statement."

/-- The targets, with the last one in front, and the reports so far. -/
structure State where
  jumpTargets : List JumpTarget
  reports : List Report
deriving DecidableEq

def NodeType.isLoop : NodeType → Bool
  | .ForStatement | .ForInStatement | .ForOfStatement | .WhileStatement | .DoWhileStatement => true
  | _ => false

/-- Of two jump targets around a jump, the inner one comes first. -/
def increateNumberOfJumpsInScopes (jump : Node) (label : Option String) :
    List JumpTarget → List JumpTarget
  | [] => []
  | jumpTarget :: outer =>
    { jumpTarget with jumps := jumpTarget.jumps ++ [jump] } ::
      if label = jumpTarget.label then outer else increateNumberOfJumpsInScopes jump label outer

def enterScope (label : Option String) (state : State) : State :=
  { state with jumpTargets := .new label :: state.jumpTargets }

def leaveScope (state : State) : State :=
  { state with jumpTargets := state.jumpTargets.tail }

def leaveScopeAndCheckNumberOfJumps (node : Node) (state : State) : State :=
  match state.jumpTargets with
  | [] => state
  | jumpTarget :: outer =>
    { jumpTargets := outer
      reports :=
        if 1 < jumpTarget.jumps.length then state.reports ++ [⟨node, jumpTarget.jumps⟩]
        else state.reports }

def enter (node : Node) (state : State) : State :=
  match node.type with
  | .Program => { state with jumpTargets := [] }
  | .BreakStatement label | .ContinueStatement label =>
    { state with jumpTargets := increateNumberOfJumpsInScopes node label state.jumpTargets }
  | .LabeledStatement label => enterScope (some label) state
  | .SwitchStatement => enterScope none state
  | type => if type.isLoop then enterScope none state else state

def exit (node : Node) (state : State) : State :=
  match node.type with
  | .LabeledStatement _ | .SwitchStatement => leaveScope state
  | type => if type.isLoop then leaveScopeAndCheckNumberOfJumps node state else state

/-- The traversal: a node is entered before its children and left after them. -/
def traverse : Tree → State → State
  | .nil, state => state
  | .cons node children siblings, state =>
    traverse siblings (exit node (traverse children (enter node state)))

/-! ## Jumps that leave a statement -/

def NodeType.label? : NodeType → Option String
  | .BreakStatement label | .ContinueStatement label => label
  | _ => none

/-- What `break` and `continue` can have as their target, with its label. -/
def NodeType.target? : NodeType → Option (Option String)
  | .LabeledStatement label => some (some label)
  | .SwitchStatement => some none
  | type => if type.isLoop then some none else none

def NodeType.isJump : NodeType → Bool
  | .BreakStatement _ | .ContinueStatement _ => true
  | _ => false

def isUnlabeledContinue (jump : Node) : Bool := jump.type = .ContinueStatement none

/-- The jumps that are handed on from within a statement: those that it does not stop. -/
@[grind =] def leaving (stops : NodeType → Node → Bool) : Tree → List Node
  | .nil => []
  | .cons node children siblings =>
    (if node.type.isJump then [node] else []) ++
      (leaving stops children).filter (fun jump => !stops node.type jump) ++ leaving stops siblings

/-- The target of a jump in JavaScript: `break` and `continue` go to the next loop, or to the
statement with their label, and `break` also to the next `switch`. -/
def isTargetOf (type : NodeType) (jump : Node) : Bool :=
  match type with
  | .LabeledStatement label => jump.type.label? = some label
  | .SwitchStatement => jump.type = .BreakStatement none
  | type => type.isLoop && decide (jump.type.label? = none)

/-- The jumps with which the statements of a tree can complete. -/
def abrupt (tree : Tree) : List Node := leaving isTargetOf tree

/-- The nodes that are in a `switch`. -/
@[grind =] def inSwitch : Tree → List Node
  | .nil => []
  | .cons node children siblings =>
    (if node.type = .SwitchStatement then children.nodes else inSwitch children) ++
      inSwitch siblings

/-- The jumps that end an iteration of the loop, without each `continue` in a `switch` that
has no label. -/
def countedJumps (children : Tree) : List Node :=
  (abrupt children).filter fun jump =>
    !(isUnlabeledContinue jump && decide (jump ∈ inSwitch children))

/-- The loops of a tree with their children, inner loops first. -/
def loops : Tree → List (Node × Tree)
  | .nil => []
  | .cons node children siblings =>
    loops children ++ (if node.type.isLoop then [(node, children)] else []) ++ loops siblings

def reportOf (loop : Node × Tree) : Option Report :=
  if 1 < (countedJumps loop.2).length then some ⟨loop.1, countedJumps loop.2⟩ else none

/-- A file: only the root is a program, and each node is there once. -/
structure SourceFile where
  root : Node
  body : Tree
  isProgram : root.type = .Program
  statements : ∀ node ∈ body.nodes, node.type ≠ .Program
  distinct : body.nodes.Nodup

def SourceFile.reports (file : SourceFile) : List Report :=
  (traverse (.cons file.root file.body .nil) ⟨[], []⟩).reports

/-! ## The stack follows the recursion -/

/-- The rule stops a jump at the next target with its label. -/
def stops (type : NodeType) (jump : Node) : Bool :=
  type.target? = some jump.type.label?

/-- What jumps do to the targets around them. -/
def addJumps (jumps : List Node) (jumpTargets : List JumpTarget) : List JumpTarget :=
  jumps.foldl (fun jumpTargets jump =>
    increateNumberOfJumpsInScopes jump jump.type.label? jumpTargets) jumpTargets

theorem addJumps_append (jumps others : List Node) (jumpTargets : List JumpTarget) :
    addJumps (jumps ++ others) jumpTargets = addJumps others (addJumps jumps jumpTargets) :=
  List.foldl_append

/-- The innermost target gets all jumps, and hands on those with other labels. -/
theorem addJumps_cons (jumps : List Node) (jumpTarget : JumpTarget) (outer : List JumpTarget) :
    addJumps jumps (jumpTarget :: outer) =
      { jumpTarget with jumps := jumpTarget.jumps ++ jumps } ::
        addJumps (jumps.filter fun jump => !decide (jumpTarget.label = jump.type.label?))
          outer := by
  induction jumps generalizing jumpTarget outer with
  | nil => simp [addJumps]
  | cons jump jumps ih =>
      have first : addJumps (jump :: jumps) (jumpTarget :: outer) =
          addJumps jumps (increateNumberOfJumpsInScopes jump jump.type.label?
            (jumpTarget :: outer)) := rfl
      rw [first, increateNumberOfJumpsInScopes, ih]
      by_cases own : jump.type.label? = jumpTarget.label
      · simp [own]
      · simp [own, Ne.symm own, addJumps]

/-- What a traversal reports: the loops with more than one jump, inner loops first. -/
@[grind =] def reportsIn : Tree → List Report
  | .nil => []
  | .cons node children siblings =>
    reportsIn children ++
      (if node.type.isLoop ∧ 1 < (leaving stops children).length then
        [⟨node, leaving stops children⟩] else []) ++ reportsIn siblings

section Traverse

variable {node : Node}

theorem isJump_of_target? {label : Option String} (target : node.type.target? = some label) :
    node.type.isJump = false := by
  cases type : node.type <;> rw [type] at target <;> first | rfl | cases target

theorem isLoop_of_target? (none : node.type.target? = none) : node.type.isLoop = false := by
  cases type : node.type <;> rw [type] at none <;> first | rfl | cases none

theorem enter_eq (notProgram : node.type ≠ .Program) (state : State) :
    enter node state =
      match node.type.target? with
      | some label => enterScope label state
      | none =>
        { state with
          jumpTargets :=
            addJumps (if node.type.isJump then [node] else []) state.jumpTargets } := by
  unfold enter
  cases type : node.type with
  | Program => exact absurd type notProgram
  | BreakStatement label => simp [NodeType.target?, NodeType.isJump, NodeType.isLoop, addJumps,
      type, NodeType.label?]
  | ContinueStatement label => simp [NodeType.target?, NodeType.isJump, NodeType.isLoop, addJumps,
      type, NodeType.label?]
  | _ => rfl

theorem exit_eq (state : State) :
    exit node state =
      match node.type.target? with
      | some _ =>
        if node.type.isLoop then leaveScopeAndCheckNumberOfJumps node state else leaveScope state
      | none => state := by
  unfold exit
  cases node.type <;> rfl

theorem traverse_eq (tree : Tree) (statements : ∀ node ∈ tree.nodes, node.type ≠ .Program)
    (jumpTargets : List JumpTarget) (reports : List Report) :
    traverse tree ⟨jumpTargets, reports⟩ =
      ⟨addJumps (leaving stops tree) jumpTargets, reports ++ reportsIn tree⟩ := by
  induction tree generalizing jumpTargets reports with
  | nil => simp [traverse, leaving, reportsIn, addJumps]
  | cons node children siblings children_ih siblings_ih =>
      simp only [Forest.nodes, List.forall_mem_cons, List.forall_mem_append] at statements
      obtain ⟨notProgram, inChildren, inSiblings⟩ := statements
      rw [traverse, enter_eq notProgram, exit_eq]
      cases target : node.type.target? with
      | none =>
          have all : (leaving stops children).filter (fun jump => !stops node.type jump) =
              leaving stops children := by simp [stops, target]
          simp only [children_ih inChildren, siblings_ih inSiblings, leaving, reportsIn, all,
            isLoop_of_target? target, addJumps_append, Bool.false_eq_true, false_and, if_false,
            List.append_nil, List.append_assoc]
      | some label =>
          have others : (leaving stops children).filter (fun jump => !stops node.type jump) =
              (leaving stops children).filter fun jump => !decide (label = jump.type.label?) := by
            simp [stops, target]
          simp only [enterScope, children_ih inChildren, addJumps_cons, JumpTarget.new,
            List.nil_append, leaving, isJump_of_target? target, others, addJumps_append,
            Bool.false_eq_true, if_false]
          by_cases isLoop : node.type.isLoop = true
          · simp only [isLoop, if_true, leaveScopeAndCheckNumberOfJumps, siblings_ih inSiblings,
              reportsIn, true_and]
            split_ifs <;> simp
          · simp [isLoop, leaveScope, siblings_ih inSiblings, reportsIn]

end Traverse

/-! ## Jumps in JavaScript -/

/-- The rule and JavaScript disagree only on a `continue` without a label in a `switch`. -/
theorem stops_iff {type : NodeType} {jump : Node} (isJump : jump.type.isJump = true)
    (inside : Bool) :
    (!isTargetOf type jump &&
        !(isUnlabeledContinue jump && (decide (type = .SwitchStatement) || inside))) =
      (!(isUnlabeledContinue jump && inside) && !stops type jump) := by
  obtain ⟨id, jumpType⟩ := jump
  cases jumpType with
  | BreakStatement label =>
      cases type <;> cases label <;>
        simp [isTargetOf, stops, NodeType.target?, NodeType.label?, NodeType.isLoop,
          isUnlabeledContinue, eq_comm]
  | ContinueStatement label =>
      cases type <;> cases label <;> cases inside <;>
        simp [isTargetOf, stops, NodeType.target?, NodeType.label?, NodeType.isLoop,
          isUnlabeledContinue, eq_comm]
  | _ => cases isJump

theorem isJump_of_mem_leaving {stops : NodeType → Node → Bool} {tree : Tree} {jump : Node}
    (member : jump ∈ leaving stops tree) : jump.type.isJump = true ∧ jump ∈ tree.nodes := by
  induction tree with
  | nil => cases member
  | cons node children siblings children_ih siblings_ih =>
      simp only [leaving, List.mem_append, Forest.nodes, List.mem_cons] at member ⊢
      obtain (own | inner) | later := member
      · split_ifs at own with isJump
        · obtain rfl := List.mem_singleton.mp own
          exact ⟨isJump, .inl rfl⟩
        · cases own
      · obtain ⟨isJump, known⟩ := children_ih (List.mem_filter.mp inner).1
        exact ⟨isJump, .inr (.inl known)⟩
      · obtain ⟨isJump, known⟩ := siblings_ih later
        exact ⟨isJump, .inr (.inr known)⟩

theorem mem_nodes_of_mem_inSwitch {tree : Tree} {node : Node} (member : node ∈ inSwitch tree) :
    node ∈ tree.nodes := by
  induction tree with
  | nil => cases member
  | cons first children siblings children_ih siblings_ih =>
      simp only [inSwitch, List.mem_append, Forest.nodes, List.mem_cons] at member ⊢
      obtain inner | later := member
      · split_ifs at inner
        · exact .inr (.inl inner)
        · exact .inr (.inl (children_ih inner))
      · exact .inr (.inr (siblings_ih later))

/-- The rule counts all jumps but each `continue` in a `switch` that has no label. -/
theorem leaving_stops (tree : Tree) (distinct : tree.nodes.Nodup) :
    leaving stops tree = countedJumps tree := by
  induction tree with
  | nil => rfl
  | cons node children siblings children_ih siblings_ih =>
      obtain ⟨fresh, distinct⟩ := List.nodup_cons.mp distinct
      obtain ⟨inChildren, inSiblings, apart⟩ := List.nodup_append.mp distinct
      have beside : ∀ jump ∈ siblings.nodes, jump ∉ children.nodes := fun jump later inner =>
        apart jump inner jump later rfl
      have switches (jump : Node) : jump ∈ inSwitch (.cons node children siblings) ↔
          (node.type = .SwitchStatement ∧ jump ∈ children.nodes ∨
            node.type ≠ .SwitchStatement ∧ jump ∈ inSwitch children) ∨
            jump ∈ inSwitch siblings := by
        rw [inSwitch, List.mem_append]
        split_ifs with isSwitch <;> simp [isSwitch]
      have own : (if node.type.isJump then [node] else []).filter (fun jump =>
          !(isUnlabeledContinue jump && decide (jump ∈ inSwitch (.cons node children siblings)))) =
            if node.type.isJump then [node] else [] := by
        have outside : node ∉ inSwitch (.cons node children siblings) := by
          intro member
          obtain (⟨-, inner⟩ | ⟨-, inner⟩) | later := (switches node).mp member
          · exact fresh (List.mem_append_left _ inner)
          · exact fresh (List.mem_append_left _ (mem_nodes_of_mem_inSwitch inner))
          · exact fresh (List.mem_append_right _ (mem_nodes_of_mem_inSwitch later))
        split_ifs <;> simp [outside]
      have inner : ((abrupt children).filter fun jump => !isTargetOf node.type jump).filter
            (fun jump => !(isUnlabeledContinue jump &&
              decide (jump ∈ inSwitch (.cons node children siblings)))) =
          (leaving stops children).filter fun jump => !stops node.type jump := by
        rw [children_ih inChildren, countedJumps, List.filter_filter, List.filter_filter]
        refine List.filter_congr fun jump member => ?_
        obtain ⟨isJump, known⟩ := isJump_of_mem_leaving member
        have later : jump ∉ inSwitch siblings := fun later =>
          beside jump (mem_nodes_of_mem_inSwitch later) known
        have whole : decide (jump ∈ inSwitch (.cons node children siblings)) =
            (decide (node.type = .SwitchStatement) || decide (jump ∈ inSwitch children)) := by
          by_cases isSwitch : node.type = .SwitchStatement
          · simp [switches, isSwitch, known]
          · simp [switches, isSwitch, later]
        rw [whole, Bool.and_comm, stops_iff isJump, Bool.and_comm]
      have later : (abrupt siblings).filter (fun jump => !(isUnlabeledContinue jump &&
            decide (jump ∈ inSwitch (.cons node children siblings)))) = leaving stops siblings := by
        rw [siblings_ih inSiblings, countedJumps]
        refine List.filter_congr fun jump member => ?_
        have known := beside jump (isJump_of_mem_leaving member).2
        have outside : jump ∉ inSwitch children := fun inner =>
          known (mem_nodes_of_mem_inSwitch inner)
        simp [switches, known, outside]
      rw [leaving, countedJumps, abrupt, leaving, List.filter_append, List.filter_append, own]
      exact congrArg₂ (· ++ ·) (congrArg (_ ++ ·) inner.symm) later.symm

theorem reportsIn_eq (tree : Tree) (distinct : tree.nodes.Nodup) :
    reportsIn tree = (loops tree).filterMap reportOf := by
  induction tree with
  | nil => rfl
  | cons node children siblings children_ih siblings_ih =>
      obtain ⟨-, distinct⟩ := List.nodup_cons.mp distinct
      obtain ⟨inChildren, inSiblings, -⟩ := List.nodup_append.mp distinct
      rw [reportsIn, loops, List.filterMap_append, List.filterMap_append, children_ih inChildren,
        siblings_ih inSiblings, leaving_stops children inChildren]
      by_cases isLoop : node.type.isLoop = true
      · by_cases many : 1 < (countedJumps children).length
        · simp [isLoop, many, reportOf]
        · simp [isLoop, many, reportOf]
      · simp [isLoop]

/-- In every file, a loop is reported if and only if more than one jump ends its iterations,
where a `continue` in a `switch` without a label does not count; the report has these jumps in
the order of the text, and the reports of inner loops come first. -/
theorem reports_eq_loops (file : SourceFile) :
    file.reports = (loops file.body).filterMap reportOf := by
  have entered : enter file.root ⟨[], []⟩ = ⟨[], []⟩ := by rw [enter, file.isProgram]
  have left (state : State) : exit file.root state = state := by
    rw [exit_eq, file.isProgram]
    rfl
  rw [SourceFile.reports, traverse, entered, traverse_eq file.body file.statements, left, traverse,
    List.nil_append, reportsIn_eq file.body file.distinct]

/-- `while (x) { switch (y) { continue; continue; } break; continue; }` -/
def jumpsInSwitch : Tree :=
  .cons ⟨1, .WhileStatement⟩
    (.cons ⟨2, .SwitchStatement⟩
      (.cons ⟨3, .ContinueStatement none⟩ .nil (.cons ⟨4, .ContinueStatement none⟩ .nil .nil))
      (.cons ⟨5, .BreakStatement none⟩ .nil (.cons ⟨6, .ContinueStatement none⟩ .nil .nil)))
    .nil

/-- The first two jumps end an iteration too. -/
example :
    SourceFile.reports
        ⟨⟨0, .Program⟩, jumpsInSwitch, rfl, by decide, by decide⟩ =
      [⟨⟨1, .WhileStatement⟩, [⟨5, .BreakStatement none⟩, ⟨6, .ContinueStatement none⟩]⟩] ∧
    (loops jumpsInSwitch).map (fun loop => (abrupt loop.2).map Node.id) = [[3, 4, 5, 6]] := by
  decide

end SonarJS.JumpsInLoops
