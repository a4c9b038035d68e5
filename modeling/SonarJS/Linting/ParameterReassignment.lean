import Mathlib.Data.Finset.SDiff
import SonarJS.Foundation.OrderedCollections

/-!
# The variable usage contexts of no-parameter-reassignment

The rule keeps a chain of contexts: the current one, and from each the way to its parent.
A context is entered on events of ESLint's code path analysis, which are sent for a loop
or a catch clause only if the code is reachable, and it is left when the node is left,
whatever happened on the way in. Code path starts and ends always come in pairs.

A program is a tree of those nodes that the rule is told about. Which loops and catch
clauses are reachable is for ESLint to say and is part of the tree. `events` is what
ESLint sends for a tree, and `handle` is what the rule does with it. The contexts return
to where they were exactly on the programs in which every loop over a collection has a
reachable block for its body and every catch clause is reachable.
-/

namespace SonarJS.ParameterReassignment

/-! ## The rule's data -/

inductive ContextType
  | catch
  | function
  | foreach
  | global
deriving DecidableEq

/-- The identity of an `Identifier` node. -/
abbrev IdentifierNode := ℕ

/-- A reference of ESLint's scope analysis. Whether the written expression mentions the
variable or `arguments` is `isUsedInWriteExpression`. -/
structure ScopeReference where
  identifier : IdentifierNode
  name : String
  init : Bool
  isWriteOnly : Bool
  isUsedInWriteExpression : Bool
deriving DecidableEq

structure Variable where
  name : String
  references : List ScopeReference

/-- `ReassignmentContext`. Contexts are objects: `id` tells them apart. -/
structure Context where
  id : ℕ
  type : ContextType
  variablesToCheckInCurrentScope : Finset String
  variablesToCheck : Finset String
  variablesRead : Finset String
  referencesByIdentifier : OrderedMap IdentifierNode ScopeReference

/-- The variables of the rule's closure: the current context with those above it, innermost
first, and what has been reported. Newer contexts have larger identities. -/
structure State where
  contexts : List Context
  nextId : ℕ
  issues : List ScopeReference
  nonempty : contexts ≠ []
  ordered : (nextId :: contexts.map Context.id).Pairwise (· > ·)

def State.variableUsageContext (state : State) : Context := state.contexts.head state.nonempty

/-- The identities of the current context and of those above it. -/
def State.chain (state : State) : List ℕ := state.contexts.map Context.id

/-- Replaces what the contexts hold and keeps which contexts there are. -/
def State.update (state : State) (contexts : List Context) (issues : List ScopeReference)
    (same : contexts.map Context.id = state.contexts.map Context.id) : State where
  contexts := contexts
  nextId := state.nextId
  issues := issues
  nonempty := by
    intro empty
    rw [empty] at same
    exact state.nonempty (List.map_eq_nil_iff.mp same.symm)
  ordered := by
    rw [same]
    exact state.ordered

def State.push (state : State) (type : ContextType)
    (variablesToCheckInCurrentScope variablesToCheck variablesRead : Finset String)
    (referencesByIdentifier : OrderedMap IdentifierNode ScopeReference) : State where
  contexts := ⟨state.nextId, type, variablesToCheckInCurrentScope, variablesToCheck,
    variablesRead, referencesByIdentifier⟩ :: state.contexts
  nextId := state.nextId + 1
  issues := state.issues
  nonempty := by simp
  ordered := by
    have ordered := state.ordered
    simp only [List.map_cons, List.pairwise_cons, List.mem_cons, forall_eq_or_imp] at ordered ⊢
    refine ⟨⟨by omega, ?_⟩, ordered⟩
    intro id member
    have := ordered.1 id member
    omega

/-- A context without a parent stays. -/
def State.popContext (state : State) : State :=
  if parent : state.contexts.tail ≠ [] then
    { state with
      contexts := state.contexts.tail
      nonempty := parent
      ordered := state.ordered.sublist (((List.tail_sublist _).map _).cons_cons _) }
  else state

/-! ## Identifiers -/

/-- An `Identifier` that is visited, with the context types of the listeners whose selectors
match it, in the order of the calls. `insideIfOrSwitch` says that it stands in a branch of
an `if` or in a `case`. -/
structure Identifier where
  node : IdentifierNode
  name : String
  listeners : List ContextType
  insideIfOrSwitch : Bool

def getReference (identifier : IdentifierNode) : List Context → Option ScopeReference
  | [] => none
  | context :: parents =>
    match context.referencesByIdentifier.get identifier with
    | some reference => some reference
    | none => getReference identifier parents

def Context.addRead (context : Context) (names : Finset String) : Context :=
  { context with variablesRead := context.variablesRead ∪ names }

@[grind =] def markAsRead (variableName : String) : List Context → List Context
  | [] => []
  | context :: parents =>
    context.addRead {variableName} ::
      if variableName ∈ context.variablesToCheckInCurrentScope then parents
      else markAsRead variableName parents

def markAllFunctionArgumentsAsRead : List Context → List Context
  | [] => []
  | context :: parents =>
    if context.type = .function then
      context.addRead context.variablesToCheckInCurrentScope :: parents
    else context :: markAllFunctionArgumentsAsRead parents

theorem map_id_markAsRead (variableName : String) (contexts : List Context) :
    (markAsRead variableName contexts).map Context.id = contexts.map Context.id := by
  induction contexts with
  | nil => rfl
  | cons context parents ih =>
      unfold markAsRead
      split
      · rfl
      · simpa [Context.addRead] using ih

theorem map_id_markAllFunctionArgumentsAsRead (contexts : List Context) :
    (markAllFunctionArgumentsAsRead contexts).map Context.id = contexts.map Context.id := by
  induction contexts with
  | nil => rfl
  | cons context parents ih =>
      unfold markAllFunctionArgumentsAsRead
      split
      · rfl
      · simpa using ih

def State.markAsRead (state : State) (variableName : String) (issues : List ScopeReference) :
    State :=
  state.update (ParameterReassignment.markAsRead variableName state.contexts) issues
    (map_id_markAsRead variableName state.contexts)

def State.markArgumentsAsRead (state : State) : State :=
  state.update (markAllFunctionArgumentsAsRead state.contexts) state.issues
    (map_id_markAllFunctionArgumentsAsRead state.contexts)

def checkIdentifierUsage (identifier : Identifier) (state : State)
    (identifierContextType : ContextType) : State :=
  let context := state.variableUsageContext
  if context.type ≠ identifierContextType then state
  else
    match (getReference identifier.node state.contexts).filter fun reference =>
      !reference.init && identifier.name ∉ context.variablesRead with
    | some reference =>
      if identifier.name ∈ context.variablesToCheck ∧ reference.isWriteOnly = true ∧
          reference.isUsedInWriteExpression = false then
        if identifier.insideIfOrSwitch then state
        else state.markAsRead identifier.name (state.issues ++ [reference])
      else state.markAsRead identifier.name state.issues
    | none =>
      if identifier.name = "arguments" then state.markArgumentsAsRead else state

/-! ## Code path events -/

inductive NodeType
  | blockStatement
  | forInStatement
  | forOfStatement
  | forStatement
  | catchClause
  | other
deriving DecidableEq

/-- A node that ESLint starts a code path for: the program, a function, the initialiser of a
class field or a static block. -/
structure CodePathNode where
  scopeIsFunction : Bool
  declaredVariables : List Variable
  functionName : Option String

/-- What the rule reads from the parent of a loop's body: the variables declared on the left,
the identifiers that are assigned there, and the references of the body's scope. -/
structure LoopNode where
  declaredVariables : List Variable
  leftIdentifiers : List String
  bodyReferences : List ScopeReference

inductive Event
  | onCodePathStart (node : CodePathNode)
  | onCodePathEnd
  | onCodePathSegmentLoop (node parent : NodeType) (loop : LoopNode)
  | onCodePathSegmentStart (node : NodeType) (declaredVariables : List Variable)
  | exit (node : NodeType)
  | identifier (identifier : Identifier)

def isForEachLoopStart (node parent : NodeType) : Prop :=
  node = .blockStatement ∧ (parent = .forInStatement ∨ parent = .forOfStatement)

instance (node parent : NodeType) : Decidable (isForEachLoopStart node parent) :=
  inferInstanceAs (Decidable (_ ∧ _))

def names (declared : List Variable) : Finset String := (declared.map (·.name)).toFinset

def addReferences (references : OrderedMap IdentifierNode ScopeReference)
    (more : List ScopeReference) : OrderedMap IdentifierNode ScopeReference :=
  more.foldl (fun references reference => references.set reference.identifier reference) references

def referencesOf (declared : List Variable) : OrderedMap IdentifierNode ScopeReference :=
  addReferences .empty (declared.flatMap (·.references))

def onCodePathStart (state : State) (node : CodePathNode) : State :=
  let context := state.variableUsageContext
  let declared := names node.declaredVariables
  if node.scopeIsFunction then
    state.push .function declared
      ((context.variablesToCheck ∪ declared) \ node.functionName.toList.toFinset)
      (context.variablesRead \ declared) (referencesOf node.declaredVariables)
  else state.push .global ∅ ∅ ∅ .empty

def onCodePathSegmentLoop (state : State) (node parent : NodeType) (loop : LoopNode) : State :=
  let context := state.variableUsageContext
  let declared := names loop.declaredVariables ∪ loop.leftIdentifiers.toFinset
  if isForEachLoopStart node parent then
    state.push .foreach declared (context.variablesToCheck ∪ declared)
      (context.variablesRead \ declared)
      (addReferences (referencesOf loop.declaredVariables) loop.bodyReferences)
  else state

def onCodePathSegmentStart (state : State) (node : NodeType) (declared : List Variable) : State :=
  let context := state.variableUsageContext
  if node = .catchClause then
    state.push .catch (names declared) (context.variablesToCheck ∪ names declared)
      (context.variablesRead \ names declared) (referencesOf declared)
  else state

def handle (state : State) : Event → State
  | .onCodePathStart node => onCodePathStart state node
  | .onCodePathEnd => state.popContext
  | .onCodePathSegmentLoop node parent loop => onCodePathSegmentLoop state node parent loop
  | .onCodePathSegmentStart node declared => onCodePathSegmentStart state node declared
  | .exit node =>
    if node = .forInStatement ∨ node = .forOfStatement ∨ node = .catchClause then state.popContext
    else state
  | .identifier identifier => identifier.listeners.foldl (checkIdentifierUsage identifier) state

def run (events : List Event) (state : State) : State := events.foldl handle state

/-- The state in which the rule is created. -/
def initial : State where
  contexts := [⟨0, .global, ∅, ∅, ∅, .empty⟩]
  nextId := 1
  issues := []
  nonempty := by simp
  ordered := by simp

/-! ## What the handlers do to the chain of contexts -/

@[simp] theorem run_nil (state : State) : run [] state = state := rfl

@[simp] theorem run_cons (event : Event) (events : List Event) (state : State) :
    run (event :: events) state = run events (handle state event) := rfl

@[simp] theorem run_append (events later : List Event) (state : State) :
    run (events ++ later) state = run later (run events state) := List.foldl_append

namespace State

@[simp] theorem chain_update (state : State) (contexts : List Context)
    (issues : List ScopeReference)
    (same : contexts.map Context.id = state.contexts.map Context.id) :
    (state.update contexts issues same).chain = state.chain := same

@[simp] theorem chain_push (state : State) (type : ContextType) (inScope check read : Finset String)
    (references : OrderedMap IdentifierNode ScopeReference) :
    (state.push type inScope check read references).chain = state.nextId :: state.chain := rfl

/-- With a parent, leaving a context is going back to the parent. -/
theorem chain_popContext {state : State} (parent : state.chain.tail ≠ []) :
    state.popContext.chain = state.chain.tail := by
  have tail : state.contexts.tail ≠ [] := by
    intro none
    apply parent
    simp [chain, ← List.map_tail, none]
  simp [popContext, tail, chain]

theorem head_chain (state : State) :
    state.chain.head? = some state.variableUsageContext.id := by
  unfold chain variableUsageContext
  rw [List.head?_map, List.head?_eq_some_head state.nonempty]
  rfl

theorem id_eq_of_chain_eq {state state' : State} (h : state.chain = state'.chain) :
    state.variableUsageContext.id = state'.variableUsageContext.id := by
  have heads := congrArg List.head? h
  rw [head_chain, head_chain] at heads
  exact Option.some.inj heads

/-- A context is another object than its parent. -/
theorem id_ne_of_chain_eq_tail {state state' : State} (h : state'.chain = state.chain.tail) :
    state'.variableUsageContext.id ≠ state.variableUsageContext.id := by
  have ordered := (List.pairwise_cons.mp state.ordered).2
  have head := head_chain state
  have head' := head_chain state'
  rw [h] at head'
  change state.chain.Pairwise (· > ·) at ordered
  cases chain : state.chain with
  | nil => simp [chain] at head
  | cons id ids =>
      rw [chain] at head head' ordered
      have member := List.mem_of_mem_head? head'
      have := (List.pairwise_cons.mp ordered).1 _ member
      have : id = state.variableUsageContext.id := Option.some.inj head
      omega

end State

theorem chain_checkIdentifierUsage (identifier : Identifier) (state : State) (type : ContextType) :
    (checkIdentifierUsage identifier state type).chain = state.chain := by
  unfold checkIdentifierUsage State.markAsRead State.markArgumentsAsRead
  dsimp only
  split
  · rfl
  · split
    · split
      · split
        · rfl
        · simp
      · simp
    · split
      · simp
      · rfl

theorem chain_handle_identifier (state : State) (identifier : Identifier) :
    (handle state (.identifier identifier)).chain = state.chain := by
  show (identifier.listeners.foldl (checkIdentifierUsage identifier) state).chain = state.chain
  generalize identifier.listeners = listeners
  induction listeners generalizing state with
  | nil => rfl
  | cons type listeners ih =>
      rw [List.foldl_cons, ih, chain_checkIdentifierUsage]

theorem chain_onCodePathStart (state : State) (node : CodePathNode) :
    (onCodePathStart state node).chain = state.nextId :: state.chain := by
  unfold onCodePathStart
  dsimp only
  split <;> simp

/-! ## Programs -/

inductive ForEachKind
  | forIn
  | forOf

def ForEachKind.type : ForEachKind → NodeType
  | .forIn => .forInStatement
  | .forOf => .forOfStatement

/-- Syntax trees. The children of a node stand in the order in which they are traversed,
chained by `seq`; the head of a loop is what comes before its body. -/
inductive Node
  | empty
  | seq (first second : Node)
  | identifier (identifier : Identifier)
  | block (children : Node)
  | codePath (node : CodePathNode) (children : Node)
  | forEach (kind : ForEachKind) (loop : LoopNode) (reachable : Bool) (head body : Node)
  | forLoop (reachable : Bool) (head body : Node)
  | catchClause (declaredVariables : List Variable) (reachable : Bool) (children : Node)
  | other (children : Node)

namespace Node

def type : Node → NodeType
  | .block _ => .blockStatement
  | .forEach kind .. => kind.type
  | .forLoop .. => .forStatement
  | .catchClause .. => .catchClause
  | _ => .other

/-- The loop event on entering the body of a loop. -/
def loopEvents (reachable : Bool) (parent : NodeType) (loop : LoopNode) (body : Node) :
    List Event :=
  if reachable then [.onCodePathSegmentLoop body.type parent loop] else []

/-- The segment event on entering a catch clause. -/
def catchEvents (reachable : Bool) (declaredVariables : List Variable) : List Event :=
  if reachable then [.onCodePathSegmentStart .catchClause declaredVariables] else []

/-- What ESLint sends while it traverses a node. -/
@[grind =] def events : Node → List Event
  | .empty => []
  | .seq first second => first.events ++ second.events
  | .identifier visited => [.identifier visited]
  | .block children => children.events
  | .codePath node children => .onCodePathStart node :: (children.events ++ [.onCodePathEnd])
  | .forEach kind loop reachable head body =>
    head.events ++ (loopEvents reachable kind.type loop body ++ (body.events ++ [.exit kind.type]))
  | .forLoop reachable head body =>
    head.events ++ (loopEvents reachable .forStatement ⟨[], [], []⟩ body ++
      (body.events ++ [.exit .forStatement]))
  | .catchClause declared reachable children =>
    catchEvents reachable declared ++ (children.events ++ [.exit .catchClause])
  | .other children => children.events

/-- A whole program. -/
def program (children : Node) : Node := .codePath ⟨false, [], none⟩ children

/-- `Occurs root before node`: `node` stands in `root`, and `before` is what ESLint has sent
when it gets there. -/
inductive Occurs : Node → List Event → Node → Prop
  | self (node : Node) : Occurs node [] node
  | first {first second node : Node} {before : List Event} (h : Occurs first before node) :
      Occurs (.seq first second) before node
  | second {first second node : Node} {before : List Event} (h : Occurs second before node) :
      Occurs (.seq first second) (first.events ++ before) node
  | block {children node : Node} {before : List Event} (h : Occurs children before node) :
      Occurs (.block children) before node
  | codePath {start : CodePathNode} {children node : Node} {before : List Event}
      (h : Occurs children before node) :
      Occurs (.codePath start children) (.onCodePathStart start :: before) node
  | forEachHead {kind : ForEachKind} {loop : LoopNode} {reachable : Bool} {head body node : Node}
      {before : List Event} (h : Occurs head before node) :
      Occurs (.forEach kind loop reachable head body) before node
  | forEachBody {kind : ForEachKind} {loop : LoopNode} {reachable : Bool} {head body node : Node}
      {before : List Event} (h : Occurs body before node) :
      Occurs (.forEach kind loop reachable head body)
        (head.events ++ (loopEvents reachable kind.type loop body ++ before)) node
  | forHead {reachable : Bool} {head body node : Node} {before : List Event}
      (h : Occurs head before node) : Occurs (.forLoop reachable head body) before node
  | forBody {reachable : Bool} {head body node : Node} {before : List Event}
      (h : Occurs body before node) :
      Occurs (.forLoop reachable head body)
        (head.events ++ (loopEvents reachable .forStatement ⟨[], [], []⟩ body ++ before)) node
  | catchClause {declared : List Variable} {reachable : Bool} {children node : Node}
      {before : List Event} (h : Occurs children before node) :
      Occurs (.catchClause declared reachable children) (catchEvents reachable declared ++ before)
        node
  | other {children node : Node} {before : List Event} (h : Occurs children before node) :
      Occurs (.other children) before node

/-- The nodes that have a context of their own. -/
def HasContext : Node → Prop
  | .codePath .. => True
  | .forEach .. => True
  | .catchClause .. => True
  | _ => False

/-- From `state` on, every function, loop over a collection and catch clause of the tree is
left in the context in which it was entered. -/
def Balanced (state : State) (root : Node) : Prop :=
  ∀ before node, Occurs root before node → node.HasContext →
    (run node.events (run before state)).variableUsageContext.id =
      (run before state).variableUsageContext.id

/-- Every loop over a collection has a reachable block for its body, and every catch clause
is reachable. -/
def EntersContexts : Node → Prop
  | .empty => True
  | .seq first second => first.EntersContexts ∧ second.EntersContexts
  | .identifier _ => True
  | .block children => children.EntersContexts
  | .codePath _ children => children.EntersContexts
  | .forEach _ _ reachable head body =>
    (reachable = true ∧ body.type = .blockStatement) ∧ head.EntersContexts ∧ body.EntersContexts
  | .forLoop _ head body => head.EntersContexts ∧ body.EntersContexts
  | .catchClause _ reachable children => reachable = true ∧ children.EntersContexts
  | .other children => children.EntersContexts

/-- An occurrence is a stretch of the events of the whole. -/
theorem Occurs.events_eq {root node : Node} {before : List Event} (h : Occurs root before node) :
    ∃ after, root.events = before ++ (node.events ++ after) := by
  induction h with
  | self node => exact ⟨[], by simp⟩
  | first h ih | block h ih | forEachHead h ih | forHead h ih | other h ih
  | second h ih | codePath h ih | forEachBody h ih | forBody h ih | catchClause h ih =>
      obtain ⟨after, eq⟩ := ih
      simp only [events, eq, List.append_assoc, List.cons_append]
      exact ⟨_, rfl⟩

/-! ### Entering and leaving -/

section Chains

variable {state : State}

/-- The current context has a parent, as it has everywhere in a program. -/
def Nested (state : State) : Prop := state.chain.tail ≠ []

theorem Nested.of_chain_eq {state' : State} (nested : Nested state)
    (h : state'.chain = state.chain) : Nested state' := by
  unfold Nested
  rwa [h]

theorem nested_of_chain_eq_cons {state' : State} {id : ℕ} (h : state'.chain = id :: state.chain) :
    Nested state' := by
  have current := state.head_chain
  intro none
  simp [h] at none
  simp [none] at current

/-- What was entered is left again. -/
theorem chain_popContext_of_cons {state' : State} {id : ℕ}
    (h : state'.chain = id :: state.chain) : state'.popContext.chain = state.chain := by
  rw [State.chain_popContext (nested_of_chain_eq_cons h), h, List.tail_cons]

theorem handle_exit_forEach (kind : ForEachKind) (state : State) :
    handle state (.exit kind.type) = state.popContext := by
  cases kind with
  | forIn => rfl
  | forOf => rfl

/-- A loop over a collection enters a context if its body is a reachable block. -/
theorem run_loopEvents_enters (kind : ForEachKind) (loop : LoopNode) {body : Node}
    (isBlock : body.type = .blockStatement) (state : State) :
    (run (loopEvents true kind.type loop body) state).chain = state.nextId :: state.chain := by
  have starts : isForEachLoopStart body.type kind.type := by
    refine ⟨isBlock, ?_⟩
    cases kind with
    | forIn => exact .inl rfl
    | forOf => exact .inr rfl
  simp [loopEvents, handle, onCodePathSegmentLoop, starts]

theorem run_loopEvents_ignored {reachable : Bool} (parent : NodeType) (loop : LoopNode)
    {body : Node} (h : ¬ (reachable = true ∧ isForEachLoopStart body.type parent)) (state : State) :
    run (loopEvents reachable parent loop body) state = state := by
  cases reachable with
  | false => rfl
  | true =>
      have ignored : ¬ isForEachLoopStart body.type parent := by simpa using h
      simp [loopEvents, handle, onCodePathSegmentLoop, ignored]

theorem run_catchEvents_enters (declared : List Variable) (state : State) :
    (run (catchEvents true declared) state).chain = state.nextId :: state.chain := rfl

theorem not_isForEachLoopStart_for (node : NodeType) : ¬ isForEachLoopStart node .forStatement := by
  simp [isForEachLoopStart]

/-- A tree that enters its contexts leaves the chain as it found it. -/
theorem chain_run_events {node : Node} (enters : node.EntersContexts) (state : State) :
    (run node.events state).chain = state.chain := by
  induction node generalizing state with
  | empty => rfl
  | seq first second first_ih second_ih =>
      rw [events, run_append, second_ih enters.2, first_ih enters.1]
  | identifier visited => exact chain_handle_identifier state visited
  | block children ih => exact ih enters state
  | codePath start children ih =>
      rw [events, run_cons, run_append]
      apply chain_popContext_of_cons
      rw [ih enters]
      exact chain_onCodePathStart state start
  | forEach kind loop reachable head body head_ih body_ih =>
      obtain ⟨⟨rfl, isBlock⟩, headEnters, bodyEnters⟩ := enters
      rw [events, run_append, run_append, run_append, ← head_ih headEnters state]
      show (handle _ (.exit kind.type)).chain = _
      rw [handle_exit_forEach]
      apply chain_popContext_of_cons
      rw [body_ih bodyEnters]
      exact run_loopEvents_enters kind loop isBlock _
  | forLoop reachable head body head_ih body_ih =>
      rw [events, run_append, run_append, run_append,
        run_loopEvents_ignored _ _ (fun h => not_isForEachLoopStart_for _ h.2)]
      show (run body.events _).chain = _
      rw [body_ih enters.2, head_ih enters.1]
  | catchClause declared reachable children ih =>
      obtain ⟨rfl, childrenEnter⟩ := enters
      rw [events, run_append, run_append]
      apply chain_popContext_of_cons
      rw [ih childrenEnter]
      exact run_catchEvents_enters declared state
  | other children ih => exact ih enters state

/-! ### Balance -/

/-- In a balanced tree, what stands in it is balanced from the state it is reached in. -/
theorem Balanced.of_occurs {root child : Node} (balanced : Balanced state root)
    (before : List Event)
    (inside : ∀ later node, Occurs child later node → Occurs root (before ++ later) node) :
    Balanced (run before state) child := by
  intro later node occurs hasContext
  have kept := balanced _ node (inside later node occurs) hasContext
  rwa [run_append] at kept

/-- A node that leaves its context without having entered one is not balanced. -/
theorem not_balanced_of_chain_eq_tail {node : Node} (hasContext : node.HasContext)
    (h : (run node.events state).chain = state.chain.tail) : ¬ Balanced state node := by
  intro balanced
  exact State.id_ne_of_chain_eq_tail h (balanced [] node (.self node) hasContext)

theorem entersContexts_of_balanced {node : Node} (nested : Nested state)
    (balanced : Balanced state node) : node.EntersContexts := by
  induction node generalizing state with
  | empty => trivial
  | identifier visited => trivial
  | seq first second first_ih second_ih =>
      have firstEnters := first_ih nested (balanced.of_occurs [] fun _ _ h => .first h)
      have kept := chain_run_events firstEnters state
      exact ⟨firstEnters, second_ih (nested.of_chain_eq kept)
        (balanced.of_occurs first.events fun _ _ h => .second h)⟩
  | block children ih =>
      exact ih nested (balanced.of_occurs [] fun _ _ h => .block h)
  | other children ih =>
      exact ih nested (balanced.of_occurs [] fun _ _ h => .other h)
  | codePath start children ih =>
      exact ih (nested_of_chain_eq_cons (chain_onCodePathStart state start))
        (balanced.of_occurs [.onCodePathStart start] fun _ _ h => .codePath h)
  | forEach kind loop reachable head body head_ih body_ih =>
      have headEnters := head_ih nested (balanced.of_occurs [] fun _ _ h => .forEachHead h)
      have kept := chain_run_events headEnters state
      have bodyBalanced : Balanced (run (loopEvents reachable kind.type loop body)
          (run head.events state)) body := by
        rw [← run_append]
        apply balanced.of_occurs _
        intro later node occurs
        rw [List.append_assoc]
        exact .forEachBody occurs
      by_cases enters : reachable = true ∧ body.type = .blockStatement
      · obtain ⟨rfl, isBlock⟩ := enters
        have entered := run_loopEvents_enters kind loop isBlock (run head.events state)
        exact ⟨⟨rfl, isBlock⟩, headEnters, body_ih (nested_of_chain_eq_cons entered) bodyBalanced⟩
      · have ignored := run_loopEvents_ignored kind.type loop
          (fun h => enters ⟨h.1, h.2.1⟩) (run head.events state)
        rw [ignored] at bodyBalanced
        have bodyEnters := body_ih (nested.of_chain_eq kept) bodyBalanced
        have keptByBody := (chain_run_events bodyEnters (run head.events state)).trans kept
        refine absurd balanced (not_balanced_of_chain_eq_tail trivial ?_)
        rw [events, run_append, run_append, run_append, ignored]
        show (handle _ (.exit kind.type)).chain = _
        rw [handle_exit_forEach, State.chain_popContext (nested.of_chain_eq keptByBody), keptByBody]
  | forLoop reachable head body head_ih body_ih =>
      have headEnters := head_ih nested (balanced.of_occurs [] fun _ _ h => .forHead h)
      have kept := chain_run_events headEnters state
      have ignored := run_loopEvents_ignored .forStatement ⟨[], [], []⟩
        (fun h : reachable = true ∧ _ => not_isForEachLoopStart_for body.type h.2)
        (run head.events state)
      have bodyBalanced : Balanced (run head.events state) body := by
        rw [← ignored, ← run_append]
        apply balanced.of_occurs _
        intro later node occurs
        rw [List.append_assoc]
        exact .forBody occurs
      exact ⟨headEnters, body_ih (nested.of_chain_eq kept) bodyBalanced⟩
  | catchClause declared reachable children ih =>
      have childrenBalanced := balanced.of_occurs (catchEvents reachable declared)
        fun _ _ h => .catchClause h
      cases reachable with
      | true =>
          have entered := run_catchEvents_enters declared state
          exact ⟨rfl, ih (nested_of_chain_eq_cons entered) childrenBalanced⟩
      | false =>
          have childrenEnter := ih nested childrenBalanced
          have kept := chain_run_events childrenEnter state
          refine absurd balanced (not_balanced_of_chain_eq_tail trivial ?_)
          rw [events, run_append, run_append]
          show (run children.events state).popContext.chain = state.chain.tail
          rw [State.chain_popContext (nested.of_chain_eq kept), kept]

theorem Occurs.entersContexts {root node : Node} {before : List Event}
    (occurs : Occurs root before node) (enters : root.EntersContexts) : node.EntersContexts := by
  induction occurs with
  | self node => exact enters
  | first h ih => exact ih enters.1
  | second h ih => exact ih enters.2
  | block h ih => exact ih enters
  | codePath h ih => exact ih enters
  | forEachHead h ih => exact ih enters.2.1
  | forEachBody h ih => exact ih enters.2.2
  | forHead h ih => exact ih enters.1
  | forBody h ih => exact ih enters.2
  | catchClause h ih => exact ih enters.2
  | other h ih => exact ih enters

theorem balanced_of_entersContexts {node : Node} (enters : node.EntersContexts) (state : State) :
    Balanced state node := by
  intro before child occurs _
  exact State.id_eq_of_chain_eq (chain_run_events (occurs.entersContexts enters) _)

end Chains

/-- A program leaves its functions, its loops over collections and its catch clauses in the
contexts in which it entered them exactly if each of these loops has a reachable block for
its body and each catch clause is reachable. -/
theorem program_balanced_iff (children : Node) :
    Balanced initial (program children) ↔ children.EntersContexts := by
  constructor
  · intro balanced
    have start := chain_onCodePathStart initial ⟨false, [], none⟩
    exact entersContexts_of_balanced (nested_of_chain_eq_cons start)
      (balanced.of_occurs [.onCodePathStart ⟨false, [], none⟩] fun _ _ h => .codePath h)
  · intro enters
    have whole : (program children).EntersContexts := enters
    exact balanced_of_entersContexts whole initial

/-- `for (const x of xs) f(x);`, and a catch clause behind a `return`. -/
theorem program_unbalanced :
    ¬ Balanced initial (program (.forEach .forOf ⟨[⟨"x", []⟩], [], []⟩ true
      (.identifier ⟨0, "xs", [], false⟩) (.other (.identifier ⟨1, "x", [.foreach], false⟩)))) ∧
    ¬ Balanced initial (program (.codePath ⟨true, [], some "f"⟩ (.block
      (.catchClause [⟨"e", []⟩] false (.block .empty))))) := by
  constructor
  · intro balanced
    have kept := balanced _ _ (.codePath (.self _)) trivial
    revert kept
    decide
  · intro balanced
    have kept := balanced _ _ (.codePath (.codePath (.block (.self _)))) trivial
    revert kept
    decide

end Node

end SonarJS.ParameterReassignment
