import Mathlib.Data.List.Basic
import Mathlib.Data.List.Perm.Basic
import Mathlib.Data.List.Zip
import Mathlib.Tactic.Common

/-!
# Rules made of other rules

A rule listens to visits: for a selector it has a callback, which changes the variables of the
rule and calls `context.report`. `mergeRules` makes one rule of several ones, and
`interceptReport` changes what a rule reports. ESLint visits the nodes in an order that does
not depend on the rules, and calls the listeners of the selectors that match.

The variables of a rule are one state here, of a type that the merged rules share.
-/

namespace SonarJS.RuleComposition

variable {Variables State Node Location : Type}

/-- The argument of `context.report`, with what a rule passes beside node and message. -/
structure ReportDescriptor (Node Location : Type) where
  node : Option Node
  loc : Option Location
  message : String

/-- The arguments of a call of `context.report`. -/
inductive ReportArguments (Node Location : Type)
  | descriptor (given : ReportDescriptor Node Location)
  | nodeAndMessage (node : Node) (message : String)
  | other

/-- A callback: what it does with the variables, and the calls of `context.report`. -/
abbrev Listener (Variables Node Location : Type) :=
  Node → Variables → Variables × List (ReportArguments Node Location)

/-- The listeners of a rule by their selectors. -/
abbrev RuleListener (Variables Node Location : Type) :=
  String → Option (Listener Variables Node Location)

/-- A visit for which ESLint looks for listeners: the selector that matches, and the node. -/
abbrev Visit (Node : Type) := String × Node

/-! ## Running a rule -/

/-- What a rule does at a visit. -/
def step (rule : RuleListener Variables Node Location) (visit : Visit Node)
    (variables_ : Variables) : Variables × List (ReportArguments Node Location) :=
  match rule visit.1 with
  | some listener => listener visit.2 variables_
  | none => (variables_, [])

/-- The variables in the end, and for each visit the calls of `context.report`. -/
def run (rule : RuleListener Variables Node Location) :
    List (Visit Node) → Variables → Variables × List (List (ReportArguments Node Location))
  | [], variables_ => (variables_, [])
  | visit :: visits, variables_ =>
    let (next, calls) := step rule visit variables_
    let (last, later) := run rule visits next
    (last, calls :: later)

/-! ## Merging rules -/

/-- The listeners are called one after another, each with its own variables. -/
@[grind =] def mergeListeners (node : Node) :
    List (Option (Listener Variables Node Location)) → List Variables →
      List Variables × List (ReportArguments Node Location)
  | some listener :: listeners, own :: others =>
    let (next, calls) := listener node own
    let (last, later) := mergeListeners node listeners others
    (next :: last, calls ++ later)
  | none :: listeners, own :: others =>
    let (last, later) := mergeListeners node listeners others
    (own :: last, later)
  | _, variables_ => (variables_, [])

/-- The selectors of the merged rule are those of all rules. -/
def mergeRules (rules : List (RuleListener Variables Node Location)) :
    RuleListener (List Variables) Node Location := fun selector =>
  if rules.any fun rule => (rule selector).isSome then
    some fun node variables_ => mergeListeners node (rules.map (· selector)) variables_
  else none

/-! ## Intercepting reports -/

/-- The replacement of `context.report`, which keeps a state of its own between the calls: the
calls that it makes instead, at a node. -/
abbrev ReportOverrider (State Node Location : Type) :=
  Node → ReportDescriptor Node Location → State → State × List (ReportDescriptor Node Location)

/-- The descriptor of a call. Other calls than those with a descriptor or with a node and a
message are dropped. -/
def ReportArguments.descriptor? :
    ReportArguments Node Location → Option (ReportDescriptor Node Location)
  | .descriptor given => some given
  | .nodeAndMessage node message => some ⟨some node, none, message⟩
  | .other => none

/-- `report` of the intercepting context, for the calls of one callback. -/
def intercept (onReport : ReportOverrider State Node Location) (node : Node) :
    List (ReportArguments Node Location) → State → State × List (ReportArguments Node Location)
  | [], state => (state, [])
  | call :: calls, state =>
    match call.descriptor? with
    | some given =>
      let (next, replaced) := onReport node given state
      let (last, later) := intercept onReport node calls next
      (last, replaced.map .descriptor ++ later)
    | none => intercept onReport node calls state

def interceptReport (rule : RuleListener Variables Node Location)
    (onReport : ReportOverrider State Node Location) :
    RuleListener (Variables × State) Node Location :=
  fun selector => (rule selector).map fun listener node (own, state) =>
    let (next, calls) := listener node own
    let (last, replaced) := intercept onReport node calls state
    ((next, last), replaced)

/-! ## The calls of several rules -/

/-- The calls of several rules visit by visit, for each visit in the order of the rules. -/
def atEachVisit {Call : Type} (visits : List (Visit Node)) (rules : List (List (List Call))) :
    List (List Call) :=
  rules.foldr (List.zipWith (· ++ ·)) (visits.map fun _ => [])

section AtEachVisit

variable {Call : Type}

theorem atEachVisit_nil_visits (rules : List (List (List Call)))
    (h : ∀ calls ∈ rules, calls = []) : atEachVisit ([] : List (Visit Node)) rules = [] := by
  obtain _ | ⟨calls, rules⟩ := rules
  · rfl
  · have none := h calls (by simp)
    simp [atEachVisit, none]

theorem atEachVisit_cons_visits (visit : Visit Node) (visits : List (Visit Node))
    (rules : List (List Call × List (List Call))) :
    atEachVisit (visit :: visits) (rules.map fun calls => calls.1 :: calls.2) =
      (rules.map Prod.fst).flatten :: atEachVisit visits (rules.map Prod.snd) := by
  induction rules with
  | nil => rfl
  | cons calls rules ih =>
      simp only [atEachVisit, List.map_cons, List.foldr_cons] at ih ⊢
      rw [ih]
      rfl

theorem length_atEachVisit (visits : List (Visit Node)) (rules : List (List (List Call)))
    (h : ∀ calls ∈ rules, calls.length = visits.length) :
    (atEachVisit visits rules).length = visits.length := by
  induction rules with
  | nil => simp [atEachVisit]
  | cons calls rules ih =>
      have first := h calls (by simp)
      have others := ih fun calls mem => h calls (by simp [mem])
      simp only [atEachVisit, List.foldr_cons, List.length_zipWith] at others ⊢
      omega

theorem flatten_zipWith_append_perm (calls later : List (List Call))
    (h : calls.length = later.length) :
    (List.zipWith (· ++ ·) calls later).flatten.Perm (calls.flatten ++ later.flatten) := by
  induction calls generalizing later with
  | nil =>
      obtain rfl := List.eq_nil_of_length_eq_zero h.symm
      exact .refl _
  | cons own calls ih =>
      obtain _ | ⟨other, later⟩ := later
      · simp at h
      have rest := ih later (by simpa using h)
      calc (own ++ other) ++ (List.zipWith (· ++ ·) calls later).flatten
        _ |>.Perm ((own ++ other) ++ (calls.flatten ++ later.flatten)) := rest.append_left _
        _ |>.Perm (own ++ (calls.flatten ++ (other ++ later.flatten))) := by
            rw [List.append_assoc]
            exact (List.perm_append_comm_assoc _ _ _).append_left _
        _ = (own ++ calls.flatten) ++ (other ++ later.flatten) := by
            rw [List.append_assoc]

/-- Nothing is lost and nothing is added. -/
theorem flatten_atEachVisit_perm (visits : List (Visit Node)) (rules : List (List (List Call)))
    (h : ∀ calls ∈ rules, calls.length = visits.length) :
    (atEachVisit visits rules).flatten.Perm (rules.map List.flatten).flatten := by
  induction rules with
  | nil => simp [atEachVisit]
  | cons calls rules ih =>
      have others : ∀ calls ∈ rules, calls.length = visits.length :=
        fun calls mem => h calls (by simp [mem])
      have sameLength : calls.length = (atEachVisit visits rules).length := by
        rw [length_atEachVisit visits rules others]
        exact h calls (by simp)
      exact (flatten_zipWith_append_perm calls _ sameLength).trans ((ih others).append_left _)

end AtEachVisit

/-! ## The merged rule -/

theorem mergeListeners_eq (visit : Visit Node)
    (rules : List (RuleListener Variables Node Location)) (variables_ : List Variables)
    (h : rules.length = variables_.length) :
    mergeListeners visit.2 (rules.map (· visit.1)) variables_ =
      ((rules.zip variables_).map fun each => (step each.1 visit each.2).1,
        ((rules.zip variables_).map fun each => (step each.1 visit each.2).2).flatten) := by
  induction rules generalizing variables_ with
  | nil =>
      obtain rfl := List.eq_nil_of_length_eq_zero h.symm
      rfl
  | cons rule rules ih =>
      obtain _ | ⟨own, others⟩ := variables_
      · simp at h
      have later := ih others (by simpa using h)
      rw [List.map_cons]
      cases listens : rule visit.1 with
      | none => simp [mergeListeners, step, listens, later]
      | some listener => simp [mergeListeners, step, listens, later]

theorem mergeListeners_silent (node : Node)
    (listeners : List (Option (Listener Variables Node Location)))
    (variables_ : List Variables) (h : ∀ listener ∈ listeners, listener = none) :
    mergeListeners node listeners variables_ = (variables_, []) := by
  induction listeners generalizing variables_ with
  | nil => rfl
  | cons listener listeners ih =>
      obtain rfl := h listener (by simp)
      obtain _ | ⟨own, others⟩ := variables_
      · rfl
      have later := ih others fun listener mem => h listener (by simp [mem])
      simp [mergeListeners, later]

/-- One visit: each rule takes its own step. -/
theorem step_mergeRules (visit : Visit Node)
    (rules : List (RuleListener Variables Node Location)) (variables_ : List Variables)
    (h : rules.length = variables_.length) :
    step (mergeRules rules) visit variables_ =
      ((rules.zip variables_).map fun each => (step each.1 visit each.2).1,
        ((rules.zip variables_).map fun each => (step each.1 visit each.2).2).flatten) := by
  rw [← mergeListeners_eq visit rules variables_ h]
  unfold step mergeRules
  split_ifs with listened
  · rfl
  · apply Eq.symm
    apply mergeListeners_silent
    simpa using listened

theorem length_run (rule : RuleListener Variables Node Location) (visits : List (Visit Node))
    (variables_ : Variables) : (run rule visits variables_).2.length = visits.length := by
  induction visits generalizing variables_ with
  | nil => rfl
  | cons visit visits ih => simp [run, ih]

/-- A run: the variables of each rule are those of the rule alone, and at each visit the calls
are those of the rules, in the order of the rules. -/
theorem run_mergeRules (visits : List (Visit Node))
    (rules : List (RuleListener Variables Node Location)) (variables_ : List Variables)
    (h : rules.length = variables_.length) :
    run (mergeRules rules) visits variables_ =
      ((rules.zip variables_).map fun each => (run each.1 visits each.2).1,
        atEachVisit visits
          ((rules.zip variables_).map fun each => (run each.1 visits each.2).2)) := by
  induction visits generalizing variables_ with
  | nil =>
      have unchanged : (rules.zip variables_).map Prod.snd = variables_ :=
        List.map_snd_zip (Nat.le_of_eq h.symm)
      rw [atEachVisit_nil_visits _ (by simp [run])]
      simp only [run]
      exact Prod.ext unchanged.symm rfl
  | cons visit visits ih =>
      let next := (rules.zip variables_).map fun each => (step each.1 visit each.2).1
      have nextLength : rules.length = next.length := by simp [next, ← h]
      have nextZip : rules.zip next =
          (rules.zip variables_).map fun each => (each.1, (step each.1 visit each.2).1) := by
        conv_lhs => rw [← List.map_fst_zip (Nat.le_of_eq h)]
        exact List.zip_map'
      have later := ih next nextLength
      rw [nextZip, List.map_map, List.map_map] at later
      simp only [run, step_mergeRules visit rules variables_ h]
      rw [later]
      have calls := atEachVisit_cons_visits visit visits ((rules.zip variables_).map fun each =>
        ((step each.1 visit each.2).2, (run each.1 visits (step each.1 visit each.2).1).2))
      simp only [List.map_map] at calls
      exact Prod.ext rfl calls.symm

/-! ## The intercepted rule -/

/-- `onReport` on the calls of a run. -/
def interceptCalls (onReport : ReportOverrider State Node Location) :
    List (Visit Node) → List (List (ReportArguments Node Location)) → State →
      State × List (List (ReportArguments Node Location))
  | visit :: visits, calls :: others, state =>
    let (next, replaced) := intercept onReport visit.2 calls state
    let (last, later) := interceptCalls onReport visits others next
    (last, replaced :: later)
  | _, _, state => (state, [])

/-- The run of the rule as it is, and `onReport` on the calls of the whole run. -/
def runThenIntercept (rule : RuleListener Variables Node Location)
    (onReport : ReportOverrider State Node Location) (visits : List (Visit Node))
    (variables_ : Variables × State) :
    (Variables × State) × List (List (ReportArguments Node Location)) :=
  let (own, calls) := run rule visits variables_.1
  let (state, replaced) := interceptCalls onReport visits calls variables_.2
  ((own, state), replaced)

/-- A rule does not notice the interception. -/
theorem run_interceptReport (rule : RuleListener Variables Node Location)
    (onReport : ReportOverrider State Node Location) (visits : List (Visit Node))
    (variables_ : Variables × State) :
    run (interceptReport rule onReport) visits variables_ =
      runThenIntercept rule onReport visits variables_ := by
  induction visits generalizing variables_ with
  | nil => rfl
  | cons visit visits ih =>
      have one : step (interceptReport rule onReport) visit variables_ =
          let (own, calls) := step rule visit variables_.1
          let (state, replaced) := intercept onReport visit.2 calls variables_.2
          ((own, state), replaced) := by
        unfold step interceptReport
        cases rule visit.1 with
        | none => rfl
        | some listener => rfl
      simp only [run, one, ih]
      rfl

/-- A rule that reports a node at one selector, with an overrider that reports once what has
the same last digit. -/
def oncePerDigit (selector message : String) :
    RuleListener Unit Nat Nat × ReportOverrider (List Nat) Nat Nat :=
  (fun visited =>
      if visited = selector then
        some fun node _ => ((), [.nodeAndMessage node message, .other])
      else none,
    fun node given raised =>
      if node % 10 ∈ raised then (raised, []) else (node % 10 :: raised, [given]))

end SonarJS.RuleComposition
