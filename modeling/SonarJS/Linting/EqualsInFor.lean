import Mathlib.Data.Rat.Lemmas
import Mathlib.Data.Sign.Basic
import Mathlib.Tactic.Linarith
import Mathlib.Tactic.Ring

/-!
# Equality tests that end a loop

A `for` loop with `!=` in its test is accepted if its counter seems to go in steps of one from
the begin value to the end value. Whether it gets there depends on how the counter is
initialised, on the distance of the two values and on what the body does to the counter.
-/

namespace SonarJS.EqualsInFor

/-! ## For statements -/

inductive UpdateOperator
  | increment
  | decrement
deriving DecidableEq

/-- Of `=`, `+=`, `-=` and the others, these with what they compute. -/
inductive AssignmentOperator
  | assign
  | plus
  | minus
  | other (compute : ℚ → ℚ → ℚ)

inductive BinaryOperator
  | notEqual
  | strictNotEqual
  | equal
  | strictEqual
  | other
deriving DecidableEq

/-- Of other expressions and of patterns, nothing is looked at. -/
inductive Expression
  | identifier (name : String)
  | number (value : ℚ)
  | binary (operator : BinaryOperator) (left right : Expression)
  | assignment (operator : AssignmentOperator) (left right : Expression)
  | update (operator : UpdateOperator) (argument : Expression)
  | sequence (expressions : List Expression)
  | other

/-- A declaration has pairs of an identifier or a pattern and an initial value. -/
inductive Init
  | declaration (declarations : List (Expression × Option Expression))
  | expression (expression : Expression)

structure ForStatement where
  init : Option Init
  test : Option Expression
  update : Option Expression
  bodyRange : ℕ × ℕ

/-- An occurrence of a name, with the variable that it refers to. -/
structure Reference where
  name : String
  resolved : Option ℕ
  range : ℕ × ℕ
  isWrite : Bool

/-- The variables that names refer to in the header of the loop, and all references. -/
structure Context where
  getVariableFromName : String → Option ℕ
  references : List Reference

/-! ## The rule -/

section Rule

def isEquality : Expression → Bool
  | .binary operator _ _ => operator ≠ .other
  | _ => false

def isNotEqual : Expression → Bool
  | .binary operator _ _ => operator = .notEqual || operator = .strictNotEqual
  | _ => false

def isIncDec : Expression → Bool
  | .assignment .plus _ _ | .assignment .minus _ _ => true
  | _ => false

mutual

def isUpdateIncDec : Expression → Bool
  | .update _ _ => true
  | .sequence expressions => areUpdateIncDec expressions
  | expression => isIncDec expression

def areUpdateIncDec : List Expression → Bool
  | [] => true
  | expression :: expressions => isUpdateIncDec expression && areUpdateIncDec expressions

end

def identifierName : Expression → List String
  | .identifier name => [name]
  | _ => []

mutual

def collectCounters : Expression → List String
  | .assignment .plus left _ | .assignment .minus left _ => identifierName left
  | .update _ argument => identifierName argument
  | .sequence expressions => collectAllCounters expressions
  | _ => []

def collectAllCounters : List Expression → List String
  | [] => []
  | expression :: expressions => collectCounters expression ++ collectAllCounters expressions

end

def isNontrivialConditionException (condition update : Expression) : Bool :=
  match condition with
  | .binary _ (.identifier name) _ => name ∉ collectCounters update
  | _ => true

def getInteger : Option Expression → Option ℚ
  | some (.number value) => some value
  | _ => none

def getValue : Init → Option ℚ
  | .declaration [(_, init)] => getInteger init
  | .declaration _ => none
  | .expression (.binary operator left right) =>
    if isNotEqual (.binary operator left right) then getInteger (some right) else none
  | .expression (.assignment _ _ right) => getInteger (some right)
  | .expression _ => none

def isInBody (range bodyRange : ℕ × ℕ) : Bool := bodyRange.1 < range.1 && range.2 < bodyRange.2

variable (context : Context)

def isUsedInsideBody (id : Expression) (bodyRange : ℕ × ℕ) : Bool :=
  match id with
  | .identifier name =>
    match context.getVariableFromName name with
    | some variable' => context.references.any fun reference =>
        reference.resolved = some variable' && isInBody reference.range bodyRange
    | none => false
  | _ => false

def isUpdateOnOneWithAssign : Expression → Bool
  | .assignment .plus _ (.number value) | .assignment .minus _ (.number value) => value = 1
  | _ => false

def isUpdateByOne (update : Expression) (bodyRange : ℕ × ℕ) : Bool :=
  match update with
  | .update _ argument => !isUsedInsideBody context argument bodyRange
  | .assignment operator left right =>
    isUpdateOnOneWithAssign (.assignment operator left right) &&
      !isUsedInsideBody context left bodyRange
  | _ => false

/-- The direction of an update. -/
def direction : Expression → ℤ
  | .update .increment _ | .assignment .plus _ _ => 1
  | .update .decrement _ | .assignment .minus _ _ => -1
  | _ => 0

def checkForUpdateByOne (update : Expression) (bodyRange : ℕ × ℕ) : ℤ :=
  if isUpdateByOne context update bodyRange then direction update else 0

def isTrivialIteratorException (init : Option Init) (condition update : Expression)
    (bodyRange : ℕ × ℕ) : Bool :=
  match init with
  | some init =>
    let updatedByOne := checkForUpdateByOne context update bodyRange
    isNotEqual condition && updatedByOne ≠ 0 &&
      match getValue init, getValue (.expression condition) with
      | some beginValue, some endValue => updatedByOne = SignType.sign (endValue - beginValue)
      | _, _ => false
  | none => false

/-- The rule gets to the second exception, which accepts the loop. -/
def isExempted (statement : ForStatement) : Bool :=
  match statement.test, statement.update with
  | some condition, some update =>
    isEquality condition && isUpdateIncDec update &&
      !isNontrivialConditionException condition update &&
        isTrivialIteratorException context statement.init condition update statement.bodyRange
  | _, _ => false

end Rule

/-! ## Running the loop -/

/-- A name that has not been declared is that of a global variable. -/
inductive Variable
  | declared (id : ℕ)
  | global (name : String)
deriving DecidableEq

def variableOf (name : String) : Option ℕ → Variable
  | some id => .declared id
  | none => .global name

def Reference.variable (reference : Reference) : Variable :=
  variableOf reference.name reference.resolved

def Context.resolve (context : Context) (name : String) : Variable :=
  variableOf name (context.getVariableFromName name)

/-- The numbers that variables have. -/
abbrev Env := Variable → ℚ

def AssignmentOperator.apply (operator : AssignmentOperator) (old value : ℚ) : ℚ :=
  match operator with
  | assign => value
  | plus => old + value
  | minus => old - value
  | other compute => compute old value

section Semantics

variable (context : Context)

/-- A variable is set to a number, a number is assigned to it, or the two are compared. What other
expressions do with the variables is left open. -/
def Executes (init : Init) (env env' : Env) : Prop :=
  match init with
  | .declaration [(.identifier name, some (.number value))] =>
    env' = Function.update env (context.resolve name) value
  | .expression (.assignment operator (.identifier name) (.number value)) =>
    env' = Function.update env (context.resolve name)
      (operator.apply (env (context.resolve name)) value)
  | .expression (.binary _ (.identifier _) (.number _)) => env' = env
  | .expression (.update .increment (.identifier name)) =>
    env' = Function.update env (context.resolve name) (env (context.resolve name) + 1)
  | .expression (.update .decrement (.identifier name)) =>
    env' = Function.update env (context.resolve name) (env (context.resolve name) - 1)
  | _ => True

/-- The truth of a test that compares a variable with a number by `!=`. Other tests can have any
result. -/
def MayHold (test : Expression) (env : Env) : Prop :=
  match test with
  | .binary .notEqual (.identifier name) (.number value)
  | .binary .strictNotEqual (.identifier name) (.number value) =>
    env (context.resolve name) ≠ value
  | _ => True

/-- There is a write reference in the body. -/
def Written (bodyRange : ℕ × ℕ) (variable' : Variable) : Prop :=
  ∃ reference ∈ context.references, reference.isWrite ∧ reference.variable = variable' ∧
    bodyRange.1 ≤ reference.range.1 ∧ reference.range.2 ≤ bodyRange.2

mutual

def Expression.names : Expression → List String
  | .identifier name => [name]
  | .binary _ left right | .assignment _ left right => left.names ++ right.names
  | .update _ argument => argument.names
  | .sequence expressions => namesOfAll expressions
  | .number _ | .other => []

def namesOfAll : List Expression → List String
  | [] => []
  | expression :: expressions => expression.names ++ namesOfAll expressions

end

def Init.names : Init → List String
  | declaration declarations => declarations.flatMap fun (id, init) =>
      id.names ++ (init.map Expression.names).getD []
  | expression e => e.names

/-- The names in the header of a loop. -/
def ForStatement.names (statement : ForStatement) : List String :=
  (statement.init.map Init.names).getD [] ++
    (statement.test.map Expression.names).getD [] ++
      (statement.update.map Expression.names).getD []

/-- What the body can do: it changes a variable of the header only where this is written. -/
def IsBody (statement : ForStatement) (body : Env → Env → Prop) : Prop :=
  ∀ env env', body env env' → ∀ name ∈ statement.names,
    ¬Written context statement.bodyRange (context.resolve name) →
      env' (context.resolve name) = env (context.resolve name)

/-- The variables at the beginning of each iteration. -/
structure Run (init : Init) (test update : Expression) (body : Env → Env → Prop)
    (states : ℕ → Env) : Prop where
  start : ∃ env, Executes context init env (states 0)
  next : ∀ k, MayHold context test (states k) → ∃ env, body (states k) env ∧
    Executes context (.expression update) env (states (k + 1))

/-- Whatever the body does, the test becomes false after finitely many iterations. -/
def Terminates (statement : ForStatement) : Prop :=
  ∀ init ∈ statement.init, ∀ test ∈ statement.test, ∀ update ∈ statement.update,
    ∀ body, IsBody context statement body → ∀ states, Run context init test update body states →
      ∃ k, ¬MayHold context test (states k)

end Semantics

/-! ## What is known of the loops that are accepted -/

section Exempted

variable {context : Context} {statement : ForStatement}

/-- A step of one. -/
inductive IsStep (name : String) : Expression → Prop
  | increment : IsStep name (.update .increment (.identifier name))
  | decrement : IsStep name (.update .decrement (.identifier name))
  | plus : IsStep name (.assignment .plus (.identifier name) (.number 1))
  | minus : IsStep name (.assignment .minus (.identifier name) (.number 1))

theorem isStep_of_isUpdateByOne {update : Expression} {bodyRange : ℕ × ℕ} {name : String}
    (byOne : isUpdateByOne context update bodyRange) (counter : name ∈ collectCounters update) :
    IsStep name update := by
  cases update with
  | update operator argument =>
      cases argument with
      | identifier name' =>
          obtain rfl : name = name' := by simpa [collectCounters, identifierName] using counter
          cases operator with
          | increment => exact .increment
          | decrement => exact .decrement
      | _ => simp [collectCounters, identifierName] at counter
  | assignment operator left right =>
      rw [isUpdateByOne, Bool.and_eq_true] at byOne
      cases left with
      | identifier name' =>
          unfold isUpdateOnOneWithAssign at byOne
          split at byOne
          · rename_i same
            obtain ⟨rfl, rfl, rfl⟩ := Expression.assignment.inj same
            obtain rfl : name = name' := by simpa [collectCounters, identifierName] using counter
            rw [of_decide_eq_true byOne.1]
            exact .plus
          · rename_i same
            obtain ⟨rfl, rfl, rfl⟩ := Expression.assignment.inj same
            obtain rfl : name = name' := by simpa [collectCounters, identifierName] using counter
            rw [of_decide_eq_true byOne.1]
            exact .minus
          · cases byOne.1
      | _ => cases operator <;> simp [collectCounters, identifierName] at counter
  | _ => cases byOne

theorem of_isNontrivialConditionException {condition update : Expression}
    (trivial : isNontrivialConditionException condition update = false) :
    ∃ operator name right, condition = .binary operator (.identifier name) right ∧
      name ∈ collectCounters update := by
  unfold isNontrivialConditionException at trivial
  split at trivial
  · rename_i operator name right
    exact ⟨operator, name, right, rfl, by simpa using trivial⟩
  · cases trivial

theorem of_isTrivialIteratorException {init : Init} {condition update : Expression}
    {bodyRange : ℕ × ℕ}
    (iterator : isTrivialIteratorException context (some init) condition update bodyRange) :
    isNotEqual condition ∧ isUpdateByOne context update bodyRange ∧
      ∃ beginValue endValue, getValue init = some beginValue ∧
        getValue (.expression condition) = some endValue ∧
        direction update = SignType.sign (endValue - beginValue) ∧ beginValue ≠ endValue := by
  rw [isTrivialIteratorException] at iterator
  rw [Bool.and_eq_true, Bool.and_eq_true, decide_eq_true_eq, checkForUpdateByOne] at iterator
  obtain ⟨⟨notEqual, someStep⟩, values⟩ := iterator
  by_cases byOne : isUpdateByOne context update bodyRange
  · rw [if_pos byOne] at someStep values
    split at values
    · rename_i beginValue endValue isBegin isEnd
      have sign := of_decide_eq_true values
      refine ⟨notEqual, byOne, beginValue, endValue, isBegin, isEnd, sign, ?_⟩
      rintro rfl
      rw [sub_self, sign_zero] at sign
      exact someStep sign
    · cases values
  · rw [if_neg byOne] at someStep
    exact absurd rfl someStep

/-- The header of a loop that is accepted. -/
theorem cases_of_isExempted (exempted : isExempted context statement) :
    ∃ init operator name endValue update beginValue, statement.init = some init ∧
      statement.test = some (.binary operator (.identifier name) (.number endValue)) ∧
      isNotEqual (.binary operator (.identifier name) (.number endValue)) ∧
      statement.update = some update ∧ IsStep name update ∧ getValue init = some beginValue ∧
      beginValue ≠ endValue := by
  obtain ⟨init, test, update, bodyRange⟩ := statement
  rw [isExempted] at exempted
  dsimp only at exempted
  cases test with
  | none => cases exempted
  | some condition =>
      cases update with
      | none => cases exempted
      | some update =>
          simp only [Bool.and_eq_true, Bool.not_eq_true'] at exempted
          obtain ⟨⟨⟨-, -⟩, trivial⟩, iterator⟩ := exempted
          cases init with
          | none => cases iterator
          | some init =>
              obtain ⟨operator, name, right, rfl, counter⟩ :=
                of_isNontrivialConditionException trivial
              obtain ⟨notEqual, byOne, beginValue, endValue, isBegin, isEnd, -, differ⟩ :=
                of_isTrivialIteratorException iterator
              rw [getValue, if_pos notEqual] at isEnd
              cases right with
              | number value =>
                  obtain rfl := Option.some.inj isEnd
                  exact ⟨init, operator, name, value, update, beginValue, rfl, rfl, notEqual, rfl,
                    isStep_of_isUpdateByOne byOne counter, isBegin, differ⟩
              | _ => cases isEnd

end Exempted

/-! ## The loops that terminate -/

section Counting

variable {context : Context} {statement : ForStatement}

theorem executes_iff_of_isStep {update : Expression} {name : String} (step : IsStep name update)
    {env env' : Env} :
    Executes context (.expression update) env env' ↔
      env' = Function.update env (context.resolve name)
        (env (context.resolve name) + direction update) := by
  cases step with
  | increment => simp [Executes, direction]
  | decrement => simp [Executes, direction, sub_eq_add_neg]
  | plus => simp [Executes, AssignmentOperator.apply, direction]
  | minus => simp [Executes, AssignmentOperator.apply, direction, sub_eq_add_neg]

theorem direction_ne_zero {update : Expression} {name : String} (step : IsStep name update) :
    (direction update : ℚ) ≠ 0 := by
  cases step with
  | increment | decrement | plus | minus => simp [direction]

theorem mayHold_iff {operator : BinaryOperator} {name : String} {endValue : ℚ}
    (notEqual : isNotEqual (.binary operator (.identifier name) (.number endValue)))
    {env : Env} :
    MayHold context (.binary operator (.identifier name) (.number endValue)) env ↔
      env (context.resolve name) ≠ endValue := by
  cases operator with
  | notEqual | strictNotEqual => rfl
  | equal | strictEqual | other => simp [isNotEqual] at notEqual

variable (context statement) in
/-- From this value the counter gets to the end value. -/
def Reaches (name : String) (update : Expression) (endValue value : ℚ) : Prop :=
  value = endValue ∨ ¬Written context statement.bodyRange (context.resolve name) ∧
    ∃ n : ℕ, endValue = value + direction update * n

/-- The counter after some iterations of a loop that does not write it. -/
theorem counter_eq {init : Init} {test update : Expression} {name : String}
    {body : Env → Env → Prop} {states : ℕ → Env} (isBody : IsBody context statement body)
    (inHeader : name ∈ statement.names)
    (notWritten : ¬Written context statement.bodyRange (context.resolve name))
    (step : IsStep name update) (run : Run context init test update body states) (n : ℕ)
    (holds : ∀ k < n, MayHold context test (states k)) :
    states n (context.resolve name) = states 0 (context.resolve name) + direction update * n := by
  induction n with
  | zero => simp
  | succ n ih =>
      obtain ⟨env, iteration, updates⟩ := run.next n (holds n (Nat.lt_succ_self n))
      rw [(executes_iff_of_isStep step).mp updates, Function.update_self,
        isBody _ _ iteration name inHeader notWritten,
        ih fun k small => holds k (Nat.lt_succ_of_lt small)]
      push_cast
      ring

/-- If the counter can start elsewhere and is written in the body, the loop can go on forever by
setting it back. -/
theorem run_of_written {init : Init} {test update : Expression} {name : String}
    (step : IsStep name update) (endValue : ℚ) {env env' : Env}
    (starts : Executes context init env env') :
    Run context init test update
      (fun before after => after = Function.update before (context.resolve name) endValue)
      fun k => if k = 0 then env' else
        Function.update env' (context.resolve name) (endValue + direction update) where
  start := ⟨env, by simpa using starts⟩
  next k _ := by
    refine ⟨_, rfl, (executes_iff_of_isStep step).mpr ?_⟩
    rcases k with _ | k
    · simp
    · simp

/-- If the body does nothing, the counter goes on in steps of one. -/
theorem run_of_notWritten {init : Init} {test update : Expression} {name : String}
    (step : IsStep name update) {env env' : Env} (starts : Executes context init env env') :
    Run context init test update (fun before after => after = before) fun k =>
      Function.update env' (context.resolve name)
        (env' (context.resolve name) + direction update * k) where
  start := ⟨env, by simpa using starts⟩
  next k _ := by
    refine ⟨_, rfl, (executes_iff_of_isStep step).mpr ?_⟩
    rw [Function.update_self, Function.update_idem]
    congr 1
    push_cast
    ring

theorem isBody_of_written {name : String} (endValue : ℚ)
    (written : Written context statement.bodyRange (context.resolve name)) :
    IsBody context statement fun before after =>
      after = Function.update before (context.resolve name) endValue := by
  rintro before after rfl name' - notWritten
  refine Function.update_of_ne ?_ ..
  intro same
  exact notWritten (same ▸ written)

theorem terminates_iff_reaches {init : Init} {operator : BinaryOperator} {name : String}
    {endValue : ℚ} {update : Expression} (isInit : statement.init = some init)
    (isTest : statement.test = some (.binary operator (.identifier name) (.number endValue)))
    (isUpdate : statement.update = some update)
    (notEqual : isNotEqual (.binary operator (.identifier name) (.number endValue)))
    (step : IsStep name update) :
    Terminates context statement ↔ ∀ env env', Executes context init env env' →
      Reaches context statement name update endValue (env' (context.resolve name)) := by
  constructor
  · intro terminates env env' starts
    by_contra misses
    rw [Reaches, not_or, not_and, not_exists] at misses
    obtain ⟨elsewhere, misses⟩ := misses
    by_cases written : Written context statement.bodyRange (context.resolve name)
    · obtain ⟨k, ends⟩ := terminates init isInit _ isTest update isUpdate _
        (isBody_of_written endValue written) _ (run_of_written step endValue starts)
      rw [mayHold_iff notEqual, not_not] at ends
      rcases k with _ | k
      · exact elsewhere (by simpa using ends)
      · rw [if_neg (Nat.succ_ne_zero k), Function.update_self] at ends
        exact direction_ne_zero step (by linarith)
    · obtain ⟨k, ends⟩ := terminates init isInit _ isTest update isUpdate
        (fun before after => after = before) (by rintro before after rfl name' - -; rfl) _
        (run_of_notWritten step starts)
      rw [mayHold_iff notEqual, not_not, Function.update_self] at ends
      exact misses written k ends.symm
  · intro reaches init' isInit' test' isTest' update' isUpdate' body isBody states run
    obtain rfl := Option.some.inj (isInit.symm.trans isInit')
    obtain rfl := Option.some.inj (isTest.symm.trans isTest')
    obtain rfl := Option.some.inj (isUpdate.symm.trans isUpdate')
    obtain ⟨env, starts⟩ := run.start
    obtain atOnce | ⟨notWritten, n, distance⟩ := reaches env _ starts
    · exact ⟨0, fun holds => (mayHold_iff notEqual).mp holds atOnce⟩
    · by_contra forever
      rw [not_exists] at forever
      have inHeader : name ∈ statement.names := by
        simp [ForStatement.names, isTest, Expression.names]
      refine (mayHold_iff notEqual).mp (not_not.mp (forever n)) ?_
      rw [counter_eq isBody inHeader notWritten step run n
        fun k _ => not_not.mp (forever k), distance]

/-! ### What is written before the loop -/

variable (context) in
/-- The initialisation sets the variable to a number for which this is true. -/
def SetsTo (init : Init) (name : String) (property : ℚ → Prop) : Prop :=
  match init with
  | .declaration [(.identifier name', some (.number value))] =>
    context.resolve name' = context.resolve name ∧ property value
  | .expression (.assignment operator (.identifier name') (.number value)) =>
    context.resolve name' = context.resolve name ∧ ∀ old, property (operator.apply old value)
  | _ => False

theorem property_set_iff {name name' : String} {property : ℚ → Prop} {elsewhere : ℚ}
    (compute : ℚ → ℚ) (fails : ¬property elsewhere) :
    (context.resolve name' = context.resolve name ∧ ∀ old, property (compute old)) ↔
      ∀ env env' : Env, env' = Function.update env (context.resolve name')
        (compute (env (context.resolve name'))) → property (env' (context.resolve name)) := by
  constructor
  · rintro ⟨same, holds⟩ env env' rfl
    rw [same, Function.update_self]
    exact holds _
  · intro holds
    have same : context.resolve name' = context.resolve name := by
      by_contra differ
      have kept := holds (fun _ => elsewhere) _ rfl
      rw [Function.update_of_ne (Ne.symm differ)] at kept
      exact fails kept
    refine ⟨same, fun old => ?_⟩
    have set := holds (fun _ => old) _ rfl
    rwa [same, Function.update_self] at set

theorem of_getInteger {expression : Option Expression} {value : ℚ}
    (isValue : getInteger expression = some value) : expression = some (.number value) := by
  unfold getInteger at isValue
  split at isValue
  · rw [Option.some.inj isValue]
  · cases isValue

/-- The initialisations with a value that the rule knows. -/
theorem cases_of_getValue {init : Init} {value : ℚ} (isValue : getValue init = some value) :
    (∃ id, init = .declaration [(id, some (.number value))]) ∨
      (∃ operator left, init = .expression (.binary operator left (.number value))) ∨
        ∃ operator left, init = .expression (.assignment operator left (.number value)) := by
  cases init with
  | declaration declarations =>
      obtain _ | ⟨⟨id, init⟩, _ | ⟨declaration, declarations⟩⟩ := declarations
      · cases isValue
      · exact .inl ⟨id, by rw [of_getInteger isValue]⟩
      · cases isValue
  | expression expression =>
      cases expression with
      | binary operator left right =>
          rw [getValue] at isValue
          split at isValue
          · obtain rfl := Option.some.inj (of_getInteger isValue)
            exact .inr (.inl ⟨operator, left, rfl⟩)
          · cases isValue
      | assignment operator left right =>
          obtain rfl := Option.some.inj (of_getInteger isValue)
          exact .inr (.inr ⟨operator, left, rfl⟩)
      | _ => cases isValue

/-- Of the initial values that the rule knows, only these two are values of the counter. -/
theorem setsTo_iff {init : Init} {name : String} {property : ℚ → Prop} {beginValue : ℚ}
    (isBegin : getValue init = some beginValue) (fails : ∃ value, ¬property value) :
    SetsTo context init name property ↔
      ∀ env env', Executes context init env env' → property (env' (context.resolve name)) := by
  obtain ⟨elsewhere, fails⟩ := fails
  have unset {init : Init}
      (kept : Executes context init (fun _ => elsewhere) fun _ => elsewhere) :
      False ↔ ∀ env env', Executes context init env env' → property (env' (context.resolve name)) :=
    iff_of_false id fun holds => fails (holds _ _ kept)
  obtain ⟨id, rfl⟩ | ⟨operator, left, rfl⟩ | ⟨operator, left, rfl⟩ := cases_of_getValue isBegin
  · cases id with
    | identifier name' =>
        rw [SetsTo, ← forall_const ℚ (b := property beginValue)]
        exact property_set_iff (fun _ => beginValue) fails
    | _ => exact unset trivial
  · cases left with
    | identifier name' => exact unset rfl
    | _ => exact unset trivial
  · cases left with
    | identifier name' => exact property_set_iff (operator.apply · beginValue) fails
    | _ => exact unset trivial

theorem not_reaches {update : Expression} {name : String} (step : IsStep name update)
    (endValue : ℚ) :
    ¬Reaches context statement name update endValue (endValue + direction update) := by
  have moves := direction_ne_zero step
  rintro (same | ⟨-, n, distance⟩)
  · exact moves (by linarith)
  · have product : (direction update : ℚ) * (n + 1) = 0 := by linarith
    obtain still | negative := mul_eq_zero.mp product
    · exact moves still
    · exact Nat.cast_add_one_ne_zero n negative

variable (context statement) in
/-- The initialisation sets the variable of the test, whatever it was, to a value from which steps
of one lead to the end value, and the body does not write this variable or is never run. -/
def Counts : Prop :=
  match statement.init, statement.test, statement.update with
  | some init, some (.binary _ (.identifier name) (.number endValue)), some update =>
    SetsTo context init name (Reaches context statement name update endValue)
  | _, _, _ => False

/-- A loop that is accepted terminates if it counts to the end value, and only then. -/
theorem terminates_iff_counts (exempted : isExempted context statement) :
    Terminates context statement ↔ Counts context statement := by
  obtain ⟨init, operator, name, endValue, update, beginValue, isInit, isTest, notEqual, isUpdate,
    step, isBegin, -⟩ := cases_of_isExempted exempted
  rw [terminates_iff_reaches isInit isTest isUpdate notEqual step,
    ← setsTo_iff isBegin ⟨_, not_reaches step endValue⟩, Counts, isInit, isTest, isUpdate]

end Counting

/-! ### Counting to ten -/

/-- The loop `for (var i = b; i != 10; i++) {}`. -/
def countToTen (beginValue : ℚ) : ForStatement where
  init := some (.declaration [(.identifier "i", some (.number beginValue))])
  test := some (.binary .notEqual (.identifier "i") (.number 10))
  update := some (.update .increment (.identifier "i"))
  bodyRange := (32, 34)

def ofCountToTen : Context where
  getVariableFromName := fun name => if name = "i" then some 0 else none
  references :=
    [⟨"i", some 0, (9, 10), true⟩, ⟨"i", some 0, (18, 19), false⟩, ⟨"i", some 0, (27, 28), true⟩]

theorem not_written : ¬Written ofCountToTen (32, 34) (.declared 0) := by
  rintro ⟨reference, isReference, -, -, inside, -⟩
  simp only [ofCountToTen, List.mem_cons, List.not_mem_nil, or_false] at isReference
  obtain rfl | rfl | rfl := isReference <;> simp at inside

/-- From 0.0 the loop gets to ten. -/
theorem terminates_fromZero :
    isExempted ofCountToTen (countToTen 0) ∧ Terminates ofCountToTen (countToTen 0) := by
  have exempted : isExempted ofCountToTen (countToTen 0) := by decide +kernel
  refine ⟨exempted, (terminates_iff_counts exempted).mpr ⟨rfl, .inr ⟨not_written, 10, ?_⟩⟩⟩
  simp [direction]

/-- From 0.5 the loop is accepted as well, but passes ten by. -/
theorem not_terminates_fromHalf :
    ¬∀ context statement, isExempted context statement → Terminates context statement := by
  intro all
  have terminates := all ofCountToTen (countToTen (1 / 2)) (by decide +kernel)
  have reaches := (@terminates_iff_reaches ofCountToTen (countToTen (1 / 2)) _ _ _ _ _ rfl rfl rfl
    (by decide) .increment).mp terminates (fun _ => 0) _ rfl
  rw [Function.update_self] at reaches
  obtain atOnce | ⟨-, n, distance⟩ := reaches
  · norm_num at atOnce
  · have twice : ((2 * n : ℕ) : ℚ) = (19 : ℕ) := by
      push_cast
      simp only [direction, Int.cast_one] at distance
      linarith
    have := Nat.cast_injective twice
    omega

end SonarJS.EqualsInFor
