import Mathlib.Algebra.Order.Archimedean.Basic
import Mathlib.Algebra.Order.Ring.Rat
import Mathlib.Tactic.Linarith
import Mathlib.Tactic.Ring

/-!
# Loops that count in the wrong direction

A `for` loop is reported if its counter goes away from the bound in its test. Then the test stays
true once it is true, also if numbers are rounded. With exact numbers a loop that counts with
steps known from the source ends in all other cases.
-/

namespace SonarJS.LoopIncrements

/-! ## For statements -/

/-- What is needed of numbers: adding may round, but it goes in the right direction. -/
structure Arithmetic (α : Type*) [LinearOrder α] where
  zero : α
  one : α
  add : α → α → α
  sub : α → α → α
  neg : α → α
  zero_lt_one : zero < one
  le_add : ∀ {x c}, zero < c → x ≤ add x c
  add_le : ∀ {x c}, c < zero → add x c ≤ x
  sub_le : ∀ {x c}, zero < c → sub x c ≤ x
  le_sub : ∀ {x c}, c < zero → x ≤ sub x c
  neg_lt_zero : ∀ {c}, zero < c → neg c < zero
  zero_lt_neg : ∀ {c}, c < zero → zero < neg c

section Syntax

variable {α : Type*} [LinearOrder α] (numbers : Arithmetic α)

/-- A literal with its value, if this is a number, and what `Number` makes of its text. Octal
literals are read as decimal ones, and separators between digits are not read. -/
structure Literal where
  value : Option α
  read : Option α
  number : ∀ x ∈ read, ∃ y ∈ value,
    (numbers.zero < x ↔ numbers.zero < y) ∧ (x < numbers.zero ↔ y < numbers.zero)

inductive UnaryOperator
  | plus
  | minus
  | other
deriving DecidableEq

inductive BinaryOperator
  | plus
  | minus
  | less
  | lessOrEqual
  | greater
  | greaterOrEqual
  | other
deriving DecidableEq

inductive UpdateOperator
  | increment
  | decrement
deriving DecidableEq

inductive AssignmentOperator
  | assign
  | plus
  | minus
  | other
deriving DecidableEq

/-- Of other expressions, nothing is looked at. -/
inductive Expression
  | identifier (name : String)
  | literal (node : Literal numbers)
  | unary (operator : UnaryOperator) (argument : Expression)
  | binary (operator : BinaryOperator) (left right : Expression)
  | update (operator : UpdateOperator) (argument : Expression)
  | assignment (operator : AssignmentOperator) (left right : Expression)
  | other (id : ℕ)

structure ForStatement where
  test : Option (Expression numbers)
  update : Option (Expression numbers)

end Syntax

/-! ## The rule -/

section Rule

variable {α : Type*} [LinearOrder α] {numbers : Arithmetic α}

structure ForLoopIncrement where
  identifier : String
  direction : ℤ
deriving DecidableEq

def directionFromValue : Expression numbers → ℤ
  | .literal node =>
    match node.read with
    | none => 0
    | some value => if value = numbers.zero then 0 else if numbers.zero < value then 1 else -1
  | .unary .plus argument => directionFromValue argument
  | .unary .minus argument => -directionFromValue argument
  | _ => 0

def isSameIdentifier (expression : Expression numbers) (identifier : String) : Bool :=
  match expression with
  | .identifier name => name = identifier
  | _ => false

namespace ForLoopIncrement

def increment (expression : Expression numbers) (direction : ℤ) : Option ForLoopIncrement :=
  match expression with
  | .identifier name => some ⟨name, direction⟩
  | _ => none

def assignmentIncrement (lhs rhs : Expression numbers) : Option ForLoopIncrement :=
  match lhs, rhs with
  | .identifier name, .binary .plus left right =>
    if isSameIdentifier left name then some ⟨name, directionFromValue right⟩ else none
  | .identifier name, .binary .minus left right =>
    if isSameIdentifier left name then some ⟨name, -directionFromValue right⟩ else none
  | _, _ => none

def findInLoopUpdate (forStatement : ForStatement numbers) : Option ForLoopIncrement :=
  match forStatement.update with
  | some (.update operator argument) =>
    increment argument (if operator = .increment then 1 else -1)
  | some (.assignment .plus (.identifier name) right) =>
    increment (.identifier name : Expression numbers) (directionFromValue right)
  | some (.assignment .minus (.identifier name) right) =>
    increment (.identifier name : Expression numbers) (-directionFromValue right)
  | some (.assignment .assign left right) => assignmentIncrement left right
  | _ => none

end ForLoopIncrement

def getWrongDirection (condition : Expression numbers) (loopIncrement : ForLoopIncrement) : ℤ :=
  match condition with
  | .binary operator left right =>
    if isSameIdentifier left loopIncrement.identifier then
      match operator with
      | .less | .lessOrEqual => -1
      | .greater | .greaterOrEqual => 1
      | _ => 0
    else if isSameIdentifier right loopIncrement.identifier then
      match operator with
      | .less | .lessOrEqual => 1
      | .greater | .greaterOrEqual => -1
      | _ => 0
    else 0
  | _ => 0

/-- A report at the update of the loop, with the test as its secondary location. -/
structure Report (numbers : Arithmetic α) where
  message : String
  secondary : Expression numbers
  node : Expression numbers

def onForStatement (forStatement : ForStatement numbers) : Option (Report numbers) :=
  match forStatement.test, ForLoopIncrement.findInLoopUpdate forStatement, forStatement.update with
  | some test, some loopIncrement, some update =>
    let wrongDirection := getWrongDirection test loopIncrement
    if wrongDirection ≠ 0 ∧ wrongDirection = loopIncrement.direction then
      let movement := if 0 < wrongDirection then "incremented" else "decremented"
      some {
        message := "\"" ++ loopIncrement.identifier ++ "\" is " ++ movement ++
          " and will never reach its stop condition."
        secondary := test
        node := update }
    else none
  | _, _, _ => none

end Rule

/-! ## Running the loop -/

section Semantics

variable {α : Type*} [LinearOrder α] {numbers : Arithmetic α}

abbrev Env (α : Type*) := String → α

variable (meaning : Expression numbers → Env α → α)

/-- The value of an expression, where the other ones have some meaning. -/
@[grind =] def eval : Expression numbers → Env α → α
  | .identifier name, env => env name
  | .literal node, env => node.value.getD (meaning (.literal node) env)
  | .unary .plus argument, env => eval argument env
  | .unary .minus argument, env => numbers.neg (eval argument env)
  | expression, env => meaning expression env

/-- What other updates do is left open. -/
def Executes (update : Expression numbers) (env env' : Env α) : Prop :=
  match update with
  | .update .increment (.identifier name) =>
    env' = Function.update env name (numbers.add (env name) numbers.one)
  | .update .decrement (.identifier name) =>
    env' = Function.update env name (numbers.sub (env name) numbers.one)
  | .assignment .plus (.identifier name) right =>
    env' = Function.update env name (numbers.add (env name) (eval meaning right env))
  | .assignment .minus (.identifier name) right =>
    env' = Function.update env name (numbers.sub (env name) (eval meaning right env))
  | .assignment .assign (.identifier name) (.binary .plus left right) =>
    env' = Function.update env name (numbers.add (eval meaning left env) (eval meaning right env))
  | .assignment .assign (.identifier name) (.binary .minus left right) =>
    env' = Function.update env name (numbers.sub (eval meaning left env) (eval meaning right env))
  | _ => True

/-- The truth of comparisons. Other tests can have any result. -/
def Holds (test : Expression numbers) (env : Env α) : Prop :=
  match test with
  | .binary .less left right => eval meaning left env < eval meaning right env
  | .binary .lessOrEqual left right => eval meaning left env ≤ eval meaning right env
  | .binary .greater left right => eval meaning right env < eval meaning left env
  | .binary .greaterOrEqual left right => eval meaning right env ≤ eval meaning left env
  | _ => True

/-- The other side of a comparison with a variable. -/
def bound (test : Expression numbers) (identifier : String) : Option (Expression numbers) :=
  match test with
  | .binary _ left right => some (if isSameIdentifier left identifier then right else left)
  | _ => none

/-- The variables at the beginning of each iteration, if neither the counter nor the bound is
changed otherwise than by the update. -/
structure Run (forStatement : ForStatement numbers) (identifier : String) (states : ℕ → Env α) :
    Prop where
  next : ∀ k, ∀ update ∈ forStatement.update, ∃ env, env identifier = states k identifier ∧
    Executes meaning update env (states (k + 1))
  steady : ∀ test ∈ forStatement.test, ∀ limit ∈ bound test identifier, ∀ k,
    eval meaning limit (states k) = eval meaning limit (states 0)

end Semantics

/-! ## Steps -/

section Steps

variable {α : Type*} [LinearOrder α] {numbers : Arithmetic α}
variable {meaning : Expression numbers → Env α → α}

/-- What an update does to its counter. -/
inductive Moves (numbers : Arithmetic α) : ℤ → (α → α) → Prop
  | add {c : α} (positive : numbers.zero < c) : Moves numbers 1 (numbers.add · c)
  | addNegative {c : α} (negative : c < numbers.zero) : Moves numbers (-1) (numbers.add · c)
  | sub {c : α} (positive : numbers.zero < c) : Moves numbers (-1) (numbers.sub · c)
  | subNegative {c : α} (negative : c < numbers.zero) : Moves numbers 1 (numbers.sub · c)

theorem Moves.le {direction : ℤ} {move : α → α} (moves : Moves numbers direction move) :
    (direction = 1 → ∀ x, x ≤ move x) ∧ (direction = -1 → ∀ x, move x ≤ x) := by
  have one_ne : (1 : ℤ) ≠ -1 := by decide
  cases moves with
  | add positive =>
      exact ⟨fun _ x => numbers.le_add positive, fun other => absurd other one_ne⟩
  | addNegative negative =>
      exact ⟨fun other => absurd other.symm one_ne, fun _ x => numbers.add_le negative⟩
  | sub positive =>
      exact ⟨fun other => absurd other.symm one_ne, fun _ x => numbers.sub_le positive⟩
  | subNegative negative =>
      exact ⟨fun _ x => numbers.le_sub negative, fun other => absurd other one_ne⟩

theorem Moves.direction {direction : ℤ} {move : α → α} (moves : Moves numbers direction move) :
    direction = 1 ∨ direction = -1 := by
  cases moves with
  | add | subNegative => exact .inl rfl
  | sub | addNegative => exact .inr rfl

/-- Some constant is added or subtracted, whose sign is known. -/
def HasSign (meaning : Expression numbers → Env α → α) (direction : ℤ)
    (expression : Expression numbers) : Prop :=
  direction = 0 ∨ ∃ c, (∀ env, eval meaning expression env = c) ∧
    (direction = 1 ∧ numbers.zero < c ∨ direction = -1 ∧ c < numbers.zero)

theorem hasSign_literal (node : Literal numbers) :
    HasSign meaning (directionFromValue (.literal node)) (.literal node) := by
  cases isRead : node.read with
  | none => exact .inl (by rw [directionFromValue, isRead])
  | some read =>
      obtain ⟨value, isValue, positive, negative⟩ := node.number read isRead
      have evaluates : ∀ env, eval meaning (.literal node) env = value := by
        intro env
        rw [eval, isValue, Option.getD_some]
      have direction : directionFromValue (.literal node) =
          if read = numbers.zero then 0 else if numbers.zero < read then 1 else -1 := by
        rw [directionFromValue, isRead]
      rw [direction]
      split_ifs with isZero above
      · exact .inl rfl
      · exact .inr ⟨value, evaluates, .inl ⟨rfl, positive.mp above⟩⟩
      · have below : read < numbers.zero := lt_of_le_of_ne (not_lt.mp above) isZero
        exact .inr ⟨value, evaluates, .inr ⟨rfl, negative.mp below⟩⟩

theorem HasSign.neg {direction : ℤ} {argument : Expression numbers}
    (sign : HasSign meaning direction argument) :
    HasSign meaning (-direction) (.unary .minus argument) := by
  obtain rfl | ⟨c, evaluates, positive | negative⟩ := sign
  · exact .inl rfl
  · obtain ⟨rfl, positive⟩ := positive
    refine .inr ⟨numbers.neg c, fun env => ?_, .inr ⟨rfl, numbers.neg_lt_zero positive⟩⟩
    rw [eval, evaluates]
  · obtain ⟨rfl, negative⟩ := negative
    refine .inr ⟨numbers.neg c, fun env => ?_, .inl ⟨rfl, numbers.zero_lt_neg negative⟩⟩
    rw [eval, evaluates]

variable (meaning) in
theorem hasSign_directionFromValue (expression : Expression numbers) :
    HasSign meaning (directionFromValue expression) expression := by
  induction expression with
  | literal node => exact hasSign_literal node
  | unary operator argument ih =>
      cases operator with
      | plus => exact ih
      | minus => exact ih.neg
      | other => exact .inl rfl
  | _ => exact .inl rfl

theorem moves_add {direction : ℤ} {right : Expression numbers}
    (sign : HasSign meaning direction right) (known : direction ≠ 0) :
    ∃ move, Moves numbers direction move ∧
      ∀ env x, numbers.add x (eval meaning right env) = move x := by
  obtain unknown | ⟨c, evaluates, ⟨rfl, positive⟩ | ⟨rfl, negative⟩⟩ := sign
  · exact absurd unknown known
  · exact ⟨_, .add positive, fun env x => by rw [evaluates]⟩
  · exact ⟨_, .addNegative negative, fun env x => by rw [evaluates]⟩

theorem moves_sub {direction : ℤ} {right : Expression numbers}
    (sign : HasSign meaning direction right) (known : -direction ≠ 0) :
    ∃ move, Moves numbers (-direction) move ∧
      ∀ env x, numbers.sub x (eval meaning right env) = move x := by
  obtain rfl | ⟨c, evaluates, ⟨rfl, positive⟩ | ⟨rfl, negative⟩⟩ := sign
  · exact absurd rfl known
  · exact ⟨_, .sub positive, fun env x => by rw [evaluates]⟩
  · exact ⟨_, .subNegative negative, fun env x => by rw [evaluates]⟩

theorem eq_of_isSameIdentifier {expression : Expression numbers} {name : String}
    (same : isSameIdentifier expression name = true) : expression = .identifier name := by
  unfold isSameIdentifier at same
  split at same
  · rw [of_decide_eq_true same]
  · cases same

variable (meaning) in
/-- An update whose direction is known moves its counter in this direction. -/
theorem moves_of_find {forStatement : ForStatement numbers} {loopIncrement : ForLoopIncrement}
    (isFound : ForLoopIncrement.findInLoopUpdate forStatement = some loopIncrement)
    (known : loopIncrement.direction ≠ 0) :
    ∃ move, Moves numbers loopIncrement.direction move ∧
      ∀ update ∈ forStatement.update, ∀ env env', Executes meaning update env env' →
        env' loopIncrement.identifier = move (env loopIncrement.identifier) := by
  obtain ⟨test, update⟩ := forStatement
  unfold ForLoopIncrement.findInLoopUpdate at isFound
  split at isFound
  next operator argument isUpdate =>
    obtain rfl : update = _ := isUpdate
    cases argument with
    | identifier name =>
        obtain rfl := Option.some.inj isFound
        cases operator with
        | increment =>
            refine ⟨_, .add numbers.zero_lt_one, ?_⟩
            rintro _ ⟨⟩ env env' rfl
            exact Function.update_self ..
        | decrement =>
            refine ⟨_, .sub numbers.zero_lt_one, ?_⟩
            rintro _ ⟨⟩ env env' rfl
            exact Function.update_self ..
    | _ => cases isFound
  next name right isUpdate =>
    obtain rfl : update = _ := isUpdate
    obtain rfl := Option.some.inj isFound
    obtain ⟨move, moves, adds⟩ := moves_add (hasSign_directionFromValue meaning right) known
    refine ⟨move, moves, ?_⟩
    rintro _ ⟨⟩ env env' rfl
    exact (Function.update_self ..).trans (adds env _)
  next name right isUpdate =>
    obtain rfl : update = _ := isUpdate
    obtain rfl := Option.some.inj isFound
    obtain ⟨move, moves, subtracts⟩ :=
      moves_sub (hasSign_directionFromValue meaning right) known
    refine ⟨move, moves, ?_⟩
    rintro _ ⟨⟩ env env' rfl
    exact (Function.update_self ..).trans (subtracts env _)
  next left right isUpdate =>
    obtain rfl : update = _ := isUpdate
    unfold ForLoopIncrement.assignmentIncrement at isFound
    split at isFound
    next name left right =>
      split at isFound
      next same =>
        obtain rfl := eq_of_isSameIdentifier same
        obtain rfl := Option.some.inj isFound
        obtain ⟨move, moves, adds⟩ :=
          moves_add (hasSign_directionFromValue meaning right) known
        refine ⟨move, moves, ?_⟩
        rintro _ ⟨⟩ env env' rfl
        exact (Function.update_self ..).trans (adds env _)
      next => cases isFound
    next name left right =>
      split at isFound
      next same =>
        obtain rfl := eq_of_isSameIdentifier same
        obtain rfl := Option.some.inj isFound
        obtain ⟨move, moves, subtracts⟩ :=
          moves_sub (hasSign_directionFromValue meaning right) known
        refine ⟨move, moves, ?_⟩
        rintro _ ⟨⟩ env env' rfl
        exact (Function.update_self ..).trans (subtracts env _)
      next => cases isFound
    next => cases isFound
  next => cases isFound

end Steps

/-! ## Runs -/

section Runs

variable {α : Type*} [LinearOrder α] {numbers : Arithmetic α}
variable {meaning : Expression numbers → Env α → α}

/-- What it means that a test bounds a variable: from above if it would be wrong to decrement it,
from below if it would be wrong to increment it. -/
inductive Bounds (meaning : Expression numbers → Env α → α) (test : Expression numbers)
    (name : String) (limit : Expression numbers) : ℤ → Prop
  | less (holds : ∀ env, Holds meaning test env ↔ env name < eval meaning limit env) :
    Bounds meaning test name limit (-1)
  | lessOrEqual (holds : ∀ env, Holds meaning test env ↔ env name ≤ eval meaning limit env) :
    Bounds meaning test name limit (-1)
  | greater (holds : ∀ env, Holds meaning test env ↔ eval meaning limit env < env name) :
    Bounds meaning test name limit 1
  | greaterOrEqual (holds : ∀ env, Holds meaning test env ↔ eval meaning limit env ≤ env name) :
    Bounds meaning test name limit 1

variable (meaning) in
theorem bounds_of_getWrongDirection {test : Expression numbers} {loopIncrement : ForLoopIncrement}
    (compared : getWrongDirection test loopIncrement ≠ 0) :
    ∃ limit, bound test loopIncrement.identifier = some limit ∧
      Bounds meaning test loopIncrement.identifier limit
        (getWrongDirection test loopIncrement) := by
  cases test with
  | binary operator left right =>
      unfold getWrongDirection at compared ⊢
      unfold bound
      simp only at compared ⊢
      split_ifs at compared ⊢ with onLeft onRight
      · refine ⟨right, rfl, ?_⟩
        rw [eq_of_isSameIdentifier onLeft]
        cases operator with
        | less => exact .less fun env => Iff.rfl
        | lessOrEqual => exact .lessOrEqual fun env => Iff.rfl
        | greater => exact .greater fun env => Iff.rfl
        | greaterOrEqual => exact .greaterOrEqual fun env => Iff.rfl
        | _ => exact absurd rfl compared
      · refine ⟨left, rfl, ?_⟩
        rw [eq_of_isSameIdentifier onRight]
        cases operator with
        | less => exact .greater fun env => Iff.rfl
        | lessOrEqual => exact .greaterOrEqual fun env => Iff.rfl
        | greater => exact .less fun env => Iff.rfl
        | greaterOrEqual => exact .lessOrEqual fun env => Iff.rfl
        | _ => exact absurd rfl compared
      · exact absurd rfl compared
  | _ => exact absurd rfl compared

/-- After some iterations, the counter has been moved as many times. -/
theorem counter_of_run {forStatement : ForStatement numbers} {name : String} {states : ℕ → Env α}
    (run : Run meaning forStatement name states) {update : Expression numbers}
    (isUpdate : forStatement.update = some update) {move : α → α}
    (moves : ∀ env env', Executes meaning update env env' → env' name = move (env name)) (k : ℕ) :
    states k name = move^[k] (states 0 name) := by
  induction k with
  | zero => rfl
  | succ k ih =>
      obtain ⟨env, same, executes⟩ := run.next k update isUpdate
      rw [moves _ _ executes, same, ih, Function.iterate_succ_apply']

theorem iterate_le {move : α → α} (up : ∀ x, x ≤ move x) (x : α) (k : ℕ) : x ≤ move^[k] x := by
  induction k with
  | zero => exact le_rfl
  | succ k ih =>
      rw [Function.iterate_succ_apply']
      exact ih.trans (up _)

theorem le_iterate {move : α → α} (down : ∀ x, move x ≤ x) (x : α) (k : ℕ) : move^[k] x ≤ x := by
  induction k with
  | zero => exact le_rfl
  | succ k ih =>
      rw [Function.iterate_succ_apply']
      exact (down _).trans ih

/-- With enough steps, any number is passed. -/
def Progresses (numbers : Arithmetic α) : Prop :=
  ∀ direction move, Moves numbers direction move → ∀ x limit, ∃ k,
    (direction = 1 → limit < move^[k] x) ∧ (direction = -1 → move^[k] x < limit)

/-- The bound is not reached if the counter goes away from it. -/
theorem holds_of_away {test limit : Expression numbers} {name : String} {direction : ℤ}
    (bounds : Bounds meaning test name limit direction) {env env' : Env α}
    (steady : eval meaning limit env' = eval meaning limit env)
    (away : (direction = 1 → env name ≤ env' name) ∧ (direction = -1 → env' name ≤ env name))
    (holds : Holds meaning test env) : Holds meaning test env' := by
  cases bounds with
  | less iff =>
      rw [iff, steady]
      exact lt_of_le_of_lt (away.2 rfl) ((iff env).mp holds)
  | lessOrEqual iff =>
      rw [iff, steady]
      exact le_trans (away.2 rfl) ((iff env).mp holds)
  | greater iff =>
      rw [iff, steady]
      exact lt_of_lt_of_le ((iff env).mp holds) (away.1 rfl)
  | greaterOrEqual iff =>
      rw [iff, steady]
      exact le_trans ((iff env).mp holds) (away.1 rfl)

theorem not_holds_of_passed {test limit : Expression numbers} {name : String} {direction : ℤ}
    (bounds : Bounds meaning test name limit direction) {env : Env α}
    (passed : (direction = -1 → eval meaning limit env < env name) ∧
      (direction = 1 → env name < eval meaning limit env)) : ¬Holds meaning test env := by
  cases bounds with
  | less iff => exact fun holds => lt_asymm ((iff env).mp holds) (passed.1 rfl)
  | lessOrEqual iff => exact fun holds => not_lt.mpr ((iff env).mp holds) (passed.1 rfl)
  | greater iff => exact fun holds => lt_asymm ((iff env).mp holds) (passed.2 rfl)
  | greaterOrEqual iff => exact fun holds => not_lt.mpr ((iff env).mp holds) (passed.2 rfl)

theorem isSome_onForStatement {forStatement : ForStatement numbers} :
    (onForStatement forStatement).isSome ↔ ∃ test loopIncrement update,
      forStatement.test = some test ∧ forStatement.update = some update ∧
        ForLoopIncrement.findInLoopUpdate forStatement = some loopIncrement ∧
          getWrongDirection test loopIncrement ≠ 0 ∧
            getWrongDirection test loopIncrement = loopIncrement.direction := by
  unfold onForStatement
  split
  next test loopIncrement update isTest isFound isUpdate =>
    rw [isTest, isUpdate, isFound]
    simp
  next other =>
    refine iff_of_false (by simp) ?_
    rintro ⟨test, loopIncrement, update, isTest, isUpdate, isFound, -, -⟩
    exact other _ _ _ isTest isFound isUpdate

theorem Bounds.direction {test limit : Expression numbers} {name : String} {direction : ℤ}
    (bounds : Bounds meaning test name limit direction) : direction = 1 ∨ direction = -1 := by
  cases bounds with
  | less | lessOrEqual => exact .inr rfl
  | greater | greaterOrEqual => exact .inl rfl

end Runs

/-! ## Exact numbers -/

section Exact

def exactNumbers : Arithmetic ℚ where
  zero := 0
  one := 1
  add x c := x + c
  sub x c := x - c
  neg c := -c
  zero_lt_one := by decide
  le_add positive := by linarith
  add_le negative := by linarith
  sub_le positive := by linarith
  le_sub negative := by linarith
  neg_lt_zero positive := by linarith
  zero_lt_neg negative := by linarith

theorem iterate_add (x c : ℚ) (k : ℕ) : (· + c)^[k] x = x + k * c := by
  induction k with
  | zero => simp
  | succ k ih =>
      rw [Function.iterate_succ_apply', ih]
      push_cast
      ring

theorem exists_lt_iterate {c : ℚ} (positive : 0 < c) (x limit : ℚ) :
    ∃ k : ℕ, limit < (· + c)^[k] x := by
  obtain ⟨k, large⟩ := exists_nat_gt ((limit - x) / c)
  refine ⟨k, ?_⟩
  rw [iterate_add]
  have := (div_lt_iff₀ positive).mp large
  linarith

theorem exists_iterate_lt {c : ℚ} (negative : c < 0) (x limit : ℚ) :
    ∃ k : ℕ, (· + c)^[k] x < limit := by
  obtain ⟨k, large⟩ := exists_lt_iterate (neg_pos.mpr negative) (-x) (-limit)
  refine ⟨k, ?_⟩
  rw [iterate_add] at large ⊢
  linarith

/-- Exact numbers are passed by counting. -/
theorem progresses_exact : Progresses exactNumbers := by
  intro direction move moves x limit
  cases moves with
  | add positive =>
      obtain ⟨k, passed⟩ := exists_lt_iterate positive x limit
      exact ⟨k, fun _ => passed, fun other => absurd other (by decide)⟩
  | addNegative negative =>
      obtain ⟨k, passed⟩ := exists_iterate_lt negative x limit
      exact ⟨k, fun other => absurd other (by decide), fun _ => passed⟩
  | @sub c positive =>
      obtain ⟨k, passed⟩ := exists_iterate_lt (neg_lt_zero.mpr positive) x limit
      have same : (fun y => exactNumbers.sub y c) = (· + -c) := funext fun y => sub_eq_add_neg y c
      exact ⟨k, fun other => absurd other (by decide), fun _ => same ▸ passed⟩
  | @subNegative c negative =>
      obtain ⟨k, passed⟩ := exists_lt_iterate (neg_pos.mpr negative) x limit
      have same : (fun y => exactNumbers.sub y c) = (· + -c) := funext fun y => sub_eq_add_neg y c
      exact ⟨k, fun _ => same ▸ passed, fun other => absurd other (by decide)⟩

end Exact

/-! ## Reported loops -/

/-- A loop whose counter moves with known steps, and whose test bounds the counter: if the loop is
reported, the test stays true; if it is not reported, the test becomes false. -/
theorem endless_of_reported {α : Type*} [LinearOrder α] {numbers : Arithmetic α}
    (meaning : Expression numbers → Env α → α) (forStatement : ForStatement numbers)
    (loopIncrement : ForLoopIncrement) (test : Expression numbers) (states : ℕ → Env α)
    (isTest : forStatement.test = some test)
    (isFound : ForLoopIncrement.findInLoopUpdate forStatement = some loopIncrement)
    (known : loopIncrement.direction ≠ 0) (compared : getWrongDirection test loopIncrement ≠ 0)
    (run : Run meaning forStatement loopIncrement.identifier states) :
    ((onForStatement forStatement).isSome → Holds meaning test (states 0) →
      ∀ k, Holds meaning test (states k)) ∧
    (Progresses numbers → (onForStatement forStatement).isSome = false →
      ∃ k, ¬Holds meaning test (states k)) := by
  obtain ⟨move, moves, executes⟩ := moves_of_find meaning isFound known
  obtain ⟨limit, isBound, bounds⟩ := bounds_of_getWrongDirection meaning compared
  obtain ⟨update, isUpdate⟩ : ∃ update, forStatement.update = some update := by
    cases isUpdate : forStatement.update with
    | some update => exact ⟨update, rfl⟩
    | none =>
        unfold ForLoopIncrement.findInLoopUpdate at isFound
        rw [isUpdate] at isFound
        cases isFound
  have counter := counter_of_run run isUpdate (executes update isUpdate)
  have steady := run.steady test isTest limit isBound
  have reported : (onForStatement forStatement).isSome ↔
      getWrongDirection test loopIncrement = loopIncrement.direction := by
    rw [isSome_onForStatement]
    constructor
    · rintro ⟨test', loopIncrement', update', isTest', -, isFound', -, same⟩
      obtain rfl := Option.some.inj (isTest.symm.trans isTest')
      obtain rfl := Option.some.inj (isFound.symm.trans isFound')
      exact same
    · intro same
      exact ⟨test, loopIncrement, update, isTest, isUpdate, isFound, compared, same⟩
  constructor
  · intro isReported holds k
    rw [reported.mp isReported] at bounds
    refine holds_of_away bounds (steady k) ⟨fun up => ?_, fun down => ?_⟩ holds
    · rw [counter k]
      exact iterate_le (moves.le.1 up) _ k
    · rw [counter k]
      exact le_iterate (moves.le.2 down) _ k
  · intro progresses unreported
    have differ : getWrongDirection test loopIncrement ≠ loopIncrement.direction := by
      intro same
      rw [reported.mpr same] at unreported
      cases unreported
    obtain ⟨k, above, below⟩ :=
      progresses _ move moves (states 0 loopIncrement.identifier) (eval meaning limit (states 0))
    refine ⟨k, not_holds_of_passed bounds ⟨fun down => ?_, fun up => ?_⟩⟩
    · rw [steady k, counter k]
      exact above (moves.direction.resolve_right fun same => differ (down.trans same.symm))
    · rw [steady k, counter k]
      exact below (moves.direction.resolve_left fun same => differ (up.trans same.symm))

/-- A number that is read as it is. -/
def decimal (value : ℚ) : Expression exactNumbers :=
  .literal ⟨some value, some value, fun x isRead => ⟨x, isRead, Iff.rfl, Iff.rfl⟩⟩

/-- The loop `for (; i < 10; i--) {}`. -/
def countingDown : ForStatement exactNumbers where
  test := some (.binary .less (.identifier "i") (decimal 10))
  update := some (.update .decrement (.identifier "i"))

/-- The loop `for (; 10 > i; i = i + +2) {}`. -/
def countingUp : ForStatement exactNumbers where
  test := some (.binary .greater (decimal 10) (.identifier "i"))
  update := some (.assignment .assign (.identifier "i")
    (.binary .plus (.identifier "i") (.unary .plus (decimal 2))))

/-- The counter has some value. -/
def counterAt (value : ℚ) : Env ℚ := Function.update (fun _ => 0) "i" value

theorem endless_of_reported_counting :
    (∀ k : ℕ, Holds (fun _ _ => 0) (.binary .less (.identifier "i") (decimal 10))
      (counterAt (-k))) ∧
    ∃ k : ℕ, ¬Holds (fun _ _ => 0) (.binary .greater (decimal 10) (.identifier "i"))
      (counterAt (2 * k)) := by
  constructor
  · refine (endless_of_reported _ countingDown ⟨"i", -1⟩ _ (fun k => counterAt (-k)) rfl rfl
      (by decide) (by decide) ⟨?_, ?_⟩).1 rfl ?_
    · rintro k _ ⟨⟩
      refine ⟨counterAt (-k), rfl, ?_⟩
      simp only [Executes, counterAt, Function.update_idem, Function.update_self, exactNumbers]
      push_cast
      rw [neg_add']
    · rintro _ ⟨⟩ _ ⟨⟩ k
      rfl
    · simp [Holds, eval, decimal, counterAt]
  · refine (endless_of_reported _ countingUp ⟨"i", 1⟩ _ (fun k => counterAt (2 * k)) rfl ?_
      (by decide) (by decide) ⟨?_, ?_⟩).2 progresses_exact ?_
    · decide
    · rintro k _ ⟨⟩
      refine ⟨counterAt (2 * k), rfl, ?_⟩
      simp only [Executes, counterAt, Function.update_idem, Function.update_self, exactNumbers,
        eval, decimal, Option.getD_some]
      push_cast
      rw [mul_add, mul_one]
    · rintro _ ⟨⟩ _ ⟨⟩ k
      rfl
    · decide

end SonarJS.LoopIncrements
