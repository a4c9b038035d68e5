import SonarJS.Linting.InvariantReturns.Execution

/-!
# What a reported function returns

Two runs of a reported function with the same arguments and the same outer state return equal values
where they keep to what the rule takes for granted: that the first reference of a variable is its
initialisation, and is executed before the variable is returned.
-/

namespace SonarJS.InvariantReturns

/-! ## What the rule takes for granted -/

section Conditions

variable {ν ω : Type} (numbers : Numbers ν) (f : Function ν)

def Function.returned : List (Expression ν) := f.body.returnStatements.filterMap id

/-- The value that `getLiteralValue` finds. -/
inductive LiteralOf : Expression ν → LiteralValue ν → Prop
  | literal {v} : LiteralOf (.literal v) v
  | unary {operator argument v w} : LiteralOf argument v →
      evaluateUnaryLiteralExpression numbers operator v = some w →
      LiteralOf (.unary operator argument) w
  | identifier {name x init v} : getSingleWriteDefinition f name.name = some (x, some init) →
      LiteralOf init v → LiteralOf (.identifier name) v

/-- The expressions that the rule passes when it looks for literals. -/
inductive Followed : Expression ν → Prop
  | returned {e} : e ∈ f.returned → Followed e
  | argument {operator argument} : Followed (.unary operator argument) → Followed argument
  | init {name x init} : Followed (.identifier name) →
      getSingleWriteDefinition f name.name = some (x, some init) → Followed init

/-- The expression gives the literal that the rule finds: a name means the variable of the function,
which has been written, and no operator for numbers is applied to a bigint. -/
def Exact (σ : State ν ω) : Expression ν → Prop
  | .identifier name => f.scope name.name = some name.binding ∧ σ.written name.binding = true
  | .unary operator argument =>
    Exact σ argument ∧
      (operator.isNumeric = true → ∀ i, ¬LiteralOf numbers f argument (.bigint i))
  | _ => True

/-- The condition on a step where the returned values are literals. -/
def MeetsLiteral : Step ν ω → Prop
  | (.returns _ (some argument), σ) => Exact numbers f σ argument
  | (.declare targets (some init), σ) =>
    ∀ name, Followed f (.identifier name) → ∀ target ∈ targets,
      f.scope name.name = some target.identifier.binding →
        target.component = none ∧ Exact numbers f σ init
  | _ => True

/-- The condition on a step where the variable `x` is returned: the write of it is passed before
every return or before none, and it reads what has been seen. -/
def MeetsVariable (x : ℕ) (seen : State ν ω) (through : Bool) (step : Step ν ω) : Prop :=
  (step.1.IsReturn → step.2.written x = through) ∧
    (x ∈ step.1.targets → Agree step.1 step.2 seen)

def ReturnsLiteral : Prop := ∃ first ∈ f.returned.head?, ∃ v, LiteralOf numbers f first v

/-- The condition on a step of the runs that are compared. -/
def Meets (seen : State ν ω) (through : Bool) (step : Step ν ω) : Prop :=
  (ReturnsLiteral numbers f → MeetsLiteral numbers f step) ∧
    (¬ReturnsLiteral numbers f → ∀ name, f.returned.head? = some (.identifier name) →
      ∀ x ∈ f.scope name.name, MeetsVariable x seen through step)

end Conditions

/-! ## Variables that are written once -/

section SingleWrite

variable {ν : Type}

namespace Statement

/-- The statements that write `x`, as often as they do. -/
def writers (x : ℕ) (s : Statement ν) : List (Statement ν) :=
  s.parts.flatMap fun part => (part.targets.filter (· = x)).map fun _ => part

theorem mem_writers {x : ℕ} {s part : Statement ν} (inside : part ∈ s.parts)
    (target : x ∈ part.targets) : part ∈ s.writers x := by
  refine List.mem_flatMap.mpr ⟨part, inside, List.mem_map.mpr ⟨x, ?_, rfl⟩⟩
  exact List.mem_filter.mpr ⟨target, by simp⟩

/-- The references that write `x`. -/
def writesOf (x : ℕ) (references : List Reference) : List Reference :=
  (references.filter fun reference => reference.identifier.binding = x).filter Reference.isWrite

@[simp] theorem writesOf_nil (x : ℕ) : writesOf x [] = [] := rfl

@[simp] theorem writesOf_append (x : ℕ) (references references' : List Reference) :
    writesOf x (references ++ references') = writesOf x references ++ writesOf x references' := by
  simp [writesOf]

@[simp] theorem writesOf_read (x : ℕ) (possible : Bool) (reads : List Identifier) :
    writesOf x (reads.map (InvariantReturns.read possible)) = [] := by
  simp [writesOf, InvariantReturns.read]

theorem writesOf_write (x : ℕ) (target : Identifier) (references : List Reference) :
    (writesOf x (InvariantReturns.write target :: references)).length =
      ([target.binding].filter (· = x)).length + (writesOf x references).length := by
  by_cases same : target.binding = x
  · simp [writesOf, InvariantReturns.write, same, Nat.add_comm]
  · simp [writesOf, InvariantReturns.write, same]

theorem writesOf_targets (x : ℕ) (declared : List Target) :
    (writesOf x (declared.map fun target => InvariantReturns.write target.identifier)).length =
      ((declared.map fun target => target.identifier.binding).filter (· = x)).length := by
  simp [writesOf, InvariantReturns.write, List.filter_map, Function.comp_def]

/-- Every write is a reference of its own. -/
theorem length_writers (x : ℕ) (s : Statement ν) :
    (s.writers x).length = (writesOf x s.references).length := by
  induction s with
  | sequence first second ihFirst ihSecond => simp_all [writers, parts, targets, references]
  | block locals body ih => simp_all [writers, parts, targets, references]
  | branch test consequent alternate ihConsequent ihAlternate =>
      simp_all [writers, parts, targets, references]
  | whileLoop test body ih => simp_all [writers, parts, targets, references]
  | tryCatch body handler ihBody ihHandler => simp_all [writers, parts, targets, references]
  | declare declared init =>
      cases init with
      | none => rfl
      | some init => simp [writers, parts, references, targets, writesOf_targets]
  | assign target value => simp [writers, parts, references, targets, writesOf_write]
  | update target label reads => simp [writers, parts, references, targets, writesOf_write]
  | evaluate isCall element label reads => simp [writers, parts, references, targets]
  | throw argument => simp [writers, parts, references, targets]
  | returns id argument => cases argument <;> simp [writers, parts, references, targets]
  | _ => rfl

end Statement

variable {f : Function ν} {name : String} {x : ℕ} {init : Option (Expression ν)}

theorem getSingleWriteDefinition_scope (single : getSingleWriteDefinition f name = some (x, init)) :
    f.scope name = some x := by
  unfold getSingleWriteDefinition at single
  split at single
  · simp at single
  next v found =>
    split at single
    · simp at single
    · split at single
      all_goals
        obtain ⟨rfl, -⟩ := Prod.mk.injEq .. ▸ Option.some.inj single
        exact found

theorem getSingleWriteDefinition_tail
    (single : getSingleWriteDefinition f name = some (x, init)) :
    ∀ reference ∈ (f.references x).tail, reference.isWrite = false := by
  have found := getSingleWriteDefinition_scope single
  unfold getSingleWriteDefinition at single
  rw [found] at single
  simp only at single
  split at single
  · simp at single
  next none => 
    intro reference inside
    simp only [List.any_eq_true, not_exists, not_and, Bool.or_eq_true, not_or] at none
    simpa using (none reference inside).1

/-- The initialiser that is found belongs to a declaration. -/
theorem getSingleWriteDefinition_init {e : Expression ν}
    (single : getSingleWriteDefinition f name = some (x, some e)) :
    ∃ targets, .declare targets (some e) ∈ f.body.parts ∧
      x ∈ (Statement.declare targets (some e)).targets := by
  have found := getSingleWriteDefinition_scope single
  unfold getSingleWriteDefinition at single
  rw [found] at single
  simp only at single
  split at single
  · simp at single
  · split at single
    next init only =>
      obtain ⟨-, rfl⟩ := Prod.mk.inj (Option.some.inj single)
      have definition : Function.Definition.declarator (some e) ∈ f.defs x := by simp [only]
      obtain parameter | declared := List.mem_append.mp definition
      · simp at parameter
      · obtain ⟨declarator, mem, same⟩ := List.mem_map.mp declared
        obtain ⟨mem, binding⟩ := List.mem_filter.mp mem
        obtain ⟨part, inside, mem⟩ := List.mem_flatMap.mp mem
        obtain ⟨y, init⟩ := declarator
        obtain rfl : init = some e := Function.Definition.declarator.inj same
        obtain rfl : y = x := of_decide_eq_true binding
        cases part with
        | declare targets init =>
            obtain ⟨target, declared, same⟩ := List.mem_map.mp mem
            obtain ⟨binding, rfl⟩ := Prod.mk.inj same
            exact ⟨targets, inside, List.mem_map.mpr ⟨target, declared, binding⟩⟩
        | _ => simp at mem
    · simp at single

/-- All writes of a variable that is written once are by the same statement. -/
theorem writer_unique (single : getSingleWriteDefinition f name = some (x, init))
    {s s' : Statement ν} (inside : s ∈ f.body.parts) (target : x ∈ s.targets)
    (inside' : s' ∈ f.body.parts) (target' : x ∈ s'.targets) : s = s' := by
  have few : (f.body.writers x).length ≤ 1 := by
    have later := getSingleWriteDefinition_tail single
    rw [Statement.length_writers]
    show ((f.references x).filter Reference.isWrite).length ≤ 1
    cases references : f.references x with
    | nil => simp
    | cons head rest =>
        have none : rest.filter Reference.isWrite = [] := by
          refine List.filter_eq_nil_iff.mpr fun reference inside => ?_
          simpa using later reference (by simpa [references] using inside)
        rw [List.filter_cons, none]
        split <;> simp
  have mem := Statement.mem_writers inside target
  have mem' := Statement.mem_writers inside' target'
  cases writers : f.body.writers x with
  | nil => simp [writers] at mem
  | cons head rest =>
      have : rest = [] := List.eq_nil_of_length_eq_zero (by simpa [writers] using few)
      subst this
      simp only [writers, List.mem_singleton] at mem mem'
      exact mem.trans mem'.symm

end SingleWrite

/-! ## What the rule finds -/

section Found

variable {ν : Type} {numbers : Numbers ν} {f : Function ν}

theorem literalOf_of_getLiteralValue {fuel : ℕ} {e : Expression ν} {v : LiteralValue ν}
    (found : getLiteralValue numbers f fuel e = some (some v)) : LiteralOf numbers f e v := by
  induction fuel generalizing e v with
  | zero => simp [getLiteralValue] at found
  | succ fuel ih =>
      cases e with
      | literal value =>
          obtain rfl : value = v := by simpa [getLiteralValue] using found
          exact .literal
      | identifier name =>
          simp only [getLiteralValue] at found
          split at found
          next x init single => exact .identifier single (ih found)
          · simp at found
      | unary operator argument =>
          simp only [getLiteralValue, Option.map_eq_some_iff] at found
          obtain ⟨inner, computed, bound⟩ := found
          obtain ⟨value, rfl, evaluated⟩ := Option.bind_eq_some_iff.mp bound
          exact .unary (ih computed) evaluated
      | other label reads => simp [getLiteralValue] at found

/-- There is only one literal that can be found. -/
theorem getLiteralValue_of_literalOf {fuel : ℕ} {e : Expression ν} {v : LiteralValue ν}
    {result : Option (LiteralValue ν)} (literal : LiteralOf numbers f e v)
    (found : getLiteralValue numbers f fuel e = some result) : result = some v := by
  induction literal generalizing fuel result with
  | literal =>
      cases fuel with
      | zero => simp [getLiteralValue] at found
      | succ fuel => exact (Option.some.inj found).symm
  | unary _ evaluated ih =>
      cases fuel with
      | zero => simp [getLiteralValue] at found
      | succ fuel =>
          simp only [getLiteralValue, Option.map_eq_some_iff] at found
          obtain ⟨inner, computed, rfl⟩ := found
          rw [ih computed]
          exact evaluated
  | identifier single _ ih =>
      cases fuel with
      | zero => simp [getLiteralValue] at found
      | succ fuel =>
          simp only [getLiteralValue, single] at found
          exact ih found

theorem exists_of_mem_mapM {α β : Type} {g : α → Option β} {xs : List α} {ys : List β}
    (mapped : xs.mapM g = some ys) : ∀ x ∈ xs, ∃ y ∈ ys, g x = some y := by
  induction xs generalizing ys with
  | nil => simp
  | cons x xs ih =>
      simp only [List.mapM_cons, Option.bind_eq_bind, Option.bind_eq_some_iff, Option.pure_def,
        Option.some.injEq] at mapped
      obtain ⟨y, first, rest, others, rfl⟩ := mapped
      intro z inside
      obtain rfl | inside := List.mem_cons.mp inside
      · exact ⟨y, List.mem_cons_self, first⟩
      · obtain ⟨w, mem, found⟩ := ih others z inside
        exact ⟨w, List.mem_cons_of_mem _ mem, found⟩

/-- All returned expressions have literals that are equal to the first. -/
def AllLiterals (numbers : Numbers ν) (f : Function ν) (value : LiteralValue ν) : Prop :=
  ∀ e ∈ f.returned, ∃ v, LiteralOf numbers f e v ∧ (v = value ∨ v.strictEquals numbers value = true)

/-- All returned expressions are names of the variable `x`, which is written once at most. -/
def AllNames (f : Function ν) (x : ℕ) : Prop :=
  (∃ name init, f.returned.head? = some (.identifier name) ∧
    getSingleWriteDefinition f name.name = some (x, init)) ∧
  ∀ e ∈ f.returned, ∃ name, e = .identifier name ∧ name.binding = x

theorem allLiterals_of_every {fuel : ℕ} {first : Expression ν} {others : List (Expression ν)}
    {value : LiteralValue ν} {values : List (Option (LiteralValue ν))}
    (returned : f.returned = first :: others) (literal : LiteralOf numbers f first value)
    (mapped : others.mapM (getLiteralValue numbers f fuel) = some values)
    (same : values.all fun v => v.any fun v => v.strictEquals numbers value) :
    AllLiterals numbers f value := by
  intro e inside
  rw [returned] at inside
  obtain rfl | inside := List.mem_cons.mp inside
  · exact ⟨value, literal, .inl rfl⟩
  · obtain ⟨v, mem, found⟩ := exists_of_mem_mapM mapped e inside
    have equal := List.all_eq_true.mp same v mem
    cases v with
    | none => simp at equal
    | some v => exact ⟨v, literalOf_of_getLiteralValue found, .inr equal⟩

/-- The names that are references of the variable mean the variable. -/
theorem binding_eq_of_contains {x : ℕ} {name : Identifier}
    (contains : ((f.references x).tail.map Reference.identifier).contains name) :
    name.binding = x := by
  simp only [List.contains_eq_mem, decide_eq_true_eq, List.mem_map] at contains
  obtain ⟨reference, mem, rfl⟩ := contains
  simpa using (List.mem_filter.mp (List.mem_of_mem_tail mem)).2

theorem areAllSameValue_cases {fuel : ℕ}
    (same : areAllSameValue numbers f fuel f.returned = some true) :
    (ReturnsLiteral numbers f ∧ ∃ value, AllLiterals numbers f value) ∨
      (¬ReturnsLiteral numbers f ∧ ∃ x, AllNames f x) := by
  cases returned : f.returned with
  | nil => simp [returned, areAllSameValue] at same
  | cons first others =>
      rw [returned] at same
      simp only [areAllSameValue, Option.bind_eq_bind, Option.bind_eq_some_iff] at same
      obtain ⟨found, computed, same⟩ := same
      cases found with
      | some value =>
          have literal := literalOf_of_getLiteralValue computed
          simp only [Option.bind_eq_some_iff] at same
          obtain ⟨values, mapped, same⟩ := same
          refine .inl ⟨⟨first, by simp [returned], value, literal⟩, value, ?_⟩
          exact allLiterals_of_every returned literal mapped (Option.some.inj same)
      | none =>
          refine .inr ⟨?_, ?_⟩
          · rintro ⟨e, head, v, literal⟩
            obtain rfl : first = e := by simpa [returned] using head
            simpa using getLiteralValue_of_literalOf literal computed
          · cases first with
            | identifier name =>
                simp only at same
                split at same
                next x init single =>
                  refine ⟨x, ⟨name, init, by simp [returned], single⟩, fun e inside => ?_⟩
                  rw [returned] at inside
                  have all := List.all_eq_true.mp (Option.some.inj same) e inside
                  cases e with
                  | identifier name => exact ⟨name, rfl, binding_eq_of_contains all⟩
                  | _ => simp at all
                · simp at same
            | _ => simp at same

theorem mem_returned {id : ℕ} {argument : Option (Expression ν)}
    (different : hasDifferentReturnTypes f = false)
    (inside : .returns id argument ∈ f.body.parts) : ∃ e ∈ f.returned, argument = some e := by
  have mem : argument ∈ f.body.returnStatements := List.mem_filterMap.mpr ⟨_, inside, rfl⟩
  have all : f.body.returnStatements.any Option.isNone = false := by
    simp only [hasDifferentReturnTypes, Bool.or_eq_false_iff] at different
    exact different.1.1.2
  cases argument with
  | none => simpa using List.any_eq_false.mp all none mem
  | some e => exact ⟨e, List.mem_filterMap.mpr ⟨some e, mem, rfl⟩, rfl⟩

/-- A reported function returns a value in all return statements, and all return statements return
the same literal or the same variable. -/
theorem reported_cases (reported : Reported numbers f) :
    (∀ id argument, .returns id argument ∈ f.body.parts → ∃ e ∈ f.returned, argument = some e) ∧
      ((ReturnsLiteral numbers f ∧ ∃ value, AllLiterals numbers f value) ∨
        (¬ReturnsLiteral numbers f ∧ ∃ x, AllNames f x)) := by
  obtain ⟨fuel, checked⟩ := reported
  rw [checkInvariantReturnStatements] at checked
  split at checked
  · simp at checked
  next different =>
    exact ⟨fun id argument => mem_returned (by simpa using different),
      areAllSameValue_cases checked⟩

end Found

/-! ## Equal values -/

section Equal

variable {ν ω : Type} {numbers : Numbers ν} {outer : Outer ν ω} {f : Function ν}
variable {σ : State ν ω}

/-- Blocks have variables of their own. -/
theorem enter_apart {name : String} {x : ℕ} (scope : f.scope name = some x) {locals : List ℕ}
    {inner : Statement ν} (inside : .block locals inner ∈ f.body.parts) :
    (σ.enter locals).store x = σ.store x ∧ (σ.enter locals).written x = σ.written x := by
  have apart : x ∉ locals := fun mem =>
    f.apart name x scope (List.mem_flatMap.mpr ⟨_, inside, mem⟩)
  simp [State.enter, apart]

/-- A variable that the rule follows has its literal once it has been written. -/
def HasLiterals (numbers : Numbers ν) (f : Function ν) (σ : State ν ω) : Prop :=
  ∀ name x init v, Followed f (.identifier name) →
    getSingleWriteDefinition f name.name = some (x, some init) → LiteralOf numbers f init v →
    σ.written x = true → σ.store x = .literal v

theorem applyUnary_literal {operator : Operator} {v w : LiteralValue ν} {world : ω}
    (evaluated : evaluateUnaryLiteralExpression numbers operator v = some w)
    (numeric : operator.isNumeric = true → ∀ i, v ≠ .bigint i) :
    applyUnary numbers outer operator (.literal v) world = (some (.literal w), world) := by
  cases operator with
  | other => simp [evaluateUnaryLiteralExpression] at evaluated
  | not | typeof =>
      obtain rfl := Option.some.inj evaluated
      rfl
  | minus | plus | tilde =>
      obtain rfl := Option.some.inj evaluated
      cases v with
      | bigint i => exact absurd rfl (numeric rfl i)
      | _ => rfl

theorem eval_literal (outer : Outer ν ω) {e : Expression ν} {v : LiteralValue ν}
    (has : HasLiterals numbers f σ) (literal : LiteralOf numbers f e v)
    (followed : Followed f e) (exact : Exact numbers f σ e) :
    eval numbers outer σ e = (some (.literal v), σ.world) := by
  induction literal with
  | literal => rfl
  | @unary operator argument v w literal evaluated ih =>
      obtain ⟨inner, numeric⟩ := exact
      rw [eval, ih (.argument followed) inner]
      refine applyUnary_literal evaluated fun isNumeric i bigint => ?_
      exact numeric isNumeric i (bigint ▸ literal)
  | @identifier name x init v single literal _ =>
      obtain ⟨scope, written⟩ := exact
      obtain rfl : name.binding = x :=
        Option.some.inj (scope.symm.trans (getSingleWriteDefinition_scope single))
      have stored := has name name.binding init v followed single literal written
      simp only [eval, State.read, stored]

theorem kept_hasLiterals :
    Kept numbers outer f.body (MeetsLiteral numbers f) (HasLiterals numbers f) where
  enter locals inner σ inside has := by
    intro name x init v followed single literal written
    obtain ⟨store, same⟩ := enter_apart (σ := σ) (getSingleWriteDefinition_scope single) inside
    rw [store]
    exact has name x init v followed single literal (same ▸ written)
  inWorld σ world has := has
  step s σ e inside meets performed has := by
    intro name x init v followed single literal written
    obtain ⟨store, same⟩ | ⟨w, mem, -, stored, -⟩ := σ.apply_cases e x
    · rw [store]
      exact has name x init v followed single literal (same ▸ written)
    · -- the write is by the declaration that the rule has found
      obtain ⟨target, declared⟩ := mem_writes performed mem
      obtain ⟨targets, inside', target'⟩ := getSingleWriteDefinition_init single
      obtain rfl := writer_unique single inside target inside' target'
      obtain ⟨value, evaluated, goal, among, rfl, whole⟩ := declared targets init rfl
      obtain ⟨component, exact⟩ :=
        meets name followed goal among (getSingleWriteDefinition_scope single)
      rw [stored, whole component]
      have computed := eval_literal outer has literal (.init followed single) exact
      rw [computed] at evaluated
      exact (Option.some.inj evaluated).symm

/-- A run whose steps meet the condition returns the literal of its return statement. -/
theorem runs_literal {values : ℕ → Value ν} {world : ω} {steps : List (Step ν ω)} {id : ℕ}
    {w : Value ν} {value : LiteralValue ν} (run : Runs numbers outer f values world steps id w)
    (every : ∀ id argument, .returns id argument ∈ f.body.parts →
      ∃ e ∈ f.returned, argument = some e)
    (all : AllLiterals numbers f value) (meets : ∀ step ∈ steps, MeetsLiteral numbers f step) :
    ∃ v, w = .literal v ∧ (v = value ∨ v.strictEquals numbers value = true) := by
  obtain ⟨σ, run⟩ := run
  have start : HasLiterals numbers f (f.start values world) := by
    intro name x init v _ _ _ written
    simp [Function.start] at written
  obtain ⟨-, returned⟩ := run.invariant kept_hasLiterals (fun _ mem => mem) meets start
  obtain ⟨s, inside, τ, e, ok, has, performed, completion⟩ := returned id w rfl
  obtain ⟨argument, rfl, evaluated⟩ := effect_return performed completion
  obtain ⟨expression, mem, rfl⟩ := every id argument inside
  obtain ⟨v, literal, equal⟩ := all expression mem
  have computed := eval_literal outer has literal (.returned mem) ok
  refine ⟨v, ?_, equal⟩
  have known := evaluated expression rfl
  rw [computed] at known
  exact (Option.some.inj known).symm

/-- A variable that is written once has the value of the call or the one that its write gives. -/
def HasValue (numbers : Numbers ν) (outer : Outer ν ω) (f : Function ν) (x : ℕ)
    (seen : State ν ω) (initial : Value ν) (σ : State ν ω) : Prop :=
  (σ.written x = false → σ.store x = initial) ∧
    (σ.written x = true → ∃ s ∈ f.body.parts, x ∈ s.targets ∧
      ∃ e, effect numbers outer seen s = some e ∧
        e.writes.reverse.lookup x = some (σ.store x))

theorem kept_hasValue {name : String} {x : ℕ} {seen : State ν ω} {through : Bool}
    {initial : Value ν} (scope : f.scope name = some x) :
    Kept numbers outer f.body (MeetsVariable x seen through)
      (HasValue numbers outer f x seen initial) where
  enter locals inner σ inside has := by
    obtain ⟨store, written⟩ := enter_apart (σ := σ) scope inside
    simpa only [HasValue, store, written] using has
  inWorld σ world has := has
  step s σ e inside meets performed has := by
    obtain ⟨store, written⟩ | ⟨w, mem, last, stored, written⟩ := σ.apply_cases e x
    · simpa only [HasValue, store, written] using has
    · obtain ⟨target, -⟩ := mem_writes performed mem
      refine ⟨fun unwritten => by simp [written] at unwritten, fun _ => ?_⟩
      refine ⟨s, inside, target, e, ?_, by rw [stored]; exact last⟩
      rw [← performed]
      exact (effect_congr target (meets.2 target)).symm

/-- A run whose steps meet the condition returns the value of the variable. -/
theorem runs_value {values : ℕ → Value ν} {world : ω} {steps : List (Step ν ω)} {id x : ℕ}
    {w : Value ν} {seen : State ν ω} {through : Bool}
    (run : Runs numbers outer f values world steps id w)
    (every : ∀ id argument, .returns id argument ∈ f.body.parts →
      ∃ e ∈ f.returned, argument = some e)
    {name : String} (scope : f.scope name = some x)
    (names : ∀ e ∈ f.returned, ∃ name, e = .identifier name ∧ name.binding = x)
    (meets : ∀ step ∈ steps, MeetsVariable x seen through step) :
    ∃ σ, HasValue numbers outer f x seen ((f.start values world).store x) σ ∧
      σ.written x = through ∧ w = σ.store x := by
  obtain ⟨σ, run⟩ := run
  have start : HasValue numbers outer f x seen ((f.start values world).store x)
      (f.start values world) := ⟨fun _ => rfl, fun written => by simp [Function.start] at written⟩
  obtain ⟨-, returned⟩ := run.invariant (kept_hasValue scope) (fun _ mem => mem) meets start
  obtain ⟨s, inside, τ, e, ok, has, performed, completion⟩ := returned id w rfl
  obtain ⟨argument, rfl, evaluated⟩ := effect_return performed completion
  obtain ⟨expression, mem, rfl⟩ := every id argument inside
  obtain ⟨name, rfl, rfl⟩ := names expression mem
  refine ⟨τ, has, ok.1 ⟨id, _, rfl⟩, ?_⟩
  exact (Option.some.inj (evaluated _ rfl)).symm

theorem HasValue.unique {name : String} {x : ℕ} {init : Option (Expression ν)}
    (single : getSingleWriteDefinition f name = some (x, init)) {seen σ τ : State ν ω}
    {initial : Value ν} (has : HasValue numbers outer f x seen initial σ)
    (has' : HasValue numbers outer f x seen initial τ) (same : σ.written x = τ.written x) :
    σ.store x = τ.store x := by
  cases written : σ.written x with
  | false => exact (has.1 written).trans (has'.1 (same ▸ written)).symm
  | true =>
      obtain ⟨s, inside, target, e, performed, last⟩ := has.2 written
      obtain ⟨s', inside', target', e', performed', last'⟩ := has'.2 (same ▸ written)
      obtain rfl := writer_unique single inside target inside' target'
      obtain rfl := Option.some.inj (performed.symm.trans performed')
      exact Option.some.inj (last.symm.trans last')

theorem LiteralValue.strictEquals_symm {a b : LiteralValue ν}
    (equal : a.strictEquals numbers b = true) : b.strictEquals numbers a = true := by
  cases a <;> cases b <;> simp_all [LiteralValue.strictEquals]
  exact numbers.symm _ _ equal

theorem LiteralValue.strictEquals_trans {a b c : LiteralValue ν}
    (first : a.strictEquals numbers b = true) (second : b.strictEquals numbers c = true) :
    a.strictEquals numbers c = true := by
  cases a <;> cases b <;> cases c <;> simp_all [LiteralValue.strictEquals]
  exact numbers.trans _ _ _ first second

/-- Two runs of a reported function that meet the condition return equal values. -/
theorem reported_runs_equal {values : ℕ → Value ν} {world : ω} {seen : State ν ω} {through : Bool}
    {steps steps' : List (Step ν ω)} {id id' : ℕ} {v w : Value ν}
    (reported : Reported numbers f) (run : Runs numbers outer f values world steps id v)
    (run' : Runs numbers outer f values world steps' id' w)
    (meets : ∀ step ∈ steps ++ steps', Meets numbers f seen through step) :
    v.Equal numbers w := by
  obtain ⟨meets, meets'⟩ := List.forall_mem_append.mp meets
  obtain ⟨every, ⟨literal, value, all⟩ | ⟨other, x, ⟨name, init, head, single⟩, names⟩⟩ :=
    reported_cases reported
  · obtain ⟨a, rfl, equal⟩ :=
      runs_literal run every all fun step mem => (meets step mem).1 literal
    obtain ⟨b, rfl, equal'⟩ :=
      runs_literal run' every all fun step mem => (meets' step mem).1 literal
    obtain rfl | equal := equal
    · obtain rfl | equal' := equal'
      · exact .inl rfl
      · exact .inr ⟨a, b, rfl, rfl, LiteralValue.strictEquals_symm equal'⟩
    · obtain rfl | equal' := equal'
      · exact .inr ⟨a, b, rfl, rfl, equal⟩
      · exact .inr ⟨a, b, rfl, rfl,
          LiteralValue.strictEquals_trans equal (LiteralValue.strictEquals_symm equal')⟩
  · have scope := getSingleWriteDefinition_scope single
    obtain ⟨σ, has, through, rfl⟩ := runs_value run every scope names
      fun step mem => (meets step mem).2 other name head x scope
    obtain ⟨τ, has', through', rfl⟩ := runs_value run' every scope names
      fun step mem => (meets' step mem).2 other name head x scope
    exact .inl (has.unique single has' (through.trans through'.symm))

end Equal

/-- Integers, with `none` for `NaN`. -/
def Numbers.integers : Numbers (Option ℤ) where
  neg n := n.map (-·)
  bitNot n := some (-n.getD 0 - 1)
  isTruthy n := n.getD 0 ≠ 0
  ofString s := if s = "" then some 0 else s.toInt?
  ofInt i := some i
  nan := none
  zero := some 0
  one := some 1
  equals n m := n.isSome && n = m
  symm n m equal := by
    obtain ⟨some, rfl⟩ : n.isSome = true ∧ n = m := by simpa using equal
    simpa using some
  trans n m k first second := by
    obtain ⟨some, rfl⟩ : n.isSome = true ∧ n = m := by simpa using first
    simpa [some] using second

/-- A world in which everything gives `undefined` and changes nothing. -/
def Outer.idle : Outer (Option ℤ) Unit where
  other _ _ world := (some .undefined, world)
  unary _ _ world := (some .undefined, world)
  component _ _ world := (some .undefined, world)

/-- `const c = "foo"; if (a == 1) { return c; } return c;` with the parameter `a`. -/
def sameConstant : Function (Option ℤ) where
  parameters := [0]
  scope name := if name = "a" then some 0 else if name = "c" then some 1 else none
  body := .sequence (.declare [⟨⟨0, "c", 1⟩, none⟩] (some (.literal (.string "foo"))))
    (.sequence
      (.branch (.other 0 [⟨1, "a", 0⟩]) (.block [] (.returns 0 (some (.identifier ⟨2, "c", 1⟩))))
        .skip)
      (.returns 1 (some (.identifier ⟨3, "c", 1⟩))))
  codePath := ⟨[false], 0⟩
  apart := by simp [Statement.blockLocals, Statement.parts]

theorem sameConstant_literal : ReturnsLiteral Numbers.integers sameConstant := by
  have single : getSingleWriteDefinition sameConstant "c" =
      some (1, some (.literal (.string "foo"))) := by decide
  exact ⟨_, rfl, _, .identifier single .literal⟩

theorem meets_of_literal {f : Function (Option ℤ)} {seen : State (Option ℤ) Unit} {through : Bool}
    {step : Step (Option ℤ) Unit} (literal : ReturnsLiteral Numbers.integers f)
    (meets : MeetsLiteral Numbers.integers f step) :
    Meets Numbers.integers f seen through step :=
  ⟨fun _ => meets, fun other => absurd literal other⟩

theorem reported_runs_equal_sameConstant :
    ∃ steps steps', Runs Numbers.integers Outer.idle sameConstant (fun _ => .undefined) () steps 0
        (.literal (.string "foo")) ∧
      Runs Numbers.integers Outer.idle sameConstant (fun _ => .undefined) () steps' 1
        (.literal (.string "foo")) ∧
      (Value.literal (.string "foo")).Equal Numbers.integers (.literal (.string "foo")) := by
  have run : Runs Numbers.integers Outer.idle sameConstant (fun _ => .undefined) () _ 0
      (.literal (.string "foo")) :=
    ⟨_, .sequence (.of_effect rfl rfl rfl)
      (.abrupt (.consequent rfl (.block (.of_effect rfl rfl rfl))) (by simp))⟩
  have run' : Runs Numbers.integers Outer.idle sameConstant (fun _ => .undefined) () _ 1
      (.literal (.string "foo")) :=
    ⟨_, .sequence (.of_effect rfl rfl rfl)
      (.sequence (.alternate rfl (.of_effect rfl rfl rfl)) (.of_effect rfl rfl rfl))⟩
  refine ⟨_, _, run, run', @reported_runs_equal _ _ _ _ sameConstant _ _
    (sameConstant.start (fun _ => .undefined) ()) true _ _ _ _ _ _ ⟨3, by decide⟩ run run'
    fun step mem => ?_⟩
  refine meets_of_literal sameConstant_literal ?_
  simp only [List.cons_append, List.nil_append, List.mem_cons, List.not_mem_nil,
    or_false] at mem
  obtain rfl | rfl | rfl | rfl | rfl := mem
  · intro name _ target mem _
    simp_all [Exact]
  · exact ⟨rfl, rfl⟩
  · intro name _ target mem _
    simp_all [Exact]
  · trivial
  · exact ⟨rfl, rfl⟩

/-- `if (Math.random() < 0.5) { p = 1; return p; } return p;` with the parameter `p`: the first
reference is the write in the branch. -/
def writesInBranch : Function (Option ℤ) where
  parameters := [0]
  scope name := if name = "p" then some 0 else none
  body := .sequence
    (.branch (.other 0 [])
      (.block [] (.sequence (.assign ⟨0, "p", 0⟩ (.literal (.number (some 1))))
        (.returns 0 (some (.identifier ⟨1, "p", 0⟩)))))
      .skip)
    (.returns 1 (some (.identifier ⟨2, "p", 0⟩)))
  codePath := ⟨[false], 0⟩
  apart := by simp [Statement.blockLocals, Statement.parts]

theorem not_reported_runs_equal_writesInBranch :
    ¬∀ (ν ω : Type) (numbers : Numbers ν) (outer : Outer ν ω) (f : Function ν)
      (values : ℕ → Value ν) (world : ω) (steps steps' : List (Step ν ω)) (id id' : ℕ)
      (v w : Value ν), Reported numbers f → Runs numbers outer f values world steps id v →
        Runs numbers outer f values world steps' id' w → id ≠ id' → v.Equal numbers w := by
  intro claim
  have reported : Reported Numbers.integers writesInBranch := ⟨2, by decide⟩
  have run : ∃ steps, Runs Numbers.integers Outer.idle writesInBranch
      (fun _ => .literal (.string "a")) () steps 0 (.literal (.number (some 1))) :=
    ⟨_, _, .abrupt (.consequent rfl (.block (.sequence (.of_effect rfl rfl rfl)
      (.of_effect rfl rfl rfl)))) (by simp)⟩
  have run' : ∃ steps, Runs Numbers.integers Outer.idle writesInBranch
      (fun _ => .literal (.string "a")) () steps 1 (.literal (.string "a")) :=
    ⟨_, _, .sequence (.alternate rfl (.of_effect rfl rfl rfl)) (.of_effect rfl rfl rfl)⟩
  obtain ⟨steps, run⟩ := run
  obtain ⟨steps', run'⟩ := run'
  have equal := claim _ _ _ _ _ _ _ _ _ _ _ _ _ reported run run' (by decide)
  simp [Value.Equal, LiteralValue.strictEquals] at equal

end SonarJS.InvariantReturns
