import SonarJS.Linting.InvariantReturns

/-!
# Executions of functions

What an expression gives is determined by the outer state and by the variables that it reads. The
branches that are taken are left open, so that two executions with the same arguments and the same
outer state differ by the writes and the calls that they pass.
-/

namespace SonarJS.InvariantReturns

/-! ## Values and effects -/

inductive Value (ν : Type)
  | undefined
  | literal (value : LiteralValue ν)
  | object (id : ℕ)
deriving DecidableEq

/-- Two values are equal if they are the same or `===` finds them equal. -/
def Value.Equal {ν : Type} (numbers : Numbers ν) (v w : Value ν) : Prop :=
  v = w ∨ ∃ a b, v = .literal a ∧ w = .literal b ∧ a.strictEquals numbers b = true

/-- How a statement ends. -/
inductive Completion (ν : Type)
  | normal
  | break
  | continue
  | throw
  | return (id : ℕ) (value : Value ν)
deriving DecidableEq

/-- The world outside the function: what its expressions give, if they do not throw, and how they
change the outer state. -/
structure Outer (ν ω : Type) where
  other : ℕ → List (Value ν) → ω → Option (Value ν) × ω
  /-- Unary operators on values that are no literals, and `void` and `delete`. -/
  unary : Operator → Value ν → ω → Option (Value ν) × ω
  component : ℕ → Value ν → ω → Option (Value ν) × ω

/-- The variables with their values, the outer state, and the variables that have been written. -/
structure State (ν ω : Type) where
  store : ℕ → Value ν
  world : ω
  written : ℕ → Bool

/-- What a statement does: the values that it writes, in order. -/
structure Effect (ν ω : Type) where
  writes : List (ℕ × Value ν)
  completion : Completion ν
  world : ω

section Effects

variable {ν ω : Type} (numbers : Numbers ν) (outer : Outer ν ω)

namespace State

def read (σ : State ν ω) (identifier : Identifier) : Value ν := σ.store identifier.binding

def apply (σ : State ν ω) (effect : Effect ν ω) : State ν ω where
  store x := (effect.writes.reverse.lookup x).getD (σ.store x)
  world := effect.world
  written x := σ.written x || (effect.writes.reverse.lookup x).isSome

def inWorld (σ : State ν ω) (world : ω) : State ν ω := { σ with world }

/-- The variables of a block are new whenever it is entered. -/
def enter (σ : State ν ω) (locals : List ℕ) : State ν ω where
  store x := if x ∈ locals then .undefined else σ.store x
  world := σ.world
  written x := x ∉ locals && σ.written x

end State

/-- Unary operators. Those for numbers keep a bigint a bigint, except for `+`, which throws. -/
def applyUnary (operator : Operator) (argument : Value ν) (world : ω) : Option (Value ν) × ω :=
  match operator, argument with
  | .minus, .literal (.bigint i) => (some (.literal (.bigint (-i))), world)
  | .plus, .literal (.bigint _) => (none, world)
  | .tilde, .literal (.bigint i) => (some (.literal (.bigint (-i - 1))), world)
  | .minus, .literal v => (some (.literal (.number (numbers.neg (v.toNumber numbers)))), world)
  | .plus, .literal v => (some (.literal (.number (v.toNumber numbers))), world)
  | .tilde, .literal v => (some (.literal (.number (numbers.bitNot (v.toNumber numbers)))), world)
  | .not, .literal v => (some (.literal (.boolean !(v.toBoolean numbers))), world)
  | .typeof, .literal v => (some (.literal (.string v.typeof)), world)
  | operator, argument => outer.unary operator argument world

def eval (σ : State ν ω) : Expression ν → Option (Value ν) × ω
  | .literal value => (some (.literal value), σ.world)
  | .identifier name => (some (σ.read name), σ.world)
  | .unary operator argument =>
    match eval σ argument with
    | (some value, world) => applyUnary numbers outer operator value world
    | (none, world) => (none, world)
  | .other label reads => outer.other label (reads.map σ.read) σ.world

def Target.value (target : Target) (value : Value ν) (world : ω) : Option (Value ν) × ω :=
  match target.component with
  | none => (some value, world)
  | some label => outer.component label value world

/-- The effect of a declarator whose initialiser has this value. -/
@[grind =] def bindTargets (value : Value ν) : List Target → ω → Effect ν ω
  | [], world => ⟨[], .normal, world⟩
  | target :: targets, world =>
    match target.value outer value world with
    | (some v, world) =>
      let effect := bindTargets value targets world
      { effect with writes := (target.identifier.binding, v) :: effect.writes }
    | (none, world) => ⟨[], .throw, world⟩

/-- The effect of a statement that evaluates something and then does something with the value. -/
def Effect.after (result : Option (Value ν) × ω) (next : Value ν → ω → Effect ν ω) : Effect ν ω :=
  match result with
  | (some value, world) => next value world
  | (none, world) => ⟨[], .throw, world⟩

/-- The effect of a statement without statements in it. -/
def effect (σ : State ν ω) : Statement ν → Option (Effect ν ω)
  | .skip | .declare _ none => some ⟨[], .normal, σ.world⟩
  | .declare targets (some init) =>
    some (.after (eval numbers outer σ init) fun value => bindTargets outer value targets)
  | .assign target value =>
    some (.after (eval numbers outer σ value) fun v => .mk [(target.binding, v)] .normal)
  | .update target label reads =>
    some (.after (outer.other label ((target :: reads).map σ.read) σ.world)
      fun v => .mk [(target.binding, v)] .normal)
  | .evaluate _ element label reads =>
    some (.after (outer.other label ((element.toList ++ reads).map σ.read) σ.world)
      fun _ => .mk [] .normal)
  | .break => some ⟨[], .break, σ.world⟩
  | .continue => some ⟨[], .continue, σ.world⟩
  | .throw argument => some (.after (eval numbers outer σ argument) fun _ => .mk [] .throw)
  | .returns id none => some ⟨[], .return id .undefined, σ.world⟩
  | .returns id (some argument) =>
    some (.after (eval numbers outer σ argument) fun v => .mk [] (.return id v))
  | _ => none

end Effects

/-! ## Runs -/

section Runs

variable {ν ω : Type} (numbers : Numbers ν) (outer : Outer ν ω)

/-- A statement that has been executed, with the state before it. -/
abbrev Step (ν ω : Type) : Type := Statement ν × State ν ω

/-- The executions of a statement, with the steps of them. A test that does not throw may lead
to either branch. -/
inductive Exec : Statement ν → State ν ω → List (Step ν ω) → Completion ν → State ν ω → Prop
  | step {s σ e} : effect numbers outer σ s = some e → Exec s σ [(s, σ)] e.completion (σ.apply e)
  | sequence {first second σ t σ' t' c σ''} : Exec first σ t .normal σ' →
      Exec second σ' t' c σ'' → Exec (.sequence first second) σ (t ++ t') c σ''
  | abrupt {first second σ t c σ'} : Exec first σ t c σ' → c ≠ .normal →
      Exec (.sequence first second) σ t c σ'
  | block {locals body σ t c σ'} : Exec body (σ.enter locals) t c σ' →
      Exec (.block locals body) σ t c σ'
  | consequent {test consequent alternate σ v world t c σ'} :
      eval numbers outer σ test = (some v, world) → Exec consequent (σ.inWorld world) t c σ' →
      Exec (.branch test consequent alternate) σ t c σ'
  | alternate {test consequent alternate σ v world t c σ'} :
      eval numbers outer σ test = (some v, world) → Exec alternate (σ.inWorld world) t c σ' →
      Exec (.branch test consequent alternate) σ t c σ'
  | branchThrows {test consequent alternate σ world} :
      eval numbers outer σ test = (none, world) →
      Exec (.branch test consequent alternate) σ [] .throw (σ.inWorld world)
  | exit {test body σ v world} : eval numbers outer σ test = (some v, world) →
      Exec (.whileLoop test body) σ [] .normal (σ.inWorld world)
  | iterate {test body σ v world t c σ' t' c' σ''} :
      eval numbers outer σ test = (some v, world) → Exec body (σ.inWorld world) t c σ' →
      c = .normal ∨ c = .continue → Exec (.whileLoop test body) σ' t' c' σ'' →
      Exec (.whileLoop test body) σ (t ++ t') c' σ''
  | breaks {test body σ v world t σ'} : eval numbers outer σ test = (some v, world) →
      Exec body (σ.inWorld world) t .break σ' → Exec (.whileLoop test body) σ t .normal σ'
  | leave {test body σ v world t c σ'} : eval numbers outer σ test = (some v, world) →
      Exec body (σ.inWorld world) t c σ' → c ≠ .normal → c ≠ .continue → c ≠ .break →
      Exec (.whileLoop test body) σ t c σ'
  | whileThrows {test body σ world} : eval numbers outer σ test = (none, world) →
      Exec (.whileLoop test body) σ [] .throw (σ.inWorld world)
  | completes {body handler σ t c σ'} : Exec body σ t c σ' → c ≠ .throw →
      Exec (.tryCatch body handler) σ t c σ'
  | caught {body handler σ t σ' t' c σ''} : Exec body σ t .throw σ' → Exec handler σ' t' c σ'' →
      Exec (.tryCatch body handler) σ (t ++ t') c σ''

/-- The state in which a call starts: the values are those of the parameters and of what is not
declared in the function. -/
def Function.start (f : Function ν) (values : ℕ → Value ν) (world : ω) : State ν ω where
  store x :=
    if x ∉ f.parameters ∧ x ∈ f.body.definitions.map Prod.fst then .undefined else values x
  world := world
  written _ := false

theorem Exec.of_effect {numbers : Numbers ν} {outer : Outer ν ω} {s : Statement ν}
    {σ σ' : State ν ω} {e : Effect ν ω} {c : Completion ν}
    (performed : effect numbers outer σ s = some e) (completion : e.completion = c)
    (result : σ.apply e = σ') : Exec numbers outer s σ [(s, σ)] c σ' :=
  completion ▸ result ▸ .step performed

/-- A call that leaves the function through the return statement `id` with the value `v`. -/
def Runs (f : Function ν) (values : ℕ → Value ν) (world : ω) (steps : List (Step ν ω)) (id : ℕ)
    (v : Value ν) : Prop :=
  ∃ σ, Exec numbers outer f.body (f.start values world) steps (.return id v) σ

end Runs

/-! ## Invariants of executions -/

namespace Statement

variable {ν : Type}

/-- The variables that a statement without statements in it writes. -/
def targets : Statement ν → List ℕ
  | .declare targets (some _) => targets.map fun target => target.identifier.binding
  | .assign target _ | .update target _ _ => [target.binding]
  | _ => []

/-- What a statement that writes reads before. -/
def reads : Statement ν → List Identifier
  | .declare _ (some init) => init.reads
  | .assign _ value => value.reads
  | .update target _ reads => target :: reads
  | _ => []

def IsReturn (s : Statement ν) : Prop := ∃ id argument, s = .returns id argument

theorem self_mem_parts (s : Statement ν) : s ∈ s.parts := by
  cases s <;> simp [parts]

end Statement

section Invariants

variable {ν ω : Type} {numbers : Numbers ν} {outer : Outer ν ω}

/-- A property of states is kept by a statement if blocks, tests and the steps with a condition
keep it. -/
structure Kept (numbers : Numbers ν) (outer : Outer ν ω) (body : Statement ν)
    (Ok : Step ν ω → Prop) (I : State ν ω → Prop) : Prop where
  enter : ∀ locals inner σ, .block locals inner ∈ body.parts → I σ → I (σ.enter locals)
  inWorld : ∀ σ world, I σ → I (σ.inWorld world)
  step : ∀ s σ e, s ∈ body.parts → Ok (s, σ) → effect numbers outer σ s = some e → I σ →
    I (σ.apply e)

/-- The return statement that is executed, in a state with the property. -/
def Returned (numbers : Numbers ν) (outer : Outer ν ω) (body : Statement ν)
    (Ok : Step ν ω → Prop) (I : State ν ω → Prop) (c : Completion ν) : Prop :=
  ∀ id v, c = .return id v → ∃ s ∈ body.parts, ∃ σ e, Ok (s, σ) ∧ I σ ∧
    effect numbers outer σ s = some e ∧ e.completion = c

theorem Exec.invariant {body s : Statement ν} {Ok : Step ν ω → Prop} {I : State ν ω → Prop}
    {σ σ' : State ν ω} {steps : List (Step ν ω)} {c : Completion ν}
    (kept : Kept numbers outer body Ok I) (run : Exec numbers outer s σ steps c σ')
    (inside : ∀ part ∈ s.parts, part ∈ body.parts) (ok : ∀ step ∈ steps, Ok step) (start : I σ) :
    I σ' ∧ Returned numbers outer body Ok I c := by
  induction run with
  | @step s σ e performed =>
      have mem := inside s s.self_mem_parts
      have meets := ok (s, σ) List.mem_cons_self
      refine ⟨kept.step s σ e mem meets performed start, fun id v returns => ?_⟩
      exact ⟨s, mem, σ, e, meets, start, performed, rfl⟩
  | sequence _ _ ihFirst ihSecond =>
      simp only [Statement.parts, List.mem_cons, List.mem_append] at inside
      obtain ⟨okFirst, okSecond⟩ := List.forall_mem_append.mp ok
      have middle := ihFirst (fun part mem => inside part (.inr (.inl mem))) okFirst start
      exact ihSecond (fun part mem => inside part (.inr (.inr mem))) okSecond middle.1
  | abrupt _ _ ih =>
      simp only [Statement.parts, List.mem_cons, List.mem_append] at inside
      exact ih (fun part mem => inside part (.inr (.inl mem))) ok start
  | @block locals inner σ t c σ' _ ih =>
      have mem := inside _ (Statement.self_mem_parts _)
      refine ih (fun part within => inside part ?_) ok (kept.enter locals inner σ mem start)
      exact List.mem_cons_of_mem _ within
  | consequent _ _ ih =>
      simp only [Statement.parts, List.mem_cons, List.mem_append] at inside
      exact ih (fun part mem => inside part (.inr (.inl mem))) ok (kept.inWorld _ _ start)
  | alternate _ _ ih =>
      simp only [Statement.parts, List.mem_cons, List.mem_append] at inside
      exact ih (fun part mem => inside part (.inr (.inr mem))) ok (kept.inWorld _ _ start)
  | branchThrows => exact ⟨kept.inWorld _ _ start, fun id v returns => by simp at returns⟩
  | exit => exact ⟨kept.inWorld _ _ start, fun id v returns => by simp at returns⟩
  | iterate _ _ _ _ ihBody ihAgain =>
      obtain ⟨okBody, okAgain⟩ := List.forall_mem_append.mp ok
      have once := ihBody (fun part mem => inside part (List.mem_cons_of_mem _ mem)) okBody
        (kept.inWorld _ _ start)
      exact ihAgain inside okAgain once.1
  | breaks _ _ ih =>
      have once := ih (fun part mem => inside part (List.mem_cons_of_mem _ mem)) ok
        (kept.inWorld _ _ start)
      exact ⟨once.1, fun id v returns => by simp at returns⟩
  | leave _ _ _ _ _ ih =>
      exact ih (fun part mem => inside part (List.mem_cons_of_mem _ mem)) ok
        (kept.inWorld _ _ start)
  | whileThrows => exact ⟨kept.inWorld _ _ start, fun id v returns => by simp at returns⟩
  | completes _ _ ih =>
      simp only [Statement.parts, List.mem_cons, List.mem_append] at inside
      exact ih (fun part mem => inside part (.inr (.inl mem))) ok start
  | caught _ _ ihBody ihHandler =>
      simp only [Statement.parts, List.mem_cons, List.mem_append] at inside
      obtain ⟨okBody, okHandler⟩ := List.forall_mem_append.mp ok
      have thrown := ihBody (fun part mem => inside part (.inr (.inl mem))) okBody start
      exact ihHandler (fun part mem => inside part (.inr (.inr mem))) okHandler thrown.1

end Invariants

/-! ## What a step does -/

section Effects

variable {ν ω : Type} {numbers : Numbers ν} {outer : Outer ν ω} {σ τ : State ν ω}

/-- The effect neither writes nor returns. -/
def Effect.Silent (e : Effect ν ω) : Prop := e.writes = [] ∧ ∀ id v, e.completion ≠ .return id v

namespace Effect

theorem after_cases (result : Option (Value ν) × ω) (next : Value ν → ω → Effect ν ω) :
    (∃ value world, result = (some value, world) ∧ after result next = next value world) ∨
      (after result next).Silent := by
  obtain ⟨_ | value, world⟩ := result
  · exact .inr ⟨rfl, by simp [after]⟩
  · exact .inl ⟨value, world, rfl, rfl⟩

theorem after_write (result : Option (Value ν) × ω) (x : ℕ) :
    (∃ v world, after result (fun v => .mk [(x, v)] .normal) = ⟨[(x, v)], .normal, world⟩) ∨
      (after result fun v => .mk [(x, v)] .normal).Silent := by
  obtain ⟨v, world, -, same⟩ | silent := after_cases result fun v => .mk [(x, v)] .normal
  · exact .inl ⟨v, world, same⟩
  · exact .inr silent

theorem silent_after {result : Option (Value ν) × ω} {next : Value ν → ω → Effect ν ω}
    (silent : ∀ v world, (next v world).Silent) : (after result next).Silent := by
  obtain ⟨v, world, -, same⟩ | silent' := after_cases result next
  · rw [same]
    exact silent v world
  · exact silent'

end Effect

theorem bindTargets_completion (outer : Outer ν ω) (value : Value ν) (targets : List Target)
    (world : ω) :
    (bindTargets outer value targets world).completion = .normal ∨
      (bindTargets outer value targets world).completion = .throw := by
  induction targets generalizing world with
  | nil => exact .inl rfl
  | cons target targets ih =>
      unfold bindTargets
      split
      next v world _ => exact ih world
      · exact .inr rfl

theorem mem_bindTargets {value w : Value ν} {targets : List Target} {world : ω} {x : ℕ}
    (mem : (x, w) ∈ (bindTargets outer value targets world).writes) :
    ∃ target ∈ targets, target.identifier.binding = x ∧ (target.component = none → w = value) := by
  induction targets generalizing world with
  | nil => simp [bindTargets] at mem
  | cons target targets ih =>
      unfold bindTargets at mem
      split at mem
      next v world' bound =>
        obtain same | mem := List.mem_cons.mp mem
        · obtain ⟨rfl, rfl⟩ := Prod.mk.inj same
          refine ⟨target, List.mem_cons_self, rfl, fun whole => ?_⟩
          simp only [Target.value, whole, Prod.mk.injEq, Option.some.injEq] at bound
          exact bound.1.symm
        · obtain ⟨other, inside, binding⟩ := ih mem
          exact ⟨other, List.mem_cons_of_mem _ inside, binding⟩
      · simp at mem

/-- A step declares, or writes one variable, or returns, or does neither. -/
theorem effect_cases {s : Statement ν} {e : Effect ν ω}
    (performed : effect numbers outer σ s = some e) :
    (∃ targets init value world, s = .declare targets (some init) ∧
      eval numbers outer σ init = (some value, world) ∧
      e = bindTargets outer value targets world) ∨
    (∃ x v world, x ∈ s.targets ∧ (∀ targets init, s ≠ .declare targets init) ∧
      e = ⟨[(x, v)], .normal, world⟩) ∨
    (∃ id argument v world, s = .returns id argument ∧ e = ⟨[], .return id v, world⟩ ∧
      ∀ value, argument = some value → (eval numbers outer σ value).1 = some v) ∨
    e.Silent := by
  cases s with
  | declare targets init =>
      cases init with
      | none =>
          obtain rfl := Option.some.inj performed
          exact .inr (.inr (.inr ⟨rfl, by simp⟩))
      | some init =>
          obtain rfl := Option.some.inj performed
          obtain ⟨value, world, evaluated, same⟩ | silent := Effect.after_cases
            (eval numbers outer σ init) fun value => bindTargets outer value targets
          · exact .inl ⟨targets, init, value, world, rfl, evaluated, same⟩
          · exact .inr (.inr (.inr silent))
  | assign target value =>
      obtain rfl := Option.some.inj performed
      obtain ⟨v, world, same⟩ | silent :=
        Effect.after_write (eval numbers outer σ value) target.binding
      · exact .inr (.inl ⟨target.binding, v, world, List.mem_singleton_self _, by simp, same⟩)
      · exact .inr (.inr (.inr silent))
  | update target label reads =>
      obtain rfl := Option.some.inj performed
      obtain ⟨v, world, same⟩ | silent := Effect.after_write
        (outer.other label ((target :: reads).map σ.read) σ.world) target.binding
      · exact .inr (.inl ⟨target.binding, v, world, List.mem_singleton_self _, by simp, same⟩)
      · exact .inr (.inr (.inr silent))
  | evaluate isCall element label reads =>
      obtain rfl := Option.some.inj performed
      exact .inr (.inr (.inr (Effect.silent_after fun _ _ => ⟨rfl, by simp⟩)))
  | throw argument =>
      obtain rfl := Option.some.inj performed
      exact .inr (.inr (.inr (Effect.silent_after fun _ _ => ⟨rfl, by simp⟩)))
  | returns id argument =>
      cases argument with
      | none =>
          obtain rfl := Option.some.inj performed
          exact .inr (.inr (.inl ⟨id, none, .undefined, σ.world, rfl, rfl, by simp⟩))
      | some argument =>
          obtain rfl := Option.some.inj performed
          obtain ⟨v, world, evaluated, same⟩ | silent := Effect.after_cases
            (eval numbers outer σ argument) fun v => .mk [] (.return id v)
          · refine .inr (.inr (.inl ⟨id, some argument, v, world, rfl, same, ?_⟩))
            rintro _ ⟨⟩
            rw [evaluated]
          · exact .inr (.inr (.inr silent))
  | _ =>
      simp only [effect, Option.some.injEq, reduceCtorEq] at performed
      try exact .inr (.inr (.inr (by simp [← performed, Effect.Silent])))

/-- Only return statements leave the function with a value. -/
theorem effect_return {s : Statement ν} {e : Effect ν ω} {id : ℕ} {v : Value ν}
    (performed : effect numbers outer σ s = some e) (returns : e.completion = .return id v) :
    ∃ argument, s = .returns id argument ∧
      ∀ value, argument = some value → (eval numbers outer σ value).1 = some v := by
  obtain ⟨targets, init, value, world, rfl, -, rfl⟩ | ⟨x, w, world, -, -, rfl⟩ |
    ⟨id', argument, w, world, rfl, rfl, evaluated⟩ | ⟨-, other⟩ := effect_cases performed
  · obtain normal | throws := bindTargets_completion outer value targets world
    · simp [normal] at returns
    · simp [throws] at returns
  · simp at returns
  · obtain ⟨rfl, rfl⟩ := Completion.return.inj returns
    exact ⟨argument, rfl, evaluated⟩
  · exact absurd returns (other id v)

/-- A value is written to a target of the statement, and it is the value of the initialiser where
that is declared as a whole. -/
theorem mem_writes {s : Statement ν} {e : Effect ν ω} {x : ℕ} {w : Value ν}
    (performed : effect numbers outer σ s = some e) (mem : (x, w) ∈ e.writes) :
    x ∈ s.targets ∧ ∀ targets init, s = .declare targets (some init) →
      ∃ value, (eval numbers outer σ init).1 = some value ∧ ∃ target ∈ targets,
        target.identifier.binding = x ∧ (target.component = none → w = value) := by
  obtain ⟨targets, init, value, world, rfl, evaluated, rfl⟩ | ⟨y, v, world, target, other, rfl⟩ |
    ⟨id, argument, v, world, rfl, rfl, -⟩ | ⟨none, -⟩ := effect_cases performed
  · obtain ⟨target, inside, binding, whole⟩ := mem_bindTargets mem
    refine ⟨List.mem_map.mpr ⟨target, inside, binding⟩, ?_⟩
    rintro _ _ ⟨⟩
    exact ⟨value, by rw [evaluated], target, inside, binding, whole⟩
  · obtain ⟨rfl, rfl⟩ := Prod.mk.inj (List.mem_singleton.mp mem)
    exact ⟨target, fun targets init same => absurd same (other targets (some init))⟩
  · simp at mem
  · simp [none] at mem

/-- Two states in which the statement reads the same. -/
def Agree {ν ω : Type} (s : Statement ν) (σ τ : State ν ω) : Prop :=
  σ.world = τ.world ∧ ∀ name ∈ s.reads, σ.read name = τ.read name

theorem eval_congr {e : Expression ν} (world : σ.world = τ.world)
    (reads : ∀ name ∈ e.reads, σ.read name = τ.read name) :
    eval numbers outer σ e = eval numbers outer τ e := by
  induction e with
  | literal value => simp [eval, world]
  | identifier name => simp [eval, world, reads name (List.mem_singleton_self _)]
  | unary operator argument ih => simp only [eval, ih reads]
  | other label names =>
      have same : names.map σ.read = names.map τ.read := List.map_congr_left reads
      simp only [eval, world, same]

/-- What is written is determined by what the statement reads. -/
theorem effect_congr {s : Statement ν} {x : ℕ} (writes : x ∈ s.targets) (agree : Agree s σ τ) :
    effect numbers outer σ s = effect numbers outer τ s := by
  obtain ⟨world, reads⟩ := agree
  cases s with
  | declare targets init =>
      cases init with
      | none => simp [Statement.targets] at writes
      | some init => simp only [effect, eval_congr world reads]
  | assign target value => simp only [effect, eval_congr world reads]
  | update target label names =>
      have same : (target :: names).map σ.read = (target :: names).map τ.read :=
        List.map_congr_left reads
      simp only [effect, world, same]
  | _ => simp [Statement.targets] at writes

namespace State

/-- A variable has the last value that is written, and is left alone if there is none. -/
theorem apply_cases (σ : State ν ω) (e : Effect ν ω) (x : ℕ) :
    ((σ.apply e).store x = σ.store x ∧ (σ.apply e).written x = σ.written x) ∨
      ∃ w, (x, w) ∈ e.writes ∧ e.writes.reverse.lookup x = some w ∧
        (σ.apply e).store x = w ∧ (σ.apply e).written x = true := by
  cases last : e.writes.reverse.lookup x with
  | none => exact .inl (by simp [apply, last])
  | some w =>
      refine .inr ⟨w, ?_, rfl, by simp [apply, last], by simp [apply, last]⟩
      obtain ⟨before, later, split, -⟩ := List.lookup_eq_some_iff.mp last
      exact List.mem_reverse.mp (split ▸ by simp)

end State

end Effects

end SonarJS.InvariantReturns
