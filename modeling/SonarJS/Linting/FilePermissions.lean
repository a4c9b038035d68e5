import Mathlib.Logic.Relation
import SonarJS.Foundation.Numbers
import SonarJS.Linting.Scopes

/-!
# Evaluating the mode of a file

`modeFromExpression` evaluates the mode that is given to `chmod` or `umask`: literals, members
of `fs.constants`, identifiers, which it follows to their definitions, and the operator `|`.
The definitions it has gone to are remembered in one set for the whole expression, and an
operand that is zero counts as one that could not be evaluated. A number is read in base 8 if
it is spelled with a leading 0, also where this does not make it an octal literal.
-/

namespace SonarJS.FilePermissions

open Numbers Relation Scopes

/-! ## Syntax -/

abbrev Text := List Char

inductive LiteralValue
  | string (value : Text)
  | number (value : Number)
  | other

structure Literal where
  value : LiteralValue
  raw : Option Text

inductive Node
  | identifier (name : String)
  | literal (literal : Literal)
  | memberExpression (object property : Node) (computed : Bool)
  | binaryExpression (left : Node) (operator : String) (right : Node)
  | other

/-- A written expression, and which node of the file it is. -/
structure WriteExpr where
  id : ℕ
  node : Node

abbrev Scope := Scopes.Scope WriteExpr

/-! ## The rule -/

/-- What the functions of the rule return. -/
inductive Mode
  | number (value : Number)
  | null
  | undefined
deriving DecidableEq

def Mode.isTruthy : Mode → Bool
  | .number value => value.isTruthy
  | _ => false

/-- A number that is spelled with a leading 0 and not with `0o`. -/
def hasLeadingZero (raw : Text) : Bool :=
  ['0'].isPrefixOf raw && !(['0', 'o'].isPrefixOf raw)

def modeFromLiteral (modeExpr : Literal) : Mode :=
  match modeExpr.value with
  | .string modeValue => .number (parseOctal modeValue)
  | .number modeValue =>
    match modeExpr.raw with
    | some raw => if hasLeadingZero raw then .number (parseOctal raw) else .number modeValue
    | none => .number modeValue
  | .other => .null

def FS_CONST : List (String × ℕ) :=
  [("S_IRWXU", 0o700), ("S_IRUSR", 0o400), ("S_IWUSR", 0o200), ("S_IXUSR", 0o100),
    ("S_IRWXG", 0o70), ("S_IRGRP", 0o40), ("S_IWGRP", 0o20), ("S_IXGRP", 0o10),
    ("S_IRWXO", 0o7), ("S_IROTH", 0o4), ("S_IWOTH", 0o2), ("S_IXOTH", 0o1)]

def isIdentifier (node : Node) (value : String) : Bool :=
  match node with
  | .identifier name => name = value
  | _ => false

def isMemberExpression (node : Node) (objectValue propertyValue : String) : Bool :=
  match node with
  | .memberExpression object property _ =>
    isIdentifier object objectValue && isIdentifier property propertyValue
  | _ => false

/-- A name that is not in the table is `undefined`. (Names that each object inherits, such as
`toString`, are not part of the model.) -/
def modeFromMemberExpression (object property : Node) : Mode :=
  match property with
  | .identifier name =>
    if isMemberExpression object "fs" "constants" then
      match FS_CONST.lookup name with
      | some value => .number (.finite value)
      | none => .undefined
    else .null
  | _ => .null

/-- The `|` of two modes, if both are there and not zero. -/
def modeFromOperands : Mode → Mode → Mode
  | .number leftValue, .number rightValue =>
    if leftValue.isTruthy && rightValue.isTruthy then .number (leftValue.or rightValue) else .null
  | _, _ => .null

/-- `modeFromExpression` with fuel, with the nodes that it has visited before and after. -/
def modeFromExpression (scope : Scope) : ℕ → Option Node → List ℕ → Option (Mode × List ℕ)
  | 0, _, _ => none
  | _ + 1, none, visited => some (.null, visited)
  | fuel + 1, some expr, visited =>
    match expr with
    | .memberExpression object property _ =>
      some (modeFromMemberExpression object property, visited)
    | .literal modeExpr => some (modeFromLiteral modeExpr, visited)
    | .identifier name =>
      match getUniqueWriteUsage scope name with
      | some usage =>
        if usage.id ∈ visited then some (.null, visited)
        else modeFromExpression scope fuel (some usage.node) (usage.id :: visited)
      | none => some (.null, visited)
    | .binaryExpression left operator right =>
      if operator = "|" then do
        let (leftValue, visited) ← modeFromExpression scope fuel (some left) visited
        let (rightValue, visited) ← modeFromExpression scope fuel (some right) visited
        return (modeFromOperands leftValue rightValue, visited)
      else some (.null, visited)
    | .other => some (.null, visited)

/-- With enough fuel, an expression has a mode. -/
def HasMode (scope : Scope) (expr : Node) (mode : Mode) : Prop :=
  ∃ enough, ∀ fuel, enough ≤ fuel →
    ∃ visited, modeFromExpression scope fuel (some expr) [] = some (mode, visited)

/-! ## Evaluation -/

inductive Leaf
  | numeral (raw : Text) (value : Number)
  | octalString (digits : Text)
  | constant (name : String) (value : ℕ)

/-- The octal literals with a 0 in front of their digits. -/
def isLegacyOctal (raw : Text) : Bool :=
  ['0'].isPrefixOf raw && 1 < raw.length && raw.all isOctalDigit

/-- The value of a leaf: legacy octal literals and octal strings are read in base 8. -/
def Leaf.value : Leaf → Number
  | .numeral raw value => if isLegacyOctal raw then .ofInt (octalValue raw) else value
  | .octalString digits => .ofInt (octalValue digits)
  | .constant _ value => .finite value

/-- An expression with each identifier replaced by its definition. -/
inductive Unfolded
  | leaf (leaf : Leaf)
  | definition (id : ℕ) (unfolded : Unfolded)
  | or (left right : Unfolded)

def Unfolded.leaves : Unfolded → List Leaf
  | .leaf single => [single]
  | .definition _ unfolded => unfolded.leaves
  | .or left right => left.leaves ++ right.leaves

def Unfolded.definitions : Unfolded → List ℕ
  | .leaf _ => []
  | .definition id unfolded => id :: unfolded.definitions
  | .or left right => left.definitions ++ right.definitions

/-- The bitwise or of the values of the leaves. -/
def Unfolded.value (unfolded : Unfolded) : Number := orAll (unfolded.leaves.map Leaf.value)

section Evaluation

-- the scope in which the definition stands of the variable that a name denotes in a scope
variable (scopeOf : Scope → String → Scope)

/-- The unfolding of an expression in a scope, with the values of the members of
`fs.constants`. -/
inductive Unfolds (constants : String → Option ℕ) : Scope → Node → Unfolded → Prop
  | numeral (scope : Scope) (raw : Text) (value : Number) :
      Unfolds constants scope (.literal ⟨.number value, some raw⟩) (.leaf (.numeral raw value))
  | octalString (scope : Scope) (raw : Option Text) {digits : Text} (notEmpty : digits ≠ [])
      (octal : digits.all isOctalDigit) :
      Unfolds constants scope (.literal ⟨.string digits, raw⟩) (.leaf (.octalString digits))
  | constant (scope : Scope) {name : String} {value : ℕ} (isMode : "S_I".isPrefixOf name)
      (known : constants name = some value) :
      Unfolds constants scope
        (.memberExpression (.memberExpression (.identifier "fs") (.identifier "constants") false)
          (.identifier name) false)
        (.leaf (.constant name value))
  | identifier {scope : Scope} {name : String} {usage : WriteExpr} {unfolded : Unfolded}
      (written : getUniqueWriteUsage scope name = some usage)
      (definition : Unfolds constants (scopeOf scope name) usage.node unfolded) :
      Unfolds constants scope (.identifier name) (.definition usage.id unfolded)
  | or {scope : Scope} {left right : Node} {unfolded unfolded' : Unfolded}
      (unfoldsLeft : Unfolds constants scope left unfolded)
      (unfoldsRight : Unfolds constants scope right unfolded') :
      Unfolds constants scope (.binaryExpression left "|" right) (.or unfolded unfolded')

/-- What the unfolding of an expression in a scope goes on with. -/
inductive Part : Scope × Node → Scope × Node → Prop
  | definition {scope : Scope} {name : String} {usage : WriteExpr}
      (written : getUniqueWriteUsage scope name = some usage) :
      Part (scope, .identifier name) (scopeOf scope name, usage.node)
  | left (scope : Scope) (left right : Node) :
      Part (scope, .binaryExpression left "|" right) (scope, left)
  | right (scope : Scope) (left right : Node) :
      Part (scope, .binaryExpression left "|" right) (scope, right)

/-- The names in an expression have the same definitions in the scope of the rule. -/
def SameNames (rule : Scope) (start : Scope × Node) : Prop :=
  ∀ scope name, ReflTransGen (Part scopeOf) start (scope, .identifier name) →
    getUniqueWriteUsage rule name = getUniqueWriteUsage scope name

end Evaluation

/-! ## What is read of the leaves -/

/-- A number with a leading 0 is read as the octal number that it begins with, and only the
members of `fs.constants` in the table are read. -/
def Leaf.read : Leaf → Number
  | .numeral raw value =>
    if hasLeadingZero raw then .ofInt (octalValue (raw.takeWhile isOctalDigit)) else value
  | .octalString digits => .ofInt (octalValue digits)
  | .constant name _ => .finite ((FS_CONST.lookup name).getD 0 : ℕ)

def Leaf.IsKnown : Leaf → Prop
  | .constant name _ => FS_CONST.lookup name ≠ none
  | _ => True

/-- The bitwise or of what is read of the leaves. -/
def Unfolded.read (unfolded : Unfolded) : Number := orAll (unfolded.leaves.map Leaf.read)

/-- No operand of a `|` is read as zero. -/
def Unfolded.NonzeroOperands : Unfolded → Prop
  | .leaf _ => True
  | .definition _ unfolded => unfolded.NonzeroOperands
  | .or left right =>
    left.read.isTruthy ∧ right.read.isTruthy ∧ left.NonzeroOperands ∧ right.NonzeroOperands

/-- The leaves that are misread make no difference: there are none; or there are several leaves,
and each bit is set in one that is read right, or it is set in what is read of the misread
leaves exactly if it is set in their values. -/
def Unfolded.MisreadHarmless (unfolded : Unfolded) : Prop :=
  (∀ leaf ∈ unfolded.leaves, leaf.read = leaf.value) ∨
    1 < unfolded.leaves.length ∧ ∀ i,
      (∃ leaf ∈ unfolded.leaves, leaf.read = leaf.value ∧ leaf.value.HasBit i) ∨
        ((∃ leaf ∈ unfolded.leaves, leaf.read ≠ leaf.value ∧ leaf.read.HasBit i) ↔
          ∃ leaf ∈ unfolded.leaves, leaf.read ≠ leaf.value ∧ leaf.value.HasBit i)

/-- Each leaf is known, no definition is used twice, no operand is read as zero, and the leaves
that are misread make no difference. -/
structure Unfolded.IsReadExactly (unfolded : Unfolded) : Prop where
  known : ∀ leaf ∈ unfolded.leaves, leaf.IsKnown
  unshared : unfolded.definitions.Nodup
  nonzero : unfolded.NonzeroOperands
  harmless : unfolded.MisreadHarmless

/-- The expression is evaluated to the end after some definitions have been visited. -/
structure Unfolded.IsRead (visited : List ℕ) (unfolded : Unfolded) : Prop where
  known : ∀ leaf ∈ unfolded.leaves, leaf.IsKnown
  unshared : unfolded.definitions.Nodup
  unvisited : ∀ id ∈ unfolded.definitions, id ∉ visited
  nonzero : unfolded.NonzeroOperands

/-- Legacy octal literals and numbers without a leading zero are read right. -/
theorem Leaf.read_numeral_eq_value {raw : Text} {value : Number}
    (octal : hasLeadingZero raw → isLegacyOctal raw) :
    (Leaf.numeral raw value).read = (Leaf.numeral raw value).value := by
  by_cases legacy : isLegacyOctal raw
  · obtain ⟨long, all⟩ := Bool.and_eq_true_iff.mp legacy
    have whole : raw.takeWhile isOctalDigit = raw :=
      List.takeWhile_eq_self_iff.mpr (List.all_eq_true.mp all)
    have leading : hasLeadingZero raw := by
      apply Bool.and_eq_true_iff.mpr
      refine ⟨(Bool.and_eq_true_iff.mp long).1, ?_⟩
      rw [Bool.not_eq_true', Bool.eq_false_iff]
      intro letter
      obtain ⟨rest, rfl⟩ := List.isPrefixOf_iff_prefix.mp letter
      cases List.all_eq_true.mp all 'o' (by simp)
    rw [read, Leaf.value, if_pos leading, if_pos legacy, whole]
  · rw [read, Leaf.value, if_neg (fun leading => legacy (octal leading)), if_neg legacy]

/-- A number is read as zero if a letter follows its leading zero, as in hexadecimal literals. -/
theorem Leaf.read_numeral_eq_zero {c : Char} (rest : Text) (value : Number) (letter : c ≠ 'o')
    (notDigit : isOctalDigit c = false) : (Leaf.numeral ('0' :: c :: rest) value).read = 0 := by
  have leading : hasLeadingZero ('0' :: c :: rest) := by
    simp [hasLeadingZero, List.isPrefixOf, letter.symm]
  have zero : ('0' :: c :: rest).takeWhile isOctalDigit = ['0'] := by
    simp [notDigit, show isOctalDigit '0' = true by decide]
  rw [read, if_pos leading, zero]
  decide +kernel

theorem Unfolded.leaves_ne_nil (unfolded : Unfolded) : unfolded.leaves ≠ [] := by
  induction unfolded with
  | leaf single => exact List.cons_ne_nil _ _
  | definition id unfolded ih => exact ih
  | or left right ih _ => exact List.append_ne_nil_of_left_ne_nil ih _

theorem Unfolded.read_or (left right : Unfolded) :
    (Unfolded.or left right).read = left.read.or right.read := by
  rw [read, leaves, List.map_append, orAll_append]
  · rfl
  · exact fun none => left.leaves_ne_nil (List.map_eq_nil_iff.mp none)
  · exact fun none => right.leaves_ne_nil (List.map_eq_nil_iff.mp none)

section Reading

variable {visited visited' : List ℕ} {unfolded left right : Unfolded} {id : ℕ}

theorem Unfolded.isRead_definition_iff :
    (Unfolded.definition id unfolded).IsRead visited ↔
      id ∉ visited ∧ unfolded.IsRead (id :: visited) := by
  constructor
  · intro isRead
    obtain ⟨new, unshared⟩ := List.nodup_cons.mp isRead.unshared
    refine ⟨isRead.unvisited id List.mem_cons_self, isRead.known, unshared, ?_, isRead.nonzero⟩
    intro other member again
    obtain rfl | old := List.mem_cons.mp again
    · exact new member
    · exact isRead.unvisited other (List.mem_cons_of_mem _ member) old
  · rintro ⟨new, isRead⟩
    refine ⟨isRead.known, ?_, ?_, isRead.nonzero⟩
    · refine List.nodup_cons.mpr ⟨fun member => ?_, isRead.unshared⟩
      exact isRead.unvisited id member List.mem_cons_self
    · intro other member
      obtain rfl | member := List.mem_cons.mp member
      · exact new
      · exact fun old => isRead.unvisited other member (List.mem_cons_of_mem _ old)

theorem Unfolded.IsRead.ofLeft (isRead : (Unfolded.or left right).IsRead visited) :
    left.IsRead visited := by
  refine ⟨?_, (List.nodup_append.mp isRead.unshared).1, ?_, isRead.nonzero.2.2.1⟩
  · exact fun leaf member => isRead.known leaf (List.mem_append_left _ member)
  · exact fun id member => isRead.unvisited id (List.mem_append_left _ member)

/-- The right operand is evaluated after the definitions of the left one. -/
theorem Unfolded.isRead_or_iff
    (after : ∀ id, id ∈ visited' ↔ id ∈ visited ∨ id ∈ left.definitions) :
    (Unfolded.or left right).IsRead visited ↔ left.IsRead visited ∧ right.IsRead visited' ∧
      left.read.isTruthy ∧ right.read.isTruthy := by
  constructor
  · intro isRead
    obtain ⟨-, unsharedRight, apart⟩ := List.nodup_append.mp isRead.unshared
    obtain ⟨truthyLeft, truthyRight, -, nonzeroRight⟩ := isRead.nonzero
    refine ⟨isRead.ofLeft, ⟨?_, unsharedRight, ?_, nonzeroRight⟩, truthyLeft, truthyRight⟩
    · exact fun leaf member => isRead.known leaf (List.mem_append_right _ member)
    · intro id member visited
      obtain old | shared := (after id).mp visited
      · exact isRead.unvisited id (List.mem_append_right _ member) old
      · exact apart id shared id member rfl
  · rintro ⟨isReadLeft, isReadRight, truthyLeft, truthyRight⟩
    refine ⟨?_, ?_, ?_, truthyLeft, truthyRight, isReadLeft.nonzero, isReadRight.nonzero⟩
    · intro leaf member
      obtain member | member := List.mem_append.mp member
      · exact isReadLeft.known leaf member
      · exact isReadRight.known leaf member
    · refine List.nodup_append.mpr ⟨isReadLeft.unshared, isReadRight.unshared, ?_⟩
      rintro id shared _ member rfl
      exact isReadRight.unvisited id member ((after id).mpr (.inr shared))
    · intro id member
      obtain member | member := List.mem_append.mp member
      · exact isReadLeft.unvisited id member
      · exact fun old => isReadRight.unvisited id member ((after id).mpr (.inl old))

end Reading

/-! ## The evaluated mode -/

section Modes

variable {scopeOf : Scope → String → Scope} {constants : String → Option ℕ}
  {rule scope : Scope} {node : Node} {start next : Scope × Node} {unfolded : Unfolded}

theorem SameNames.part (same : SameNames scopeOf rule start) (part : Part scopeOf start next) :
    SameNames scopeOf rule next :=
  fun scope name reached => same scope name (.head part reached)

theorem parseOctal_of_hasLeadingZero {raw : Text} (leading : hasLeadingZero raw) :
    parseOctal raw = .ofInt (octalValue (raw.takeWhile isOctalDigit)) := by
  obtain ⟨zero, -⟩ := Bool.and_eq_true_iff.mp leading
  obtain ⟨rest, rfl⟩ := List.isPrefixOf_iff_prefix.mp zero
  exact parseOctal_cons rest (by decide)

theorem parseOctal_of_all {digits : Text} (notEmpty : digits ≠ [])
    (octal : digits.all isOctalDigit) : parseOctal digits = .ofInt (octalValue digits) := by
  have each := List.all_eq_true.mp octal
  have whole : digits.takeWhile isOctalDigit = digits := List.takeWhile_eq_self_iff.mpr each
  obtain ⟨c, rest, rfl⟩ := List.exists_cons_of_ne_nil notEmpty
  rw [parseOctal_cons rest (each c List.mem_cons_self), whole]

theorem modeFromLiteral_numeral (raw : Text) (value : Number) :
    modeFromLiteral ⟨.number value, some raw⟩ = .number (Leaf.numeral raw value).read := by
  by_cases leading : hasLeadingZero raw
  · simp only [modeFromLiteral, Leaf.read, leading, if_true, parseOctal_of_hasLeadingZero leading]
  · rw [modeFromLiteral, Leaf.read]
    simp only [leading, Bool.false_eq_true, if_false]

theorem modeFromLiteral_octalString (raw : Option Text) {digits : Text} (notEmpty : digits ≠ [])
    (octal : digits.all isOctalDigit) :
    modeFromLiteral ⟨.string digits, raw⟩ = .number (Leaf.octalString digits).read :=
  congrArg Mode.number (parseOctal_of_all notEmpty octal)

theorem modeFromOperands_eq_number_iff {left right : Mode} {n : Number} :
    modeFromOperands left right = .number n ↔ ∃ a b, left = .number a ∧ right = .number b ∧
      a.isTruthy ∧ b.isTruthy ∧ n = a.or b := by
  constructor
  · intro evaluated
    unfold modeFromOperands at evaluated
    split at evaluated
    · split at evaluated
      · rename_i a b truthy
        obtain ⟨truthyLeft, truthyRight⟩ := Bool.and_eq_true_iff.mp truthy
        exact ⟨a, b, rfl, rfl, truthyLeft, truthyRight, (Mode.number.inj evaluated).symm⟩
      · cases evaluated
    · cases evaluated
  · rintro ⟨a, b, rfl, rfl, truthyLeft, truthyRight, rfl⟩
    simp [modeFromOperands, truthyLeft, truthyRight]

/-- What evaluating an unfolded expression comes to: a number exactly if it is evaluated to
the end, and then all its definitions have been visited. -/
structure Outcome (unfolded : Unfolded) (visited : List ℕ) (mode : Mode) (visited' : List ℕ) :
    Prop where
  number_iff : ∀ n, mode = .number n ↔ unfolded.IsRead visited ∧ n = unfolded.read
  visits : unfolded.IsRead visited →
    ∀ id, id ∈ visited' ↔ id ∈ visited ∨ id ∈ unfolded.definitions

theorem outcome_leaf {leaf : Leaf} {visited : List ℕ} {mode : Mode}
    (number_iff : ∀ n, mode = .number n ↔ leaf.IsKnown ∧ n = leaf.read) :
    Outcome (.leaf leaf) visited mode visited := by
  constructor
  · intro n
    rw [number_iff n]
    refine and_congr_left fun _ => ⟨fun known => ?_, fun isRead => ?_⟩
    · refine ⟨fun other member => ?_, List.nodup_nil, fun _ member => ?_, trivial⟩
      · rwa [List.mem_singleton.mp member]
      · cases member
    · exact isRead.known leaf (List.mem_singleton_self leaf)
  · intro _ id
    simp [Unfolded.definitions]

theorem outcome_or {left right : Unfolded} {visited visited₁ visited₂ : List ℕ}
    {leftValue rightValue : Mode} (first : Outcome left visited leftValue visited₁)
    (second : Outcome right visited₁ rightValue visited₂) :
    Outcome (.or left right) visited (modeFromOperands leftValue rightValue) visited₂ := by
  constructor
  · intro n
    rw [modeFromOperands_eq_number_iff, Unfolded.read_or]
    constructor
    · rintro ⟨a, b, isLeft, isRight, truthyLeft, truthyRight, rfl⟩
      obtain ⟨isReadLeft, rfl⟩ := (first.number_iff a).mp isLeft
      obtain ⟨isReadRight, rfl⟩ := (second.number_iff b).mp isRight
      refine ⟨?_, rfl⟩
      apply (Unfolded.isRead_or_iff (first.visits isReadLeft)).mpr
      exact ⟨isReadLeft, isReadRight, truthyLeft, truthyRight⟩
    · rintro ⟨isRead, rfl⟩
      obtain ⟨isReadLeft, isReadRight, truthyLeft, truthyRight⟩ :=
        (Unfolded.isRead_or_iff (first.visits isRead.ofLeft)).mp isRead
      exact ⟨_, _, (first.number_iff _).mpr ⟨isReadLeft, rfl⟩,
        (second.number_iff _).mpr ⟨isReadRight, rfl⟩, truthyLeft, truthyRight, rfl⟩
  · intro isRead id
    obtain ⟨isReadLeft, isReadRight, -⟩ :=
      (Unfolded.isRead_or_iff (first.visits isRead.ofLeft)).mp isRead
    rw [second.visits isReadRight, first.visits isReadLeft, Unfolded.definitions,
      List.mem_append, or_assoc]

theorem outcome_definition {id : ℕ} {visited visited' : List ℕ} {mode : Mode}
    (new : id ∉ visited) (outcome : Outcome unfolded (id :: visited) mode visited') :
    Outcome (.definition id unfolded) visited mode visited' := by
  constructor
  · intro n
    rw [outcome.number_iff, Unfolded.isRead_definition_iff]
    simp only [new, not_false_eq_true, true_and]
    rfl
  · intro isRead other
    rw [outcome.visits (Unfolded.isRead_definition_iff.1 isRead).2, Unfolded.definitions,
      List.mem_cons, List.mem_cons]
    tauto

theorem outcome_visited {id : ℕ} {visited : List ℕ} (old : id ∈ visited) :
    Outcome (.definition id unfolded) visited .null visited := by
  constructor
  · intro n
    rw [Unfolded.isRead_definition_iff]
    simp [old]
  · intro isRead
    exact absurd old (Unfolded.isRead_definition_iff.1 isRead).1

/-- With fuel from some on, the evaluation of an unfolded expression comes to an outcome. -/
def Concludes (rule : Scope) (node : Node) (unfolded : Unfolded) (visited : List ℕ) : Prop :=
  ∃ enough mode visited', Outcome unfolded visited mode visited' ∧ ∀ fuel, enough ≤ fuel →
    modeFromExpression rule fuel (some node) visited = some (mode, visited')

theorem concludes_leaf {leaf : Leaf} {visited : List ℕ} {mode : Mode}
    (number_iff : ∀ n, mode = .number n ↔ leaf.IsKnown ∧ n = leaf.read)
    (step : ∀ fuel, modeFromExpression rule (fuel + 1) (some node) visited = some (mode, visited)) :
    Concludes rule node (.leaf leaf) visited := by
  refine ⟨1, mode, visited, outcome_leaf number_iff, fun fuel le => ?_⟩
  obtain ⟨fuel, rfl⟩ := Nat.exists_eq_add_of_le' le
  exact step fuel

theorem concludes_identifier {name : String} {usage : WriteExpr} {visited : List ℕ}
    (found : getUniqueWriteUsage rule name = some usage)
    (definition : ∀ visited, Concludes rule usage.node unfolded visited) :
    Concludes rule (.identifier name) (.definition usage.id unfolded) visited := by
  by_cases old : usage.id ∈ visited
  · refine ⟨1, .null, visited, outcome_visited old, fun fuel le => ?_⟩
    obtain ⟨fuel, rfl⟩ := Nat.exists_eq_add_of_le' le
    simp [modeFromExpression, found, old]
  · obtain ⟨enough, mode, visited', outcome, evaluates⟩ := definition (usage.id :: visited)
    refine ⟨enough + 1, mode, visited', outcome_definition old outcome, fun fuel le => ?_⟩
    obtain ⟨fuel, rfl⟩ := Nat.exists_eq_add_of_le' (Nat.le_of_add_left_le le)
    have step := evaluates fuel (by omega)
    simpa [modeFromExpression, found, old] using step

theorem concludes_or {left right : Node} {unfolded' : Unfolded} {visited : List ℕ}
    (concludesLeft : Concludes rule left unfolded visited)
    (concludesRight : ∀ visited, Concludes rule right unfolded' visited) :
    Concludes rule (.binaryExpression left "|" right) (.or unfolded unfolded') visited := by
  obtain ⟨enough, leftValue, visited₁, first, evaluatesLeft⟩ := concludesLeft
  obtain ⟨enough', rightValue, visited₂, second, evaluatesRight⟩ := concludesRight visited₁
  refine ⟨max enough enough' + 1, _, visited₂, outcome_or first second, fun fuel le => ?_⟩
  obtain ⟨fuel, rfl⟩ := Nat.exists_eq_add_of_le' (Nat.le_of_add_left_le le)
  have stepLeft := evaluatesLeft fuel (by omega)
  have stepRight := evaluatesRight fuel (by omega)
  simp [modeFromExpression, stepLeft, stepRight]

/-- An expression that can be unfolded is evaluated with enough fuel. -/
theorem concludes_of_unfolds (unfolds : Unfolds scopeOf constants scope node unfolded)
    (same : SameNames scopeOf rule (scope, node)) (visited : List ℕ) :
    Concludes rule node unfolded visited := by
  induction unfolds generalizing visited with
  | numeral scope raw value =>
      apply concludes_leaf _ (fun fuel => rfl)
      intro n
      rw [modeFromLiteral_numeral, Mode.number.injEq]
      exact ⟨fun read => ⟨trivial, read.symm⟩, fun read => read.2.symm⟩
  | octalString scope raw notEmpty octal =>
      apply concludes_leaf _ (fun fuel => rfl)
      intro n
      rw [modeFromLiteral_octalString raw notEmpty octal, Mode.number.injEq]
      exact ⟨fun read => ⟨trivial, read.symm⟩, fun read => read.2.symm⟩
  | @constant scope name value isMode known =>
      apply concludes_leaf _ (fun fuel => rfl)
      intro n
      cases found : FS_CONST.lookup name with
      | none =>
          simp [modeFromMemberExpression, isMemberExpression, isIdentifier, Leaf.IsKnown, found]
      | some value' =>
          simp [modeFromMemberExpression, isMemberExpression, isIdentifier, Leaf.IsKnown, Leaf.read,
            found, eq_comm]
  | @identifier scope name usage unfolded written definition ih =>
      apply concludes_identifier
      · exact (same scope name .refl).trans written
      · exact ih (same.part (.definition written))
  | @or scope left right unfolded unfolded' unfoldsLeft unfoldsRight ihLeft ihRight =>
      apply concludes_or
      · exact ihLeft (same.part (.left scope left right)) visited
      · exact ihRight (same.part (.right scope left right))

theorem hasMode_number_iff (unfolds : Unfolds scopeOf constants scope node unfolded)
    (same : SameNames scopeOf rule (scope, node)) (n : Number) :
    HasMode rule node (.number n) ↔ unfolded.IsRead [] ∧ n = unfolded.read := by
  obtain ⟨enough, mode, visited, outcome, evaluates⟩ := concludes_of_unfolds unfolds same []
  rw [← outcome.number_iff]
  constructor
  · rintro ⟨enough', evaluates'⟩
    obtain ⟨visited', evaluated⟩ := evaluates' (max enough enough') (by omega)
    rw [evaluates _ (by omega)] at evaluated
    exact congrArg Prod.fst (Option.some.inj evaluated)
  · rintro rfl
    exact ⟨enough, fun fuel le => ⟨visited, evaluates fuel le⟩⟩

/-- The mode of an expression is the bitwise or of the values of its leaves exactly if it is
read exactly. -/
theorem modeFromExpression_exact_iff (unfolds : Unfolds scopeOf constants scope node unfolded)
    (same : SameNames scopeOf rule (scope, node)) :
    HasMode rule node (.number unfolded.value) ↔ unfolded.IsReadExactly := by
  have readings : unfolded.value = unfolded.read ↔ unfolded.MisreadHarmless :=
    eq_comm.trans (orAll_map_eq_iff unfolded.leaves_ne_nil)
  rw [hasMode_number_iff unfolds same, readings]
  constructor
  · rintro ⟨isRead, harmless⟩
    exact ⟨isRead.known, isRead.unshared, isRead.nonzero, harmless⟩
  · rintro ⟨known, unshared, nonzero, harmless⟩
    exact ⟨⟨known, unshared, fun _ _ => List.not_mem_nil, nonzero⟩, harmless⟩

/-- Where all definitions stand in the scope of the rule, the names are the same. -/
theorem sameNames_of_oneScope (rule : Scope) (node : Node) :
    SameNames (fun _ _ => rule) rule (rule, node) := by
  intro scope name reached
  have oneScope : ∀ target, ReflTransGen (Part fun _ _ => rule) (rule, node) target →
      target.1 = rule := by
    intro target reached
    induction reached with
    | refl => rfl
    | tail _ part ih =>
        cases part with
        | definition => rfl
        | left => exact ih
        | right => exact ih
  rw [show scope = rule from oneScope _ reached]

def groupMode : WriteExpr := ⟨0, .literal ⟨.string ['0', '7', '0'], none⟩⟩

/-- `const group = '070'` -/
def groupScope : Scope := [[⟨"group", [⟨true, some groupMode⟩]⟩]]

/-- `0700 | group`, where the parser has read the literal as a decimal number. -/
def ownerAndGroup : Node :=
  .binaryExpression (.literal ⟨.number (.finite 700), some ['0', '7', '0', '0']⟩) "|"
    (.identifier "group")

def unfoldedOwnerAndGroup : Unfolded :=
  .or (.leaf (.numeral ['0', '7', '0', '0'] (.finite 700)))
    (.definition 0 (.leaf (.octalString ['0', '7', '0'])))

theorem unfolds_ownerAndGroup :
    Unfolds (fun _ _ => groupScope) (fun _ => none) groupScope ownerAndGroup
      unfoldedOwnerAndGroup := by
  have group : Unfolds (fun _ _ => groupScope) (fun _ => none) groupScope groupMode.node
      (.leaf (.octalString ['0', '7', '0'])) := by
    apply Unfolds.octalString
    · decide
    · decide
  have written : getUniqueWriteUsage groupScope "group" = some groupMode := rfl
  exact .or (.numeral _ _ _) (.identifier written group)

theorem isReadExactly_ownerAndGroup : unfoldedOwnerAndGroup.IsReadExactly := by
  refine ⟨?_, by decide, ?_, .inl ?_⟩
  · simp [unfoldedOwnerAndGroup, Unfolded.leaves, Leaf.IsKnown]
  · refine ⟨?_, ?_, trivial, trivial⟩
    · decide +kernel
    · decide +kernel
  · simp only [unfoldedOwnerAndGroup, Unfolded.leaves, List.cons_append, List.nil_append,
      List.forall_mem_cons]
    decide +kernel

/-- `0700 | group` is evaluated to 504, that is 0o770. -/
theorem mode_ownerAndGroup :
    unfoldedOwnerAndGroup.value = .finite 504 ∧
      HasMode groupScope ownerAndGroup (.number unfoldedOwnerAndGroup.value) :=
  ⟨by decide +kernel,
    (modeFromExpression_exact_iff unfolds_ownerAndGroup (sameNames_of_oneScope _ _)).mpr
      isReadExactly_ownerAndGroup⟩

/-- The hexadecimal literal `0x1FF` is 511 and evaluated to 0. -/
theorem not_exact_hexadecimal :
    Unfolds (fun _ _ => []) (fun _ => none) []
        (.literal ⟨.number (.finite 511), some ['0', 'x', '1', 'F', 'F']⟩)
        (.leaf (.numeral ['0', 'x', '1', 'F', 'F'] (.finite 511))) ∧
      (Unfolded.leaf (.numeral ['0', 'x', '1', 'F', 'F'] (.finite 511))).value = .finite 511 ∧
        ¬ HasMode [] (.literal ⟨.number (.finite 511), some ['0', 'x', '1', 'F', 'F']⟩)
          (.number (.finite 511)) := by
  refine ⟨.numeral _ _ _, by decide, ?_⟩
  rintro ⟨enough, evaluates⟩
  obtain ⟨visited, evaluated⟩ := evaluates (enough + 1) (Nat.le_succ _)
  have zero : modeFromLiteral ⟨.number (.finite 511), some ['0', 'x', '1', 'F', 'F']⟩ =
      .number (.finite 0) := by
    decide +kernel
  simp [modeFromExpression, zero] at evaluated

end Modes

end SonarJS.FilePermissions
