import SonarJS.Foundation.StringLiteral
import SonarJS.Linting.Resolution

/-!
# Extracted patterns and runtime patterns

A pattern is put together from string literals, templates without substitutions, identifiers
with an initialiser and concatenations. At runtime each identifier is looked up where it
stands and a template has its cooked value; `getPatternFromNode` looks up each name in the
scope of the rule and takes the raw text of a template.

A raw text that is not the value of its template is longer, and no other part of the
expression makes up for it. So where all names mean the same in both scopes, the two patterns
agree exactly if no template has a backslash.
-/

namespace SonarJS.Resolution

open Action Relation StringLiteral

/-! ## Evaluation -/

section Evaluation

-- the scope in which the initialiser stands of the variable that a name denotes in a scope
variable (scopeOf : Scope → String → Scope)

/-- The string that an expression evaluates to in a scope. -/
inductive Evaluates : Scope → Node → Text → Prop
  | string (scope : Scope) (value : String) :
      Evaluates scope (.literal (.string value)) (utf16 value)
  | template (scope : Scope) {quasi : String} {pieces : List Piece} (template : IsTemplate pieces)
      (isRaw : utf16 quasi = raw pieces) :
      Evaluates scope (.templateLiteral [quasi] []) (value pieces)
  | identifier {scope : Scope} {name : String} {usage : WriteExpr} {value : Text}
      (written : getUniqueWriteUsage scope name = some usage)
      (initialiser : Evaluates (scopeOf scope name) usage.node value) :
      Evaluates scope (.identifier name) value
  | plus {scope : Scope} {left right : Node} {value value' : Text}
      (evaluatesLeft : Evaluates scope left value)
      (evaluatesRight : Evaluates scope right value') :
      Evaluates scope (.binaryExpression "+" left right) (value ++ value')

/-- What the evaluation of an expression in a scope goes on with. -/
inductive Part : Scope × Node → Scope × Node → Prop
  | initialiser {scope : Scope} {name : String} {usage : WriteExpr}
      (written : getUniqueWriteUsage scope name = some usage) :
      Part (scope, .identifier name) (scopeOf scope name, usage.node)
  | left (scope : Scope) (left right : Node) :
      Part (scope, .binaryExpression "+" left right) (scope, left)
  | right (scope : Scope) (left right : Node) :
      Part (scope, .binaryExpression "+" left right) (scope, right)

/-- The names in an expression have the same definitions in the scope of the rule. -/
def SameNames (rule : Scope) (start : Scope × Node) : Prop :=
  ∀ scope name, ReflTransGen (Part scopeOf) start (scope, .identifier name) →
    getUniqueWriteUsage rule name = getUniqueWriteUsage scope name

/-- No template in an expression has a backslash. -/
def NoBackslash (start : Scope × Node) : Prop :=
  ∀ scope quasi, ReflTransGen (Part scopeOf) start (scope, .templateLiteral [quasi] []) →
    backslash ∉ utf16 quasi

variable {scopeOf} {rule scope : Scope} {start next : Scope × Node}

theorem SameNames.part (same : SameNames scopeOf rule start) (part : Part scopeOf start next) :
    SameNames scopeOf rule next :=
  fun scope name reached => same scope name (.head part reached)

theorem NoBackslash.part (none : NoBackslash scopeOf start) (part : Part scopeOf start next) :
    NoBackslash scopeOf next :=
  fun scope quasi reached => none scope quasi (.head part reached)

/-- The parts of an expression that is no template decide. -/
theorem noBackslash_of_parts
    (noTemplate : ∀ scope quasi, start ≠ (scope, .templateLiteral [quasi] []))
    (parts : ∀ next, Part scopeOf start next → NoBackslash scopeOf next) :
    NoBackslash scopeOf start := by
  intro scope quasi reached
  obtain rfl | ⟨next, part, rest⟩ := ReflTransGen.cases_head reached
  · exact absurd rfl (noTemplate scope quasi)
  · exact parts next part scope quasi rest

theorem noBackslash_template {quasi : String} (none : backslash ∉ utf16 quasi) :
    NoBackslash scopeOf (scope, .templateLiteral [quasi] []) := by
  intro scope' quasi' reached
  obtain same | ⟨next, part, -⟩ := ReflTransGen.cases_head reached
  · cases same
    exact none
  · cases part

/-- Where all initialisers stand in the scope of the rule, the names are the same. -/
theorem sameNames_of_oneScope (rule : Scope) (node : Node) :
    SameNames (fun _ _ => rule) rule (rule, node) := by
  intro scope name reached
  have oneScope : ∀ target, ReflTransGen (Part fun _ _ => rule) (rule, node) target →
      target.1 = rule := by
    intro target reached
    induction reached with
    | refl => rfl
    | tail _ part ih =>
        cases part with
        | initialiser => rfl
        | left => exact ih
        | right => exact ih
  rw [show scope = rule from oneScope _ reached]

end Evaluation

/-! ## The extracted pattern -/

section Patterns

variable {scopeOf : Scope → String → Scope} {rule scope : Scope} {fuel : ℕ} {node : Node}
variable {pattern : PatternAndFlags}

theorem exists_fuel {result : Option PatternAndFlags}
    (returned : getPatternFromNode rule fuel node = .ok result) : ∃ n, fuel = n + 1 := by
  cases fuel with
  | zero => cases returned
  | succ fuel => exact ⟨fuel, rfl⟩

theorem getPatternFromNode_identifier {name : String} {usage : WriteExpr}
    (written : getUniqueWriteUsage rule name = some usage)
    (h : getPatternFromNode rule (fuel + 1) (.identifier name) = .ok (some pattern)) :
    getPatternFromNode rule fuel usage.node = .ok (some pattern) := by
  rw [getPatternFromNode] at h
  dsimp only [regExpConstructor] at h
  rw [written] at h
  dsimp only at h
  split at h
  · exact h
  · cases h

theorem getPatternFromNode_plus {left right : Node}
    (h : getPatternFromNode rule (fuel + 1) (.binaryExpression "+" left right) =
      .ok (some pattern)) :
    ∃ patternLeft patternRight, getPatternFromNode rule fuel left = .ok (some patternLeft) ∧
      getPatternFromNode rule fuel right = .ok (some patternRight) ∧
        pattern.pattern = patternLeft.pattern ++ patternRight.pattern := by
  rw [getPatternFromNode] at h
  obtain ⟨patternLeft, first, h⟩ := except_bind_eq_ok.mp h
  obtain ⟨patternRight, second, h⟩ := except_bind_eq_ok.mp h
  cases patternLeft with
  | none => cases h
  | some patternLeft =>
      cases patternRight with
      | none => cases h
      | some patternRight =>
          cases h
          exact ⟨patternLeft, patternRight, first, second, rfl⟩

/-- A pattern is the value, or a template has made it longer. -/
theorem pattern_shrinks {value : Text} (evaluates : Evaluates scopeOf scope node value)
    (same : SameNames scopeOf rule (scope, node))
    (returned : getPatternFromNode rule fuel node = .ok (some pattern)) :
    value = utf16 pattern.pattern ∧ NoBackslash scopeOf (scope, node) ∨
      value.length < (utf16 pattern.pattern).length ∧ ¬ NoBackslash scopeOf (scope, node) := by
  induction evaluates generalizing fuel pattern with
  | string scope value =>
      obtain ⟨fuel, rfl⟩ := exists_fuel returned
      cases returned
      refine .inl ⟨rfl, noBackslash_of_parts ?_ ?_⟩
      · intro scope' quasi template
        cases template
      · intro next part
        cases part
  | template scope template isRaw =>
      obtain ⟨fuel, rfl⟩ := exists_fuel returned
      cases returned
      rw [isRaw]
      obtain ⟨same, plain⟩ | ⟨shorter, escape⟩ := template_shrinks template
      · exact .inl ⟨same, noBackslash_template (isRaw ▸ plain)⟩
      · exact .inr ⟨shorter, fun none => none _ _ .refl (isRaw ▸ escape)⟩
  | @identifier scope name usage value written initialiser ih =>
      obtain ⟨fuel, rfl⟩ := exists_fuel returned
      have part : Part scopeOf (scope, .identifier name) (scopeOf scope name, usage.node) :=
        .initialiser written
      have returned := getPatternFromNode_identifier ((same _ _ .refl).trans written) returned
      obtain ⟨isValue, none⟩ | ⟨shorter, escape⟩ := ih (same.part part) returned
      · refine .inl ⟨isValue, noBackslash_of_parts ?_ ?_⟩
        · intro scope' quasi template
          cases template
        · intro next part'
          cases part' with
          | initialiser written' =>
              cases written.symm.trans written'
              exact none
      · exact .inr ⟨shorter, fun none => escape (none.part part)⟩
  | @plus scope left right value value' evaluatesLeft evaluatesRight ihLeft ihRight =>
      obtain ⟨fuel, rfl⟩ := exists_fuel returned
      obtain ⟨patternLeft, patternRight, first, second, joined⟩ := getPatternFromNode_plus returned
      have partLeft : Part scopeOf (scope, .binaryExpression "+" left right) (scope, left) :=
        .left scope left right
      have partRight : Part scopeOf (scope, .binaryExpression "+" left right) (scope, right) :=
        .right scope left right
      have resultLeft := ihLeft (same.part partLeft) first
      have resultRight := ihRight (same.part partRight) second
      rw [joined, utf16_append, List.length_append, List.length_append]
      obtain ⟨isValue, none⟩ | ⟨shorter, escape⟩ := resultLeft
      · obtain ⟨isValue', none'⟩ | ⟨shorter', escape'⟩ := resultRight
        · refine .inl ⟨by rw [isValue, isValue'], noBackslash_of_parts ?_ ?_⟩
          · intro scope' quasi template
            cases template
          · intro next part
            cases part with
            | left => exact none
            | right => exact none'
        · refine .inr ⟨?_, fun none => escape' (none.part partRight)⟩
          rw [isValue]
          omega
      · refine .inr ⟨?_, fun none => escape (none.part partLeft)⟩
        obtain ⟨isValue', -⟩ | ⟨shorter', -⟩ := resultRight
        · rw [isValue']
          omega
        · omega

/-- Where the names in the argument of a `RegExp` constructor have the same definitions in the
scope of the rule, the extracted pattern is the one of the runtime if and only if no template
in the argument has a backslash. -/
theorem pattern_eq_iff {first : Node} {rest : List Node} {value : Text}
    (constructs : regExpConstructor node = some (first, rest))
    (returned : getPatternFromNode scope fuel node = .ok (some pattern))
    (evaluates : Evaluates scopeOf scope first value)
    (same : SameNames scopeOf scope (scope, first)) :
    utf16 pattern.pattern = value ↔ NoBackslash scopeOf (scope, first) := by
  obtain ⟨fuel, rfl⟩ := exists_fuel returned
  obtain ⟨patternOnly, inner, isPattern⟩ : ∃ patternOnly,
      getPatternFromNode scope fuel first = .ok (some patternOnly) ∧
        pattern.pattern = patternOnly.pattern := by
    unfold getPatternFromNode at returned
    rw [constructs] at returned
    obtain ⟨patternOnly, inner, returned⟩ := except_bind_eq_ok.mp returned
    cases patternOnly with
    | none => cases returned
    | some patternOnly =>
        cases flags : getFlags rest with
        | none =>
            rw [flags] at returned
            cases returned
        | some known =>
            rw [flags] at returned
            cases returned
            exact ⟨patternOnly, inner, rfl⟩
  rw [isPattern]
  obtain ⟨isValue, none⟩ | ⟨shorter, escape⟩ := pattern_shrinks evaluates same inner
  · exact iff_of_true isValue.symm none
  · refine iff_of_false ?_ escape
    rintro rfl
    exact lt_irrefl _ shorter

/-- `const p` with the template of one letter. -/
def letterScope : Scope :=
  [[⟨"p", [⟨true, some ⟨.templateLiteral ["b"] [], some .variableDeclarator⟩⟩]⟩]]

/-- `'a' + p`. -/
def letterNode : Node := .binaryExpression "+" (.literal (.string "a")) (.identifier "p")

theorem pattern_letters :
    utf16 "ab" = [0x61, 0x62] ↔ NoBackslash (fun _ _ => letterScope) (letterScope, letterNode) := by
  have constructs : regExpConstructor (.newExpression (.identifier "RegExp") [letterNode]) =
      some (letterNode, []) := rfl
  have returned : getPatternFromNode letterScope 4
      (.newExpression (.identifier "RegExp") [letterNode]) = .ok (some ⟨"ab", ""⟩) := by
    rfl
  have template : IsTemplate [.character 0x62] := ⟨⟨rfl, by decide, by decide⟩, trivial⟩
  have evaluates : Evaluates (fun _ _ => letterScope) letterScope letterNode [0x61, 0x62] :=
    .plus (.string letterScope "a") (.identifier rfl (.template letterScope template rfl))
  exact pattern_eq_iff constructs returned evaluates (sameNames_of_oneScope _ _)

/-- The pattern of a template with an escaped backslash and a `d`, which is `\d` at runtime. -/
theorem pattern_ne_backslash :
    getPatternFromNode [] 2 (.newExpression (.identifier "RegExp")
        [.templateLiteral ["\\\\d"] []]) = .ok (some ⟨"\\\\d", ""⟩) ∧
      Evaluates (fun _ _ => []) [] (.templateLiteral ["\\\\d"] []) [0x5C, 0x64] ∧
        utf16 "\\\\d" ≠ [0x5C, 0x64] := by
  have template : IsTemplate [.single 0x5C, .character 0x64] :=
    ⟨rfl, ⟨rfl, by decide, by decide⟩, trivial⟩
  exact ⟨rfl, .template [] template rfl, by decide⟩

end Patterns

end SonarJS.Resolution
