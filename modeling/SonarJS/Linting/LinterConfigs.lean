import SonarJS.Linting.Messages

/-!
# Configurations of a linter

A linter is created for the rules of a quality profile. It has two configurations, for main
files and for test files, and each of them enables the rules that target such files. A rule
that stands in the profile more than once is enabled as its last entry says. The rules that
compute metrics are enabled on top, unless the analysis runs in SonarLint.
-/

namespace SonarJS.LinterConfigs

open Messages (RuleModule SONAR_RUNTIME hasSonarRuntimeOption)
open StringLiteral (Text utf16)

inductive FileType
  | MAIN
  | TEST
deriving DecidableEq

/-- A rule of the profile, `EslintRule` in the plugin and `RuleConfig` in the linter. -/
structure RuleConfig where
  key : String
  configurations : List Json
  fileTypeTarget : List FileType

/-- What a linter knows about the rules: the module of a rule, and whether it has
`sonar-context` in its schema. -/
structure RuleDatabase where
  module : String → Option RuleModule
  hasSonarContextOption : String → Bool

/-- `getContext()`. -/
structure Context where
  workDir : Text
  shouldUseTypeScriptParserForJS : Bool
  sonarlint : Bool
  bundles : List Text

def Context.toJson (context : Context) : Json :=
  Json.members [("workDir", some (.string context.workDir)),
    ("shouldUseTypeScriptParserForJS", some (.bool context.shouldUseTypeScriptParserForJS)),
    ("sonarlint", some (.bool context.sonarlint)),
    ("bundles", some (.array (context.bundles.map .string)))]

def extendRuleConfig (context : Context) (linterRules : RuleDatabase) (inputRule : RuleConfig) :
    List Json :=
  let runtime := hasSonarRuntimeOption (linterRules.module inputRule.key)
  inputRule.configurations ++ (if runtime then [.string (utf16 SONAR_RUNTIME)] else []) ++
    (if linterRules.hasSonarContextOption inputRule.key then [context.toJson] else [])

/-- The rules that compute metrics, with their options. -/
def internalCustomRules : List (String × List Json) :=
  [(Messages.cognitiveComplexityRule, [.string (utf16 "metric")]),
    (Messages.symbolHighlightingRule, [])]

/-- An ESLint configuration. All enabled rules have the severity `error`; an option list is
what follows it. The parser options and the settings are the same for all. -/
structure Config where
  env : OrderedMap String Bool
  globals : OrderedMap String Bool
  rules : OrderedMap String (List Json)

def createEnv (environments : List String) : OrderedMap String Bool :=
  environments.foldl (fun env key => env.set key true) (OrderedMap.empty.set "es6" true)

def createGlobals (globs : List String) : OrderedMap String Bool :=
  globs.foldl (fun globals key => globals.set key true) .empty

def enableRules (context : Context) (inputRules : List RuleConfig) (linterRules : RuleDatabase)
    (rules : OrderedMap String (List Json)) : OrderedMap String (List Json) :=
  inputRules.foldl (fun rules inputRule =>
    rules.set inputRule.key (extendRuleConfig context linterRules inputRule)) rules

def enableInternalCustomRules (context : Context) (rules : OrderedMap String (List Json)) :
    OrderedMap String (List Json) :=
  if context.sonarlint then rules
  else internalCustomRules.foldl (fun rules rule => rules.set rule.1 rule.2) rules

def createLinterConfig (context : Context) (inputRules : List RuleConfig)
    (linterRules : RuleDatabase) (environments globs : List String) : Config where
  env := createEnv environments
  globals := createGlobals globs
  rules := enableInternalCustomRules context (enableRules context inputRules linterRules .empty)

structure LinterWrapper where
  config : FileType → Config

/-- The loop of `createConfig`: the rules for main files and those for test files. -/
def splitRules (inputRules : List RuleConfig) : List RuleConfig × List RuleConfig :=
  inputRules.foldl (fun (mainRules, testRules) inputRule =>
    (if inputRule.fileTypeTarget.contains .MAIN then mainRules ++ [inputRule] else mainRules,
      if inputRule.fileTypeTarget.contains .TEST then testRules ++ [inputRule] else testRules))
    ([], [])

def createConfig (context : Context) (linterRules : RuleDatabase) (inputRules : List RuleConfig)
    (environments globals : List String) : LinterWrapper where
  config
    | .MAIN =>
      createLinterConfig context (splitRules inputRules).1 linterRules environments globals
    | .TEST =>
      createLinterConfig context (splitRules inputRules).2 linterRules environments globals

/-! ## Which rules are enabled -/

/-- A rule as a configuration enables it: the last entry counts. -/
def lastRule (key : String) (type : FileType) (inputRules : List RuleConfig) :
    Option RuleConfig :=
  (inputRules.filter fun rule => rule.key = key && rule.fileTypeTarget.contains type).getLast?

/-- The options of a rule, if it is enabled. -/
def enabled (context : Context) (linterRules : RuleDatabase) (inputRules : List RuleConfig)
    (type : FileType) (key : String) : Option (List Json) :=
  match if context.sonarlint then none else internalCustomRules.lookup key with
  | some options => some options
  | none => (lastRule key type inputRules).map (extendRuleConfig context linterRules)

theorem splitRules_eq (inputRules : List RuleConfig) :
    splitRules inputRules = (inputRules.filter (·.fileTypeTarget.contains .MAIN),
      inputRules.filter (·.fileTypeTarget.contains .TEST)) := by
  induction inputRules using List.reverseRecOn with
  | nil => rfl
  | append_singleton inputRules rule ih =>
      rw [splitRules, List.foldl_append, ← splitRules, ih, List.filter_append, List.filter_append]
      cases main : rule.fileTypeTarget.contains .MAIN <;>
        cases test : rule.fileTypeTarget.contains .TEST <;>
        simp only [List.foldl_cons, List.foldl_nil, List.filter_cons, List.filter_nil, main, test,
          if_true, Bool.false_eq_true, if_false, List.append_nil]

theorem get_enableRules (context : Context) (linterRules : RuleDatabase)
    (inputRules : List RuleConfig) (key : String) :
    (enableRules context inputRules linterRules .empty).get key =
      ((inputRules.filter (·.key = key)).getLast?).map (extendRuleConfig context linterRules) := by
  induction inputRules using List.reverseRecOn with
  | nil => rfl
  | append_singleton inputRules rule ih =>
      have last : enableRules context (inputRules ++ [rule]) linterRules .empty =
          (enableRules context inputRules linterRules .empty).set rule.key
            (extendRuleConfig context linterRules rule) := List.foldl_append
      rw [last, OrderedMap.get_set, ih, List.filter_append]
      by_cases same : rule.key = key
      · simp [same]
      · simp [same, Ne.symm same]

theorem get_enableInternalCustomRules (context : Context)
    (rules : OrderedMap String (List Json)) (key : String) :
    (enableInternalCustomRules context rules).get key =
      (if context.sonarlint then none else internalCustomRules.lookup key).or (rules.get key) := by
  rw [enableInternalCustomRules]
  split
  · rfl
  · have different : Messages.cognitiveComplexityRule ≠ Messages.symbolHighlightingRule := by
      decide
    simp only [internalCustomRules, List.foldl_cons, List.foldl_nil, OrderedMap.get_set]
    by_cases symbols : key = Messages.symbolHighlightingRule
    · simp [symbols, List.lookup_cons, beq_false_of_ne different.symm]
    · have notSymbols := beq_false_of_ne symbols
      by_cases complexity : key = Messages.cognitiveComplexityRule
      · simp [complexity, different]
      · simp [complexity, symbols, List.lookup_cons, beq_false_of_ne complexity, notSymbols]

/-- A configuration enables what its file type asks for. -/
theorem get_createConfig (context : Context) (linterRules : RuleDatabase)
    (inputRules : List RuleConfig) (environments globals : List String) (type : FileType)
    (key : String) :
    ((createConfig context linterRules inputRules environments globals).config type).rules.get key =
      enabled context linterRules inputRules type key := by
  have targeted : ((createConfig context linterRules inputRules environments globals).config
      type) = createLinterConfig context (inputRules.filter (·.fileTypeTarget.contains type))
        linterRules environments globals := by
    cases type with
    | MAIN | TEST => rw [createConfig, splitRules_eq]
  rw [targeted, createLinterConfig, get_enableInternalCustomRules, get_enableRules,
    List.filter_filter, enabled, lastRule]
  cases (if context.sonarlint then none else internalCustomRules.lookup key) <;> rfl

end SonarJS.LinterConfigs
