import SonarJS.Foundation.Edits
import SonarJS.Foundation.Json
import SonarJS.Foundation.Lines
import SonarJS.Linting.SymbolHighlighting

/-!
# From the messages of ESLint to issues

What a rule reports reaches the analyzer as a message of ESLint, which has room for a text and
a location only. Rules put secondary locations and a cost into the text, as JSON, and the
symbol highlighting and the cognitive complexity of a file come as messages of two internal
rules. `transformMessages` takes all of them apart again. Columns are counted from 1 in
messages and from 0 in issues, and fixes, which are ranges of the text, become edits between
lines and columns.
-/

namespace SonarJS.Messages

open StringLiteral (CodeUnit Text utf16)
open Json (members optional required readInteger readNatural readText readArray)
open SyntaxTree (Position SourceLocation)
open SymbolHighlighting (SymbolHighlight)

/-! ## Messages and issues -/

abbrev Fix := Edits.Fix CodeUnit

structure Suggestion where
  desc : Text
  fix : Fix

/-- `Linter.LintMessage`. -/
structure LintMessage where
  ruleId : Option String
  line : ℕ
  column : ℤ
  endLine : Option ℕ
  endColumn : Option ℤ
  message : Text
  fix : Option Fix
  suggestions : Option (List Suggestion)

/-- The text of a file, and where its lines start. -/
structure SourceCode where
  text : Text
  lineStartIndices : List ℕ
  valid : Lines.Valid lineStartIndices

def SourceCode.getLocFromIndex (source : SourceCode) (index : ℕ) : Position :=
  let location := Lines.locate source.lineStartIndices index
  ⟨location.line, location.column⟩

def SourceCode.getIndexFromLoc (source : SourceCode) (position : Position) : ℕ :=
  Lines.position source.lineStartIndices ⟨position.line, position.column⟩

structure Location where
  message : Option Text
  column : ℕ
  line : ℕ
  endColumn : ℕ
  endLine : ℕ

structure QuickFixEdit where
  loc : SourceLocation
  text : Text

structure QuickFix where
  message : Text
  edits : List QuickFixEdit

structure Issue where
  ruleId : String
  line : ℕ
  column : ℤ
  endLine : Option ℕ
  endColumn : Option ℤ
  message : Text
  cost : Option ℤ
  secondaryLocations : List Location
  quickFixes : List QuickFix

inductive Error
  /-- `Failed to parse encoded issue message for rule …`. -/
  | encodedMessage (ruleId : String) (message : Text)
  /-- `Missing message for quick fix '…'`. -/
  | quickFix (ruleKey : String)
  /-- The symbol highlighting is not JSON. -/
  | highlightedSymbols
  /-- JSON of another form than the one that it is cast to. -/
  | cast

/-! ## Encoding -/

def Location.toJson (location : Location) : Json :=
  members [("message", location.message.map .string), ("column", some (.number location.column)),
    ("line", some (.number location.line)), ("endColumn", some (.number location.endColumn)),
    ("endLine", some (.number location.endLine))]

def toSecondaryLocation (loc : Option SourceLocation) (message : Option Text) :
    Except String Location :=
  match loc with
  | none => .error "Invalid secondary location"
  | some loc => .ok
    { message
      column := loc.start.column
      line := loc.start.line
      endColumn := loc.stop.column
      endLine := loc.stop.line }

/-- The object that `toEncodedMessage` turns into a text. -/
structure EncodedMessage where
  message : Text
  cost : Option ℤ
  secondaryLocations : List Location

def EncodedMessage.toJson (encoded : EncodedMessage) : Json :=
  members [("message", some (.string encoded.message)), ("cost", encoded.cost.map .number),
    ("secondaryLocations", some (.array (encoded.secondaryLocations.map Location.toJson)))]

def toEncodedMessage (message : Text) (secondaryLocationsHolder : List (Option SourceLocation))
    (secondaryMessages : Option (List (Option Text))) (cost : Option ℤ) : Except String Text := do
  let secondaryLocations ← (secondaryLocationsHolder.zipIdx).mapM fun (loc, index) =>
    toSecondaryLocation loc (secondaryMessages.bind fun messages => messages[index]?.join)
  return (EncodedMessage.mk message cost secondaryLocations).toJson.stringify

def positionJson (location : SymbolHighlighting.Location) : Json :=
  members [("startLine", some (.number location.startLine)),
    ("startCol", some (.number location.startCol)), ("endLine", some (.number location.endLine)),
    ("endCol", some (.number location.endCol))]

def highlightJson (highlight : SymbolHighlight) : Json :=
  members [("declaration", some (positionJson highlight.declaration)),
    ("references", some (.array (highlight.references.map positionJson)))]

/-- The text of the message that the symbol highlighting is reported with. -/
def highlightedSymbolsMessage (symbols : List SymbolHighlight) : Text :=
  (Json.array (symbols.map highlightJson)).stringify

/-! ## Decoding -/

def Location.ofJson (json : Json) : Option Location := do
  return {
    message := ← optional "message" readText json
    column := ← required "column" readNatural json
    line := ← required "line" readNatural json
    endColumn := ← required "endColumn" readNatural json
    endLine := ← required "endLine" readNatural json }

def positionOfJson (json : Json) : Option SymbolHighlighting.Location := do
  return {
    startLine := ← required "startLine" readNatural json
    startCol := ← required "startCol" readNatural json
    endLine := ← required "endLine" readNatural json
    endCol := ← required "endCol" readNatural json }

def highlightOfJson (json : Json) : Option SymbolHighlight := do
  return {
    declaration := ← required "declaration" positionOfJson json
    references := ← required "references" (readArray positionOfJson) json }

/-- The fields of an issue that a rule must leave alone. -/
def otherFields : List String :=
  ["ruleId", "line", "column", "endLine", "endColumn", "quickFixes"]

/-- `{ ...issue, ...encodedMessage }`. Only an object has something to spread that is a field
of an issue. -/
def Issue.spread (issue : Issue) (json : Json) : Except Error Issue :=
  match json with
  | .object _ =>
    if otherFields.any fun name => (json.field (utf16 name)).isSome then .error .cast
    else
      match optional "message" readText json, optional "cost" readInteger json,
        optional "secondaryLocations" (readArray Location.ofJson) json with
      | some message, some cost, some secondaryLocations => .ok
        { issue with
          message := message.getD issue.message
          cost := cost <|> issue.cost
          secondaryLocations := secondaryLocations.getD issue.secondaryLocations }
      | _, _, _ => .error .cast
  | _ => .ok issue

/-- An entry of a schema, with its `enum`. A schema is one entry, or an array of them. -/
inductive Schema
  | single (option : Option (List String))
  | array (options : List (Option (List String)))

/-- What is looked at of a rule: `meta.schema`. -/
structure RuleModule where
  schema : Option Schema

def getRuleSchema (ruleModule : Option RuleModule) : Option (List (Option (List String))) :=
  match ruleModule.bind RuleModule.schema with
  | none => none
  | some (.array options) => some options
  | some (.single option) => some [option]

def SONAR_RUNTIME : String := "sonar-runtime"

def hasSonarRuntimeOption (ruleModule : Option RuleModule) : Bool :=
  (getRuleSchema ruleModule).any fun schema =>
    schema.any fun option => option.any fun enum => enum.contains SONAR_RUNTIME

def decodeSonarRuntime (ruleModule : Option RuleModule) (issue : Issue) : Except Error Issue :=
  if hasSonarRuntimeOption ruleModule then
    match Json.parse issue.message with
    | none => .error (.encodedMessage issue.ruleId issue.message)
    | some encodedMessage => issue.spread encodedMessage
  else .ok issue

/-! ## Quick fixes -/

/-- The rules whose fixes become quick fixes. -/
def quickFixRules : List String :=
  ["comma-dangle", "eol-last", "no-extra-semi", "no-trailing-spaces", "no-unsafe-negation",
    "no-var", "object-shorthand", "prefer-const", "prefer-regex-literals", "prefer-template",
    "quotes", "radix", "semi",
    "no-dupe-keys", "no-duplicate-imports", "no-empty", "no-empty-function", "no-throw-literal",
    "no-unreachable", "use-isnan",
    "no-collection-size-mischeck", "no-inverted-boolean-check", "no-redundant-jump",
    "non-existent-operator", "prefer-immediate-return", "prefer-single-boolean-return",
    "prefer-while",
    "no-empty-interface", "no-explicit-any", "no-inferrable-types",
    "no-unnecessary-type-arguments", "no-unnecessary-type-assertion", "prefer-namespace-keyword",
    "prefer-readonly", "no-non-null-assertion",
    "prefer-for-of",
    "different-types-comparison", "inverted-assertion-arguments", "no-alphabetical-sort",
    "no-commented-code", "no-duplicate-in-composite", "no-exclusive-tests", "no-global-this",
    "no-in-misuse", "no-primitive-wrappers", "no-redundant-optional", "no-redundant-parentheses",
    "no-undefined-argument", "no-unthrown-error", "no-unused-function-argument",
    "prefer-promise-shorthand", "prefer-type-guard", "unused-import"]

/-- The messages for rules with a fix, which brings no message of its own. -/
def quickFixMessages : List (String × String) :=
  [("comma-dangle", "Remove this trailing comma"),
    ("eol-last", "Add a new line at the end of file"),
    ("no-extra-semi", "Remove extra semicolon"),
    ("no-trailing-spaces", "Remove trailing space"),
    ("no-var", "Replace 'var' with 'let'"),
    ("object-shorthand", "Use shorthand property"),
    ("prefer-const", "Replace with 'const'"),
    ("prefer-template", "Replace with template string literal"),
    ("quotes", "Fix quotes"),
    ("radix", "Add 10 as radix"),
    ("semi", "Add semicolon"),
    ("prefer-immediate-return", "Return value immediately"),
    ("prefer-while", "Replace with 'while' loop"),
    ("no-empty-interface", "Replace with type alias"),
    ("no-inferrable-types", "Remove type declaration"),
    ("no-unnecessary-type-arguments", "Remove type argument"),
    ("no-unnecessary-type-assertion", "Remove type assertion"),
    ("prefer-namespace-keyword", "Replace with 'namespace' keyword"),
    ("prefer-readonly", "Add 'readonly'"),
    ("no-non-null-assertion", "Replace with optional chaining '.?'")]

def getQuickFixMessage (ruleKey : String) : Except Error Text :=
  match quickFixMessages.lookup ruleKey with
  | none => .error (.quickFix ruleKey)
  | some message => .ok (utf16 message)

/-- An edit that looks its place up in the text. -/
def QuickFixEdit.apply (source : SourceCode) (edit : QuickFixEdit) : Text :=
  Edits.replaceRange (source.getIndexFromLoc edit.loc.start, source.getIndexFromLoc edit.loc.stop)
    edit.text source.text

def fixToEdit (source : SourceCode) (fix : Fix) : QuickFixEdit where
  loc := ⟨source.getLocFromIndex fix.range.1, source.getLocFromIndex fix.range.2⟩
  text := fix.text

def hasQuickFix (message : LintMessage) : Bool :=
  if message.fix.isNone && message.suggestions.all List.isEmpty then false
  else message.ruleId.any fun ruleId => ruleId ≠ "" && quickFixRules.contains ruleId

def transformFixes (source : SourceCode) (message : LintMessage) :
    Except Error (List QuickFix) := do
  if !hasQuickFix message then return []
  let fixes ← match message.fix with
    | none => pure []
    | some fix => do
      let text ← getQuickFixMessage (message.ruleId.getD "")
      pure [QuickFix.mk text [fixToEdit source fix]]
  return fixes ++ (message.suggestions.getD []).map fun suggestion =>
    ⟨suggestion.desc, [fixToEdit source suggestion.fix]⟩

/-! ## Transformation -/

/-- There is no issue without a rule. -/
def convertMessage (source : SourceCode) (message : LintMessage) :
    Except Error (Option Issue) :=
  match message.ruleId with
  | none | some "" => .ok none
  | some ruleId => do
    return some
      { ruleId
        line := message.line
        column := message.column
        endLine := message.endLine
        endColumn := message.endColumn
        message := message.message
        cost := none
        secondaryLocations := []
        quickFixes := ← transformFixes source message }

def normalizeLocation (issue : Issue) : Issue :=
  { issue with
    column := issue.column - 1
    endColumn := issue.endColumn.map fun endColumn =>
      if endColumn = 0 then endColumn else endColumn - 1 }

def symbolHighlightingRule : String := "internal-symbol-highlighting"

def cognitiveComplexityRule : String := "internal-cognitive-complexity"

/-- The issue, and the others. -/
def findAndRemoveFirstIssue (ruleId : String) (issues : List Issue) :
    Option Issue × List Issue :=
  (issues.find? fun issue => issue.ruleId = ruleId,
    issues.eraseP fun issue => issue.ruleId = ruleId)

def extractHighlightedSymbols (issues : List Issue) :
    Except Error (List SymbolHighlight × List Issue) :=
  match findAndRemoveFirstIssue symbolHighlightingRule issues with
  | (none, issues) => .ok ([], issues)
  | (some issue, issues) =>
    match Json.parse issue.message with
    | none => .error .highlightedSymbols
    | some json =>
      match readArray highlightOfJson json with
      | none => .error .cast
      | some symbols => .ok (symbols, issues)

/-- `Number`, of a text of digits. -/
def numberOf (text : Text) : Option ℕ :=
  if text.all Json.isDecimal then some (StringLiteral.mathValue 10 text) else none

def extractCognitiveComplexity (issues : List Issue) : Option ℕ × List Issue :=
  match findAndRemoveFirstIssue cognitiveComplexityRule issues with
  | (none, issues) => (none, issues)
  | (some issue, issues) => (numberOf issue.message, issues)

structure LintingResult where
  issues : List Issue
  ucfgPaths : List Text
  highlightedSymbols : List SymbolHighlight
  cognitiveComplexity : Option ℕ

abbrev Rules := String → Option RuleModule

/-- What the loop over the messages has found so far. -/
structure Transformed where
  issues : List Issue := []
  ucfgPaths : List Text := []

def transformMessage (source : SourceCode) (rules : Rules) (found : Transformed)
    (message : LintMessage) : Except Error Transformed :=
  if message.ruleId = some "ucfg" then
    return { found with ucfgPaths := found.ucfgPaths ++ [message.message] }
  else do
    match ← convertMessage source message with
    | none => return found
    | some issue =>
      let issue ← decodeSonarRuntime (rules issue.ruleId) issue
      return { found with issues := found.issues ++ [normalizeLocation issue] }

def transformMessages (source : SourceCode) (rules : Rules) (messages : List LintMessage) :
    Except Error LintingResult := do
  let found ← messages.foldlM (transformMessage source rules) {}
  let (highlightedSymbols, issues) ← extractHighlightedSymbols found.issues
  let (cognitiveComplexity, issues) := extractCognitiveComplexity issues
  return { issues, ucfgPaths := found.ucfgPaths, highlightedSymbols, cognitiveComplexity }

/-! ## What is encoded is decoded -/

theorem readNatural_number (n : ℕ) : readNatural (.number n) = some n := rfl

theorem location_ofJson (location : Location) :
    Location.ofJson location.toJson = some location := by
  have names : (["message", "column", "line", "endColumn", "endLine"].map utf16).Nodup := by
    decide
  have number (name : String) (n : ℕ) (member : (name, some (Json.number n)) ∈
      [("message", location.message.map Json.string),
        ("column", some (Json.number location.column)),
        ("line", some (Json.number location.line)),
        ("endColumn", some (Json.number location.endColumn)),
        ("endLine", some (Json.number location.endLine))]) :
      required name readNatural location.toJson = some n :=
    Json.required_members (fun n : ℕ => Json.number n) readNatural_number member names
  have message : optional "message" readText location.toJson = some location.message :=
    Json.optional_members Json.string (fun _ => rfl) List.mem_cons_self names
  rw [Location.ofJson, message, number "column" location.column (by simp),
    number "line" location.line (by simp), number "endColumn" location.endColumn (by simp),
    number "endLine" location.endLine (by simp)]
  rfl

theorem positionOfJson_positionJson (location : SymbolHighlighting.Location) :
    positionOfJson (positionJson location) = some location := by
  have names : (["startLine", "startCol", "endLine", "endCol"].map utf16).Nodup := by decide
  have number (name : String) (n : ℕ) (member : (name, some (Json.number n)) ∈
      [("startLine", some (Json.number location.startLine)),
        ("startCol", some (Json.number location.startCol)),
        ("endLine", some (Json.number location.endLine)),
        ("endCol", some (Json.number location.endCol))]) :
      required name readNatural (positionJson location) = some n :=
    Json.required_members (fun n : ℕ => Json.number n) readNatural_number member names
  rw [positionOfJson, number "startLine" location.startLine (by simp),
    number "startCol" location.startCol (by simp), number "endLine" location.endLine (by simp),
    number "endCol" location.endCol (by simp)]
  rfl

theorem highlightOfJson_highlightJson (highlight : SymbolHighlight) :
    highlightOfJson (highlightJson highlight) = some highlight := by
  have names : (["declaration", "references"].map utf16).Nodup := by decide
  have declaration : required "declaration" positionOfJson (highlightJson highlight) =
      some highlight.declaration :=
    Json.required_members positionJson positionOfJson_positionJson List.mem_cons_self names
  have references : required "references" (readArray positionOfJson) (highlightJson highlight) =
      some highlight.references :=
    Json.required_members (fun list => Json.array (list.map positionJson))
      (Json.readArray_map positionJson positionOfJson_positionJson) (by simp) names
  rw [highlightOfJson, declaration, references]
  rfl

theorem parse_highlightedSymbolsMessage (symbols : List SymbolHighlight) :
    (Json.parse (highlightedSymbolsMessage symbols)).bind (readArray highlightOfJson) =
      some symbols := by
  rw [highlightedSymbolsMessage, Json.parse_stringify]
  exact Json.readArray_map highlightJson highlightOfJson_highlightJson symbols

/-- An encoded message gives an issue its own text, cost and secondary locations. -/
theorem spread_encodedMessage (issue : Issue) (encoded : EncodedMessage)
    (cost : issue.cost = none) :
    issue.spread encoded.toJson = .ok
      { issue with
        message := encoded.message
        cost := encoded.cost
        secondaryLocations := encoded.secondaryLocations } := by
  have names : (["message", "cost", "secondaryLocations"].map utf16).Nodup := by decide
  have message : optional "message" readText encoded.toJson = some (some encoded.message) :=
    Json.optional_members Json.string (fun _ => rfl) List.mem_cons_self names
  have cost' : optional "cost" readInteger encoded.toJson = some encoded.cost :=
    Json.optional_members Json.number (fun _ => rfl) (by simp) names
  have secondaryLocations : optional "secondaryLocations" (readArray Location.ofJson)
      encoded.toJson = some (some encoded.secondaryLocations) :=
    Json.optional_members (fun list => Json.array (list.map Location.toJson))
      (Json.readArray_map Location.toJson location_ofJson) (by simp) names
  have others : (otherFields.any fun name => (encoded.toJson.field (utf16 name)).isSome) =
      false := by
    have apart : ∀ name ∈ otherFields,
        utf16 name ∉ ["message", "cost", "secondaryLocations"].map utf16 := by decide
    rw [List.any_eq_false]
    intro name member
    have missing : encoded.toJson.field (utf16 name) = none :=
      Json.field_members_of_notMem (apart name member)
    simp [missing]
  obtain ⟨_, object⟩ : ∃ members, encoded.toJson = .object members := ⟨_, rfl⟩
  rw [object] at message cost' secondaryLocations others ⊢
  simp [Issue.spread, message, cost', secondaryLocations, others, cost]

theorem decodeSonarRuntime_encoded {ruleModule : Option RuleModule} {issue : Issue}
    (runtime : hasSonarRuntimeOption ruleModule = true) (encoded : EncodedMessage)
    (message : issue.message = encoded.toJson.stringify) (cost : issue.cost = none) :
    decodeSonarRuntime ruleModule issue = .ok
      { issue with
        message := encoded.message
        cost := encoded.cost
        secondaryLocations := encoded.secondaryLocations } := by
  rw [decodeSonarRuntime, if_pos runtime, message, Json.parse_stringify]
  exact spread_encodedMessage issue encoded cost

/-- A place that is shown with an issue, and what is said there. -/
def secondaryLocation (place : SourceLocation × Option Text) : Location where
  message := place.2
  column := place.1.start.column
  line := place.1.start.line
  endColumn := place.1.stop.column
  endLine := place.1.stop.line

theorem mapM_toSecondaryLocation (places shown : List (SourceLocation × Option Text)) :
    ((places.map fun place => some place.1).zipIdx shown.length).mapM (fun (loc, index) =>
        toSecondaryLocation loc
          ((some ((shown ++ places).map Prod.snd)).bind fun messages => messages[index]?.join)) =
      .ok (places.map secondaryLocation) := by
  induction places generalizing shown with
  | nil => rfl
  | cons place places ih =>
      have rest := ih (shown ++ [place])
      rw [List.append_assoc, List.singleton_append, List.length_append] at rest
      simp only [List.map_cons, List.zipIdx_cons, List.mapM_cons]
      rw [show shown.length + 1 = shown.length + [place].length from rfl, rest]
      simp [toSecondaryLocation, secondaryLocation]
      rfl

theorem toEncodedMessage_eq (message : Text) (places : List (SourceLocation × Option Text))
    (cost : Option ℤ) :
    toEncodedMessage message (places.map fun place => some place.1)
        (some (places.map Prod.snd)) cost =
      .ok (EncodedMessage.mk message cost (places.map secondaryLocation)).toJson.stringify := by
  rw [toEncodedMessage]
  have converted := mapM_toSecondaryLocation places []
  rw [List.length_nil, List.nil_append] at converted
  rw [converted]
  rfl

theorem getIndexFromLoc_getLocFromIndex (source : SourceCode) (index : ℕ) :
    source.getIndexFromLoc (source.getLocFromIndex index) = index :=
  source.valid.position_locate

/-- A quick fix changes the text as the fix does. -/
theorem apply_fixToEdit (source : SourceCode) (fix : Fix) :
    (fixToEdit source fix).apply source = Edits.replaceRange fix.range fix.text source.text := by
  rw [QuickFixEdit.apply, fixToEdit, getIndexFromLoc_getLocFromIndex,
    getIndexFromLoc_getLocFromIndex]

/-! ## What rules have to say -/

/-- A finding of a rule: where it is, what is said, the other places that are shown with it,
and how it can be fixed. -/
structure Report where
  ruleId : String
  loc : SourceLocation
  message : Text
  cost : Option ℤ := none
  secondaryLocations : List (SourceLocation × Option Text) := []
  fix : Option Fix := none
  suggestions : List Suggestion := []

inductive Finding
  | issue (report : Report)
  | ucfg (loc : SourceLocation) (path : Text)
  | highlightedSymbols (loc : SourceLocation) (symbols : List SymbolHighlight)
  | cognitiveComplexity (loc : SourceLocation) (complexity : ℕ)

/-- The message that ESLint makes of a report: its columns are counted from 1. -/
def lintMessage (ruleId : String) (loc : SourceLocation) (message : Text) : LintMessage where
  ruleId := some ruleId
  line := loc.start.line
  column := loc.start.column + 1
  endLine := some loc.stop.line
  endColumn := some (loc.stop.column + 1)
  message := message
  fix := none
  suggestions := none

def Report.lintMessage (report : Report) (message : Text) : LintMessage :=
  { Messages.lintMessage report.ruleId report.loc message with
    fix := report.fix
    suggestions := some report.suggestions }

/-- The rules that report other things than issues. -/
def ownRules : List String := ["", "ucfg", symbolHighlightingRule, cognitiveComplexityRule]

/-- What reaches the analyzer for a finding. A rule with `sonar-runtime` in its schema
encodes its message, others have no more than a message. -/
inductive Sends (rules : Rules) : Finding → LintMessage → Prop
  | encoded (report : Report) (message : Text) : report.ruleId ∉ ownRules →
      hasSonarRuntimeOption (rules report.ruleId) = true →
      toEncodedMessage report.message (report.secondaryLocations.map fun place => some place.1)
        (some (report.secondaryLocations.map Prod.snd)) report.cost = .ok message →
      Sends rules (.issue report) (report.lintMessage message)
  | plain (report : Report) : report.ruleId ∉ ownRules →
      hasSonarRuntimeOption (rules report.ruleId) = false → report.cost = none →
      report.secondaryLocations = [] →
      Sends rules (.issue report) (report.lintMessage report.message)
  | ucfg (loc : SourceLocation) (path : Text) :
      Sends rules (.ucfg loc path) (lintMessage "ucfg" loc path)
  | highlightedSymbols (loc : SourceLocation) (symbols : List SymbolHighlight) :
      hasSonarRuntimeOption (rules symbolHighlightingRule) = false →
      Sends rules (.highlightedSymbols loc symbols)
        (lintMessage symbolHighlightingRule loc (highlightedSymbolsMessage symbols))
  | cognitiveComplexity (loc : SourceLocation) (complexity : ℕ) :
      Sends rules (.cognitiveComplexity loc complexity)
        (lintMessage cognitiveComplexityRule loc (utf16 (toString complexity)))

/-- A rule whose fix becomes a quick fix has a message for it. -/
def Report.Named (report : Report) : Prop :=
  report.fix.isSome → quickFixRules.contains report.ruleId →
    (quickFixMessages.lookup report.ruleId).isSome

def Report.quickFixes (source : SourceCode) (report : Report) : List QuickFix :=
  if quickFixRules.contains report.ruleId then
    (report.fix.toList.map fun fix =>
      ⟨utf16 ((quickFixMessages.lookup report.ruleId).getD ""), [fixToEdit source fix]⟩) ++
    report.suggestions.map fun suggestion => ⟨suggestion.desc, [fixToEdit source suggestion.fix]⟩
  else []

/-- The issue of a report, with columns counted from 0. -/
def Report.issue (source : SourceCode) (report : Report) : Issue where
  ruleId := report.ruleId
  line := report.loc.start.line
  column := report.loc.start.column
  endLine := some report.loc.stop.line
  endColumn := some report.loc.stop.column
  message := report.message
  cost := report.cost
  secondaryLocations := report.secondaryLocations.map secondaryLocation
  quickFixes := report.quickFixes source

def Finding.issue? (source : SourceCode) : Finding → Option Issue
  | .issue report => some (report.issue source)
  | _ => none

def Finding.path? : Finding → Option Text
  | .ucfg _ path => some path
  | _ => none

def Finding.symbols? : Finding → Option (SourceLocation × List SymbolHighlight)
  | .highlightedSymbols loc symbols => some (loc, symbols)
  | _ => none

def Finding.complexity? : Finding → Option (SourceLocation × ℕ)
  | .cognitiveComplexity loc complexity => some (loc, complexity)
  | _ => none

theorem transformFixes_lintMessage (source : SourceCode) (report : Report) (message : Text)
    (ordinary : report.ruleId ∉ ownRules) (named : report.Named) :
    transformFixes source (report.lintMessage message) = .ok (report.quickFixes source) := by
  have some : report.ruleId ≠ "" := fun same => ordinary (by simp [same, ownRules])
  by_cases enabled : report.ruleId ∈ quickFixRules
  case neg =>
    simp [transformFixes, hasQuickFix, Report.lintMessage, lintMessage, Report.quickFixes, enabled]
    rfl
  case pos =>
    cases fixed : report.fix with
    | none =>
        cases suggested : report.suggestions with
        | nil =>
            simp [transformFixes, hasQuickFix, Report.lintMessage, Report.quickFixes, fixed,
              suggested]
            rfl
        | cons suggestion suggestions =>
            simp [transformFixes, hasQuickFix, Report.lintMessage, lintMessage, Report.quickFixes,
              fixed, suggested, enabled, some]
            rfl
    | some fix =>
        obtain ⟨text, found⟩ :=
          Option.isSome_iff_exists.mp (named (by simp [fixed]) (by simp [enabled]))
        simp [transformFixes, hasQuickFix, Report.lintMessage, lintMessage, Report.quickFixes,
          fixed, enabled, some, getQuickFixMessage, found]

/-- A text of digits is the number that it was made of. -/
theorem utf16_toString (n : ℕ) : utf16 (toString n) = Json.digits n := by
  have ascii (c : Char) (digit : c ∈ Nat.toDigits 10 n) :
      StringLiteral.encode c.toNat = [Json.unit c] := by
    have isDigit := Nat.isDigit_of_mem_toDigits (by omega) (by omega) digit
    simp only [Char.isDigit, Bool.and_eq_true, decide_eq_true_eq] at isDigit
    refine StringLiteral.encode_of_lt (Nat.lt_of_le_of_lt ?_ (show 57 < 0x10000 by decide))
    exact isDigit.2
  rw [utf16, Nat.toString_eq_repr, Nat.toList_repr, Json.digits, List.map_eq_flatMap]
  exact List.flatMap_congr ascii

theorem numberOf_toString (n : ℕ) : numberOf (utf16 (toString n)) = some n := by
  have decimal : (Json.digits n).all Json.isDecimal = true :=
    List.all_eq_true.mpr (Json.isDecimal_of_mem_digits n)
  rw [utf16_toString, numberOf, if_pos decimal, Json.mathValue_digits]

theorem parse_toString (n : ℕ) : Json.parse (utf16 (toString n)) = some (.number n) := by
  rw [utf16_toString]
  exact Json.parse_stringify (.number n)

/-- The issue that a message of an internal rule passes for. -/
def internalIssue (ruleId : String) (loc : SourceLocation) (message : Text) : Issue where
  ruleId
  line := loc.start.line
  column := loc.start.column
  endLine := some loc.stop.line
  endColumn := some loc.stop.column
  message
  cost := none
  secondaryLocations := []
  quickFixes := []

def Finding.carrier (source : SourceCode) : Finding → Option Issue
  | .issue report => some (report.issue source)
  | .ucfg _ _ => none
  | .highlightedSymbols loc symbols =>
    some (internalIssue symbolHighlightingRule loc (highlightedSymbolsMessage symbols))
  | .cognitiveComplexity loc complexity =>
    some (internalIssue cognitiveComplexityRule loc (utf16 (toString complexity)))

def Finding.Named : Finding → Prop
  | .issue report => report.Named
  | _ => True

/-- Columns that were counted from 1 have a predecessor. -/
theorem normalizeLocation_succ (issue : Issue) (column endColumn : ℕ)
    (start : issue.column = column + 1) (stop : issue.endColumn = some (endColumn + 1 : ℤ)) :
    normalizeLocation issue =
      { issue with column := column, endColumn := some (endColumn : ℤ) } := by
  have positive : (endColumn : ℤ) + 1 ≠ 0 := by omega
  simp [normalizeLocation, start, stop, positive]

/-- A message with a rule, whose text is read as `decoded`. -/
theorem transformMessage_eq {source : SourceCode} {rules : Rules} {message : LintMessage}
    {ruleId : String} {quickFixes : List QuickFix} {decoded : Issue} (found : Transformed)
    (rule : message.ruleId = some ruleId) (ordinary : ruleId ∉ ["", "ucfg"])
    (fixes : transformFixes source message = .ok quickFixes)
    (decodes : decodeSonarRuntime (rules ruleId)
      { ruleId, line := message.line, column := message.column, endLine := message.endLine,
        endColumn := message.endColumn, message := message.message, cost := none,
        secondaryLocations := [], quickFixes } = .ok decoded) :
    transformMessage source rules found message =
      .ok { found with issues := found.issues ++ [normalizeLocation decoded] } := by
  have named : ruleId ≠ "" := fun same => ordinary (by simp [same])
  have notUcfg : ruleId ≠ "ucfg" := fun same => ordinary (by simp [same])
  have converted : convertMessage source message = .ok (some
      { ruleId, line := message.line, column := message.column, endLine := message.endLine,
        endColumn := message.endColumn, message := message.message, cost := none,
        secondaryLocations := [], quickFixes }) := by
    rw [convertMessage, rule]
    split
    · contradiction
    · rename_i same
      exact absurd (Option.some.inj same) named
    · rename_i same
      rw [fixes, ← Option.some.inj same]
      rfl
  rw [transformMessage, rule, if_neg (by simpa using notUcfg), converted]
  simp only [bind, Except.bind, decodes]
  rfl

/-- One message. -/
theorem transformMessage_of_sends {source : SourceCode} {rules : Rules} {finding : Finding}
    {message : LintMessage} (sent : Sends rules finding message) (named : finding.Named)
    (found : Transformed) :
    transformMessage source rules found message = .ok
      { issues := found.issues ++ (finding.carrier source).toList
        ucfgPaths := found.ucfgPaths ++ finding.path?.toList } := by
  cases sent with
  | encoded report text ordinary runtime encodes =>
      rw [toEncodedMessage_eq] at encodes
      obtain rfl := Except.ok.inj encodes
      have fixes (text : Text) := transformFixes_lintMessage source report text ordinary named
      refine (transformMessage_eq found rfl (fun own => ordinary (List.mem_append_left _ own))
        (fixes _) (decodeSonarRuntime_encoded runtime _ rfl rfl)).trans ?_
      rw [normalizeLocation_succ _ report.loc.start.column report.loc.stop.column rfl rfl]
      simp [Finding.carrier, Finding.path?, Report.issue, Report.lintMessage, lintMessage]
  | plain report ordinary runtime cost secondaryLocations =>
      have fixes := transformFixes_lintMessage source report report.message ordinary named
      refine (transformMessage_eq found rfl (fun own => ordinary (List.mem_append_left _ own))
        fixes (if_neg (by simp [runtime]))).trans ?_
      rw [normalizeLocation_succ _ report.loc.start.column report.loc.stop.column rfl rfl]
      simp [Finding.carrier, Finding.path?, Report.issue, Report.lintMessage, lintMessage, cost,
        secondaryLocations]
  | ucfg loc path =>
      simp [transformMessage, lintMessage, Finding.carrier, Finding.path?]
      rfl
  | highlightedSymbols loc symbols runtime =>
      refine (transformMessage_eq found rfl (by decide) rfl
        (if_neg (by simp [runtime]))).trans ?_
      rw [normalizeLocation_succ _ loc.start.column loc.stop.column rfl rfl]
      simp [Finding.carrier, Finding.path?, internalIssue, lintMessage]
  | cognitiveComplexity loc complexity =>
      -- The rule has `sonar-runtime` in its schema, and a number has nothing to spread.
      have decodes (issue : Issue) (text : issue.message = utf16 (toString complexity)) :
          decodeSonarRuntime (rules cognitiveComplexityRule) issue = .ok issue := by
        rw [decodeSonarRuntime]
        split
        · rw [text, parse_toString]
          rfl
        · rfl
      refine (transformMessage_eq found rfl (by decide) rfl (decodes _ rfl)).trans ?_
      rw [normalizeLocation_succ _ loc.start.column loc.stop.column rfl rfl]
      simp [Finding.carrier, Finding.path?, internalIssue, lintMessage]

/-- All messages, in their order. -/
theorem foldlM_transformMessage (source : SourceCode) {rules : Rules} {findings : List Finding}
    {messages : List LintMessage} (sent : List.Forall₂ (Sends rules) findings messages)
    (named : ∀ finding ∈ findings, finding.Named) (found : Transformed) :
    messages.foldlM (transformMessage source rules) found = .ok
      { issues := found.issues ++ findings.filterMap (Finding.carrier source)
        ucfgPaths := found.ucfgPaths ++ findings.filterMap Finding.path? } := by
  induction sent generalizing found with
  | nil => simp [pure, Except.pure]
  | @cons finding message findings messages sent _ ih =>
      rw [List.foldlM_cons, transformMessage_of_sends sent (named _ List.mem_cons_self)]
      have rest := ih (fun finding member => named finding (List.mem_cons_of_mem _ member))
        { issues := found.issues ++ (finding.carrier source).toList
          ucfgPaths := found.ucfgPaths ++ finding.path?.toList }
      simp only [bind, Except.bind, rest, List.append_assoc]
      cases carried : finding.carrier source <;> cases path : finding.path? <;>
        simp [carried, path]

/-! ## Extraction -/

/-- Among one element at most, the first is the only one. -/
theorem eraseP_eq_filter {α : Type} {p : α → Bool} {l : List α} (one : (l.filter p).length ≤ 1) :
    l.eraseP p = l.filter fun a => !p a := by
  induction l with
  | nil => rfl
  | cons a l ih =>
      cases holds : p a with
      | true =>
          have none : l.filter p = [] := by
            rw [List.filter_cons_of_pos holds, List.length_cons] at one
            exact List.length_eq_zero_iff.mp (by omega)
          rw [List.eraseP_cons_of_pos holds, List.filter_cons_of_neg (by simp [holds])]
          refine (List.filter_eq_self.mpr fun b member => ?_).symm
          have := List.filter_eq_nil_iff.mp none b member
          simpa using this
      | false =>
          rw [List.filter_cons_of_neg (by simp [holds])] at one
          rw [List.eraseP_cons_of_neg (by simp [holds]), List.filter_cons_of_pos (by simp [holds]),
            ih one]

theorem extractHighlightedSymbols_eq (issues : List Issue)
    {found : List (SourceLocation × List SymbolHighlight)} (one : found.length ≤ 1)
    (carried : (issues.filter fun issue => issue.ruleId = symbolHighlightingRule) =
      found.map fun place => internalIssue symbolHighlightingRule place.1
        (highlightedSymbolsMessage place.2)) :
    extractHighlightedSymbols issues = .ok (found.flatMap Prod.snd,
      issues.filter fun issue => !decide (issue.ruleId = symbolHighlightingRule)) := by
  have erased := eraseP_eq_filter (p := fun issue : Issue => issue.ruleId = symbolHighlightingRule)
    (l := issues) (by rw [carried, List.length_map]; exact one)
  have first : (issues.find? fun issue => issue.ruleId = symbolHighlightingRule) = _ :=
    List.head?_filter.symm.trans (congrArg List.head? carried)
  rw [extractHighlightedSymbols, findAndRemoveFirstIssue, first, erased]
  obtain _ | ⟨⟨loc, symbols⟩, _ | ⟨_, _⟩⟩ := found
  · rfl
  · have read := parse_highlightedSymbolsMessage symbols
    cases parsed : Json.parse (highlightedSymbolsMessage symbols) with
    | none => simp [parsed] at read
    | some json =>
        rw [parsed, Option.bind_some] at read
        simp only [List.map_cons, List.head?_cons, internalIssue, parsed, read]
        simp
  · simp at one

theorem extractCognitiveComplexity_eq (issues : List Issue)
    {found : List (SourceLocation × ℕ)} (one : found.length ≤ 1)
    (carried : (issues.filter fun issue => issue.ruleId = cognitiveComplexityRule) =
      found.map fun place => internalIssue cognitiveComplexityRule place.1
        (utf16 (toString place.2))) :
    extractCognitiveComplexity issues = (found.head?.map Prod.snd,
      issues.filter fun issue => !decide (issue.ruleId = cognitiveComplexityRule)) := by
  have erased := eraseP_eq_filter
    (p := fun issue : Issue => issue.ruleId = cognitiveComplexityRule)
    (l := issues) (by rw [carried, List.length_map]; exact one)
  have first : (issues.find? fun issue => issue.ruleId = cognitiveComplexityRule) = _ :=
    List.head?_filter.symm.trans (congrArg List.head? carried)
  rw [extractCognitiveComplexity, findAndRemoveFirstIssue, first, erased]
  obtain _ | ⟨⟨loc, complexity⟩, _ | ⟨_, _⟩⟩ := found
  · rfl
  · simp only [List.map_cons, List.head?_cons, internalIssue, numberOf_toString]
    rfl
  · simp at one

/-- Nobody but the internal rules uses their names. -/
theorem Sends.ordinary {rules : Rules} {finding : Finding} {message : LintMessage}
    (sent : Sends rules finding message) (source : SourceCode) (issue : Issue)
    (own : finding.issue? source = some issue) : issue.ruleId ∉ ownRules := by
  cases sent with
  | encoded report _ ordinary | plain report ordinary =>
      cases own
      exact ordinary
  | ucfg | highlightedSymbols | cognitiveComplexity => cases own

theorem exists_sends {rules : Rules} {findings : List Finding} {messages : List LintMessage}
    (sent : List.Forall₂ (Sends rules) findings messages) {finding : Finding}
    (member : finding ∈ findings) : ∃ message, Sends rules finding message := by
  induction sent with
  | nil => cases member
  | cons sent _ ih =>
      obtain rfl | later := List.mem_cons.mp member
      · exact ⟨_, sent⟩
      · exact ih later

/-- A rule with secondary locations, a rule with a quick fix, and what the internal rules and
the one for code flows send. -/
def exampleRules (ruleId : String) : Option RuleModule :=
  if ruleId = "no-identical-functions" ∨ ruleId = cognitiveComplexityRule then
    some ⟨some (.array [none, some ["sonar-runtime", "metric"]])⟩
  else some ⟨none⟩

def exampleFindings : List Finding :=
  let place (line column endLine endColumn : ℕ) : SourceLocation :=
    ⟨⟨line, column⟩, ⟨endLine, endColumn⟩⟩
  [.highlightedSymbols (place 1 0 9 0) [⟨⟨1, 4, 1, 5⟩, [⟨3, 0, 3, 1⟩]⟩],
    .issue
      { ruleId := "no-identical-functions", loc := place 5 9 5 10
        message := utf16 "Update this function \"g\"\n", cost := some 3
        secondaryLocations := [(place 1 9 1 10, some (utf16 "Original")), (place 2 0 4 1, none)] },
    .issue { ruleId := "semi", loc := place 7 3 7 4, message := utf16 "Missing semicolon"
             fix := some ⟨(70, 70), utf16 ";"⟩ },
    .ucfg (place 1 0 1 0) (utf16 "/tmp/f.ucfg"),
    .cognitiveComplexity (place 1 0 9 0) 12]

end SonarJS.Messages
