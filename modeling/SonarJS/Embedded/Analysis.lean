import Mathlib.Data.List.TakeWhile
import SonarJS.Foundation.PosixPath
import SonarJS.Embedded.SourceCode
import SonarJS.Embedded.ParsingErrors
import SonarJS.Linting.Messages

/-!
# Analyzing the snippets of a file

`analyzeEmbedded` extracts the snippets of a file, parses and relocates all of them, and
then lints one after the other. The first snippet that cannot be parsed ends the analysis.
A relocated source code has the text of the whole file, so that a rule which looks at the
text reports the same places in each snippet: issues outside the program of the snippet
are dropped.

The parsers and the rules are not part of the model. A snippet is parsed by up to three
parsers, and linting turns a source code, under the path of its snippet, into a result.
-/

namespace SonarJS.Embedded

open Messages (Issue LintingResult)

/-! ## Building source codes -/

/-- The parsers of a JavaScript code: TypeScript's, and Babel's for the two source types. -/
inductive Attempt
  | typescript
  | module
  | script
deriving DecidableEq

/-- What a parser of ESLint throws. -/
structure ParserError where
  message : String
  lineNumber : Option ℕ

/-- A program has a range: the parsers are asked for ranges. -/
structure Program (code : Text) extends ParsedCode code where
  astRange : ℕ × ℕ
  range_ast : (sourceCode.heap sourceCode.ast).range = some astRange

structure Context where
  shouldUseTypeScriptParserForJS : Bool

inductive Failure
  | parsing (error : APIError)
  | assertion (message : String)
  /-- The program has no range. -/
  | typeError
  /-- The model has visited as many nodes as it was allowed to. -/
  | outOfFuel

/-- The parts of a file that its parser reports. -/
inductive Host : Type 1
  | html (events : List HtmlEvent)
  | yaml {κ : Type} (parsingContexts : List (ParsingContext κ)) (docs : List (YamlDocument κ))

structure EmbeddedAnalysisInput where
  filePath : String
  fileContent : Text
  host : Host

structure EmbeddedAnalysisOutput where
  issues : List Issue
  ucfgPaths : List Text

structure ExtendedSourceCode where
  sourceCode : SourceCode
  syntheticFilePath : String

def shouldTryTypeScriptParser (context : Option Context) : Bool :=
  match context with
  | some context => context.shouldUseTypeScriptParserForJS
  | none => true

def ParserError.toAPIError (error : ParserError) : APIError :=
  if error.message.startsWith "Debug Failure" then ⟨error.message, none⟩
  else ⟨error.message, error.lineNumber⟩

def composeSyntheticFilePath (filePath resourceName : String) : String :=
  let path := PosixPath.parse filePath.toList
  String.ofList (PosixPath.format { path with name := path.name ++ '-' :: resourceName.toList })

def syntheticFilePath (filePath : String) (embeddedJS : EmbeddedJS) : String :=
  match embeddedJS.extras.resourceName with
  | some resourceName => composeSyntheticFilePath filePath resourceName
  | none => filePath

def YamlFailure.toFailure : YamlFailure → Failure
  | .parsingError error => .parsing error
  | .assertion message => .assertion message

def Host.embeddedJSs (host : Host) (text : Text) : Except Failure (List EmbeddedJS) :=
  match host with
  | .html events => .ok (parseHTML events text)
  | .yaml parsingContexts docs =>
    (parseYaml parsingContexts docs text).mapError YamlFailure.toFailure

section Build

variable (parse : Attempt → ∀ code, Except ParserError (Program code))

def parseForESLint (attempt : Attempt) (code : Text) : Except APIError (Program code) :=
  (parse attempt code).mapError ParserError.toAPIError

def buildBabel (code : Text) : Except APIError (Program code) :=
  match parseForESLint parse .module code with
  | .ok program => .ok program
  | .error moduleError =>
    match parseForESLint parse .script code with
    | .ok program => .ok program
    | .error _ => .error moduleError

def buildJs (tryTypeScriptESLintParser : Bool) (code : Text) : Except APIError (Program code) :=
  if tryTypeScriptESLintParser then
    match parseForESLint parse .typescript code with
    | .ok program => .ok program
    | .error _ => buildBabel parse code
  else buildBabel parse code

/-- `buildSourceCode`, for a JavaScript code without a path. -/
def buildSourceCode (context : Option Context) (code : Text) : Except APIError (Program code) :=
  buildJs parse (shouldTryTypeScriptParser context) code

def buildExtendedSourceCode (context : Option Context) (fuel : ℕ) (filePath : String)
    (embeddedJS : EmbeddedJS) : Except Failure ExtendedSourceCode :=
  match buildSourceCode parse context embeddedJS.code with
  | .error error => .error (.parsing (patchParsingError error embeddedJS))
  | .ok program =>
    match patchSourceCode fuel program.sourceCode embeddedJS with
    | none => .error .outOfFuel
    | some sourceCode => .ok ⟨sourceCode, syntheticFilePath filePath embeddedJS⟩

def buildSourceCodes (context : Option Context) (fuel : ℕ) (input : EmbeddedAnalysisInput) :
    Except Failure (List ExtendedSourceCode) := do
  let embeddedJSs ← input.host.embeddedJSs input.fileContent
  embeddedJSs.mapM (buildExtendedSourceCode parse context fuel input.filePath)

end Build

/-! ## Linting -/

/-- A position in a file, as an issue has it. -/
structure Place where
  line : ℕ
  column : ℤ

def placeOf (location : Lines.Location) : Place := ⟨location.line, location.column⟩

def isBeforeOrEqual (a b : Place) : Bool :=
  if a.line < b.line then true
  else if b.line < a.line then false
  else a.column ≤ b.column

/-- The issue is between the ends of the program. -/
def isInside (sourceCode : SourceCode) (range : ℕ × ℕ) (issue : Issue) : Bool :=
  let jsStart := placeOf (sourceCode.getLocFromIndex range.1)
  let jsEnd := placeOf (sourceCode.getLocFromIndex range.2)
  let issueStart : Place := ⟨issue.line, issue.column⟩
  isBeforeOrEqual jsStart issueStart && isBeforeOrEqual issueStart jsEnd

/-- Drops the issues outside the program. -/
def removeNonJsIssues (sourceCode : SourceCode) (issues : List Issue) :
    Except Failure (List Issue) :=
  match (sourceCode.heap sourceCode.ast).range with
  | some range => .ok (issues.filter (isInside sourceCode range))
  | none => .error .typeError

section Analyze

variable (parse : Attempt → ∀ code, Except ParserError (Program code))
variable (lint : SourceCode → String → LintingResult)

/-- One turn of the loop over the source codes. -/
def lintSourceCode (aggregated : EmbeddedAnalysisOutput) (extended : ExtendedSourceCode) :
    Except Failure EmbeddedAnalysisOutput := do
  let result := lint extended.sourceCode extended.syntheticFilePath
  let filteredIssues ← removeNonJsIssues extended.sourceCode result.issues
  return {
    issues := aggregated.issues ++ filteredIssues
    ucfgPaths := aggregated.ucfgPaths ++ result.ucfgPaths }

def analyzeEmbedded (context : Option Context) (fuel : ℕ) (input : EmbeddedAnalysisInput) :
    Except Failure EmbeddedAnalysisOutput := do
  let extendedSourceCodes ← buildSourceCodes parse context fuel input
  extendedSourceCodes.foldlM (lintSourceCode lint) ⟨[], []⟩

end Analyze

/-- The functions of a file are told apart by their paths. -/
theorem composeSyntheticFilePath_inj {filePath resourceName other : String} :
    composeSyntheticFilePath filePath resourceName = composeSyntheticFilePath filePath other ↔
      resourceName = other := by
  unfold composeSyntheticFilePath
  rw [String.ofList_inj, PosixPath.format_inj, List.append_cancel_left_eq, List.cons.injEq,
    and_iff_right rfl, String.toList_inj]

/-! ## What the analysis comes to -/

/-- The parsers that are tried, one after another. -/
def attempts (context : Option Context) : List Attempt :=
  if shouldTryTypeScriptParser context then [.typescript, .module, .script]
  else [.module, .script]

section Specification

variable (parse : Attempt → ∀ code, Except ParserError (Program code))
variable (context : Option Context)

/-- The first parser that takes the code, and what it makes of it. -/
structure Accepts (code : Text) (attempt : Attempt) (program : Program code) : Prop where
  parses : parse attempt code = .ok program
  first : ∃ before after, attempts context = before ++ attempt :: after ∧
    ∀ earlier ∈ before, ∃ error, parse earlier code = .error error

/-- No parser takes the code. The error is the one of the code as a module. -/
structure Rejects (code : Text) (error : APIError) : Prop where
  all : ∀ attempt ∈ attempts context, ∃ error, parse attempt code = .error error
  asModule : ∃ moduleError, parse .module code = .error moduleError ∧
    error = moduleError.toAPIError

/-- A snippet on its way through the analysis: its program, and that in the file. -/
structure Pass where
  snippet : EmbeddedJS
  attempt : Attempt
  program : Program snippet.code
  sourceCode : SourceCode

structure Pass.Valid (pass : Pass) : Prop where
  accepts : Accepts parse context pass.snippet.code pass.attempt pass.program
  patched : patchSourceCode pass.program.tree.nodes.length pass.program.sourceCode pass.snippet =
    some pass.sourceCode

/-- The program of the snippet is around an index of the file. -/
def Pass.Contains (pass : Pass) (index : ℕ) : Prop :=
  pass.snippet.offset + pass.program.astRange.1 ≤ index ∧
    index ≤ pass.snippet.offset + pass.program.astRange.2

instance (pass : Pass) (index : ℕ) : Decidable (pass.Contains index) :=
  inferInstanceAs (Decidable (_ ∧ _))

def Pass.result (lint : SourceCode → String → LintingResult) (filePath : String) (pass : Pass) :
    LintingResult :=
  lint pass.sourceCode (syntheticFilePath filePath pass.snippet)

/-- The issue is at this index of the text. -/
def isAt (text : Text) (index : ℕ) (issue : Issue) : Bool :=
  let location := Lines.locate (Lines.starts eslintBreaks.pattern text) index
  issue.line = location.line ∧ issue.column = location.column

/-- The analysis of a file with these snippets ends at the first one that is not JavaScript.
Without such a snippet, what is reported at an index is what has been raised there while
those snippets were linted whose programs are around it. -/
inductive Outcome (lint : SourceCode → String → LintingResult) (input : EmbeddedAnalysisInput)
    (snippets : List EmbeddedJS) : Except Failure EmbeddedAnalysisOutput → Prop
  | rejected {before after : List EmbeddedJS} {snippet : EmbeddedJS} {error : APIError}
      (split : snippets = before ++ snippet :: after)
      (accepted : ∀ earlier ∈ before, ∃ attempt program,
        Accepts parse context earlier.code attempt program)
      (rejects : Rejects parse context snippet.code error) :
      Outcome lint input snippets (.error (.parsing (patchParsingError error snippet)))
  | linted {passes : List Pass} {output : EmbeddedAnalysisOutput}
      (covers : passes.map Pass.snippet = snippets)
      (valid : ∀ pass ∈ passes, pass.Valid parse context)
      (located : ∀ index, output.issues.filter (isAt input.fileContent index) =
        (passes.filter (·.Contains index)).flatMap fun pass =>
          (pass.result lint input.filePath).issues.filter (isAt input.fileContent index))
      (raised : ∀ issue ∈ output.issues, ∃ pass ∈ passes,
        issue ∈ (pass.result lint input.filePath).issues)
      (ucfgPaths : output.ucfgPaths =
        passes.flatMap fun pass => (pass.result lint input.filePath).ucfgPaths) :
      Outcome lint input snippets (.ok output)

end Specification

/-! ## Parsing -/

section Parsing

variable {parse : Attempt → ∀ code, Except ParserError (Program code)}
variable {context : Option Context} {code : Text}

theorem eq_ok_of_mapError {ε δ α : Type} {result : Except ε α} {f : ε → δ} {value : α}
    (ok : result.mapError f = .ok value) : result = .ok value := by
  cases result with
  | ok other => cases ok; rfl
  | error error => cases ok

theorem parseForESLint_ok {attempt : Attempt} {program : Program code}
    (parsed : parseForESLint parse attempt code = .ok program) :
    parse attempt code = .ok program :=
  eq_ok_of_mapError parsed

theorem parseForESLint_error {attempt : Attempt} {error : APIError}
    (failed : parseForESLint parse attempt code = .error error) :
    ∃ parserError, parse attempt code = .error parserError ∧ error = parserError.toAPIError := by
  unfold parseForESLint at failed
  cases made : parse attempt code with
  | ok other => rw [made] at failed; cases failed
  | error parserError => rw [made] at failed; cases failed; exact ⟨parserError, rfl, rfl⟩

/-- What `buildJs` returns if the parsers before have rejected the code. -/
inductive Built (parse : Attempt → ∀ code, Except ParserError (Program code)) (code : Text)
    (tried : List Attempt) : Except APIError (Program code) → Prop
  | ok {attempt : Attempt} (before : List Attempt) {after : List Attempt}
      {program : Program code} (split : tried = before ++ attempt :: after)
      (earlier : ∀ other ∈ before, ∃ error, parse other code = .error error)
      (parses : parse attempt code = .ok program) : Built parse code tried (.ok program)
  | error {moduleError : ParserError}
      (all : ∀ other ∈ tried, ∃ error, parse other code = .error error)
      (asModule : parse .module code = .error moduleError) :
      Built parse code tried (.error moduleError.toAPIError)

theorem built_buildBabel : Built parse code [.module, .script] (buildBabel parse code) := by
  unfold buildBabel
  cases asModule : parseForESLint parse .module code with
  | ok program => exact .ok [] rfl (by simp) (parseForESLint_ok asModule)
  | error moduleError =>
      obtain ⟨error, rejected, rfl⟩ := parseForESLint_error asModule
      have before : ∀ other ∈ [Attempt.module], ∃ error, parse other code = .error error := by
        simpa using ⟨error, rejected⟩
      cases asScript : parseForESLint parse .script code with
      | ok program => exact .ok [.module] rfl before (parseForESLint_ok asScript)
      | error scriptError =>
          obtain ⟨last, rejectedToo, -⟩ := parseForESLint_error asScript
          exact .error (by simpa using ⟨⟨error, rejected⟩, last, rejectedToo⟩) rejected

theorem built_buildSourceCode :
    Built parse code (attempts context) (buildSourceCode parse context code) := by
  unfold attempts buildSourceCode buildJs
  cases shouldTryTypeScriptParser context with
  | false => exact built_buildBabel
  | true =>
      simp only [if_true]
      cases asTypeScript : parseForESLint parse .typescript code with
      | ok program => exact .ok [] rfl (by simp) (parseForESLint_ok asTypeScript)
      | error error =>
          obtain ⟨first, rejected, -⟩ := parseForESLint_error asTypeScript
          have babel := @built_buildBabel parse code
          generalize buildBabel parse code = result at babel ⊢
          cases babel with
          | ok before split earlier parses =>
              exact .ok (.typescript :: before) (congrArg (Attempt.typescript :: ·) split)
                (List.forall_mem_cons.mpr ⟨⟨first, rejected⟩, earlier⟩) parses
          | error all asModule =>
              exact .error (List.forall_mem_cons.mpr ⟨⟨first, rejected⟩, all⟩) asModule

theorem accepts_of_buildSourceCode {program : Program code}
    (built : buildSourceCode parse context code = .ok program) :
    ∃ attempt, Accepts parse context code attempt program := by
  have ways := @built_buildSourceCode parse context code
  rw [built] at ways
  cases ways with
  | ok before split earlier parses => exact ⟨_, parses, before, _, split, earlier⟩

theorem rejects_of_buildSourceCode {error : APIError}
    (built : buildSourceCode parse context code = .error error) :
    Rejects parse context code error := by
  have ways := @built_buildSourceCode parse context code
  rw [built] at ways
  cases ways with
  | error all asModule => exact ⟨all, _, asModule, rfl⟩

end Parsing

/-! ## The relocated program -/

section Patched

/-- Visiting the nodes of a program takes no more than so many steps. -/
theorem patchSourceCode_eq {code : Text} (parsed : ParsedCode code) (snippet : EmbeddedJS)
    {fuel : ℕ} (enough : parsed.tree.nodes.length ≤ fuel) :
    patchSourceCode fuel parsed.sourceCode snippet =
      some (newSourceCode snippet.text
        (fixNodeLocations (patchedSourceCode parsed.sourceCode snippet) snippet.offset
          parsed.objects parsed.sourceCode.heap)
        (patchedSourceCode parsed.sourceCode snippet)) := by
  have visited := Forest.visit_append
    (fun node heap => childrenOf_fixNodeLocation (patchedSourceCode parsed.sourceCode snippet)
      snippet.offset node heap) parsed.tree parsed.sourceCode.heap parsed.isTree
    (fuel - parsed.tree.nodes.length) []
  rw [Nat.add_sub_cancel' enough, List.append_nil, parsed.root, Forest.visit.eq_1] at visited
  have located : patchASTLocations (patchedSourceCode parsed.sourceCode snippet) snippet.offset
      fuel = some (fixNodeLocations (patchedSourceCode parsed.sourceCode snippet) snippet.offset
        parsed.objects parsed.sourceCode.heap) := by
    simp only [patchASTLocations, ParsedCode.objects, fixNodeLocations, List.foldl_append]
    exact congrArg (Option.bind · _) visited
  exact congrArg (Option.bind · _) located

/-- The program of a pass, in the text of the file. -/
structure Pass.InFile (pass : Pass) : Prop where
  range : (pass.sourceCode.heap pass.sourceCode.ast).range =
    some (pass.snippet.offset + pass.program.astRange.1,
      pass.snippet.offset + pass.program.astRange.2)
  lineStarts : pass.sourceCode.lineStartIndices =
    Lines.starts eslintBreaks.pattern pass.snippet.text

theorem ast_mem_objects {code : Text} (parsed : ParsedCode code) :
    parsed.sourceCode.ast ∈ parsed.objects := by
  obtain ⟨rest, nodes⟩ : ∃ rest, parsed.tree.nodes = parsed.sourceCode.ast :: rest := by
    have root := parsed.root
    cases tree : parsed.tree with
    | nil => rw [tree] at root; cases root
    | cons first children siblings =>
        rw [tree] at root
        cases List.head_eq_of_cons_eq root
        exact ⟨_, rfl⟩
  simp [ParsedCode.objects, nodes]

theorem Pass.Valid.inFile {parse : Attempt → ∀ code, Except ParserError (Program code)}
    {context : Option Context} {pass : Pass} (valid : pass.Valid parse context) : pass.InFile := by
  have patched := valid.patched
  rw [patchSourceCode_eq pass.program.toParsedCode pass.snippet (Nat.le_refl _),
    Option.some.injEq] at patched
  refine ⟨?_, ?_⟩
  · rw [← patched]
    have moved := fixNodeLocations_apply
      (patchedSourceCode pass.program.sourceCode pass.snippet) pass.snippet.offset
      pass.program.distinct pass.program.sourceCode.heap (ast_mem_objects pass.program.toParsedCode)
    refine (congrArg NodeData.range moved).trans ?_
    rw [fixLocation_range, pass.program.range_ast, Option.map_some, Nat.add_comm,
      Nat.add_comm _ pass.snippet.offset]
  · rw [← patched]
    rfl

end Patched

/-! ## Issues inside and outside the program -/

theorem isBeforeOrEqual_iff {a b : Place} :
    isBeforeOrEqual a b = true ↔ a.line < b.line ∨ a.line = b.line ∧ a.column ≤ b.column := by
  unfold isBeforeOrEqual
  split_ifs with before after
  · simp [before]
  · exact iff_of_false (by simp) (by omega)
  · rw [decide_eq_true_eq]
    omega

section Places

variable {starts : List ℕ} (valid : Lines.Valid starts) {first second : ℕ}

include valid

/-- Places in a text are compared like their indices. -/
theorem isBeforeOrEqual_locate :
    isBeforeOrEqual (placeOf (Lines.locate starts first))
      (placeOf (Lines.locate starts second)) = true ↔ first ≤ second := by
  rw [isBeforeOrEqual_iff, ← valid.locate_le_iff]
  simp only [placeOf, Lines.locate, Int.ofNat_le]

end Places

/-- The filter keeps the issues at the indices of the program. -/
theorem isInside_iff {sourceCode : SourceCode} {range : ℕ × ℕ} {text : Text} {index : ℕ}
    {issue : Issue}
    (lineStarts : sourceCode.lineStartIndices = Lines.starts eslintBreaks.pattern text)
    (place : isAt text index issue = true) :
    isInside sourceCode range issue = true ↔ range.1 ≤ index ∧ index ≤ range.2 := by
  have valid := eslintBreaks.valid_starts text
  have issueStart : (⟨issue.line, issue.column⟩ : Place) =
      placeOf (Lines.locate (Lines.starts eslintBreaks.pattern text) index) := by
    obtain ⟨line, column⟩ := of_decide_eq_true place
    rw [placeOf, line, column]
  rw [isInside, issueStart, SourceCode.getLocFromIndex, SourceCode.getLocFromIndex, lineStarts,
    Bool.and_eq_true, isBeforeOrEqual_locate valid, isBeforeOrEqual_locate valid]

section Loop

variable {parse : Attempt → ∀ code, Except ParserError (Program code)}
variable {context : Option Context} {filePath : String}

def Pass.extended (filePath : String) (pass : Pass) : ExtendedSourceCode :=
  ⟨pass.sourceCode, syntheticFilePath filePath pass.snippet⟩

/-- What a pass adds to the output. -/
def Pass.output (lint : SourceCode → String → LintingResult) (filePath : String) (pass : Pass) :
    EmbeddedAnalysisOutput where
  issues := (pass.result lint filePath).issues.filter (isInside pass.sourceCode
    (pass.snippet.offset + pass.program.astRange.1, pass.snippet.offset + pass.program.astRange.2))
  ucfgPaths := (pass.result lint filePath).ucfgPaths

/-- The number of steps that the programs of the snippets need. -/
theorem exists_enough (parse : Attempt → ∀ code, Except ParserError (Program code))
    (context : Option Context) (snippets : List EmbeddedJS) :
    ∃ enough, ∀ snippet ∈ snippets, ∀ program : Program snippet.code,
      buildSourceCode parse context snippet.code = .ok program →
        program.tree.nodes.length ≤ enough := by
  induction snippets with
  | nil => exact ⟨0, by simp⟩
  | cons snippet snippets ih =>
      obtain ⟨enough, ofRest⟩ := ih
      cases built : buildSourceCode parse context snippet.code with
      | error error =>
          refine ⟨enough, List.forall_mem_cons.mpr ⟨fun program other => ?_, ofRest⟩⟩
          rw [built] at other
          cases other
      | ok program =>
          refine ⟨max program.tree.nodes.length enough, List.forall_mem_cons.mpr
            ⟨fun other same => ?_, fun later member other same => ?_⟩⟩
          · rw [built] at same
            cases same
            exact Nat.le_max_left _ _
          · exact Nat.le_trans (ofRest later member other same) (Nat.le_max_right _ _)

/-- Building the source codes of some snippets ends at the first one without a program. -/
inductive BuiltAll (parse : Attempt → ∀ code, Except ParserError (Program code))
    (context : Option Context) (filePath : String) (snippets : List EmbeddedJS) :
    Except Failure (List ExtendedSourceCode) → Prop
  | rejected (before : List EmbeddedJS) {after : List EmbeddedJS} {snippet : EmbeddedJS}
      {error : APIError} (split : snippets = before ++ snippet :: after)
      (accepted : ∀ earlier ∈ before, ∃ attempt program,
        Accepts parse context earlier.code attempt program)
      (rejects : Rejects parse context snippet.code error) :
      BuiltAll parse context filePath snippets
        (.error (.parsing (patchParsingError error snippet)))
  | built (passes : List Pass) (covers : passes.map Pass.snippet = snippets)
      (valid : ∀ pass ∈ passes, pass.Valid parse context) :
      BuiltAll parse context filePath snippets (.ok (passes.map (Pass.extended filePath)))

theorem builtAll {fuel : ℕ} {snippets : List EmbeddedJS}
    (enough : ∀ snippet ∈ snippets, ∀ program : Program snippet.code,
      buildSourceCode parse context snippet.code = .ok program →
        program.tree.nodes.length ≤ fuel) :
    BuiltAll parse context filePath snippets
      (snippets.mapM (buildExtendedSourceCode parse context fuel filePath)) := by
  induction snippets with
  | nil => exact .built [] rfl (by simp)
  | cons snippet snippets ih =>
      obtain ⟨here, later⟩ := List.forall_mem_cons.mp enough
      have rest := ih later
      rw [List.mapM_cons, buildExtendedSourceCode]
      cases built : buildSourceCode parse context snippet.code with
      | error error => exact .rejected [] rfl (by simp) (rejects_of_buildSourceCode built)
      | ok program =>
          obtain ⟨attempt, accepts⟩ := accepts_of_buildSourceCode built
          simp only [patchSourceCode_eq program.toParsedCode snippet (here program built)]
          generalize snippets.mapM (buildExtendedSourceCode parse context fuel filePath) = result
            at rest ⊢
          cases rest with
          | rejected before split accepted rejects =>
              exact .rejected (snippet :: before) (congrArg (snippet :: ·) split)
                (List.forall_mem_cons.mpr ⟨⟨attempt, program, accepts⟩, accepted⟩) rejects
          | built passes covers valid =>
              refine .built (⟨snippet, attempt, program, _⟩ :: passes)
                (congrArg (snippet :: ·) covers) (List.forall_mem_cons.mpr ⟨⟨accepts, ?_⟩, valid⟩)
              exact patchSourceCode_eq program.toParsedCode snippet (Nat.le_refl _)

/-- The loop over the source codes adds up the outputs of the passes. -/
theorem foldlM_lintSourceCode (lint : SourceCode → String → LintingResult) {passes : List Pass}
    (valid : ∀ pass ∈ passes, pass.Valid parse context) (aggregated : EmbeddedAnalysisOutput) :
    (passes.map (Pass.extended filePath)).foldlM (lintSourceCode lint) aggregated =
      .ok {
        issues := aggregated.issues ++ passes.flatMap fun pass => (pass.output lint filePath).issues
        ucfgPaths := aggregated.ucfgPaths ++
          passes.flatMap fun pass => (pass.output lint filePath).ucfgPaths } := by
  induction passes generalizing aggregated with
  | nil => simp [pure, Except.pure]
  | cons pass passes ih =>
      obtain ⟨here, later⟩ := List.forall_mem_cons.mp valid
      have turn : lintSourceCode lint aggregated (pass.extended filePath) =
          .ok ⟨aggregated.issues ++ (pass.output lint filePath).issues,
            aggregated.ucfgPaths ++ (pass.output lint filePath).ucfgPaths⟩ := by
        rw [lintSourceCode, removeNonJsIssues, Pass.extended, here.inFile.range]
        rfl
      rw [List.map_cons, List.foldlM_cons, turn]
      refine (ih later _).trans ?_
      simp only [List.flatMap_cons, List.append_assoc]

end Loop

/-- What the passes report at an index has been raised in a program around it. -/
theorem filter_isAt_output {parse : Attempt → ∀ code, Except ParserError (Program code)}
    {context : Option Context} (lint : SourceCode → String → LintingResult) (filePath : String)
    {passes : List Pass} (valid : ∀ pass ∈ passes, pass.Valid parse context) {text : Text}
    (texts : ∀ pass ∈ passes, pass.snippet.text = text) (index : ℕ) :
    (passes.flatMap fun pass => (pass.output lint filePath).issues).filter (isAt text index) =
      (passes.filter (·.Contains index)).flatMap fun pass =>
        (pass.result lint filePath).issues.filter (isAt text index) := by
  induction passes with
  | nil => rfl
  | cons pass passes ih =>
      obtain ⟨here, later⟩ := List.forall_mem_cons.mp valid
      obtain ⟨ofText, texts⟩ := List.forall_mem_cons.mp texts
      have lineStarts := here.inFile.lineStarts
      rw [ofText] at lineStarts
      have kept : (pass.output lint filePath).issues.filter (isAt text index) =
          if pass.Contains index then (pass.result lint filePath).issues.filter (isAt text index)
          else [] := by
        rw [Pass.output, List.filter_filter]
        split_ifs with contains
        · refine List.filter_congr fun issue _ => ?_
          cases place : isAt text index issue with
          | false => rfl
          | true => exact (isInside_iff lineStarts place).mpr contains
        · refine List.filter_eq_nil_iff.mpr fun issue _ both => ?_
          obtain ⟨place, inside⟩ := Bool.and_eq_true_iff.mp both
          exact contains ((isInside_iff lineStarts place).mp inside)
      rw [List.flatMap_cons, List.filter_append, ih later texts, List.filter_cons, kept]
      by_cases contains : pass.Contains index
      · simp [contains]
      · simp [contains]

/-- A snippet that the parser of the host finds has the text of the file. -/
theorem Host.text_eq {host : Host} {text : Text} {snippets : List EmbeddedJS}
    (extracts : host.embeddedJSs text = .ok snippets) :
    ∀ snippet ∈ snippets, snippet.text = text := by
  intro snippet member
  cases host with
  | html events =>
      cases extracts
      exact (wellPlaced_of_mem_parseHTML member).text_eq
  | yaml parsingContexts docs =>
      exact (wellPlaced_of_parseYaml (eq_ok_of_mapError extracts) member).text_eq

/-- With enough steps, the source codes of all snippets are built and then linted. -/
theorem exists_builtAll (parse : Attempt → ∀ code, Except ParserError (Program code))
    (lint : SourceCode → String → LintingResult) (context : Option Context)
    (input : EmbeddedAnalysisInput) {snippets : List EmbeddedJS}
    (extracts : input.host.embeddedJSs input.fileContent = .ok snippets) :
    ∃ enough, ∀ fuel, enough ≤ fuel → ∃ built,
      BuiltAll parse context input.filePath snippets built ∧
        analyzeEmbedded parse lint context fuel input =
          (built >>= fun extended => extended.foldlM (lintSourceCode lint) ⟨[], []⟩) := by
  obtain ⟨enough, bounds⟩ := exists_enough parse context snippets
  refine ⟨enough, fun fuel le => ⟨_, builtAll fun snippet member program built =>
    Nat.le_trans (bounds snippet member program built) le, ?_⟩⟩
  rw [analyzeEmbedded, buildSourceCodes, extracts]
  rfl

/-- What the passes over a file come to. -/
theorem foldlM_passes {parse : Attempt → ∀ code, Except ParserError (Program code)}
    {context : Option Context} (lint : SourceCode → String → LintingResult)
    (input : EmbeddedAnalysisInput) {passes : List Pass}
    (extracts : input.host.embeddedJSs input.fileContent = .ok (passes.map Pass.snippet))
    (valid : ∀ pass ∈ passes, pass.Valid parse context) :
    ∃ output, (passes.map (Pass.extended input.filePath)).foldlM (lintSourceCode lint) ⟨[], []⟩ =
        .ok output ∧
      (∀ index, output.issues.filter (isAt input.fileContent index) =
        (passes.filter (·.Contains index)).flatMap fun pass =>
          (pass.result lint input.filePath).issues.filter (isAt input.fileContent index)) ∧
      (∀ issue ∈ output.issues, ∃ pass ∈ passes,
        issue ∈ (pass.result lint input.filePath).issues) ∧
      output.ucfgPaths =
        passes.flatMap fun pass => (pass.result lint input.filePath).ucfgPaths := by
  have texts : ∀ pass ∈ passes, pass.snippet.text = input.fileContent := by
    intro pass member
    exact Host.text_eq extracts _ (List.mem_map_of_mem member)
  refine ⟨_, foldlM_lintSourceCode lint valid _, fun index => ?_, fun issue reported => ?_, rfl⟩
  · exact filter_isAt_output lint input.filePath valid texts index
  · obtain ⟨pass, member, raised⟩ := List.mem_flatMap.mp reported
    exact ⟨pass, member, (List.mem_filter.mp raised).1⟩

/-- Whatever the parsers and the rules do, the analysis ends at the first snippet that no
parser takes, with its error, or reports what has been raised inside the programs. -/
theorem analyzeEmbedded_outcome (parse : Attempt → ∀ code, Except ParserError (Program code))
    (lint : SourceCode → String → LintingResult) (context : Option Context)
    (input : EmbeddedAnalysisInput) {snippets : List EmbeddedJS}
    (extracts : input.host.embeddedJSs input.fileContent = .ok snippets) :
    ∃ enough, ∀ fuel, enough ≤ fuel →
      Outcome parse context lint input snippets
        (analyzeEmbedded parse lint context fuel input) := by
  obtain ⟨enough, analyzed⟩ := exists_builtAll parse lint context input extracts
  refine ⟨enough, fun fuel le => ?_⟩
  obtain ⟨result, all, analyzed⟩ := analyzed fuel le
  cases all with
  | rejected before split accepted rejects =>
      rw [analyzed]
      exact .rejected split accepted rejects
  | built passes covers valid =>
      obtain ⟨output, folded, located, raised, ucfgPaths⟩ :=
        foldlM_passes lint input (covers ▸ extracts) valid
      rw [analyzed.trans folded]
      exact .linted covers valid located raised ucfgPaths

/-- `<script>x</script>`, with another text after it. -/
def scriptBefore (after : String) : Text := codeUnits ("<script>x</script>" ++ after)

/-- A parser that knows one program. -/
def parseIdentifier (_ : Attempt) (code : Text) : Except ParserError (Program code) :=
  if same : code = [0x78] then
    .ok (same ▸ { oneIdentifier with astRange := (0, 1), range_ast := rfl })
  else .error ⟨"Unexpected token (1:0)", some 1⟩

/-- A rule that looks for `x` in the text. -/
def reportIdentifiers (sourceCode : SourceCode) (_ : String) : LintingResult where
  issues := ((List.range sourceCode.text.length).filter
    fun index => sourceCode.text[index]? = some 0x78).map fun index =>
      let location := sourceCode.getLocFromIndex index
      { ruleId := "id-denylist"
        line := location.line
        column := location.column
        endLine := none
        endColumn := none
        message := []
        cost := none
        secondaryLocations := []
        quickFixes := [] }
  ucfgPaths := []
  highlightedSymbols := []
  cognitiveComplexity := none

/-- Two scripts, of which the second one is not JavaScript. -/
def brokenInput : EmbeddedAnalysisInput where
  filePath := "index.html"
  fileContent := scriptBefore "<script>+</script>"
  host := .html (scriptEvents 0 ++ scriptEvents 18)

theorem analyzeEmbedded_outcome_broken :
    ∃ enough, ∀ fuel, enough ≤ fuel →
      Outcome parseIdentifier none reportIdentifiers brokenInput
        (parseHTML (scriptEvents 0 ++ scriptEvents 18) brokenInput.fileContent)
        (analyzeEmbedded parseIdentifier reportIdentifiers none fuel brokenInput) :=
  analyzeEmbedded_outcome parseIdentifier reportIdentifiers none brokenInput rfl

/-! ## Scripts of an HTML file do not overlap -/

def HtmlEvent.name : HtmlEvent → String
  | .openTag name _ _ => name
  | .closeTag name _ => name

def HtmlEvent.index : HtmlEvent → ℕ
  | .openTag _ _ endIndex => endIndex
  | .closeTag _ startIndex => startIndex

/-- The tags of scripts come in the order of the text. -/
def Ordered (events : List HtmlEvent) : Prop :=
  events.Pairwise fun first second =>
    first.name = "script" → second.name = "script" → first.index < second.index

def EmbeddedJS.stop (snippet : EmbeddedJS) : ℕ := snippet.offset + snippet.code.length

/-- The snippets so far end before a bound, with the start of the next one behind them. -/
structure HtmlState.Apart (bound : ℕ) (state : HtmlState) : Prop where
  apart : state.embeddedJSs.Pairwise fun first second => first.stop < second.offset
  before : ∀ snippet ∈ state.embeddedJSs, snippet.stop < bound
  start : state.inScript = true → state.jsSnippetStartIndex ≤ bound ∧
    ∀ snippet ∈ state.embeddedJSs, snippet.stop < state.jsSnippetStartIndex

section Scripts

variable {code : Text} {lineStarts : List ℕ} {state : HtmlState} {bound : ℕ}

theorem length_slice_le (text : Text) (first last : ℕ) :
    (slice text first last).length ≤ last - first := by
  rw [slice, List.length_drop, List.length_take]
  omega

theorem onHtmlEvent_of_other {event : HtmlEvent} (other : event.name ≠ "script") :
    onHtmlEvent code lineStarts state event = state := by
  cases event with
  | openTag name src endIndex => exact if_pos (.inl other)
  | closeTag name startIndex => exact if_pos (.inl other)

theorem onHtmlEvent_apart (apart : state.Apart bound) {event : HtmlEvent}
    (later : bound ≤ event.index) :
    (onHtmlEvent code lineStarts state event).Apart (event.index + 1) := by
  have before : ∀ snippet ∈ state.embeddedJSs, snippet.stop < event.index + 1 := by
    intro snippet member
    have := apart.before snippet member
    omega
  have unchanged : state.Apart (event.index + 1) := by
    refine ⟨apart.apart, before, fun inScript => ?_⟩
    obtain ⟨le, behind⟩ := apart.start inScript
    exact ⟨by omega, behind⟩
  cases event with
  | openTag name src endIndex =>
      by_cases ignored : name ≠ "script" ∨ pointsToFile src
      · rwa [onHtmlEvent, if_pos ignored]
      · rw [onHtmlEvent, if_neg ignored]
        exact ⟨apart.apart, before, fun _ => ⟨Nat.le_refl _, before⟩⟩
  | closeTag name startIndex =>
      by_cases ignored : name ≠ "script" ∨ state.inScript = false
      · rwa [onHtmlEvent, if_pos ignored]
      · rw [onHtmlEvent, if_neg ignored]
        have inScript : state.inScript = true := by simpa using (not_or.mp ignored).2
        obtain ⟨le, behind⟩ := apart.start inScript
        have length := length_slice_le code state.jsSnippetStartIndex startIndex
        have index_eq : (HtmlEvent.closeTag name startIndex).index = startIndex := rfl
        refine ⟨List.pairwise_append.mpr ⟨apart.apart, List.pairwise_singleton _ _, ?_⟩, ?_,
          fun inside => Bool.noConfusion inside⟩
        · intro first known second new
          obtain rfl := List.mem_singleton.mp new
          exact behind first known
        · intro snippet member
          obtain known | new := List.mem_append.mp member
          · exact before snippet known
          · obtain rfl := List.mem_singleton.mp new
            simp only [EmbeddedJS.stop]
            omega

theorem foldl_onHtmlEvent_apart {events : List HtmlEvent} (ordered : Ordered events)
    (apart : state.Apart bound)
    (later : ∀ event ∈ events, event.name = "script" → bound ≤ event.index) :
    (events.foldl (onHtmlEvent code lineStarts) state).embeddedJSs.Pairwise
      fun first second => first.stop < second.offset := by
  induction events generalizing state bound with
  | nil => exact apart.apart
  | cons event events ih =>
      obtain ⟨first, ordered⟩ := List.pairwise_cons.mp ordered
      obtain ⟨here, later⟩ := List.forall_mem_cons.mp later
      by_cases script : event.name = "script"
      · refine ih ordered (onHtmlEvent_apart apart (here script)) ?_
        intro next member isScript
        exact first next member script isScript
      · rw [List.foldl_cons, onHtmlEvent_of_other script]
        exact ih ordered apart later

/-- Between two scripts there is at least a character of the host. -/
theorem parseHTML_apart {events : List HtmlEvent} (ordered : Ordered events) (text : Text) :
    (parseHTML events text).Pairwise fun first second => first.stop < second.offset := by
  unfold parseHTML
  split_ifs
  · exact List.Pairwise.nil
  · have start : HtmlState.Apart 0 ⟨0, 0, false, []⟩ := ⟨List.Pairwise.nil, by simp, by simp⟩
    exact foldl_onHtmlEvent_apart ordered start fun event _ _ => Nat.zero_le _

end Scripts

theorem Pass.Contains.within {pass : Pass} {index : ℕ} (contains : pass.Contains index) :
    pass.snippet.offset ≤ index ∧ index ≤ pass.snippet.stop := by
  have range := (pass.program.ranges _ (ast_mem_objects pass.program.toParsedCode) _
    pass.program.range_ast).2
  obtain ⟨first, last⟩ := contains
  unfold EmbeddedJS.stop
  omega

/-- At most one program is around an index. -/
theorem filter_contains {passes : List Pass}
    (apart : (passes.map Pass.snippet).Pairwise fun first second => first.stop < second.offset)
    (index : ℕ) :
    passes.filter (·.Contains index) = [] ∨
      ∃ pass ∈ passes, pass.Contains index ∧ passes.filter (·.Contains index) = [pass] := by
  induction passes with
  | nil => exact .inl rfl
  | cons pass passes ih =>
      rw [List.map_cons, List.pairwise_cons] at apart
      obtain ⟨behind, apart⟩ := apart
      rw [List.filter_cons]
      by_cases contains : pass.Contains index
      · refine .inr ⟨pass, List.mem_cons_self, contains, ?_⟩
        rw [if_pos (decide_eq_true contains)]
        refine congrArg (pass :: ·) (List.filter_eq_nil_iff.mpr fun other member inside => ?_)
        have := behind _ (List.mem_map_of_mem member)
        have := (of_decide_eq_true inside : other.Contains index).within
        have := contains.within
        omega
      · rw [if_neg (by simpa using contains)]
        obtain none | ⟨other, member, inside, only⟩ := ih apart
        · exact .inl none
        · exact .inr ⟨other, List.mem_cons_of_mem pass member, inside, only⟩

/-- In an HTML file an issue is reported once, however many scripts there are: what is
reported at an index has been raised while the script around it was linted, and what is
raised outside all programs is not reported. -/
theorem analyzeEmbedded_html (parse : Attempt → ∀ code, Except ParserError (Program code))
    (lint : SourceCode → String → LintingResult) (context : Option Context)
    (filePath : String) (text : Text) {events : List HtmlEvent} (ordered : Ordered events)
    (accepted : ∀ snippet ∈ parseHTML events text, ∃ attempt program,
      attempt ∈ attempts context ∧ parse attempt snippet.code = .ok program) :
    ∃ enough, ∀ fuel, enough ≤ fuel → ∃ output,
      analyzeEmbedded parse lint context fuel ⟨filePath, text, .html events⟩ = .ok output ∧
      ∃ passes : List Pass, passes.map Pass.snippet = parseHTML events text ∧
        (∀ pass ∈ passes, pass.Valid parse context) ∧
        ∀ index,
          (∀ pass ∈ passes, ¬ pass.Contains index) ∧ output.issues.filter (isAt text index) = [] ∨
          ∃ pass ∈ passes, pass.Contains index ∧
            output.issues.filter (isAt text index) =
              (pass.result lint filePath).issues.filter (isAt text index) := by
  obtain ⟨enough, analyzed⟩ :=
    exists_builtAll parse lint context ⟨filePath, text, .html events⟩ rfl
  refine ⟨enough, fun fuel le => ?_⟩
  obtain ⟨result, all, analyzed⟩ := analyzed fuel le
  cases all with
  | rejected before split earlier rejects =>
      rename_i after snippet error
      obtain ⟨attempt, program, tried, parses⟩ :=
        accepted snippet (split ▸ List.mem_append_right _ List.mem_cons_self)
      obtain ⟨error, fails⟩ := rejects.all attempt tried
      rw [parses] at fails
      cases fails
  | built passes covers valid =>
      obtain ⟨output, folded, located, -, -⟩ :=
        foldlM_passes lint ⟨filePath, text, .html events⟩ (covers ▸ rfl) valid
      refine ⟨output, analyzed.trans folded, passes, covers, valid, fun index => ?_⟩
      rw [located index]
      obtain none | ⟨pass, member, contains, only⟩ :=
        filter_contains (covers ▸ parseHTML_apart ordered text) index
      · refine .inl ⟨fun pass member => ?_, by rw [none]; rfl⟩
        have outside := List.filter_eq_nil_iff.mp none pass member
        simpa using outside
      · refine .inr ⟨pass, member, contains, ?_⟩
        rw [only, List.flatMap_singleton]

def twoScripts : Text := scriptBefore "<script>x</script>"

def twoScriptsEvents : List HtmlEvent := scriptEvents 0 ++ scriptEvents 18

theorem analyzeEmbedded_html_twoScripts :
    ∃ enough, ∀ fuel, enough ≤ fuel → ∃ output,
      analyzeEmbedded parseIdentifier reportIdentifiers none fuel
        ⟨"index.html", twoScripts, .html twoScriptsEvents⟩ = .ok output ∧
      ∃ passes : List Pass, passes.map Pass.snippet = parseHTML twoScriptsEvents twoScripts ∧
        (∀ pass ∈ passes, pass.Valid parseIdentifier none) ∧
        ∀ index,
          (∀ pass ∈ passes, ¬ pass.Contains index) ∧
              output.issues.filter (isAt twoScripts index) = [] ∨
          ∃ pass ∈ passes, pass.Contains index ∧
            output.issues.filter (isAt twoScripts index) =
              (pass.result reportIdentifiers "index.html").issues.filter
                (isAt twoScripts index) := by
  have codes : (parseHTML twoScriptsEvents twoScripts).map EmbeddedJS.code =
      [[0x78], [0x78]] := by decide +kernel
  refine analyzeEmbedded_html parseIdentifier reportIdentifiers none "index.html" twoScripts
    (by simp [Ordered, twoScriptsEvents, scriptEvents, HtmlEvent.index]) fun snippet member => ?_
  have code : snippet.code = [0x78] := by
    have known := List.mem_map_of_mem (f := EmbeddedJS.code) member
    rw [codes] at known
    simpa using known
  refine ⟨.module, ?_⟩
  rw [code]
  exact ⟨_, by decide, rfl⟩

end SonarJS.Embedded
