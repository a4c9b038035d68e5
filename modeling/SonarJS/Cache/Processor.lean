import SonarJS.Cache.Runs

/-!
# Saving an analysis

`AnalysisProcessor` hands the results for a file over to the scanner. There are two
ways in: `processResponse` takes the answer of the bridge, and `processCacheAnalysis`
takes what a cache hit has read.

The scanner is seen through what has been saved. Whether it takes a record, and which
ranges and pointers there are in a file, is up to the file; a record that is refused,
or a range that does not exist, is an exception. Logging and monitoring are left out.
-/

namespace SonarJS

namespace Cache

/-! ## Files and records -/

inductive ScannerException
  | illegalStateException (message : String)
  | illegalArgumentException
  | nullPointerException
deriving DecidableEq

structure TextPointer where
  line : ℤ
  lineOffset : ℤ
deriving DecidableEq

structure TextRange where
  start : TextPointer
  stop : TextPointer
deriving DecidableEq

/-- `InputFile.Type`. -/
inductive FileType
  | main
  | test
deriving DecidableEq

inductive Metric
  | functions
  | statements
  | classes
  | ncloc
  | commentLines
  | complexity
  | cognitiveComplexity

/-- The keys under which `FileLinesContext` keeps a value for a line. -/
inductive LinesKey
  | nclocDataKey
  | executableLinesDataKey

inductive TypeOfText
  | annotation
  | constant
  | comment
  | cppDoc
  | structuredComment
  | keyword
  | string
  | keywordLight
  | preprocessDirective

def TypeOfText.valueOf : String → Except ScannerException TypeOfText
  | "ANNOTATION" => .ok annotation
  | "CONSTANT" => .ok constant
  | "COMMENT" => .ok comment
  | "CPP_DOC" => .ok cppDoc
  | "STRUCTURED_COMMENT" => .ok structuredComment
  | "KEYWORD" => .ok keyword
  | "STRING" => .ok string
  | "KEYWORD_LIGHT" => .ok keywordLight
  | "PREPROCESS_DIRECTIVE" => .ok preprocessDirective
  | _ => .error .illegalArgumentException

structure NewIssueLocation where
  message : Option String
  range : Option TextRange

structure NewQuickFix where
  message : String
  edits : List (TextRange × String)

structure NewIssue where
  ruleKey : String
  primaryLocation : NewIssueLocation
  secondaryLocations : List NewIssueLocation
  gap : Option Float
  quickFixAvailable : Bool
  quickFixes : List NewQuickFix

/-- What is saved for a file. -/
inductive Record
  | measure (metric : Metric) (value : ℤ)
  | noSonarInFile (lines : Finset ℤ)
  | fileLines (values : List (LinesKey × ℤ × ℤ))
  | issue (newIssue : NewIssue)
  | highlighting (highlights : List (TextRange × TypeOfText))
  | symbolTable (symbols : List (Location × List Location))
  | cpdTokens (tokens : List (TextRange × String))
  | analysisError (pointer : TextPointer) (message : String)

/-- An `InputFile` with what the processor asks of it. -/
structure SourceFile extends InputFile where
  name : String
  language : Option String
  type : FileType
  newPointer : ℤ → ℤ → Except ScannerException TextPointer
  newRange : ℤ → ℤ → ℤ → ℤ → Except ScannerException TextRange
  selectLine : ℤ → Except ScannerException TextRange
  accepts : Record → Except ScannerException Unit

/-! ## Responses -/

inductive ParsingErrorCode
  | parsing
  | missingTypescript
  | unsupportedTypescript
  | failingTypescript
  | generalError
deriving DecidableEq

structure ParsingError where
  message : String
  line : Option ℤ
  code : Option ParsingErrorCode

structure IssueLocation where
  line : Option ℤ
  column : Option ℤ
  endLine : Option ℤ
  endColumn : Option ℤ
  message : Option String

structure QuickFixEdit where
  text : String
  loc : IssueLocation

structure QuickFix where
  message : String
  edits : List QuickFixEdit

structure Issue where
  line : Option ℤ
  column : Option ℤ
  endLine : Option ℤ
  endColumn : Option ℤ
  message : String
  ruleId : String
  secondaryLocations : List IssueLocation
  cost : Option Float
  quickFixes : Option (List QuickFix)

structure Highlight where
  location : Location
  textType : String

structure HighlightedSymbol where
  declaration : Location
  references : List Location

structure Metrics where
  ncloc : List ℤ := []
  commentLines : List ℤ := []
  nosonarLines : List ℤ := []
  executableLines : List ℤ := []
  functions : ℤ := 0
  statements : ℤ := 0
  classes : ℤ := 0
  complexity : ℤ := 0
  cognitiveComplexity : ℤ := 0

/-- `AnalysisResponse`, with the defaults for what the bridge leaves out. -/
structure AnalysisResponse where
  parsingError : Option ParsingError := none
  issues : List Issue := []
  highlights : List Highlight := []
  highlightedSymbols : List HighlightedSymbol := []
  metrics : Metrics := {}
  cpdTokens : List CpdToken := []
  ucfgPaths : List Path := []

/-- `fromResponse(response.ucfgPaths, response.cpdTokens)`. -/
def CacheAnalysis.fromResponse (ucfgPaths : List Path) (cpdTokens : List CpdToken) :
    CacheAnalysis :=
  ⟨some ucfgPaths, cpdTokens⟩

/-- `SensorContext`, with the part of the configuration and of the runtime that the
processor reads. -/
structure ProcessorContext extends SensorContext where
  failFast : Option Bool
  sonarLintPluginApiVersion : Version

namespace ContextUtils

def isSonarLint (context : ProcessorContext) : Bool := context.product = .sonarLint

def isSonarQube (context : ProcessorContext) : Bool := context.product = .sonarQube

def failFast (context : ProcessorContext) : Bool := context.failFast.getD false

end ContextUtils

/-- `AbstractChecks`, as far as the processor reads it. -/
structure Checks where
  parsingErrorRuleKey : Option String
  ruleKeyByEslintKey : String → Option String

/-! ## The processor -/

abbrev ProcessorM (α : Type) := EStateM ScannerException (List Record) α

/-- Unboxing an `Integer`. -/
def intValue : Option ℤ → Except ScannerException ℤ
  | some value => .ok value
  | none => .error .nullPointerException

namespace AnalysisProcessor

variable (context : ProcessorContext) (checks : Checks) (file : SourceFile)

/-- `save` of a record on the file. -/
def save (record : Record) : ProcessorM Unit := do
  Action.ofExcept (file.accepts record)
  modify (· ++ [record])

def toTextRange (location : Location) : Except ScannerException TextRange :=
  file.newRange location.startLine.toInt location.startCol.toInt location.endLine.toInt
    location.endCol.toInt

/-- The issue of a parsing error, if `ParsingErrorCheck` is activated. -/
def saveParsingErrorIssue (parsingError : ParsingError) : ProcessorM Unit :=
  match checks.parsingErrorRuleKey with
  | none => return ()
  | some ruleKey => do
    let range ← Action.ofExcept (parsingError.line.mapM file.selectLine)
    save file (.issue ⟨ruleKey, ⟨some parsingError.message, range⟩, [], none, false, []⟩)

def processParsingError (parsingError : ParsingError) : ProcessorM Unit := do
  if parsingError.line = none ∧ parsingError.code ≠ some .failingTypescript ∧
      ContextUtils.failFast context then
    throw (.illegalStateException ("Failed to analyze file " ++ file.name))
  saveParsingErrorIssue checks file parsingError
  let pointer ← Action.ofExcept (file.newPointer (parsingError.line.getD 1) 0)
  save file (.analysisError pointer parsingError.message)

def newSecondaryLocation (location : IssueLocation) :
    Except ScannerException (Option NewIssueLocation) :=
  match location.line, location.column, location.endLine, location.endColumn with
  | some line, some column, some endLine, some endColumn => do
    let range ← file.newRange line column endLine endColumn
    return some ⟨location.message, some range⟩
  | _, _, _, _ => return none

def isSqQuickFixCompatible : Bool :=
  ContextUtils.isSonarQube context && context.apiVersion.isGreaterThanOrEqual (.create 9 2)

def isQuickFixCompatible : Bool :=
  ContextUtils.isSonarLint context &&
    context.sonarLintPluginApiVersion.isGreaterThanOrEqual (.create 6 3)

/-- `QuickFixSupport.addQuickFixes`. -/
def addQuickFixes (quickFixes : List QuickFix) : Except ScannerException (List NewQuickFix) :=
  quickFixes.mapM fun quickFix => do
    let edits ← quickFix.edits.mapM fun edit => do
      let range ← file.newRange (← intValue edit.loc.line) (← intValue edit.loc.column)
        (← intValue edit.loc.endLine) (← intValue edit.loc.endColumn)
      return (range, edit.text)
    return ⟨quickFix.message, edits⟩

/-- The range of the primary location: a range, a line, or the file. -/
def primaryRange (issue : Issue) : Except ScannerException (Option TextRange) :=
  match issue.endLine with
  | some endLine => do
    let range ← file.newRange (← intValue issue.line) (← intValue issue.column) endLine
      (← intValue issue.endColumn)
    return some range
  | none => do
    let line ← intValue issue.line
    if line ≠ 0 then return some (← file.selectLine line) else return none

def saveIssue (issue : Issue) : ProcessorM Unit := do
  let range ← Action.ofExcept (primaryRange file issue)
  let secondary ← Action.ofExcept (issue.secondaryLocations.mapM (newSecondaryLocation file))
  let fixes := issue.quickFixes.getD []
  let quickFixes ← Action.ofExcept
    (if isQuickFixCompatible context then addQuickFixes file fixes else .ok [])
  match checks.ruleKeyByEslintKey issue.ruleId with
  | none => pure ()
  | some ruleKey =>
    save file (.issue
      { ruleKey
        primaryLocation := ⟨some issue.message, range⟩
        secondaryLocations := secondary.filterMap id
        gap := issue.cost
        quickFixAvailable := !fixes.isEmpty && isSqQuickFixCompatible context
        quickFixes })

def saveIssues (issues : List Issue) : ProcessorM Unit :=
  issues.forM (saveIssue context checks file)

def saveHighlights (highlights : List Highlight) : ProcessorM Unit := do
  let ranges ← Action.ofExcept (highlights.mapM fun highlight => do
    return (← toTextRange file highlight.location, ← TypeOfText.valueOf highlight.textType))
  save file (.highlighting ranges)

def saveHighlightedSymbols (highlightedSymbols : List HighlightedSymbol) : ProcessorM Unit :=
  save file (.symbolTable
    (highlightedSymbols.map fun symbol => (symbol.declaration, symbol.references)))

def saveMetrics (metrics : Metrics) : ProcessorM Unit :=
  if file.type = .test ∨ ContextUtils.isSonarLint context then
    save file (.noSonarInFile metrics.nosonarLines.toFinset)
  else do
    save file (.measure .functions metrics.functions)
    save file (.measure .statements metrics.statements)
    save file (.measure .classes metrics.classes)
    save file (.measure .ncloc metrics.ncloc.length)
    save file (.measure .commentLines metrics.commentLines.length)
    save file (.measure .complexity metrics.complexity)
    save file (.measure .cognitiveComplexity metrics.cognitiveComplexity)
    save file (.noSonarInFile metrics.nosonarLines.toFinset)
    save file (.fileLines
      (metrics.ncloc.map (fun line => (.nclocDataKey, line, 1)) ++
        metrics.executableLines.map fun line => (.executableLinesDataKey, line, 1)))

/-- What is handed over for a list of tokens. -/
def cpdRanges (cpdTokens : List CpdToken) : Except ScannerException (List (TextRange × String)) :=
  cpdTokens.mapM fun cpdToken => do
    return (← toTextRange file cpdToken.location, cpdToken.image)

/-- Even without tokens a record would start the search for duplications, so there is
none for a test file. -/
def saveCpd (cpdTokens : List CpdToken) : ProcessorM Unit :=
  if file.type = .test ∨ ContextUtils.isSonarLint context then return ()
  else do
    let tokens ← Action.ofExcept (cpdRanges file cpdTokens)
    save file (.cpdTokens tokens)

/-- The languages of which only the issues are saved. -/
def onlyIssues : Bool := file.language = some "yaml" || file.language = some "web"

def processResponse (response : AnalysisResponse) : ProcessorM Unit :=
  match response.parsingError with
  | some parsingError => processParsingError context checks file parsingError
  | none =>
    if onlyIssues file then saveIssues context checks file response.issues
    else do
      -- the metrics come first, so that the issues on `NOSONAR` lines are ignored
      saveMetrics context file response.metrics
      saveIssues context checks file response.issues
      saveHighlights file response.highlights
      saveHighlightedSymbols file response.highlightedSymbols
      saveCpd context file response.cpdTokens

def processCacheAnalysis (cacheAnalysis : CacheAnalysis) : ProcessorM Unit :=
  if onlyIssues file then return () else saveCpd context file cacheAnalysis.cpdTokens

end AnalysisProcessor

/-! ## What is kept for a file -/

/-- The CPD data that has been saved. -/
def cpdData (saved : List Record) : List (List (TextRange × String)) :=
  saved.filterMap fun
    | .cpdTokens tokens => some tokens
    | _ => none

/-- The analysis errors that have been saved. -/
def analysisErrors (saved : List Record) : List (TextPointer × String) :=
  saved.filterMap fun
    | .analysisError pointer message => some (pointer, message)
    | _ => none

/-- Records that are neither CPD data nor analysis errors. -/
def Record.IsOther : Record → Prop
  | .cpdTokens _ => False
  | .analysisError _ _ => False
  | _ => True

/-- Only other records are saved. -/
def SameData (saved saved' : List Record) : Prop :=
  cpdData saved' = cpdData saved ∧ analysisErrors saved' = analysisErrors saved

instance : Std.Refl SameData := ⟨fun _ => ⟨rfl, rfl⟩⟩

instance : IsTrans (List Record) SameData :=
  ⟨fun _ _ _ first second => ⟨second.1.trans first.1, second.2.trans first.2⟩⟩

namespace AnalysisProcessor

variable {context : ProcessorContext} {checks : Checks} {file : SourceFile}

theorem save_eq_ok {record : Record} {saved saved' : List Record}
    (h : save file record saved = .ok () saved') :
    file.accepts record = .ok () ∧ saved' = saved ++ [record] := by
  obtain ⟨_, saved₁, checked, added⟩ := Action.bind_eq_ok h
  obtain ⟨accepted, rfl⟩ := Action.ofExcept_eq_ok checked
  cases added
  exact ⟨accepted, rfl⟩

theorem save_of_accepts {record : Record} (h : file.accepts record = .ok ())
    (saved : List Record) : save file record saved = .ok () (saved ++ [record]) :=
  Action.bind_ok (Action.ofExcept_ok h saved)

/-! ### What leaves the data alone -/

theorem keeps_save {record : Record} (other : record.IsOther) :
    Action.Keeps SameData (save file record) := by
  refine (Action.keeps_ofExcept _).bind ?_
  intro _ saved
  show SameData saved (saved ++ [record])
  cases record with
  | cpdTokens tokens => cases other
  | analysisError pointer message => cases other
  | _ => simp [SameData, cpdData, analysisErrors]

theorem keeps_saveMeasure (metric : Metric) (value : ℤ) :
    Action.Keeps SameData (save file (.measure metric value)) := keeps_save trivial

theorem keeps_saveMetrics (metrics : Metrics) :
    Action.Keeps SameData (saveMetrics context file metrics) := by
  rw [saveMetrics]
  split
  · exact keeps_save trivial
  · refine (keeps_saveMeasure _ _).bind fun _ => (keeps_saveMeasure _ _).bind ?_
    intro _
    refine (keeps_saveMeasure _ _).bind fun _ => (keeps_saveMeasure _ _).bind ?_
    intro _
    refine (keeps_saveMeasure _ _).bind fun _ => (keeps_saveMeasure _ _).bind ?_
    intro _
    apply (keeps_saveMeasure _ _).bind
    intro _
    refine Action.Keeps.bind (keeps_save ?_) fun _ => keeps_save ?_ <;> trivial

theorem keeps_saveIssue (issue : Issue) :
    Action.Keeps SameData (saveIssue context checks file issue) := by
  refine (Action.keeps_ofExcept _).bind ?_
  intro range
  refine (Action.keeps_ofExcept _).bind ?_
  intro secondary
  refine (Action.keeps_ofExcept _).bind ?_
  intro quickFixes
  cases checks.ruleKeyByEslintKey issue.ruleId with
  | none => exact Action.keeps_pure _
  | some ruleKey => exact keeps_save trivial

theorem keeps_saveIssues (issues : List Issue) :
    Action.Keeps SameData (saveIssues context checks file issues) := by
  induction issues with
  | nil => exact Action.keeps_pure _
  | cons issue issues ih => exact (keeps_saveIssue issue).bind fun _ => ih

theorem keeps_saveHighlights (highlights : List Highlight) :
    Action.Keeps SameData (saveHighlights file highlights) := by
  refine (Action.keeps_ofExcept _).bind ?_
  intro ranges
  apply keeps_save
  trivial

theorem keeps_saveHighlightedSymbols (highlightedSymbols : List HighlightedSymbol) :
    Action.Keeps SameData (saveHighlightedSymbols file highlightedSymbols) := keeps_save trivial

theorem keeps_saveParsingErrorIssue (parsingError : ParsingError) :
    Action.Keeps SameData (saveParsingErrorIssue checks file parsingError) := by
  rw [saveParsingErrorIssue]
  split
  · exact Action.keeps_pure _
  · refine (Action.keeps_ofExcept _).bind ?_
    intro range
    apply keeps_save
    trivial

/-! ### What saves the data -/

/-- A parsing error leaves an analysis error and no CPD data. -/
theorem processParsingError_eq_ok {parsingError : ParsingError} {saved : List Record}
    (h : processParsingError context checks file parsingError [] = .ok () saved) :
    cpdData saved = [] ∧ ∃ pointer, analysisErrors saved = [(pointer, parsingError.message)] := by
  rw [processParsingError] at h
  split at h
  · cases h
  · obtain ⟨_, saved₁, issue, h⟩ := Action.bind_eq_ok h
    obtain ⟨noData, noErrors⟩ := (keeps_saveParsingErrorIssue parsingError).of_ok issue
    obtain ⟨pointer, saved₂, pointed, error⟩ := Action.bind_eq_ok h
    obtain ⟨-, rfl⟩ := Action.ofExcept_eq_ok pointed
    obtain ⟨-, rfl⟩ := save_eq_ok error
    refine ⟨?_, pointer, ?_⟩
    · rw [cpdData, List.filterMap_append]
      exact (List.append_nil _).trans noData
    · rw [analysisErrors, List.filterMap_append]
      exact congrArg (· ++ [(pointer, parsingError.message)]) noErrors

section Main

variable (main : file.type = .main) (notSonarLint : ContextUtils.isSonarLint context = false)

include main notSonarLint

theorem saveCpd_eq (cpdTokens : List CpdToken) : saveCpd context file cpdTokens = (do
    let tokens ← Action.ofExcept (cpdRanges file cpdTokens)
    save file (.cpdTokens tokens)) := by
  rw [saveCpd, if_neg]
  rw [main, notSonarLint]
  rintro (test | sonarLint)
  · cases test
  · cases sonarLint

theorem saveCpd_eq_ok {cpdTokens : List CpdToken} {saved saved' : List Record}
    (h : saveCpd context file cpdTokens saved = .ok () saved') :
    ∃ tokens, cpdRanges file cpdTokens = .ok tokens ∧
      file.accepts (.cpdTokens tokens) = .ok () ∧ saved' = saved ++ [.cpdTokens tokens] := by
  rw [saveCpd_eq main notSonarLint] at h
  obtain ⟨tokens, saved₁, ranged, data⟩ := Action.bind_eq_ok h
  obtain ⟨ranges, rfl⟩ := Action.ofExcept_eq_ok ranged
  obtain ⟨accepted, saved_⟩ := save_eq_ok data
  exact ⟨tokens, ranges, accepted, saved_⟩

theorem saveCpd_of_accepts {cpdTokens : List CpdToken} {tokens : List (TextRange × String)}
    (ranges : cpdRanges file cpdTokens = .ok tokens)
    (accepted : file.accepts (.cpdTokens tokens) = .ok ()) (saved : List Record) :
    saveCpd context file cpdTokens saved = .ok () (saved ++ [.cpdTokens tokens]) := by
  rw [saveCpd_eq main notSonarLint]
  exact (Action.bind_ok (Action.ofExcept_ok ranges saved)).trans (save_of_accepts accepted saved)

/-- Without a parsing error, the CPD data is that of the tokens, and there is no
analysis error. -/
theorem processResponse_eq_ok {response : AnalysisResponse} {saved : List Record}
    (notOnlyIssues : onlyIssues file = false) (parsed : response.parsingError = none)
    (h : processResponse context checks file response [] = .ok () saved) :
    ∃ tokens, cpdRanges file response.cpdTokens = .ok tokens ∧
      file.accepts (.cpdTokens tokens) = .ok () ∧ cpdData saved = [tokens] ∧
      analysisErrors saved = [] := by
  rw [processResponse, parsed] at h
  simp only [notOnlyIssues, Bool.false_eq_true, if_false] at h
  obtain ⟨_, saved₁, metrics, afterMetrics⟩ := Action.bind_eq_ok h
  obtain ⟨_, saved₂, issues, afterIssues⟩ := Action.bind_eq_ok afterMetrics
  obtain ⟨_, saved₃, highlights, afterHighlights⟩ := Action.bind_eq_ok afterIssues
  obtain ⟨_, saved₄, symbols, data⟩ := Action.bind_eq_ok afterHighlights
  have same₁ : SameData [] saved₁ := (keeps_saveMetrics _).of_ok metrics
  have same₂ : SameData saved₁ saved₂ := (keeps_saveIssues _).of_ok issues
  have same₃ : SameData saved₂ saved₃ := (keeps_saveHighlights _).of_ok highlights
  have same₄ : SameData saved₃ saved₄ := (keeps_saveHighlightedSymbols _).of_ok symbols
  obtain ⟨noData, noErrors⟩ := trans_of SameData same₁
    (trans_of SameData same₂ (trans_of SameData same₃ same₄))
  obtain ⟨tokens, ranges, accepted, rfl⟩ := saveCpd_eq_ok main notSonarLint data
  refine ⟨tokens, ranges, accepted, ?_, ?_⟩
  · rw [cpdData, List.filterMap_append]
    exact congrArg (· ++ [tokens]) noData
  · rw [analysisErrors, List.filterMap_append]
    exact (List.append_nil _).trans noErrors

end Main

end AnalysisProcessor

/-! ## A hit after an analysis -/

/-- A run that analyses a file, among others, saves the response and stores it. -/
structure FreshRun (platform : Platform) (plugin : PluginInfo) (file : SourceFile) where
  context : ProcessorContext
  checks : Checks
  bridge : InputFile → FileSystem Name → Response
  fileSystem : FileSystem Name
  before : List InputFile
  after : List InputFile
  others : ∀ other ∈ before ++ after, other.key ≠ file.key
  reached : World
  reaches : AnalyzesAll platform plugin context.toSensorContext bridge before
    ⟨fileSystem, fun _ => none⟩ reached
  strategy : CacheStrategy
  reason : Option MissReason
  asked : World
  strategyFor : CacheStrategies.getStrategyFor platform plugin context.toSensorContext
    file.toInputFile reached = .ok (strategy, reason) asked
  required : strategy.isAnalysisRequired = true
  response : AnalysisResponse
  generated : FileSystem Name
  saved : List Record
  processes : AnalysisProcessor.processResponse context checks file response [] = .ok () saved
  left : World
  writes : strategy.WritesAnalysisToCache platform plugin context.toSensorContext
    (.fromResponse response.ucfgPaths response.cpdTokens) file.toInputFile
    { asked with fileSystem := generated } left
  finished : World
  finishes : AnalyzesAll platform plugin context.toSensorContext bridge after left finished

/-- A run that finds the file in its previous cache. -/
structure CachedRun (platform : Platform) (plugin : PluginInfo) (file : SourceFile)
    (previous : Entries) where
  context : ProcessorContext
  previousCache : context.previousCache = previous
  reached : World
  cacheAnalysis : CacheAnalysis
  serialization : CacheKey
  reason : Option MissReason
  left : World
  hits : CacheStrategies.getStrategyFor platform plugin context.toSensorContext file.toInputFile
    reached = .ok (.readAndWrite cacheAnalysis serialization, reason) left

/-- The hit saves what the analysis has saved: the same CPD data or none, and the same
analysis error or none. -/
def CachedRun.Reproduces {platform : Platform} {plugin : PluginInfo} {file : SourceFile}
    {previous : Entries} (second : CachedRun platform plugin file previous)
    (saved : List Record) : Prop :=
  ∃ saved', AnalysisProcessor.processCacheAnalysis second.context file second.cacheAnalysis [] =
      .ok () saved' ∧
    cpdData saved' = cpdData saved ∧ analysisErrors saved' = analysisErrors saved

section Hit

variable {platform : Platform} {plugin : PluginInfo} {context : SensorContext}
  {inputFile : InputFile} {world world' : World}

/-- The tokens of a hit are those that have been read. -/
theorem CacheStrategies.readFromCache_eq_some {cacheKey : CacheKey} {cacheAnalysis : CacheAnalysis}
    (h : CacheStrategies.readFromCache platform plugin context cacheKey world =
      .ok (some cacheAnalysis) world') :
    CpdSerialization.readFromCache platform context cacheKey.forCpd =
      .ok cacheAnalysis.cpdTokens := by
  rw [CacheStrategies.readFromCache] at h
  split at h
  · rename_i ran
    cases h
    obtain ⟨_, world₁, read, copied⟩ := Action.bind_eq_ok ran
    obtain ⟨_, world₂, -, returned⟩ := Action.bind_eq_ok copied
    cases returned
    obtain ⟨_, world₃, -, tokens⟩ := Action.bind_eq_ok read
    obtain ⟨cpdTokens, world₄, decodes, built⟩ := Action.bind_eq_ok tokens
    obtain ⟨decoded, rfl⟩ := Action.ofExcept_eq_ok decodes
    cases built
    exact decoded
  · split at h <;> cases h

theorem getStrategyFor_readAndWrite {cacheAnalysis : CacheAnalysis} {serialization : CacheKey}
    {reason : Option MissReason}
    (h : CacheStrategies.getStrategyFor platform plugin context inputFile world =
      .ok (.readAndWrite cacheAnalysis serialization, reason) world') :
    CacheStrategies.isRuntimeApiCompatible context = true ∧
      CpdSerialization.readFromCache platform context
        (CacheKey.forFile inputFile plugin.version).forCpd = .ok cacheAnalysis.cpdTokens := by
  obtain ⟨noCache, -⟩ | ⟨compatible, -⟩ := getStrategyFor_serialization h
  · cases noCache
  refine ⟨compatible, ?_⟩
  simp only [CacheStrategies.getStrategyFor, compatible, Bool.not_true, Bool.false_eq_true,
    if_false] at h
  split at h
  · cases h
  · obtain ⟨unchanged, world₁, -, afterUnchanged⟩ := Action.bind_eq_ok h
    split at afterUnchanged
    · cases afterUnchanged
    · split at afterUnchanged
      · cases afterUnchanged
      · obtain ⟨read, world₂, reads, returned⟩ := Action.bind_eq_ok afterUnchanged
        cases read with
        | none => cases returned
        | some read =>
            cases returned
            exact CacheStrategies.readFromCache_eq_some reads

theorem isSonarLint_of_compatible {context : ProcessorContext}
    (h : CacheStrategies.isRuntimeApiCompatible context.toSensorContext = true) :
    ContextUtils.isSonarLint context = false := by
  rw [CacheStrategies.isRuntimeApiCompatible, Bool.and_eq_true] at h
  simpa [ContextUtils.isSonarLint] using h.2

theorem writeToCache_eq_ok {cacheKey : CacheKey} {bytes : Bytes}
    (h : CacheSerialization.writeToCache cacheKey bytes world = .ok () world') :
    world' = world.put cacheKey.toString bytes := by
  rw [CacheSerialization.writeToCache] at h
  split at h
  · cases h
  · cases h
    rfl

/-- What has been written is the encoding of the tokens. -/
theorem cpdEntries_of_writesToCache {analysis : CacheAnalysis}
    (h : CacheAnalysisSerialization.WritesToCache platform plugin context
      (CacheKey.forFile inputFile plugin.version) analysis inputFile world world') :
    ∃ cpdData : CpdData platform.jvm, cpdData.tokens = analysis.cpdTokens ∧
      world'.nextCache (Entry.data.key plugin inputFile) = some (toBinary cpdData).data ∧
      world'.nextCache (Entry.stringTable.key plugin inputFile) =
        some (toBinary cpdData).stringTable := by
  obtain ⟨chunking, stored, manifest, cpdData, -, tokens, wrote⟩ := h
  obtain ⟨_, world₁, -, afterUcfg⟩ := Action.bind_eq_ok wrote
  obtain ⟨_, world₂, cpd, afterCpd⟩ := Action.bind_eq_ok afterUcfg
  obtain ⟨metadata, world₃, read, wroteMetadata⟩ := Action.bind_eq_ok afterCpd
  obtain ⟨_, world₄, data, stringTable⟩ := Action.bind_eq_ok cpd
  obtain ⟨-, rfl⟩ := Action.ofExcept_eq_ok read
  have data_ : world₄ = world₁.put (Entry.data.key plugin inputFile) (toBinary cpdData).data :=
    writeToCache_eq_ok data
  have stringTable_ : world₃ = world₄.put (Entry.stringTable.key plugin inputFile)
      (toBinary cpdData).stringTable :=
    writeToCache_eq_ok stringTable
  have metadata_ : world' = world₃.put (Entry.fileMetadata.key plugin inputFile)
      (Utf8.encode (platform.gsonFileMetadata.toJson metadata)) :=
    writeToCache_eq_ok wroteMetadata
  subst metadata_ stringTable_ data_
  refine ⟨cpdData, tokens, ?_, ?_⟩ <;> simp [Entry.key_inj]

end Hit

namespace FreshRun

variable {platform : Platform} {plugin : PluginInfo} {file : SourceFile}
  (first : FreshRun platform plugin file)

theorem finished_eq_left (entry : Entry) :
    first.finished.nextCache (entry.key plugin file.toInputFile) =
      first.left.nextCache (entry.key plugin file.toInputFile) :=
  first.finishes.sameEntries
    (fun other member => first.others other (List.mem_append_right _ member)) entry

theorem reached_new (entry : Entry) :
    first.reached.nextCache (entry.key plugin file.toInputFile) = none :=
  first.reaches.sameEntries
    (fun other member => first.others other (List.mem_append_left _ member)) entry

/-- Either nothing is in the next cache, or the tokens of the response are. -/
theorem cpdEntries :
    first.finished.nextCache (Entry.data.key plugin file.toInputFile) = none ∨
      CacheStrategies.isRuntimeApiCompatible first.context.toSensorContext = true ∧
      ∃ cpdData : CpdData platform.jvm, cpdData.tokens = first.response.cpdTokens ∧
        first.finished.nextCache (Entry.data.key plugin file.toInputFile) =
          some (toBinary cpdData).data ∧
        first.finished.nextCache (Entry.stringTable.key plugin file.toInputFile) =
          some (toBinary cpdData).stringTable := by
  simp only [first.finished_eq_left]
  have writes := first.writes
  have required := first.required
  rcases getStrategyFor_serialization first.strategyFor with
    ⟨strategy, asked⟩ | ⟨compatible, strategy | ⟨cacheAnalysis, strategy⟩⟩
  · left
    rw [strategy] at writes
    rw [show first.left = _ from writes, asked]
    exact first.reached_new .data
  · rw [strategy] at writes
    exact .inr ⟨compatible, cpdEntries_of_writesToCache writes⟩
  · rw [strategy] at required
    cases required

end FreshRun

section Reproduction

variable {platform : Platform} {plugin : PluginInfo} {file : SourceFile}

/-- What a hit reads is what the analysis before it has answered. -/
theorem CachedRun.cpdTokens_eq (first : FreshRun platform plugin file)
    (second : CachedRun platform plugin file first.finished.nextCache) :
    CacheStrategies.isRuntimeApiCompatible first.context.toSensorContext = true ∧
      second.cacheAnalysis.cpdTokens = first.response.cpdTokens := by
  obtain ⟨-, read⟩ := getStrategyFor_readAndWrite second.hits
  obtain missing | ⟨compatible, cpdData, tokens, data, stringTable⟩ := first.cpdEntries
  · have absent : CacheSerialization.readBytesFromCache second.context.toSensorContext
        (Entry.data.cacheKey plugin file.toInputFile) = .error .illegalArgumentException := by
      have none_ :
          second.context.previousCache (Entry.data.key plugin file.toInputFile) = none := by
        rw [second.previousCache, missing]
      rw [CacheSerialization.readBytesFromCache, CacheSerialization.getInputStream]
      rw [show second.context.previousCache
        (Entry.data.cacheKey plugin file.toInputFile).toString = none from none_]
      rfl
    rw [CpdSerialization.readFromCache, show CacheSerialization.readBytesFromCache
      second.context.toSensorContext (CpdSerialization.dataKey _) = _ from absent] at read
    cases read
  · rw [← second.previousCache] at data stringTable
    rw [CpdSerialization.readFromCache_of_some platform data stringTable, fromBinary,
      convert_toBinary] at read
    exact ⟨compatible, (Except.ok.inj read).symm.trans tokens⟩

/-- A hit reproduces the analysis exactly if the response has no parsing error. The
response with a parsing error is stored as well, as a file without tokens. -/
theorem cacheHit_reproduces_iff (platform : Platform) (plugin : PluginInfo) (file : SourceFile)
    (main : file.type = .main) (language : file.language = some "js" ∨ file.language = some "ts")
    (first : FreshRun platform plugin file)
    (second : CachedRun platform plugin file first.finished.nextCache) :
    second.Reproduces first.saved ↔ first.response.parsingError = none := by
  have notOnlyIssues : AnalysisProcessor.onlyIssues file = false := by
    obtain js | ts := language
    · rw [AnalysisProcessor.onlyIssues, js]
      decide
    · rw [AnalysisProcessor.onlyIssues, ts]
      decide
  obtain ⟨compatible, tokens⟩ := second.cpdTokens_eq
  have hit := isSonarLint_of_compatible (getStrategyFor_readAndWrite second.hits).1
  have processes := first.processes
  cases parsingError : first.response.parsingError with
  | some error =>
      rw [AnalysisProcessor.processResponse, parsingError] at processes
      obtain ⟨-, pointer, errors⟩ := AnalysisProcessor.processParsingError_eq_ok processes
      refine iff_of_false ?_ (Option.some_ne_none _)
      rintro ⟨saved, again, -, sameErrors⟩
      simp only [AnalysisProcessor.processCacheAnalysis, notOnlyIssues, Bool.false_eq_true,
        if_false] at again
      obtain ⟨ranges, -, -, rfl⟩ := AnalysisProcessor.saveCpd_eq_ok main hit again
      rw [errors] at sameErrors
      cases sameErrors
  | none =>
      refine iff_of_true ?_ rfl
      obtain ⟨ranges, ranged, accepted, data, errors⟩ :=
        AnalysisProcessor.processResponse_eq_ok main
        (isSonarLint_of_compatible compatible) notOnlyIssues parsingError processes
      rw [← tokens] at ranged
      refine ⟨[.cpdTokens ranges], ?_, data.symm, errors.symm⟩
      simp only [AnalysisProcessor.processCacheAnalysis, notOnlyIssues, Bool.false_eq_true,
        if_false]
      exact AnalysisProcessor.saveCpd_of_accepts main hit ranged accepted []

end Reproduction

/-! ## The file in the cache, again -/

section Cached

/-- `Hello World!` is a single line of twelve characters. -/
def helloPointer (line lineOffset : ℤ) : Except ScannerException TextPointer :=
  if line = 1 ∧ 0 ≤ lineOffset ∧ lineOffset ≤ 12 then .ok ⟨line, lineOffset⟩
  else .error .illegalArgumentException

def helloRange (startLine startCol endLine endCol : ℤ) : Except ScannerException TextRange := do
  let start ← helloPointer startLine startCol
  let stop ← helloPointer endLine endCol
  if start.lineOffset < stop.lineOffset then return ⟨start, stop⟩
  else .error .illegalArgumentException

def helloSource : SourceFile where
  toInputFile := helloFile
  name := "src/test.js"
  language := some "js"
  type := .main
  newPointer := helloPointer
  newRange := helloRange
  selectLine line := helloRange line 0 line 12
  accepts _ := .ok ()

def helloProcessorContext (previousCache : Entries) : ProcessorContext where
  toSensorContext := helloContext previousCache
  failFast := none
  sonarLintPluginApiVersion := .create 6 3

def noChecks : Checks := ⟨none, fun _ => none⟩

/-- A response without generated files is stored, and found by the next run. -/
theorem exists_hit_after {response : AnalysisResponse} {saved : List Record}
    (noFiles : response.ucfgPaths = []) (stored : CpdData helloPlatform.jvm)
    (tokens : stored.tokens = response.cpdTokens)
    (processes : AnalysisProcessor.processResponse (helloProcessorContext fun _ => none) noChecks
      helloSource response [] = .ok () saved) :
    ∃ first : FreshRun helloPlatform helloPlugin helloSource,
      first.response = response ∧ first.saved = saved ∧
        Nonempty (CachedRun helloPlatform helloPlugin helloSource first.finished.nextCache) := by
  have new (entry : Entry) : freshWorld.nextCache (entry.key helloPlugin helloFile) = none := rfl
  have empty :
      Misses helloPlatform helloPlugin helloFile (helloContext fun _ => none).previousCache :=
    misses_of_no_metadata rfl
  obtain ⟨reason, strategyFor⟩ := empty.getStrategyFor_eq freshWorld rfl rfl
  let answer : Response := ⟨emptyWorkDir, .fromResponse response.ucfgPaths response.cpdTokens⟩
  have paths : answer.analysis.ucfgPaths.getD [] = [] := noFiles
  have written : ∃ seq manifest, WritesToCache emptyWorkDir (fun _ _ => 1) scannerWork
      answer.analysis.ucfgPaths seq manifest :=
    exists_writesToCache _ _ (by rw [paths]; simp)
  obtain ⟨seq, manifest, generates⟩ := written
  have wrote := writeToCache_eq_written freshWorld helloMetadata_eq new seq manifest stored
  have writes : CacheAnalysisSerialization.WritesToCache helloPlatform helloPlugin
      (helloContext fun _ => none) (CacheKey.forFile helloFile helloPlugin.version) answer.analysis
      helloFile freshWorld _ :=
    ⟨fun _ _ => 1, seq, manifest, stored, generates, tokens, wrote⟩
  have generated : answer.Generated (helloContext fun _ => none).workDir :=
    ⟨[], paths, by simp, by simp, by simp⟩
  have readsBack : ∀ chunking seq manifest, WritesToCache answer.fileSystem chunking
      (helloContext fun _ => none).workDir answer.analysis.ucfgPaths seq manifest →
        helloPlatform.gsonFilesManifest.ReadsBack manifest := by
    intro chunking seq manifest writes
    obtain ⟨-, rfl⟩ := writes.eq (by rw [paths]; exact List.nodup_nil)
    rw [paths]
    exact readsBack_gsonOf _ _
  have holds := HoldsFile.of_writesToCache helloMetadata_eq generated readsBack new writes
  let first : FreshRun helloPlatform helloPlugin helloSource := {
    context := helloProcessorContext fun _ => none
    checks := noChecks
    bridge := quietBridge
    fileSystem := emptyWorkDir
    before := []
    after := []
    others := by simp
    reached := freshWorld
    reaches := .nil _
    strategy := _
    reason := some reason
    asked := freshWorld
    strategyFor := strategyFor
    required := rfl
    response := response
    generated := emptyWorkDir
    saved := saved
    processes := processes
    left := _
    writes := writes
    finished := _
    finishes := .nil _ }
  let context := helloProcessorContext first.finished.nextCache
  have cached : HoldsFile helloPlatform helloPlugin helloFile helloMetadata
      context.toSensorContext.previousCache := holds
  obtain ⟨cacheAnalysis, json, seq', data, stringTable, fileSystem, hits⟩ :=
    cached.getStrategyFor_eq helloMetadata_eq (readsBack_gsonOf _ _) rfl rfl new
      (unobstructed_hello first.finished.nextCache emptyWorkDir)
  exact ⟨first, rfl, rfl, ⟨⟨context, rfl, freshWorld, cacheAnalysis, _, none, _, hits⟩⟩⟩

def brokenResponse : AnalysisResponse where
  parsingError := some ⟨"';' expected. (1:6)", some 1, some .parsing⟩

/-- A parsing error: the first run saves an analysis error and no CPD data, the hit
after it saves empty CPD data and no error. -/
theorem cacheHit_loses_parsing_error :
    ∃ (first : FreshRun helloPlatform helloPlugin helloSource)
      (second : CachedRun helloPlatform helloPlugin helloSource first.finished.nextCache),
      first.response = brokenResponse ∧ ¬ second.Reproduces first.saved := by
  let saved : List Record := [.analysisError ⟨1, 0⟩ "';' expected. (1:6)"]
  have processes : AnalysisProcessor.processResponse (helloProcessorContext fun _ => none) noChecks
      helloSource brokenResponse [] = .ok () saved := rfl
  obtain ⟨first, response, saved_, ⟨second⟩⟩ :=
    exists_hit_after rfl ⟨[], by simp, by simp⟩ rfl processes
  refine ⟨first, second, response, ?_⟩
  rintro ⟨saved', again, -, errors⟩
  rw [saved_] at errors
  have hit := isSonarLint_of_compatible (getStrategyFor_readAndWrite second.hits).1
  obtain ⟨ranges, -, -, rfl⟩ := AnalysisProcessor.saveCpd_eq_ok rfl hit again
  cases errors

def helloResponse : AnalysisResponse where
  cpdTokens := [⟨⟨1, 0, 1, 5⟩, "Hello"⟩, ⟨⟨1, 6, 1, 11⟩, "World"⟩]

theorem cacheHit_reproduces_tokens :
    ∃ (first : FreshRun helloPlatform helloPlugin helloSource)
      (second : CachedRun helloPlatform helloPlugin helloSource first.finished.nextCache),
      first.response = helloResponse ∧ second.Reproduces first.saved := by
  have processes : ∃ saved, AnalysisProcessor.processResponse
      (helloProcessorContext fun _ => none) noChecks helloSource helloResponse [] =
        .ok () saved := ⟨_, rfl⟩
  obtain ⟨saved, processes⟩ := processes
  have stored : ∃ stored : CpdData helloPlatform.jvm, stored.tokens = helloResponse.cpdTokens :=
    ⟨⟨helloResponse.cpdTokens, by decide, by decide⟩, rfl⟩
  obtain ⟨stored, tokens⟩ := stored
  obtain ⟨first, response, saved_, ⟨second⟩⟩ := exists_hit_after rfl stored tokens processes
  refine ⟨first, second, response, ?_⟩
  refine (cacheHit_reproduces_iff helloPlatform helloPlugin helloSource rfl (.inl rfl) first
    second).mpr ?_
  rw [response]
  rfl

end Cached

end Cache

end SonarJS
