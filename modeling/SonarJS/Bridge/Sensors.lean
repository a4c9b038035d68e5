import SonarJS.Bridge.Requests
import SonarJS.Foundation.Action
import SonarJS.Linting.LinterConfigs

/-!
# The sensors and their linters

The sensors for JavaScript, TypeScript, HTML and YAML run one after another on one Node.js
process. Each has rules of its own and creates the linters for them, under names that all
sensors share, before it sends its files. A file that has not changed can be sent to a
linter that has the rule for code flows only.

The Node.js side is the service of `Bridge.Requests`, which answers like the handlers do. A
sensor gives up where it is cancelled, where the process does not answer, where a request
fails or its response does; nothing is said about what a scan does with that, except that
the next sensor may start.
-/

namespace SonarJS.Bridge.Sensors

open Action
open LinterConfigs (Context FileType LinterWrapper RuleConfig RuleDatabase createConfig enabled)
open Requests (Answer Built Input Operation Service Thrown linterKey)

/-! ## Modes -/

inductive AnalysisMode
  | DEFAULT
  | SKIP_UNCHANGED
deriving DecidableEq

/-- What the mode depends on, of the context of a sensor. -/
structure SensorContext where
  apiVersion : ℕ × ℕ
  canSkipUnchangedFiles : Bool

def DEFAULT_LINTER_ID : String := "default"

def UNCHANGED_LINTER_ID : String := "unchanged"

def UCFG_ESLINT_KEY : String := "ucfg"

def isRuntimeApiCompatible (context : SensorContext) : Bool :=
  9 < context.apiVersion.1 || context.apiVersion.1 = 9 && 4 ≤ context.apiVersion.2

def getMode (context : SensorContext) (rules : List RuleConfig) : AnalysisMode :=
  if !isRuntimeApiCompatible context then .DEFAULT
  else if !context.canSkipUnchangedFiles then .DEFAULT
  else if !rules.any (·.key = UCFG_ESLINT_KEY) then .DEFAULT
  else .SKIP_UNCHANGED

def getUnchangedFileRules (rules : List RuleConfig) : List RuleConfig :=
  (rules.find? (·.key = UCFG_ESLINT_KEY)).toList

def getHtmlFileRules (rules : List RuleConfig) : List RuleConfig :=
  rules.filter fun rule => !(["no-var"].contains rule.key)

inductive Status
  | SAME
  | CHANGED
  | ADDED
deriving DecidableEq

structure InputFile where
  absolutePath : String
  type : FileType
  status : Status
deriving DecidableEq

def AnalysisMode.getLinterIdFor (mode : AnalysisMode) (file : InputFile) : String :=
  if mode = .SKIP_UNCHANGED ∧ file.status = .SAME then UNCHANGED_LINTER_ID else DEFAULT_LINTER_ID

/-! ## Sensors -/

inductive Kind
  | javaScript
  | typeScript
  | html
  | yaml
deriving DecidableEq

/-- A sensor: its rules, `checks.eslintRules()`, and the settings that it reads. -/
structure Sensor where
  kind : Kind
  rules : List RuleConfig
  environments : List String
  globals : List String
  context : SensorContext

def Sensor.analysisMode (sensor : Sensor) : AnalysisMode := getMode sensor.context sensor.rules

/-- The rules that the sensor initializes the linter with. -/
def Sensor.inputRules (sensor : Sensor) : List RuleConfig :=
  if sensor.kind = .html then getHtmlFileRules sensor.rules else sensor.rules

/-- How a request ends. -/
inductive Delivery
  | answered
  /-- The process has done what it was asked for, but its answer does not arrive. -/
  | unanswered
  | lost
deriving DecidableEq

/-- What a sensor meets with a file. -/
structure Round (P O : Type) where
  isCancelled : Bool
  isAlive : Bool
  isAnalysisRequired : Bool
  fileContent : Option String
  /-- The content for the analysis, once it is read. -/
  content : Except Thrown (Option String)
  lint : Option String → LinterWrapper → Option P → Except Thrown O
  delivery : Delivery
  /-- Whether the response can be processed and the cache can be written. -/
  processes : Bool

/-- The requests that have to do with `tsconfig.json` files. -/
inductive TsConfigRequest (P O : Type)
  | createProgram (built : Built P) (resolved : List (Option String))
  | deleteProgram (programId : String)
  | newTsConfig
  | respond (result : Except Thrown O)
  | fail (thrown : Thrown)

def TsConfigRequest.operation {P O : Type} : TsConfigRequest P O → Operation P LinterWrapper O
  | .createProgram built resolved => .createProgram built resolved
  | .deleteProgram programId => .deleteProgram programId
  | .newTsConfig => .ok
  | .respond result => .answer result
  | .fail thrown => .fail thrown

/-- What a sensor has to do. Files come in the order of the sensor, for TypeScript among the
requests for programs and `tsconfig.json` files. -/
inductive Task (P O : Type)
  | file (file : InputFile) (programId : Option String) (round : Round P O)
  | tsConfig (request : TsConfigRequest P O) (delivery : Delivery)

inductive JavaException
  | cancellation
  | illegalState (message : String)
deriving DecidableEq

/-- An analysis that has found its linter, or not. -/
structure Analysis (O : Type) where
  sensor : Sensor
  file : InputFile
  linter : Option LinterWrapper
  answer : Answer O

/-- The Node.js side, and the analyses it has made. -/
structure World (P O : Type) where
  service : Service P LinterWrapper := .initial
  analyses : List (Analysis O) := []

abbrev SensorM (P O : Type) := EStateM JavaException (World P O)

section Runs

variable {P O : Type}

/-- `request`. -/
def request (operation : Operation P LinterWrapper O) (delivery : Delivery) :
    SensorM P O (Answer O) := do
  let world ← get
  let (service, answer) := world.service.perform operation
  match delivery with
  | .lost => throw (.illegalState "eslint-bridge is unresponsive")
  | .unanswered =>
    set { world with service }
    throw (.illegalState "eslint-bridge is unresponsive")
  | .answered =>
    set { world with service }
    return answer

variable (context : Context) (linterRules : RuleDatabase)

/-- The linter that the sensor wants for some rules. -/
def Sensor.wrapper (sensor : Sensor) (rules : List RuleConfig) : LinterWrapper :=
  createConfig context linterRules rules sensor.environments sensor.globals

/-- The creation of a linter can throw, when the rules are loaded. -/
def initLinterWith (sensor : Sensor) (linterId : String) (rules : List RuleConfig)
    (creation : Except Thrown Unit) (delivery : Delivery) : SensorM P O Unit := do
  let operation := match creation with
    | .ok () => .initLinter (some linterId) (sensor.wrapper context linterRules rules)
    | .error thrown => .fail thrown
  match ← request operation delivery with
  | .ok => return ()
  | _ => throw (.illegalState "Failed to initialize linter")

/-- What the initialization of the linters meets. -/
structure Initialization where
  creation : Except Thrown Unit
  delivery : Delivery
  unchangedCreation : Except Thrown Unit
  unchangedDelivery : Delivery

def initLinter (sensor : Sensor) (meets : Initialization) : SensorM P O Unit := do
  initLinterWith context linterRules sensor DEFAULT_LINTER_ID sensor.inputRules meets.creation
    meets.delivery
  if sensor.analysisMode = .SKIP_UNCHANGED then
    initLinterWith context linterRules sensor UNCHANGED_LINTER_ID
      (getUnchangedFileRules sensor.inputRules) meets.unchangedCreation meets.unchangedDelivery

/-- The operation that the analysis of a file asks for. -/
def analysisOperation (sensor : Sensor) (file : InputFile) (programId : Option String)
    (round : Round P O) : Operation P LinterWrapper O :=
  let linterId := some (sensor.analysisMode.getLinterIdFor file)
  let input : Input := ⟨file.absolutePath, round.fileContent, linterId, programId⟩
  match round.content with
  | .error thrown => .fail thrown
  | .ok content =>
    match sensor.kind with
    | .javaScript | .typeScript => .analyzeJSTS input content round.lint
    | .html | .yaml => .analyzeEmbedded input content fun content linter =>
        round.lint content linter none

/-- Only what is delivered is analysed. -/
def recordAnalysis (sensor : Sensor) (file : InputFile) (programId : Option String)
    (round : Round P O) (world : World P O) : World P O :=
  match round.delivery, round.content with
  | .lost, _ | _, .error _ => world
  | _, .ok _ =>
    { world with
      analyses := world.analyses ++
        [{ sensor, file
           linter := world.service.linters (sensor.analysisMode.getLinterIdFor file)
           answer :=
            (world.service.perform (analysisOperation sensor file programId round)).2 }] }

/-- The body of the loops over the files, with `analyze`. -/
def analyzeFile (sensor : Sensor) (file : InputFile) (programId : Option String)
    (round : Round P O) : SensorM P O Unit := do
  if round.isCancelled then throw .cancellation
  if !round.isAlive then throw (.illegalState "eslint-bridge server is not answering")
  if round.isAnalysisRequired then
    modify (recordAnalysis sensor file programId round)
    let _ ← request (analysisOperation sensor file programId round) round.delivery
    if !round.processes then throw (.illegalState "the response cannot be processed")

def runTasks (sensor : Sensor) : List (Task P O) → SensorM P O Unit
  | [] => return ()
  | .file file programId round :: tasks => do
    analyzeFile sensor file programId round
    runTasks sensor tasks
  | .tsConfig operation delivery :: tasks => do
    let _ ← request operation.operation delivery
    runTasks sensor tasks

def analyzeFiles (sensor : Sensor) (meets : Initialization) (tasks : List (Task P O)) :
    SensorM P O Unit := do
  initLinter context linterRules sensor meets
  runTasks sensor tasks

/-- How `startServerLazily` ends. -/
inductive Start
  | started
  | failed
  | alreadyFailed

/-- The execution of a sensor, with files or without. -/
structure Execution (P O : Type) where
  sensor : Sensor
  hasFiles : Bool
  start : Start
  meets : Initialization
  tasks : List (Task P O)
  failFast : Bool

/-- `execute`. It tells whether the scan goes on. -/
def execute (execution : Execution P O) (world : World P O) : World P O × Bool :=
  if !execution.hasFiles then (world, true)
  else
    match execution.start with
    | .alreadyFailed => (world, true)
    | .failed => (world, !execution.failFast)
    | .started =>
      match analyzeFiles context linterRules execution.sensor execution.meets execution.tasks
          world with
      | .ok () world => (world, true)
      | .error .cancellation world => (world, true)
      | .error (.illegalState _) world => (world, !execution.failFast)

/-- A scan: one sensor after another. -/
def scan (world : World P O) : List (Execution P O) → World P O
  | [] => world
  | execution :: executions =>
    let (world, goesOn) := execute context linterRules execution world
    if goesOn then scan world executions else world

/-! ## What a linter is for -/

/-- The rules for a file: all of the sensor, or the one for code flows if the file has not
changed and such files can be skipped. -/
def Sensor.rulesFor (sensor : Sensor) (file : InputFile) : List RuleConfig :=
  if sensor.analysisMode = .SKIP_UNCHANGED ∧ file.status = .SAME then
    getUnchangedFileRules sensor.inputRules
  else sensor.inputRules

/-- Code in HTML and YAML files counts as main code. -/
def Sensor.typeOf (sensor : Sensor) (file : InputFile) : FileType :=
  match sensor.kind with
  | .javaScript | .typeScript => file.type
  | .html | .yaml => .MAIN

/-- The linters that a sensor may ask for are its own. -/
structure Owns (sensor : Sensor) (service : Service P LinterWrapper) : Prop where
  default : service.linters DEFAULT_LINTER_ID =
    some (sensor.wrapper context linterRules sensor.inputRules)
  unchanged : sensor.analysisMode = .SKIP_UNCHANGED → service.linters UNCHANGED_LINTER_ID =
    some (sensor.wrapper context linterRules (getUnchangedFileRules sensor.inputRules))

/-- The linter that was found is the one for the rules of the file. -/
def Analysis.Right (analysis : Analysis O) : Prop :=
  analysis.linter = some (analysis.sensor.wrapper context linterRules
    (analysis.sensor.rulesFor analysis.file))

def World.Right (world : World P O) : Prop :=
  ∀ analysis ∈ world.analyses, analysis.Right context linterRules

variable {context linterRules}

theorem Owns.linter {sensor : Sensor} {service : Service P LinterWrapper}
    (owns : Owns context linterRules sensor service) (file : InputFile) :
    service.linters (sensor.analysisMode.getLinterIdFor file) =
      some (sensor.wrapper context linterRules (sensor.rulesFor file)) := by
  rw [AnalysisMode.getLinterIdFor, Sensor.rulesFor]
  split
  · rename_i skipped
    exact owns.unchanged skipped.1
  · exact owns.default

theorem Owns.of_linters {sensor : Sensor} {service service' : Service P LinterWrapper}
    (owns : Owns context linterRules sensor service)
    (same : service'.linters = service.linters) : Owns context linterRules sensor service' := by
  refine ⟨?_, ?_⟩
  · rw [same]
    exact owns.default
  · rw [same]
    exact owns.unchanged

/-- A request, whether its answer arrives or not. -/
theorem wp_request {operation : Operation P LinterWrapper O} {delivery : Delivery}
    {world : World P O} {Q : Answer O → World P O → Prop} {E : JavaException → World P O → Prop}
    (lost : ∀ e, E e world)
    (unanswered : ∀ e, E e { world with service := (world.service.perform operation).1 })
    (answered : Q (world.service.perform operation).2
      { world with service := (world.service.perform operation).1 }) :
    wp (request operation delivery) Q E world := by
  cases delivery with
  | answered => exact answered
  | unanswered => exact unanswered _
  | lost => exact lost _

theorem linters_tsConfig (service : Service P LinterWrapper) (request : TsConfigRequest P O) :
    (service.perform request.operation).1.linters = service.linters := by
  cases request <;> rfl

theorem perform_analysisOperation (service : Service P LinterWrapper) (sensor : Sensor)
    (file : InputFile) (programId : Option String) (round : Round P O) :
    (service.perform (analysisOperation sensor file programId round)).1 = service := by
  rw [analysisOperation]
  split
  · rfl
  · split <;> rfl

/-- A linter is created under its name, and the others stay. -/
theorem wp_initLinterWith (sensor : Sensor) (linterId : String) (rules : List RuleConfig)
    (creation : Except Thrown Unit) (delivery : Delivery) (world : World P O) :
    wp (initLinterWith context linterRules sensor linterId rules creation delivery)
      (fun _ world' => world'.analyses = world.analyses ∧
        world'.service.linters = Function.update world.service.linters linterId
          (some (sensor.wrapper context linterRules rules)))
      (fun _ world' => world'.analyses = world.analyses) world := by
  unfold initLinterWith
  cases creation with
  | ok =>
      rw [wp_bind]
      exact wp_request (fun _ => rfl) (fun _ => rfl) ⟨rfl, rfl⟩
  | error thrown =>
      rw [wp_bind]
      refine wp_request (fun _ => rfl) (fun _ => rfl) ?_
      have failed : (Requests.errorMiddleware thrown : Answer O) ≠ .ok := by
        cases thrown with
        | apiError code => cases code <;> exact nofun
        | error => exact nofun
      -- `failed` tells which branch of the answer is left.
      simp only [Service.perform]
      exact rfl

theorem wp_initLinter (sensor : Sensor) (meets : Initialization) (world : World P O) :
    wp (initLinter context linterRules sensor meets)
      (fun _ world' => world'.analyses = world.analyses ∧
        Owns context linterRules sensor world'.service)
      (fun _ world' => world'.analyses = world.analyses) world := by
  have different : DEFAULT_LINTER_ID ≠ UNCHANGED_LINTER_ID := by decide
  rw [initLinter, wp_bind]
  refine wp_mono (wp_initLinterWith sensor _ _ _ _ world) ?_ (fun _ _ same => same)
  rintro - world' ⟨same, linters⟩
  rw [wp_ite]
  refine ⟨fun skips => ?_, fun noSkip => ?_⟩
  · refine wp_mono (wp_initLinterWith sensor _ _ _ _ world') ?_ ?_
    · rintro - world'' ⟨same', linters'⟩
      refine ⟨same'.trans same, ?_, fun _ => ?_⟩
      · rw [linters', linters, Function.update_of_ne different, Function.update_self]
      · rw [linters', Function.update_self]
    · exact fun _ world'' same' => same'.trans same
  · refine ⟨same, ?_, fun skips => absurd skips noSkip⟩
    rw [linters, Function.update_self]

theorem wp_analyzeFile {sensor : Sensor} {world : World P O}
    (owns : Owns context linterRules sensor world.service)
    (right : world.Right context linterRules) (file : InputFile) (programId : Option String)
    (round : Round P O) :
    wp (analyzeFile sensor file programId round)
      (fun _ world' => world'.Right context linterRules ∧
        Owns context linterRules sensor world'.service)
      (fun _ world' => world'.Right context linterRules) world := by
  have recorded : (recordAnalysis sensor file programId round world).Right context
      linterRules := by
    rw [recordAnalysis]
    split
    · exact right
    · exact right
    · intro analysis member
      obtain old | new := List.mem_append.mp member
      · exact right analysis old
      · rw [List.mem_singleton.mp new]
        exact owns.linter file
  have kept : (recordAnalysis sensor file programId round world).service = world.service := by
    rw [recordAnalysis]
    split <;> rfl
  have sent : wp (request (analysisOperation sensor file programId round) round.delivery)
      (fun _ world' => world'.Right context linterRules ∧
        Owns context linterRules sensor world'.service)
      (fun _ world' => world'.Right context linterRules)
      (recordAnalysis sensor file programId round world) := by
    refine wp_request (fun _ => recorded) (fun _ => recorded) ⟨recorded, ?_⟩
    rwa [perform_analysisOperation, kept]
  rw [analyzeFile]
  simp only [wp_bind, wp_ite, wp_throw, wp_pure, wp_modify]
  refine ⟨fun _ => right, fun _ => ⟨fun _ => right, fun _ => ⟨fun _ => ?_, fun _ => ?_⟩⟩⟩
  · refine wp_mono sent ?_ (fun _ _ h => h)
    exact fun _ world' after => ⟨fun _ => after.1, fun _ => after⟩
  · exact ⟨right, owns⟩

theorem wp_runTasks {sensor : Sensor} (tasks : List (Task P O)) {world : World P O}
    (owns : Owns context linterRules sensor world.service)
    (right : world.Right context linterRules) :
    wp (runTasks sensor tasks)
      (fun _ world' => world'.Right context linterRules)
      (fun _ world' => world'.Right context linterRules) world := by
  induction tasks generalizing world with
  | nil => exact right
  | cons task tasks ih =>
      cases task with
      | file file programId round =>
          rw [runTasks, wp_bind]
          refine wp_mono (wp_analyzeFile owns right file programId round) ?_ (fun _ _ h => h)
          exact fun _ world' kept => ih kept.2 kept.1
      | tsConfig operation delivery =>
          rw [runTasks, wp_bind]
          refine wp_request (fun _ => right) (fun _ => right) (ih (owns.of_linters ?_) right)
          exact linters_tsConfig world.service operation

theorem right_execute (execution : Execution P O) {world : World P O}
    (right : world.Right context linterRules) :
    (execute context linterRules execution world).1.Right context linterRules := by
  have ran : wp (analyzeFiles context linterRules execution.sensor execution.meets
      execution.tasks) (fun _ world' => world'.Right context linterRules)
      (fun _ world' => world'.Right context linterRules) world := by
    rw [analyzeFiles, wp_bind]
    refine wp_mono (wp_initLinter execution.sensor execution.meets world) ?_ ?_
    · rintro - world' ⟨same, owns⟩
      exact wp_runTasks execution.tasks owns (by rwa [World.Right, same])
    · intro _ world' same
      rwa [World.Right, same]
  rw [execute]
  split
  · exact right
  · split
    · exact right
    · exact right
    · unfold wp at ran
      split
      · rename_i same
        rwa [same] at ran
      · rename_i same
        rwa [same] at ran
      · rename_i same
        rwa [same] at ran

theorem right_scan (executions : List (Execution P O)) {world : World P O}
    (right : world.Right context linterRules) :
    (scan context linterRules world executions).Right context linterRules := by
  induction executions generalizing world with
  | nil => exact right
  | cons execution executions ih =>
      have executed := right_execute execution right
      rw [scan]
      generalize execute context linterRules execution world = result at executed ⊢
      obtain ⟨world', goesOn⟩ := result
      cases goesOn with
      | true => exact ih executed
      | false => exact executed

theorem mem_getUnchangedFileRules {rules : List RuleConfig} {rule : RuleConfig}
    (member : rule ∈ getUnchangedFileRules rules) : rule ∈ rules ∧ rule.key = UCFG_ESLINT_KEY := by
  have found := Option.mem_toList.mp member
  have same := List.find?_some found
  exact ⟨List.mem_of_find?_eq_some found, of_decide_eq_true same⟩

/-- A rule that is enabled is a rule that computes metrics, or one of the rules. -/
theorem exists_of_enabled {rules : List RuleConfig} {type : FileType} {key : String}
    {options : List Json} (on : enabled context linterRules rules type key = some options) :
    key ∈ LinterConfigs.internalCustomRules.map Prod.fst ∨ ∃ rule ∈ rules, rule.key = key ∧
      rule.fileTypeTarget.contains type := by
  rw [enabled] at on
  split at on
  · rename_i found
    left
    split at found
    · cases found
    · obtain ⟨before, after, same, -⟩ := List.lookup_eq_some_iff.mp found
      rw [same]
      simp
  · right
    obtain ⟨rule, last, -⟩ := Option.map_eq_some_iff.mp on
    have member := List.mem_of_getLast? last
    rw [List.mem_filter, Bool.and_eq_true] at member
    exact ⟨rule, member.1, of_decide_eq_true member.2.1, member.2.2⟩

end Runs

/-- Two sensors with rules of their own, in an analysis that can skip what is unchanged. -/
def exampleScan : List (Execution Unit (List String)) :=
  let round : Round Unit (List String) :=
    { isCancelled := false, isAlive := true, isAnalysisRequired := true, fileContent := none
      content := .ok (some "var x"), delivery := .answered, processes := true
      lint := fun _ linter _ => .ok (linter.config .MAIN).rules.keys }
  let meets : Initialization := ⟨.ok (), .answered, .ok (), .answered⟩
  let rule (key : String) : RuleConfig := ⟨key, [], [.MAIN]⟩
  let sensor (kind : Kind) (rules : List RuleConfig) : Sensor := ⟨kind, rules, [], [], (9, 4), true⟩
  [⟨sensor .javaScript [rule "no-var", rule "ucfg"], true, .started, meets,
      [.file ⟨"a.js", .MAIN, .CHANGED⟩ none round, .file ⟨"b.js", .MAIN, .SAME⟩ none round], false⟩,
    ⟨sensor .html [rule "no-var", rule "semi"], true, .started, meets,
      [.file ⟨"c.html", .MAIN, .SAME⟩ none round], false⟩]

def exampleContext : Context := ⟨[], false, false, []⟩

def exampleRules : RuleDatabase := ⟨fun _ => none, fun _ => false⟩

end SonarJS.Bridge.Sensors
