import Mathlib.Algebra.GroupWithZero.Nat
import Mathlib.Algebra.Order.BigOperators.Group.List
import Mathlib.Algebra.Order.Group.Nat
import SonarJS.Foundation.OrderedCollections
import SonarJS.Foundation.Transitions
import Std.Data.String.ToNat

/-!
# The requests of the bridge

The Node.js side of the bridge keeps the TypeScript programs and the linters it has been
asked to create. Its handlers run one after another up to their next `await`, so requests
overlap: a program gets its identifier when its references have been looked up, an analysis
looks up its linter and its program when its file has been read.

The model follows the handlers under `routing`, the runner of the analyses, `program.ts`,
`linting/eslint/index.ts` and the error middleware. What TypeScript, the parsers, the rules
and the file system answer comes with the events.

Against it stands a service that does one request at a time, over sets of programs and
linters. The answers of the bridge are those of that service, in the order in which they
are given.
-/

namespace SonarJS

namespace Bridge

namespace Requests

inductive ErrorCode
  | parsing
  | failingTypeScript
  | unexpected
  | linterInitialization
deriving DecidableEq

/-- What a handler throws: an `APIError`, or another error with its message. -/
inductive Thrown
  | apiError (code : ErrorCode) (message : String) (line : Option ℕ)
  | error (message : String)
deriving DecidableEq

/-- The body of a response. -/
inductive Answer (O : Type)
  | ok
  | json (output : O)
  | program (programId : String) (files projectReferences : List String) (missingTsConfig : Bool)
  | parsingError (message : String) (code : ErrorCode) (line : Option ℕ) (emptyOutput : Bool)
  | error (message : String)
deriving DecidableEq

def errorMiddleware {O : Type} : Thrown → Answer O
  | .apiError .parsing message line => .parsingError message .parsing line true
  | .apiError .failingTypeScript message _ =>
    .parsingError message .failingTypeScript none false
  | .apiError .linterInitialization message _ =>
    .parsingError message .linterInitialization none false
  | .apiError .unexpected message _ => .error message
  | .error message => .error message

def respond {O : Type} : Except Thrown O → Answer O
  | .ok output => .json output
  | .error thrown => errorMiddleware thrown

/-- A program of TypeScript, with what `createProgram` reads from it. -/
structure Built (P : Type) where
  program : P
  files : List String
  references : List String
  missingTsConfig : Bool

structure Input where
  filePath : String
  fileContent : Option String
  linterId : Option String
  programId : Option String
deriving DecidableEq

/-- The analysis functions. What they do with a file is given by the linter, and for
JavaScript and TypeScript by the program. -/
inductive Analysis (P L O : Type)
  | analyzeJSTS (lint : Option String → L → Option P → Except Thrown O)
  | analyzeEmbedded (lint : Option String → L → Except Thrown O)
  | analyzeCSS (lint : Option String → Except Thrown O)

inductive Request (P L O : Type)
  | analyze (input : Input) (analysis : Analysis P L O)
  | createProgram (built : Except Thrown (Built P))
  | deleteProgram (programId : String)
  | initLinter (linterId : Option String) (linter : Except Thrown L)
  | newTsConfig
  | status
  | tsConfigFiles (files : Except Thrown O)
  | createTsConfigFile

/-- What a handler is waiting for. -/
inductive Waiting (P L O : Type)
  | readFile (input : Input) (analysis : Analysis P L O)
  | stylelint (result : Except Thrown O)
  | references (built : Built P)
  | writeTSConfigFile

/-- How the wait ends. -/
inductive Outcome (O : Type)
  | read (content : Except Thrown String)
  | linted
  | resolved (references : List (Option String))
  | written (file : Except Thrown O)

inductive Reply (P L O : Type)
  | answer (answer : Answer O)
  | await (waiting : Waiting P L O)

/-- The variables of `program.ts` and of `linting/eslint/index.ts`. -/
structure Services (P L : Type) where
  programs : OrderedMap String P := .empty
  programCount : ℕ := 0
  linters : OrderedMap String L := .empty

section Handlers

variable {P L O : Type}

def Services.getProgramById (b : Services P L) (programId : String) : Except Thrown P :=
  match b.programs.get programId with
  | none => .error (.error ("Failed to find program " ++ programId))
  | some program => .ok program

/-- `createProgram`, once its references have been looked up. -/
def Services.registerProgram (b : Services P L) (built : Built P)
    (resolved : List (Option String)) : Services P L × Answer O :=
  let programCount := b.programCount + 1
  let programId := toString programCount
  ({ b with programCount, programs := b.programs.set programId built.program },
    .program programId built.files (resolved.filterMap id) built.missingTsConfig)

def Services.deleteProgram (b : Services P L) (programId : String) : Services P L :=
  { b with programs := b.programs.delete programId }

def linterKey (linterId : Option String) : String := linterId.getD "default"

def Services.initializeLinter (b : Services P L) (linterId : Option String) (linter : L) :
    Services P L :=
  { b with linters := b.linters.set (linterKey linterId) linter }

def missingLinter (linterId : Option String) : Thrown :=
  .apiError .linterInitialization
    ("Linter " ++ linterKey linterId ++ " does not exist. Did you call /init-linter?") none

def Services.getLinter (b : Services P L) (linterId : Option String) : Except Thrown L :=
  match b.linters.get (linterKey linterId) with
  | none => .error (missingLinter linterId)
  | some linter => .ok linter

/-- The parser options ask for the program each time the code is parsed, so a program that
is not found ends the analysis. -/
def Services.programOf (b : Services P L) (input : Input) : Except Thrown (Option P) :=
  match input.programId with
  | none => .ok none
  | some programId => (b.getProgramById programId).map some

def Services.analyzeJSTS (b : Services P L) (input : Input) (content : Option String)
    (lint : Option String → L → Option P → Except Thrown O) : Except Thrown O := do
  let linter ← b.getLinter input.linterId
  let program ← b.programOf input
  lint content linter program

def Services.analyzeEmbedded (b : Services P L) (input : Input) (content : Option String)
    (lint : Option String → L → Except Thrown O) : Except Thrown O := do
  let linter ← b.getLinter input.linterId
  lint content linter

/-- The call of the analysis function in the runner. -/
def Services.runAnalysis (b : Services P L) (input : Input) (content : Option String) :
    Analysis P L O → Reply P L O
  | .analyzeJSTS lint => .answer (respond (b.analyzeJSTS input content lint))
  | .analyzeEmbedded lint => .answer (respond (b.analyzeEmbedded input content lint))
  | .analyzeCSS lint => .await (.stylelint (lint content))

/-- `input.filePath && !input.fileContent`. -/
def Input.needsFile (input : Input) : Bool :=
  input.filePath ≠ "" && input.fileContent.getD "" = ""

/-- A handler, up to its first `await`. -/
def handle (b : Services P L) : Request P L O → Services P L × Reply P L O
  | .analyze input analysis =>
    if input.needsFile then (b, .await (.readFile input analysis))
    else (b, b.runAnalysis input input.fileContent analysis)
  | .createProgram (.error thrown) => (b, .answer (errorMiddleware thrown))
  | .createProgram (.ok built) =>
    if built.references = [] then
      let (b, answer) := b.registerProgram built []
      (b, .answer answer)
    else (b, .await (.references built))
  | .deleteProgram programId => (b.deleteProgram programId, .answer .ok)
  | .initLinter _ (.error thrown) => (b, .answer (errorMiddleware thrown))
  | .initLinter linterId (.ok linter) => (b.initializeLinter linterId linter, .answer .ok)
  | .newTsConfig | .status => (b, .answer .ok)
  | .tsConfigFiles files => (b, .answer (respond files))
  | .createTsConfigFile => (b, .await .writeTSConfigFile)

/-- A handler, from one `await` to the next. -/
def resume (b : Services P L) : Waiting P L O → Outcome O → Option (Services P L × Reply P L O)
  | .readFile _ _, .read (.error thrown) => some (b, .answer (errorMiddleware thrown))
  | .readFile input analysis, .read (.ok content) =>
    some (b, b.runAnalysis input (some content) analysis)
  | .stylelint result, .linted => some (b, .answer (respond result))
  | .references built, .resolved resolved =>
    if resolved.length = built.references.length then
      let (b, answer) := b.registerProgram built resolved
      some (b, .answer answer)
    else none
  | .writeTSConfigFile, .written file => some (b, .answer (respond file))
  | _, _ => none

end Handlers

/-! ## One request at a time -/

/-- The requests with everything that was waited for. -/
inductive Operation (P L O : Type)
  | analyzeJSTS (input : Input) (content : Option String)
      (lint : Option String → L → Option P → Except Thrown O)
  | analyzeEmbedded (input : Input) (content : Option String)
      (lint : Option String → L → Except Thrown O)
  | createProgram (built : Built P) (resolved : List (Option String))
  | deleteProgram (programId : String)
  | initLinter (linterId : Option String) (linter : L)
  | answer (result : Except Thrown O)
  | fail (thrown : Thrown)
  | ok

/-- The service as a user sees it: which programs and which linters there are. -/
structure Service (P L : Type) where
  programs : String → Option P
  created : ℕ
  linters : String → Option L

namespace Service

variable {P L O : Type}

def initial : Service P L := ⟨fun _ => none, 0, fun _ => none⟩

/-- The analysis of a file, if there are its linter and its program. -/
def analysis (s : Service P L) (input : Input)
    (lint : L → Option P → Except Thrown O) : Except Thrown O :=
  match s.linters (linterKey input.linterId), input.programId with
  | none, _ => .error (missingLinter input.linterId)
  | some linter, none => lint linter none
  | some linter, some programId =>
    match s.programs programId with
    | none => .error (.error ("Failed to find program " ++ programId))
    | some program => lint linter (some program)

def perform (s : Service P L) : Operation P L O → Service P L × Answer O
  | .analyzeJSTS input content lint => (s, respond (s.analysis input (lint content)))
  | .analyzeEmbedded input content lint =>
    (s, respond (s.analysis { input with programId := none } fun linter _ => lint content linter))
  | .createProgram built resolved =>
    ({ s with
        programs := Function.update s.programs (toString (s.created + 1)) (some built.program)
        created := s.created + 1 },
      .program (toString (s.created + 1)) built.files (resolved.filterMap id)
        built.missingTsConfig)
  | .deleteProgram programId =>
    ({ s with programs := Function.update s.programs programId none }, .ok)
  | .initLinter linterId linter =>
    ({ s with linters := Function.update s.linters (linterKey linterId) (some linter) }, .ok)
  | .answer result => (s, respond result)
  | .fail thrown => (s, errorMiddleware thrown)
  | .ok => (s, .ok)

/-- The answers to some operations, and the service after them. -/
def performAll (s : Service P L) : List (Operation P L O) → Service P L × List (Answer O)
  | [] => (s, [])
  | operation :: operations =>
    let (t, answer) := s.perform operation
    let (u, answers) := t.performAll operations
    (u, answer :: answers)

end Service

/-! ## Requests that overlap -/

structure Server (P L O : Type) where
  services : Services P L := {}
  /-- The requests that are not answered yet. -/
  waiting : List (ℕ × Waiting P L O) := []
  responses : List (ℕ × Answer O) := []

inductive Event (P L O : Type)
  | receive (id : ℕ) (request : Request P L O)
  | resume (id : ℕ) (outcome : Outcome O)

section Server

variable {P L O : Type}

def Server.reply (s : Server P L O) (id : ℕ) : Services P L × Reply P L O → Server P L O
  | (b, .answer answer) => { s with services := b, responses := s.responses ++ [(id, answer)] }
  | (b, .await waiting) => { s with services := b, waiting := s.waiting ++ [(id, waiting)] }

def Server.remove (s : Server P L O) (id : ℕ) : Server P L O :=
  { s with waiting := s.waiting.filter fun entry => entry.1 ≠ id }

/-- The requests that have been received, whether they are answered or not. -/
def Server.requests (s : Server P L O) : List ℕ :=
  s.responses.map Prod.fst ++ s.waiting.map Prod.fst

def step (s : Server P L O) : Event P L O → Option (Server P L O)
  | .receive id request =>
    if id ∈ s.requests then none else some (s.reply id (handle s.services request))
  | .resume id outcome =>
    match s.waiting.find? fun entry => entry.1 = id with
    | none => none
    | some (_, waiting) =>
      (resume s.services waiting outcome).map fun reply => (s.remove id).reply id reply

def bridge (P L O : Type) : TransitionSystem (Server P L O) (Event P L O) := ⟨{}, step⟩

/-! ## What a handler does to the service -/

/-- The content that is analysed: the one that was sent, or the one that was read. -/
def Input.Reads (input : Input) (content : Option String) : Prop :=
  if input.needsFile then content.isSome else content = input.fileContent

/-- The operations that a request stands for, one for each way its waiting can end. -/
inductive Request.Allows : Request P L O → Operation P L O → Prop
  | analyzeJSTS (input lint) (content : Option String) : input.Reads content →
      Allows (.analyze input (.analyzeJSTS lint)) (.analyzeJSTS input content lint)
  | analyzeEmbedded (input lint) (content : Option String) : input.Reads content →
      Allows (.analyze input (.analyzeEmbedded lint)) (.analyzeEmbedded input content lint)
  | analyzeCSS (input lint) (content : Option String) : input.Reads content →
      Allows (.analyze input (.analyzeCSS lint)) (.answer (lint content))
  | unreadable (input analysis) (thrown : Thrown) : input.needsFile = true →
      Allows (.analyze input analysis) (.fail thrown)
  | createProgram (built : Built P) (resolved : List (Option String)) :
      resolved.length = built.references.length →
      Allows (.createProgram (.ok built)) (.createProgram built resolved)
  | createFails (thrown : Thrown) : Allows (.createProgram (.error thrown)) (.fail thrown)
  | deleteProgram (programId : String) :
      Allows (.deleteProgram programId) (.deleteProgram programId)
  | initLinter (linterId) (linter : L) :
      Allows (.initLinter linterId (.ok linter)) (.initLinter linterId linter)
  | initFails (linterId) (thrown : Thrown) :
      Allows (.initLinter linterId (.error thrown)) (.fail thrown)
  | newTsConfig : Allows .newTsConfig .ok
  | status : Allows .status .ok
  | tsConfigFiles (files : Except Thrown O) : Allows (.tsConfigFiles files) (.answer files)
  | createTsConfigFile (file : Except Thrown O) : Allows .createTsConfigFile (.answer file)

/-- What a request can be waiting for. -/
inductive Request.Awaits : Request P L O → Waiting P L O → Prop
  | readFile (input analysis) : input.needsFile = true →
      Awaits (.analyze input analysis) (.readFile input analysis)
  | stylelint (input lint) (content : Option String) : input.Reads content →
      Awaits (.analyze input (.analyzeCSS lint)) (.stylelint (lint content))
  | references (built : Built P) : Awaits (.createProgram (.ok built)) (.references built)
  | writeTSConfigFile : Awaits .createTsConfigFile .writeTSConfigFile

/-- The programs and the linters of the bridge, as the user sees them. -/
def Services.service (b : Services P L) : Service P L :=
  ⟨b.programs.get, b.programCount, b.linters.get⟩

@[simp] theorem service_deleteProgram (b : Services P L) (programId : String) :
    (b.deleteProgram programId).service =
      { b.service with programs := Function.update b.service.programs programId none } := by
  simp only [Services.service, Services.deleteProgram, Service.mk.injEq, and_true]
  funext x
  simp [Function.update_apply]

@[simp] theorem service_initializeLinter (b : Services P L) (linterId : Option String)
    (linter : L) : (b.initializeLinter linterId linter).service =
      { b.service with
        linters := Function.update b.service.linters (linterKey linterId) (some linter) } := by
  simp only [Services.service, Services.initializeLinter, Service.mk.injEq, true_and]
  funext x
  simp [Function.update_apply]

theorem perform_createProgram (b : Services P L) (built : Built P)
    (resolved : List (Option String)) :
    b.service.perform (O := O) (.createProgram built resolved) =
      ((b.registerProgram (O := O) built resolved).1.service,
        (b.registerProgram built resolved).2) := by
  simp only [Service.perform, Services.registerProgram, Services.service, Prod.mk.injEq,
    Service.mk.injEq, and_true]
  funext x
  simp [Function.update_apply]

theorem analyzeJSTS_eq (b : Services P L) (input : Input) (content : Option String)
    (lint : Option String → L → Option P → Except Thrown O) :
    b.analyzeJSTS input content lint = b.service.analysis input (lint content) := by
  simp only [Services.analyzeJSTS, Service.analysis, Services.service, Services.getLinter,
    Services.programOf, Services.getProgramById]
  cases b.linters.get (linterKey input.linterId) with
  | none => rfl
  | some linter =>
      cases input.programId with
      | none => rfl
      | some programId => cases found : b.programs.get programId <;> simp [found] <;> rfl

theorem analyzeEmbedded_eq (b : Services P L) (input : Input) (content : Option String)
    (lint : Option String → L → Except Thrown O) :
    b.analyzeEmbedded input content lint =
      b.service.analysis { input with programId := none } fun linter _ => lint content linter := by
  simp only [Services.analyzeEmbedded, Service.analysis, Services.service, Services.getLinter]
  cases b.linters.get (linterKey input.linterId) <;> rfl

/-- What a piece of a handler does: it answers as the service does to an operation of its
request, or it waits and changes nothing. -/
inductive Serves (b : Services P L) (request : Request P L O) :
    Services P L × Reply P L O → Prop
  | answer (b' : Services P L) (answer : Answer O) (operation : Operation P L O) :
      request.Allows operation → b.service.perform operation = (b'.service, answer) →
      Serves b request (b', .answer answer)
  | await (waiting : Waiting P L O) : request.Awaits waiting →
      Serves b request (b, .await waiting)

theorem runAnalysis_serves (b : Services P L) {input : Input} {content : Option String}
    (reads : input.Reads content) (analysis : Analysis P L O) :
    Serves b (.analyze input analysis) (b, b.runAnalysis input content analysis) := by
  cases analysis with
  | analyzeJSTS lint =>
      refine .answer b _ _ (.analyzeJSTS input lint content reads) ?_
      simp [Service.perform, analyzeJSTS_eq]
  | analyzeEmbedded lint =>
      refine .answer b _ _ (.analyzeEmbedded input lint content reads) ?_
      simp [Service.perform, analyzeEmbedded_eq]
  | analyzeCSS lint => exact .await _ (.stylelint input lint content reads)

theorem handle_serves (b : Services P L) (request : Request P L O) :
    Serves b request (handle b request) := by
  cases request with
  | analyze input analysis =>
      simp only [handle]
      split
      · exact .await _ (.readFile input analysis ‹_›)
      · exact runAnalysis_serves b (by simp_all [Input.Reads]) analysis
  | createProgram built =>
      cases built with
      | error thrown => exact .answer b _ _ (.createFails thrown) rfl
      | ok built =>
          simp only [handle]
          split
          · rename_i empty
            exact .answer _ _ _ (.createProgram built [] (by simp [empty]))
              (perform_createProgram b built [])
          · exact .await _ (.references built)
  | deleteProgram programId =>
      exact .answer _ _ _ (.deleteProgram programId) (by simp [Service.perform])
  | initLinter linterId linter =>
      cases linter with
      | error thrown => exact .answer b _ _ (.initFails linterId thrown) rfl
      | ok linter =>
          exact .answer _ _ _ (.initLinter linterId linter) (by simp [Service.perform])
  | newTsConfig => exact .answer b _ _ .newTsConfig rfl
  | status => exact .answer b _ _ .status rfl
  | tsConfigFiles files => exact .answer b _ _ (.tsConfigFiles files) rfl
  | createTsConfigFile => exact .await _ .writeTSConfigFile

theorem resume_serves {b : Services P L} {request : Request P L O} {waiting : Waiting P L O}
    {outcome : Outcome O} {reply : Services P L × Reply P L O} (awaits : request.Awaits waiting)
    (resumed : resume b waiting outcome = some reply) : Serves b request reply := by
  cases awaits with
  | readFile input analysis needs =>
      cases outcome with
      | read content =>
          cases content with
          | error thrown =>
              cases resumed
              exact .answer b _ _ (.unreadable input analysis thrown needs) rfl
          | ok content =>
              cases resumed
              exact runAnalysis_serves b (by simp [Input.Reads, needs]) analysis
      | linted | resolved | written => cases resumed
  | stylelint input lint content reads =>
      cases outcome with
      | linted =>
          cases resumed
          exact .answer b _ _ (.analyzeCSS input lint content reads) rfl
      | read | resolved | written => cases resumed
  | references built =>
      cases outcome with
      | resolved resolved =>
          simp only [resume, Option.ite_none_right_eq_some, Option.some.injEq] at resumed
          obtain ⟨same, rfl⟩ := resumed
          exact .answer _ _ _ (.createProgram built resolved same)
            (perform_createProgram b built resolved)
      | read | linted | written => cases resumed
  | writeTSConfigFile =>
      cases outcome with
      | written file =>
          cases resumed
          exact .answer b _ _ (.createTsConfigFile file) rfl
      | read | linted | resolved => cases resumed

/-! ## Runs -/

theorem performAll_concat (s : Service P L) (operations : List (Operation P L O))
    (operation : Operation P L O) :
    s.performAll (operations ++ [operation]) =
      (((s.performAll operations).1.perform operation).1,
        (s.performAll operations).2 ++ [((s.performAll operations).1.perform operation).2]) := by
  induction operations generalizing s with
  | nil => rfl
  | cons first operations ih => simp [Service.performAll, ih]

/-- The answers so far are those of the service to operations of the answered requests. -/
def Linear (events : List (Event P L O)) (s : Server P L O) : Prop :=
  ∃ operations : List (Operation P L O),
    List.Forall₂ (fun response operation => ∃ request, .receive response.1 request ∈ events ∧
      request.Allows operation) s.responses operations ∧
    Service.initial.performAll operations = (s.services.service, s.responses.map Prod.snd)

/-- Every waiting request waits for what it can be waiting for. -/
def Awaited (events : List (Event P L O)) (s : Server P L O) : Prop :=
  ∀ entry ∈ s.waiting, ∃ request, .receive entry.1 request ∈ events ∧ request.Awaits entry.2

theorem Linear.reply {events : List (Event P L O)} {s t : Server P L O} {id : ℕ}
    {request : Request P L O} {reply : Services P L × Reply P L O} (linear : Linear events s)
    (received : .receive id request ∈ events) (services : t.services = s.services)
    (responses : t.responses = s.responses) (serves : Serves t.services request reply) :
    Linear events (t.reply id reply) := by
  obtain ⟨operations, allowed, performed⟩ := linear
  cases serves with
  | await waiting awaits =>
      refine ⟨operations, by rw [← responses] at allowed; exact allowed, ?_⟩
      rw [performed, ← responses, ← services]
      rfl
  | answer b' answer operation allows performs =>
      refine ⟨operations ++ [operation], ?_, ?_⟩
      · rw [← responses] at allowed
        exact List.rel_append allowed (.cons ⟨request, received, allows⟩ .nil)
      · simp [performAll_concat, performed, ← services, performs, ← responses, Server.reply]

theorem Linear.mono {events events' : List (Event P L O)} {s : Server P L O}
    (linear : Linear events s) (more : events ⊆ events') : Linear events' s := by
  obtain ⟨operations, allowed, performed⟩ := linear
  refine ⟨operations, allowed.imp ?_, performed⟩
  rintro response operation ⟨request, received, allows⟩
  exact ⟨request, more received, allows⟩

theorem Awaited.mono {events events' : List (Event P L O)} {s : Server P L O}
    (awaited : Awaited events s) (more : events ⊆ events') : Awaited events' s := by
  intro entry member
  obtain ⟨request, received, awaits⟩ := awaited entry member
  exact ⟨request, more received, awaits⟩

theorem Awaited.reply {events : List (Event P L O)} {s : Server P L O} {id : ℕ}
    {request : Request P L O} {reply : Services P L × Reply P L O} (awaited : Awaited events s)
    (received : .receive id request ∈ events) (serves : Serves s.services request reply) :
    Awaited events (s.reply id reply) := by
  cases serves with
  | answer => exact awaited
  | await waiting awaits =>
      intro entry member
      obtain old | new := List.mem_append.mp member
      · exact awaited entry old
      · rw [List.mem_singleton.mp new]
        exact ⟨request, received, awaits⟩

/-- What an event does: a handler runs on, from its start or from the end of a wait. -/
inductive Runs (s : Server P L O) : Event P L O → Server P L O → Prop
  | receive (id : ℕ) (request : Request P L O) : id ∉ s.requests →
      Runs s (.receive id request) (s.reply id (handle s.services request))
  | resume (id : ℕ) (outcome : Outcome O) (waiting : Waiting P L O)
      (reply : Services P L × Reply P L O) : (id, waiting) ∈ s.waiting →
      resume s.services waiting outcome = some reply →
      Runs s (.resume id outcome) ((s.remove id).reply id reply)

theorem runs_of_step {s t : Server P L O} {e : Event P L O} (stepped : step s e = some t) :
    Runs s e t := by
  cases e with
  | receive id request =>
      simp only [step, Option.ite_none_left_eq_some, Option.some.injEq] at stepped
      obtain ⟨new, rfl⟩ := stepped
      exact .receive id request new
  | resume id outcome =>
      simp only [step] at stepped
      split at stepped
      · cases stepped
      · rename_i key waiting found
        obtain ⟨reply, resumed, rfl⟩ := Option.map_eq_some_iff.mp stepped
        have same : key = id := by simpa using List.find?_some found
        exact .resume id outcome waiting reply (same ▸ List.mem_of_find?_eq_some found) resumed

theorem serving_of_reaches {events : List (Event P L O)} {s : Server P L O}
    (reached : (bridge P L O).Reaches events s) : Linear events s ∧ Awaited events s := by
  refine reached.invariant (P := fun events s => Linear events s ∧ Awaited events s)
    ⟨⟨[], .nil, rfl⟩, by simp [Awaited, bridge]⟩ ?_
  rintro es s e t - ⟨linear, awaited⟩ stepped
  have linear' := linear.mono (List.subset_append_left es [e])
  have awaited' := awaited.mono (List.subset_append_left es [e])
  cases runs_of_step stepped with
  | receive id request new =>
      have received : .receive id request ∈ es ++ [.receive id request] := by simp
      have serves := handle_serves s.services request
      exact ⟨linear'.reply received rfl rfl serves, awaited'.reply received serves⟩
  | resume id outcome waiting reply member resumed =>
      obtain ⟨request, received, awaits⟩ := awaited' _ member
      have serves := resume_serves awaits resumed
      refine ⟨linear'.reply received rfl rfl serves, Awaited.reply ?_ received serves⟩
      intro entry kept
      exact awaited' entry (List.mem_filter.mp kept).1

theorem responses_prefix {s t : Server P L O} {es : List (Event P L O)}
    (ran : (bridge P L O).run s es = some t) : s.responses <+: t.responses := by
  refine TransitionSystem.run_keeps (P := fun t => s.responses <+: t.responses) ?_ ran
    List.prefix_rfl
  have grows (t : Server P L O) (id : ℕ) (reply : Services P L × Reply P L O) :
      t.responses <+: (t.reply id reply).responses := by
    obtain ⟨b, answer | waiting⟩ := reply
    · exact List.prefix_append _ _
    · exact List.prefix_rfl
  intro e _ t u within stepped
  cases runs_of_step stepped with
  | receive id request new => exact within.trans (grows t id _)
  | resume id outcome waiting reply member resumed =>
      exact within.trans (grows (t.remove id) id reply)

/-- However requests overlap, their answers are those of a service that does one request
at a time, in the order in which they are given. Each answer is one that the request with
its identifier allows, and answers are never taken back. -/
theorem bridge_linearizable {events : List (Event P L O)} {s : Server P L O}
    (reached : (bridge P L O).Reaches events s) :
    (∃ operations : List (Operation P L O),
      List.Forall₂ (fun response operation => ∃ request, .receive response.1 request ∈ events ∧
        request.Allows operation) s.responses operations ∧
      Service.initial.performAll operations = (s.services.service, s.responses.map Prod.snd)) ∧
    ∀ earlier later t, events = earlier ++ later → (bridge P L O).Reaches earlier t →
      t.responses <+: s.responses := by
  refine ⟨(serving_of_reaches reached).1, ?_⟩
  rintro earlier later t rfl before
  obtain ⟨t', before', ran⟩ := TransitionSystem.reaches_append.mp reached
  cases before.unique before'
  exact responses_prefix ran

/-- The second program is answered while the first one waits for its reference; it gets the
first identifier. The analysis with the identifier of the other one finds that one. -/
def overlapping : List (Event String String String) :=
  [.receive 0 (.createProgram (.ok ⟨"a", ["a.ts"], ["b"], false⟩)),
    .receive 1 (.createProgram (.ok ⟨"c", ["c.ts"], [], false⟩)),
    .receive 2 (.initLinter none (.ok "rules")),
    .resume 0 (.resolved [none]),
    .receive 3 (.analyze ⟨"a.ts", some "x", none, some "2"⟩
      (.analyzeJSTS fun _ linter program => .ok (linter ++ " " ++ program.getD ""))),
    .receive 4 (.deleteProgram "2"),
    .receive 5 (.analyze ⟨"a.ts", some "x", none, some "2"⟩
      (.analyzeJSTS fun _ linter program => .ok (linter ++ " " ++ program.getD "")))]

def overlappingResponses : List (ℕ × Answer String) :=
  [(1, .program "1" ["c.ts"] [] false), (2, .ok), (0, .program "2" ["a.ts"] [] false),
    (3, .json "rules a"), (4, .ok), (5, .error "Failed to find program 2")]

theorem bridge_linearizable_overlapping :
    ∃ s, (bridge String String String).Reaches overlapping s ∧
      s.responses = overlappingResponses ∧
      (∃ operations : List (Operation String String String),
        List.Forall₂ (fun response operation => ∃ request,
          .receive response.1 request ∈ overlapping ∧ request.Allows operation)
          s.responses operations ∧
        Service.initial.performAll operations =
          (s.services.service, s.responses.map Prod.snd)) ∧
      ∀ earlier later t, overlapping = earlier ++ later →
        (bridge String String String).Reaches earlier t → t.responses <+: s.responses := by
  refine ⟨_, rfl, by decide, ?_⟩
  exact bridge_linearizable (show (bridge String String String).Reaches overlapping _ from rfl)

/-! ## No request is lost, and none is answered twice -/

def Event.received : Event P L O → Option ℕ
  | .receive id _ => some id
  | .resume _ _ => none

theorem reply_requests (s : Server P L O) (id : ℕ) (reply : Services P L × Reply P L O) :
    (s.reply id reply).requests.Perm (id :: s.requests) := by
  obtain ⟨b, answer | waiting⟩ := reply
  · have moved : (s.responses.map Prod.fst ++ id :: s.waiting.map Prod.fst).Perm
        (id :: (s.responses.map Prod.fst ++ s.waiting.map Prod.fst)) := List.perm_middle
    simpa only [Server.requests, Server.reply, List.map_append, List.map_cons, List.map_nil,
      List.append_assoc, List.singleton_append] using moved
  · simp [Server.requests, Server.reply, List.perm_append_singleton, ← List.append_assoc]

theorem remove_requests {s : Server P L O} {id : ℕ} (nodup : s.requests.Nodup)
    (waits : id ∈ s.waiting.map Prod.fst) : s.requests.Perm (id :: (s.remove id).requests) := by
  have waitingNodup : (s.waiting.map Prod.fst).Nodup := (List.nodup_append.mp nodup).2.1
  have erased : (s.remove id).waiting.map Prod.fst = (s.waiting.map Prod.fst).erase id := by
    rw [waitingNodup.erase_eq_filter, List.filter_map]
    simp [Server.remove, Function.comp_def, bne, BEq.beq]
  have moved := (List.perm_cons_erase waits).append_left (s.responses.map Prod.fst)
  rw [← erased] at moved
  exact moved.trans List.perm_middle

/-- The received requests are those that are answered or wait, each of them once. -/
theorem requests_perm {events : List (Event P L O)} {s : Server P L O}
    (reached : (bridge P L O).Reaches events s) :
    s.requests.Nodup ∧ s.requests.Perm (events.filterMap Event.received) := by
  refine reached.invariant (P := fun events s =>
    s.requests.Nodup ∧ s.requests.Perm (events.filterMap Event.received)) ?_ ?_
  · exact ⟨List.nodup_nil, .refl _⟩
  rintro es s e t - ⟨nodup, perm⟩ stepped
  cases runs_of_step stepped with
  | receive id request new =>
      have replied := reply_requests s id (handle s.services request)
      refine ⟨replied.nodup_iff.mpr (List.nodup_cons.mpr ⟨new, nodup⟩), replied.trans ?_⟩
      rw [List.filterMap_append]
      exact (perm.cons id).trans (List.perm_append_singleton id _).symm
  | resume id outcome waiting reply member resumed =>
      have removed := remove_requests nodup (List.mem_map_of_mem member)
      have same := (reply_requests (s.remove id) id reply).trans removed.symm
      refine ⟨same.nodup_iff.mpr nodup, same.trans ?_⟩
      rw [List.filterMap_append]
      exact perm.trans (.of_eq (List.append_nil _).symm)

/-- The steps that are left to a waiting request. -/
def Waiting.steps : Waiting P L O → ℕ
  | .readFile _ _ => 2
  | .stylelint _ | .references _ | .writeTSConfigFile => 1

/-- Every wait can end, in an answer or in a shorter wait. -/
theorem exists_resume (b : Services P L) (waiting : Waiting P L O) :
    ∃ outcome b' reply, resume b waiting outcome = some (b', reply) ∧
      ∀ waiting', reply = .await waiting' → waiting'.steps < waiting.steps := by
  cases waiting with
  | readFile input analysis =>
      refine ⟨.read (.ok ""), b, _, rfl, ?_⟩
      intro waiting' waits
      cases analysis with
      | analyzeJSTS | analyzeEmbedded => cases waits
      | analyzeCSS =>
          cases waits
          exact Nat.one_lt_two
  | stylelint result => exact ⟨.linted, b, _, rfl, nofun⟩
  | references built =>
      have resolves : (built.references.map some).length = built.references.length := by simp
      let registered := b.registerProgram (O := O) built (built.references.map some)
      exact ⟨.resolved _, registered.1, .answer registered.2, if_pos resolves, nofun⟩
  | writeTSConfigFile => exact ⟨.written (.error (.error "")), b, _, rfl, nofun⟩

def Server.steps (s : Server P L O) : ℕ := (s.waiting.map fun entry => entry.2.steps).sum

theorem steps_remove {s : Server P L O} {id : ℕ} {waiting : Waiting P L O}
    {rest : List (ℕ × Waiting P L O)} (first : s.waiting = (id, waiting) :: rest) :
    (s.remove id).steps + waiting.steps ≤ s.steps := by
  have kept : (s.remove id).waiting.Sublist rest := by
    simp only [Server.remove, first, List.filter_cons, ne_eq, not_true_eq_false, decide_false]
    exact List.filter_sublist
  have fewer := (kept.map fun entry => entry.2.steps).sum_le_sum (by simp)
  simp only [Server.steps, first, List.map_cons, List.sum_cons] at fewer ⊢
  omega

theorem exists_shorter {s : Server P L O} {id : ℕ} {waiting : Waiting P L O}
    {rest : List (ℕ × Waiting P L O)} (first : s.waiting = (id, waiting) :: rest) :
    ∃ outcome t, step s (.resume id outcome) = some t ∧ t.steps < s.steps := by
  obtain ⟨outcome, b', reply, resumed, shorter⟩ := exists_resume s.services waiting
  refine ⟨outcome, (s.remove id).reply id (b', reply), ?_, ?_⟩
  · simp [step, first, resumed]
  · have removed := steps_remove first
    cases reply with
    | answer answer =>
        have positive : 0 < waiting.steps := by cases waiting <;> simp [Waiting.steps]
        show (s.remove id).steps < s.steps
        omega
    | await waiting' =>
        have less := shorter waiting' rfl
        simp only [Server.steps, Server.reply, List.map_append, List.sum_append, List.map_cons,
          List.map_nil, List.sum_singleton] at removed ⊢
        omega

/-- The waits of a server can end one after another, until everything is answered. -/
theorem exists_drained (s : Server P L O) :
    ∃ resumes t, (bridge P L O).run s resumes = some t ∧
      (∀ e ∈ resumes, e.received = none) ∧ t.waiting = [] := by
  induction n : s.steps using Nat.strong_induction_on generalizing s with
  | _ n ih =>
      cases first : s.waiting with
      | nil => exact ⟨[], s, rfl, by simp, first⟩
      | cons entry rest =>
          obtain ⟨outcome, t, stepped, less⟩ := exists_shorter first
          obtain ⟨resumes, u, ran, silent, drained⟩ := ih t.steps (n ▸ less) t rfl
          refine ⟨.resume entry.1 outcome :: resumes, u, ?_, ?_, drained⟩
          · exact Option.bind_eq_some_iff.mpr ⟨t, stepped, ran⟩
          · exact List.forall_mem_cons.mpr ⟨rfl, silent⟩

def Answer.isFailure : Answer O → Bool
  | .parsingError _ _ _ _ | .error _ => true
  | .ok | .json _ | .program _ _ _ _ => false

theorem perform_failure {s : Service P L} {operation : Operation P L O}
    (failure : (s.perform operation).2.isFailure) : (s.perform operation).1 = s := by
  cases operation with
  | createProgram | deleteProgram | initLinter => cases failure
  | _ => rfl

theorem serves_failure {s : Server P L O} {id : ℕ} {b : Services P L} {request : Request P L O}
    {reply : Services P L × Reply P L O} {response : ℕ × Answer O} (serves : Serves b request reply)
    (answered : (s.reply id reply).responses = s.responses ++ [response])
    (failure : response.2.isFailure) : (s.reply id reply).services.service = b.service := by
  cases serves with
  | await waiting => simp [Server.reply] at answered
  | answer b' answer operation allows performs =>
      have same : (id, answer) = response := by simpa [Server.reply] using answered
      have failed : (b.service.perform operation).2.isFailure := by
        rw [performs]
        rw [← same] at failure
        exact failure
      have kept := perform_failure failed
      rw [performs] at kept
      exact kept

/-- Every request that is received is answered once or waits, and however many overlap, all
waits can come to an end. A request that fails leaves the programs and the linters as they
were. -/
theorem requests_answered_once {events : List (Event P L O)} {s : Server P L O}
    (reached : (bridge P L O).Reaches events s) :
    s.requests.Nodup ∧ s.requests.Perm (events.filterMap Event.received) ∧
    (∃ resumes t, (bridge P L O).run s resumes = some t ∧ (∀ e ∈ resumes, e.received = none) ∧
      (t.responses.map Prod.fst).Nodup ∧
      (t.responses.map Prod.fst).Perm (events.filterMap Event.received)) ∧
    ∀ e t response, step s e = some t → t.responses = s.responses ++ [response] →
      response.2.isFailure → t.services.service = s.services.service := by
  obtain ⟨nodup, perm⟩ := requests_perm reached
  refine ⟨nodup, perm, ?_, ?_⟩
  · obtain ⟨resumes, t, ran, silent, drained⟩ := exists_drained s
    have later := TransitionSystem.reaches_append.mpr ⟨s, reached, ran⟩
    obtain ⟨nodup', perm'⟩ := requests_perm later
    have none : resumes.filterMap Event.received = [] :=
      List.filterMap_eq_nil_iff.mpr silent
    simp only [Server.requests, drained, List.map_nil, List.append_nil] at nodup' perm'
    rw [List.filterMap_append, none, List.append_nil] at perm'
    exact ⟨resumes, t, ran, silent, nodup', perm'⟩
  · intro e t response stepped answered failure
    cases runs_of_step stepped with
    | receive id request new =>
        exact serves_failure (handle_serves s.services request) answered failure
    | resume id outcome waiting reply member resumed =>
        obtain ⟨request, received, awaits⟩ := (serving_of_reaches reached).2 _ member
        exact serves_failure (s := s.remove id) (resume_serves awaits resumed) answered failure

theorem requests_answered_once_overlapping :
    ∃ s, (bridge String String String).Reaches overlapping s ∧
      s.requests.Nodup ∧ s.requests.Perm (overlapping.filterMap Event.received) ∧
      (∃ resumes t, (bridge String String String).run s resumes = some t ∧
        (∀ e ∈ resumes, e.received = none) ∧ (t.responses.map Prod.fst).Nodup ∧
        (t.responses.map Prod.fst).Perm (overlapping.filterMap Event.received)) ∧
      ∀ e t response, step s e = some t → t.responses = s.responses ++ [response] →
        response.2.isFailure → t.services.service = s.services.service := by
  refine ⟨_, rfl, ?_⟩
  exact requests_answered_once (show (bridge String String String).Reaches overlapping _ from rfl)

/-! ## The programs that are found -/

def Answer.programId : Answer O → Option String
  | .program programId _ _ _ => some programId
  | _ => none

@[simp] theorem errorMiddleware_programId (thrown : Thrown) :
    (errorMiddleware thrown : Answer O).programId = none := by
  obtain ⟨code, message, line⟩ | message := thrown
  · cases code <;> rfl
  · rfl

@[simp] theorem respond_programId (result : Except Thrown O) :
    (respond result).programId = none := by
  cases result with
  | error thrown => exact errorMiddleware_programId thrown
  | ok output => rfl

theorem programIds_performAll (operations : List (Operation P L O)) :
    (Service.initial.performAll operations).2.filterMap Answer.programId =
      (List.range (Service.initial.performAll operations).1.created).map
        fun k => toString (k + 1) := by
  induction operations using List.reverseRecOn with
  | nil => rfl
  | append_singleton operations operation ih =>
      rw [performAll_concat, List.filterMap_append, ih]
      cases operation with
      | createProgram built resolved =>
          simp [Service.perform, Answer.programId, List.range_succ]
      | analyzeJSTS | analyzeEmbedded | answer | fail => simp [Service.perform]
      | deleteProgram | initLinter | ok => simp [Service.perform, Answer.programId]

/-- What a piece of a handler does to the programs. -/
inductive Change (b b' : Services P L) : Request P L O → Reply P L O → Prop
  | created (built : Built P) (resolved : List (Option String)) :
      (∀ x, b'.programs.get x =
        if x = toString (b.programCount + 1) then some built.program else b.programs.get x) →
      b'.programCount = b.programCount + 1 →
      Change b b' (.createProgram (.ok built)) (.answer (.program (toString (b.programCount + 1))
        built.files (resolved.filterMap id) built.missingTsConfig))
  | deleted (programId : String) :
      (∀ x, b'.programs.get x = if x = programId then none else b.programs.get x) →
      b'.programCount = b.programCount → Change b b' (.deleteProgram programId) (.answer .ok)
  | unchanged (request : Request P L O) (reply : Reply P L O) :
      b'.programs.get = b.programs.get → b'.programCount = b.programCount →
      (∀ programId, request ≠ .deleteProgram programId) →
      (∀ answer, reply = .answer answer → answer.programId = none) → Change b b' request reply

theorem Serves.change {b : Services P L} {request : Request P L O}
    {reply : Services P L × Reply P L O} (serves : Serves b request reply) :
    Change b reply.1 request reply.2 := by
  cases serves with
  | await waiting awaits =>
      refine .unchanged request _ rfl rfl ?_ nofun
      rintro programId rfl
      cases awaits
  | answer b' answer operation allows performs =>
      have programs : (b.service.perform operation).1.programs = b'.programs.get := by
        rw [performs]
        rfl
      have count : (b.service.perform operation).1.created = b'.programCount := by
        rw [performs]
        rfl
      have answered : (b.service.perform operation).2 = answer := by rw [performs]
      have same (kept : (b.service.perform operation).1.programs = b.programs.get)
          (counted : (b.service.perform operation).1.created = b.programCount)
          (noDelete : ∀ programId, request ≠ .deleteProgram programId)
          (noProgram : (b.service.perform operation).2.programId = none) :
          Change b b' request (.answer answer) := by
        refine .unchanged request _ (programs.symm.trans kept) (count.symm.trans counted)
          noDelete ?_
        rintro _ ⟨⟩
        rw [← answered]
        exact noProgram
      cases allows with
      | createProgram built resolved length =>
          rw [← answered]
          refine .created built resolved (fun x => ?_) count.symm
          rw [← programs]
          exact Function.update_apply ..
      | deleteProgram programId =>
          rw [← answered]
          refine .deleted programId (fun x => ?_) count.symm
          rw [← programs]
          exact Function.update_apply ..
      | analyzeJSTS | analyzeEmbedded | analyzeCSS | tsConfigFiles | createTsConfigFile =>
          exact same rfl rfl (by simp) (respond_programId _)
      | unreadable | createFails | initFails =>
          exact same rfl rfl (by simp) (errorMiddleware_programId _)
      | initLinter | newTsConfig | status => exact same rfl rfl (by simp) rfl

/-- The program was created under the identifier, and since then nobody has asked to delete
it. -/
def Creates (events : List (Event P L O)) (programId : String) (program : P) : Prop :=
  ∃ earlier later s responses id built files references missingTsConfig,
    events = earlier ++ later ∧ (bridge P L O).Reaches earlier s ∧
    s.responses = responses ++ [(id, .program programId files references missingTsConfig)] ∧
    .receive id (.createProgram (.ok built)) ∈ earlier ∧ built.program = program ∧
    ∀ id', .receive id' (.deleteProgram programId) ∉ later

theorem Creates.concat {events : List (Event P L O)} {programId : String} {program : P}
    {e : Event P L O} (creates : Creates events programId program)
    (kept : ∀ id', e ≠ .receive id' (.deleteProgram programId)) :
    Creates (events ++ [e]) programId program := by
  obtain ⟨earlier, later, s, responses, id, built, files, references, missing, rfl, reached,
    last, received, same, undeleted⟩ := creates
  refine ⟨earlier, later ++ [e], s, responses, id, built, files, references, missing,
    List.append_assoc .., reached, last, received, same, ?_⟩
  intro id' member
  obtain old | new := List.mem_append.mp member
  · exact undeleted id' old
  · exact kept id' (List.mem_singleton.mp new).symm

theorem Creates.of_concat {events : List (Event P L O)} {programId : String} {program : P}
    {e : Event P L O} {t : Server P L O} (reached : (bridge P L O).Reaches (events ++ [e]) t)
    (creates : Creates (events ++ [e]) programId program) :
    (Creates events programId program ∧ ∀ id', e ≠ .receive id' (.deleteProgram programId)) ∨
    ∃ responses id built files references missingTsConfig,
      t.responses = responses ++ [(id, .program programId files references missingTsConfig)] ∧
      .receive id (.createProgram (.ok built)) ∈ events ++ [e] ∧ built.program = program := by
  obtain ⟨earlier, later, s, responses, id, built, files, references, missing, split, before,
    last, received, same, undeleted⟩ := creates
  obtain rfl | ⟨later', e', rfl⟩ := List.eq_nil_or_concat' later
  · rw [List.append_nil] at split
    subst split
    cases before.unique reached
    exact .inr ⟨responses, id, built, files, references, missing, last, received, same⟩
  · rw [← List.append_assoc] at split
    obtain ⟨rfl, single⟩ := List.append_inj' split rfl
    cases single
    refine .inl ⟨⟨earlier, later', s, responses, id, built, files, references, missing, rfl,
      before, last, received, same, fun id' member => undeleted id' (by simp [member])⟩, ?_⟩
    rintro id' rfl
    exact undeleted id' (by simp)

theorem eq_of_nodup_filterMap {α β : Type} {f : α → Option β} {l : List α}
    (nodup : (l.filterMap f).Nodup) {x y : α} {v : β} (hx : x ∈ l) (hy : y ∈ l)
    (fx : f x = some v) (fy : f y = some v) : x = y := by
  induction l with
  | nil => cases hx
  | cons z l ih =>
      have rest : (l.filterMap f).Nodup :=
        nodup.sublist ((List.sublist_cons_self z l).filterMap f)
      have first (w : α) (fz : f z = some v) (hw : w ∈ l) (fw : f w = some v) : False := by
        rw [List.filterMap_cons_some fz, List.nodup_cons] at nodup
        exact nodup.1 (List.mem_filterMap.mpr ⟨w, hw, fw⟩)
      obtain rfl | inRest := List.mem_cons.mp hx
      · obtain rfl | later := List.mem_cons.mp hy
        · rfl
        · exact (first y fx later fy).elim
      · obtain rfl | later := List.mem_cons.mp hy
        · exact (first x fy inRest fx).elim
        · exact ih rest inRest later

/-- Identifiers of requests are not used twice. -/
theorem received_unique {events : List (Event P L O)} {s : Server P L O} {id : ℕ}
    {request request' : Request P L O} (reached : (bridge P L O).Reaches events s)
    (first : .receive id request ∈ events) (second : .receive id request' ∈ events) :
    request = request' := by
  obtain ⟨nodup, perm⟩ := requests_perm reached
  have same : Event.receive id request = .receive id request' :=
    eq_of_nodup_filterMap (perm.nodup_iff.mp nodup) first second rfl rfl
  cases same
  rfl

/-- What an event does to the programs and to the responses. -/
theorem exists_change {events : List (Event P L O)} {s t : Server P L O} {e : Event P L O}
    (reached : (bridge P L O).Reaches events s) (stepped : step s e = some t) :
    ∃ id request reply, .receive id request ∈ events ++ [e] ∧
      Change s.services t.services request reply ∧
      (∀ answer, reply = .answer answer → t.responses = s.responses ++ [(id, answer)]) ∧
      (∀ waiting, reply = .await waiting → t.responses = s.responses) ∧
      ((∀ programId, request = .deleteProgram programId → e = .receive id request) ∧
        ∀ id' programId, e = .receive id' (.deleteProgram programId) →
          request = .deleteProgram programId) := by
  obtain ⟨-, awaited⟩ := serving_of_reaches reached
  have responds (s : Server P L O) (id : ℕ) (reply : Services P L × Reply P L O) :
      (s.reply id reply).services = reply.1 ∧
      (∀ answer, reply.2 = .answer answer →
        (s.reply id reply).responses = s.responses ++ [(id, answer)]) ∧
      ∀ waiting, reply.2 = .await waiting → (s.reply id reply).responses = s.responses := by
    obtain ⟨b, answer | waiting⟩ := reply
    · exact ⟨rfl, by simp [Server.reply], by simp⟩
    · exact ⟨rfl, by simp, by simp [Server.reply]⟩
  cases runs_of_step stepped with
  | receive id request new =>
      obtain ⟨services, answers, waits⟩ := responds s id (handle s.services request)
      refine ⟨id, request, _, by simp, ?_, answers, waits, fun _ _ => rfl, ?_⟩
      · rw [services]
        exact (handle_serves s.services request).change
      · rintro id' programId ⟨⟩
        rfl
  | resume id outcome waiting reply member resumed =>
      obtain ⟨request, received, awaits⟩ := awaited _ member
      obtain ⟨services, answers, waits⟩ := responds (s.remove id) id reply
      refine ⟨id, request, reply.2, by simp [received], ?_, answers, waits, ?_, nofun⟩
      · rw [services]
        exact (resume_serves awaits resumed).change
      · rintro programId rfl
        cases awaits

/-- If the last answer is that of a creation, its program is found. -/
def LastFound (events : List (Event P L O)) (s : Server P L O) : Prop :=
  ∀ responses id programId files references missingTsConfig,
    s.responses = responses ++ [(id, .program programId files references missingTsConfig)] →
    ∃ built, .receive id (.createProgram (.ok built)) ∈ events ∧
      s.services.programs.get programId = some built.program

/-- The programs are those that have been created and not deleted since. No identifier is
ahead of the counter. -/
structure Found (events : List (Event P L O)) (s : Server P L O) : Prop where
  found : ∀ programId program, s.services.programs.get programId = some program ↔
    Creates events programId program
  unused : ∀ k, s.services.programCount < k → s.services.programs.get (toString k) = none
  last : LastFound events s

/-- A program whose creation has been followed by nothing is found. -/
theorem LastFound.get_of_creates {events : List (Event P L O)} {e : Event P L O}
    {t : Server P L O} {programId : String} {program : P} (last : LastFound (events ++ [e]) t)
    (reached : (bridge P L O).Reaches (events ++ [e]) t)
    (creates : Creates (events ++ [e]) programId program)
    (earlier : Creates events programId program →
      (∀ id', e ≠ .receive id' (.deleteProgram programId)) →
      t.services.programs.get programId = some program) :
    t.services.programs.get programId = some program := by
  obtain ⟨before, kept⟩ | ⟨responses, id, built, files, references, missing, answered, received,
    same⟩ := creates.of_concat reached
  · exact earlier before kept
  · obtain ⟨built', received', found⟩ := last _ _ _ _ _ _ answered
    cases received_unique reached received received'
    rw [found, same]

theorem toString_inj {m n : ℕ} : toString m = toString n ↔ m = n := Nat.repr_inj

theorem found_of_reaches {events : List (Event P L O)} {s : Server P L O}
    (reached : (bridge P L O).Reaches events s) : Found events s := by
  refine reached.invariant (P := Found) ⟨?_, ?_, ?_⟩ ?_
  · intro programId program
    refine ⟨nofun, ?_⟩
    rintro ⟨earlier, later, s, responses, id, built, files, references, missing, split, before,
      last, received, -⟩
    rw [(List.append_eq_nil_iff.mp split.symm).1] at received
    cases received
  · intro k _
    rfl
  · intro responses id programId files references missing last
    exact absurd last (by simp [bridge])
  · intro es s e t before holds stepped
    have after : (bridge P L O).Reaches (es ++ [e]) t :=
      TransitionSystem.reaches_concat.mpr ⟨s, before, stepped⟩
    obtain ⟨id, request, reply, received, change, answers, waits, deletes, deleted⟩ :=
      exists_change before stepped
    cases change with
    | created built resolved programs count =>
        have answered := answers _ rfl
        have last : LastFound (es ++ [e]) t := by
          intro responses id' programId files references missing same
          rw [answered] at same
          obtain ⟨-, single⟩ := List.append_inj' same rfl
          cases single
          exact ⟨built, received, by simp [programs]⟩
        have unused : s.services.programs.get (toString (s.services.programCount + 1)) = none :=
          holds.unused _ (Nat.lt_succ_self _)
        refine ⟨fun programId program => ⟨fun found => ?_, fun creates => ?_⟩, ?_, last⟩
        · rw [programs] at found
          split at found
          · rename_i same
            cases found
            exact ⟨es ++ [e], [], t, s.responses, id, built, _, _, _, by simp, after,
              by rw [answered, same], received, rfl, by simp⟩
          · exact ((holds.found _ _).mp found).concat fun id' same => by cases deleted _ _ same
        · refine last.get_of_creates after creates fun earlier _ => ?_
          have found := (holds.found _ _).mpr earlier
          rw [programs, if_neg]
          · exact found
          · rintro rfl
            rw [unused] at found
            cases found
        · intro k above
          have distinct : toString k ≠ toString (s.services.programCount + 1) := by
            rw [Ne, toString_inj]
            omega
          rw [programs, if_neg distinct]
          exact holds.unused k (by omega)
    | deleted deletedId programs count =>
        have answered := answers _ rfl
        have last : LastFound (es ++ [e]) t := by
          intro responses id' programId files references missing same
          rw [answered] at same
          obtain ⟨-, single⟩ := List.append_inj' same rfl
          cases single
        have event := deletes _ rfl
        refine ⟨fun programId program => ⟨fun found => ?_, fun creates => ?_⟩, ?_, last⟩
        · rw [programs] at found
          split at found
          · cases found
          · rename_i other
            refine ((holds.found _ _).mp found).concat fun id' same => ?_
            rw [event] at same
            cases same
            exact other rfl
        · refine last.get_of_creates after creates fun earlier kept => ?_
          rw [programs, if_neg]
          · exact (holds.found _ _).mpr earlier
          · rintro rfl
            exact kept id event
        · intro k above
          rw [programs]
          split
          · rfl
          · exact holds.unused k (count ▸ above)
    | unchanged _ _ programs count noDelete noProgram =>
        have last : LastFound (es ++ [e]) t := by
          intro responses id' programId files references missing same
          cases reply with
          | answer answer =>
              rw [answers _ rfl] at same
              obtain ⟨-, single⟩ := List.append_inj' same rfl
              cases single
              cases noProgram _ rfl
          | await waiting =>
              rw [waits _ rfl] at same
              obtain ⟨built, received', found⟩ := holds.last _ _ _ _ _ _ same
              exact ⟨built, by simp [received'], by rw [programs, found]⟩
        refine ⟨fun programId program => ⟨fun found => ?_, fun creates => ?_⟩, ?_, last⟩
        · rw [programs] at found
          exact ((holds.found _ _).mp found).concat
            fun id' same => noDelete _ (deleted _ _ same)
        · refine last.get_of_creates after creates fun earlier _ => ?_
          rw [programs]
          exact (holds.found _ _).mpr earlier
        · intro k above
          rw [programs]
          exact holds.unused k (count ▸ above)

/-- The identifiers that were answered, in the order of the answers. -/
theorem programIds_of_reaches {events : List (Event P L O)} {s : Server P L O}
    (reached : (bridge P L O).Reaches events s) :
    (s.responses.map Prod.snd).filterMap Answer.programId =
      (List.range s.services.programCount).map fun k => toString (k + 1) := by
  obtain ⟨operations, -, performed⟩ := (serving_of_reaches reached).1
  have ids := programIds_performAll operations
  rw [performed] at ids
  exact ids

/-- Programs get the identifiers `1`, `2` and so on, in the order of the answers, however the
requests overlap. A program is found under its identifier from the answer to its creation
until somebody asks to delete it. -/
theorem programs_found_until_deleted {events : List (Event P L O)} {s : Server P L O}
    (reached : (bridge P L O).Reaches events s) :
    (s.responses.map Prod.snd).filterMap Answer.programId =
      (List.range s.services.programCount).map (fun k => toString (k + 1)) ∧
    ((s.responses.map Prod.snd).filterMap Answer.programId).Nodup ∧
    ∀ programId program, s.services.programs.get programId = some program ↔
      Creates events programId program := by
  have ids := programIds_of_reaches reached
  refine ⟨ids, ?_, (found_of_reaches reached).found⟩
  rw [ids]
  refine List.nodup_range.map ?_
  intro j k same
  exact Nat.succ_injective (toString_inj.1 same)

theorem programs_found_until_deleted_overlapping :
    ∃ s, (bridge String String String).Reaches overlapping s ∧
      (s.responses.map Prod.snd).filterMap Answer.programId =
        (List.range s.services.programCount).map (fun k => toString (k + 1)) ∧
      ((s.responses.map Prod.snd).filterMap Answer.programId).Nodup ∧
      ∀ programId program, s.services.programs.get programId = some program ↔
        Creates overlapping programId program := by
  refine ⟨_, rfl, ?_⟩
  exact programs_found_until_deleted
    (show (bridge String String String).Reaches overlapping _ from rfl)

end Server

end Requests

end Bridge

end SonarJS
