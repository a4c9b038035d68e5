import SonarJS.Bridge.Requests
import SonarJS.TypeScript.Programs

/-!
# Programs on both sides of the bridge

`AnalysisWithProgram` asks the Node.js side for programs, sends their identifiers back with
the files to analyse, and deletes them. Here the calls of a run are sent to the model of
that side: no identifier that is sent is unknown, every file is analysed with the program of
its own `tsconfig.json`, and no program is left behind.
-/

namespace SonarJS

namespace TypeScript

open Bridge.Requests

/-- What the Node.js side meets, and how the plugin names files and linters. -/
structure Host (F P L O : Type) where
  createProgram : String → Except Thrown (Built P)
  /-- `addTsConfigIfDirectory`. -/
  resolve : String → Option String
  readFile : F → Except Thrown String
  lint : Option String → L → Option P → Except Thrown O
  absolutePath : F → String
  linterId : F → String
  absolutePath_ne : ∀ file, absolutePath file ≠ ""

section Exchange

variable {F P L O : Type}

/-- A request of a client that waits for its answer, with what the handler waits for. -/
@[grind =] def settle (b : Services P L) : Reply P L O → List (Outcome O) → Option (Services P L × Answer O)
  | .answer answer, _ => some (b, answer)
  | .await _, [] => none
  | .await waiting, outcome :: outcomes =>
    (resume b waiting outcome).bind fun (b, reply) => settle b reply outcomes

def exchange (b : Services P L) (request : Request P L O) (outcomes : List (Outcome O)) :
    Option (Services P L × Answer O) :=
  let (b, reply) := handle b request
  settle b reply outcomes

variable (host : Host F P L O)

/-- The request of a call, with the identifier of the program that was created last, and
what is waited for. -/
def Host.request (programId : String) : Call F → Request P L O × List (Outcome O)
  | .createProgram tsConfig =>
    (.createProgram (host.createProgram tsConfig),
      match host.createProgram tsConfig with
      | .ok built => [.resolved (built.references.map host.resolve)]
      | .error _ => [])
  | .analyze file _ =>
    (.analyze ⟨host.absolutePath file, none, some (host.linterId file), some programId⟩
      (.analyzeJSTS host.lint), [.read (host.readFile file)])
  | .deleteProgram _ => (.deleteProgram programId, [])

/-- The plugin and the Node.js side, with the answers so far. -/
structure Session (F P L O : Type) where
  services : Services P L
  programId : String := ""
  answers : List (Call F × Answer O) := []

def Session.send (s : Session F P L O) (c : Call F) : Session F P L O :=
  let (request, outcomes) := host.request s.programId c
  match exchange s.services request outcomes with
  | none => s
  | some (services, answer) =>
    { services
      programId := answer.programId.getD s.programId
      answers := s.answers ++ [(c, answer)] }

def Session.sendAll (s : Session F P L O) (calls : List (Call F)) : Session F P L O :=
  calls.foldl (Session.send host) s

/-- The answer to the analysis of a file with a program. -/
def Host.analysis (b : Services P L) (file : F) (program : P) : Answer O :=
  match host.readFile file with
  | .error thrown => errorMiddleware thrown
  | .ok content => respond do
      let linter ← b.getLinter (some (host.linterId file))
      host.lint (some content) linter (some program)

/-! ## Single calls -/

variable {host}

theorem send_createProgram_ok (s : Session F P L O) {tsConfig : String} {built : Built P}
    (creates : host.createProgram tsConfig = .ok built) :
    (s.send host (.createProgram tsConfig)).services.programs =
        s.services.programs.set (toString (s.services.programCount + 1)) built.program ∧
      (s.send host (.createProgram tsConfig)).services.programCount =
        s.services.programCount + 1 ∧
      (s.send host (.createProgram tsConfig)).services.linters = s.services.linters ∧
      (s.send host (.createProgram tsConfig)).programId =
        toString (s.services.programCount + 1) ∧
      ∃ answer, (s.send host (.createProgram tsConfig)).answers =
        s.answers ++ [(.createProgram tsConfig, answer)] := by
  by_cases direct : built.references = []
  · simp [Session.send, Host.request, creates, exchange, handle, direct, settle,
      Services.registerProgram, Answer.programId]
  · simp [Session.send, Host.request, creates, exchange, handle, direct, settle, resume,
      Services.registerProgram, Answer.programId]

theorem send_createProgram_error (s : Session F P L O) {tsConfig : String} {thrown : Thrown}
    (fails : host.createProgram tsConfig = .error thrown) :
    s.send host (.createProgram tsConfig) =
      { s with answers := s.answers ++ [(.createProgram tsConfig, errorMiddleware thrown)] } := by
  simp [Session.send, Host.request, fails, exchange, handle, settle]

theorem send_analyze (s : Session F P L O) (file : F) (tsConfig : String) {program : P}
    (found : s.services.programs.get s.programId = some program) :
    s.send host (.analyze file tsConfig) =
      { s with
        answers := s.answers ++
          [(.analyze file tsConfig, host.analysis s.services file program)] } := by
  have needs : Input.needsFile ⟨host.absolutePath file, none, some (host.linterId file),
      some s.programId⟩ = true := by
    simp [Input.needsFile, host.absolutePath_ne file]
  cases read : host.readFile file with
  | error thrown =>
      simp [Session.send, Host.request, Host.analysis, exchange, handle, needs, settle, resume,
        read]
  | ok content =>
      have analysed : s.services.analyzeJSTS ⟨host.absolutePath file, none,
          some (host.linterId file), some s.programId⟩ (some content) host.lint = (do
            let linter ← s.services.getLinter (some (host.linterId file))
            host.lint (some content) linter (some program)) := by
        simp only [Services.analyzeJSTS, Services.programOf, Services.getProgramById, found]
        rfl
      simp [Session.send, Host.request, Host.analysis, exchange, handle, needs, settle, resume,
        read, Services.runAnalysis, analysed]

theorem send_deleteProgram (s : Session F P L O) (tsConfig : String) :
    s.send host (.deleteProgram tsConfig) =
      { s with
        services := s.services.deleteProgram s.programId
        answers := s.answers ++ [(.deleteProgram tsConfig, .ok)] } := by
  simp [Session.send, Host.request, exchange, handle, settle, Answer.programId]

/-! ## The calls of a visit -/

section Visit

variable {ε : Type} {bridge : TypeScript.Bridge ε F} (base : Services P L)

/-- The plugin reads an error where the Node.js side has answered with one. -/
def Host.Agrees (host : Host F P L O) (bridge : TypeScript.Bridge ε F) : Prop :=
  ∀ tsConfig program, bridge.createProgram tsConfig = .ok program →
    (program.error = none ↔ ∃ built, host.createProgram tsConfig = .ok built)

/-- The programs are those of `base`, and so are the linters. The counter has gone on. -/
structure Balanced (s : Session F P L O) : Prop where
  programs : ∀ x, s.services.programs.get x = base.programs.get x
  programCount : base.programCount ≤ s.services.programCount
  linters : s.services.linters = base.linters
  current : base.programs.get s.programId = none

/-- All analyses were answered with the program of their `tsconfig.json`. -/
def Proper (host : Host F P L O) (base : Services P L) (answers : List (Call F × Answer O)) :
    Prop :=
  ∀ file tsConfig answer, (.analyze file tsConfig, answer) ∈ answers →
    ∃ built, host.createProgram tsConfig = .ok built ∧
      answer = host.analysis base file built.program

theorem Proper.append {answers more : List (Call F × Answer O)}
    (proper : Proper host base answers) (proper' : Proper host base more) :
    Proper host base (answers ++ more) := by
  intro file tsConfig answer member
  obtain old | new := List.mem_append.mp member
  · exact proper file tsConfig answer old
  · exact proper' file tsConfig answer new

theorem analysis_congr {b b' : Services P L} (same : b.linters = b'.linters) (file : F)
    (program : P) : host.analysis b file program = host.analysis b' file program := by
  simp [Host.analysis, Services.getLinter, same]

/-- The files of a program, once it is there. -/
theorem sendAll_analyze {s : Session F P L O} {tsConfig : String} {built : Built P}
    (created : host.createProgram tsConfig = .ok built)
    (found : s.services.programs.get s.programId = some built.program)
    (linters : s.services.linters = base.linters) (files : List F) :
    ∃ more, s.sendAll host (files.map fun file => .analyze file tsConfig) =
      { s with answers := s.answers ++ more } ∧ Proper host base more := by
  induction files generalizing s with
  | nil => exact ⟨[], by simp [Session.sendAll], by simp [Proper]⟩
  | cons file files ih =>
      rw [List.map_cons, Session.sendAll, List.foldl_cons, send_analyze s file tsConfig found]
      obtain ⟨more, same, proper⟩ := ih (s := { s with answers := s.answers ++
        [(.analyze file tsConfig, host.analysis s.services file built.program)] }) found linters
      rw [Session.sendAll] at same
      refine ⟨(.analyze file tsConfig, host.analysis s.services file built.program) :: more,
        by simp [same], ?_⟩
      intro file' tsConfig' answer member
      obtain first | later := List.mem_cons.mp member
      · cases first
        exact ⟨built, created, analysis_congr linters file built.program⟩
      · exact proper file' tsConfig' answer later

theorem sendAll_append (s : Session F P L O) (calls more : List (Call F)) :
    s.sendAll host (calls ++ more) = (s.sendAll host calls).sendAll host more :=
  List.foldl_append

/-- No program of `base` has an identifier that is still to come. -/
def Unused : Prop := ∀ k, base.programCount < k → base.programs.get (toString k) = none

/-- A call that does not throw returns what the bridge has returned. -/
theorem call_eq_ok {α : Type} {c : Call F} {result : Except ε α} {a : α} {s s' : State F}
    (returned : call c result s = .ok a s') : result = .ok a ∧ s' = s.record c := by
  cases result with
  | error e =>
      rw [call_error c rfl] at returned
      cases returned
  | ok b =>
      rw [call_ok c rfl] at returned
      cases returned
      exact ⟨rfl, rfl⟩

/-- What a visit leaves behind. -/
structure Visits (host : Host F P L O) (s t : Session F P L O) (deletes : Prop) : Prop where
  answers : ∃ more, t.answers = s.answers ++ more ∧ Proper host base more
  leftover : ∃ programId, ∀ x ≠ programId, t.services.programs.get x = base.programs.get x
  balanced : deletes → Balanced base t

/-- A deletion without a program changes nothing. -/
theorem Balanced.delete (host : Host F P L O) {s : Session F P L O} (balanced : Balanced base s)
    (tsConfig : String) : Balanced base (s.send host (.deleteProgram tsConfig)) := by
  rw [send_deleteProgram]
  refine ⟨fun x => ?_, balanced.programCount, balanced.linters, balanced.current⟩
  simp only [Services.deleteProgram, OrderedMap.get_delete]
  split
  · rename_i same
    rw [same, balanced.current]
  · exact balanced.programs x

theorem visits_fails {s : Session F P L O} (balanced : Balanced base s) {tsConfig : String}
    {thrown : Thrown} (fails : host.createProgram tsConfig = .error thrown) (deleted : Bool)
    (deletes : Prop) :
    Visits base host s (s.sendAll host (Visited.calls ⟨tsConfig, [], deleted⟩))
      deletes := by
  have proper (calls : List (Call F × Answer O)) (none : ∀ file tsConfig answer,
      (.analyze file tsConfig, answer) ∉ calls) : Proper host base calls :=
    fun file tsConfig answer member => absurd member (none file tsConfig answer)
  have failed : Balanced base { s with
      answers := s.answers ++ [(.createProgram tsConfig, errorMiddleware thrown)] } :=
    ⟨balanced.programs, balanced.programCount, balanced.linters, balanced.current⟩
  cases deleted with
  | false =>
      have sent : s.sendAll host (Visited.calls ⟨tsConfig, [], false⟩) = { s with
          answers := s.answers ++ [(.createProgram tsConfig, errorMiddleware thrown)] } := by
        rw [← send_createProgram_error s fails]
        rfl
      rw [sent]
      exact ⟨⟨_, rfl, proper _ (by simp)⟩, ⟨"", fun x _ => failed.programs x⟩, fun _ => failed⟩
  | true =>
      have deletes := failed.delete base host tsConfig
      have sent : s.sendAll host (Visited.calls ⟨tsConfig, [], true⟩) = Session.send host { s with
          answers := s.answers ++ [(.createProgram tsConfig, errorMiddleware thrown)] }
            (.deleteProgram tsConfig) := by
        rw [← send_createProgram_error s fails]
        rfl
      rw [sent]
      refine ⟨?_, ⟨"", fun x _ => deletes.programs x⟩, fun _ => deletes⟩
      rw [send_deleteProgram]
      exact ⟨[(.createProgram tsConfig, errorMiddleware thrown), (.deleteProgram tsConfig, .ok)],
        by simp, proper _ (by simp)⟩

theorem visits_creates {s : Session F P L O} (balanced : Balanced base s) (unused : Unused base)
    {visited : Visited F} {built : Built P}
    (creates : host.createProgram visited.tsConfig = .ok built) :
    Visits base host s (s.sendAll host visited.calls) (visited.deleted = true) := by
  obtain ⟨programs, count, linters, current, answer, answers⟩ := send_createProgram_ok s creates
  have sameLinters := linters.trans balanced.linters
  generalize created_eq : s.send host (.createProgram visited.tsConfig) = created at *
  have found : created.services.programs.get created.programId = some built.program := by
    rw [programs, current]
    simp
  have new : base.programs.get created.programId = none := by
    rw [current]
    exact unused _ (Nat.lt_succ_of_le balanced.programCount)
  have others (x : String) (other : x ≠ created.programId) :
      created.services.programs.get x = base.programs.get x := by
    rw [current] at other
    rw [programs, OrderedMap.get_set, if_neg other, balanced.programs]
  have below : base.programCount ≤ created.services.programCount := by
    have := balanced.programCount
    omega
  obtain ⟨more, sent, proper⟩ := sendAll_analyze base creates found sameLinters visited.files
  have first : Proper host base [(.createProgram visited.tsConfig, answer)] := by
    intro file tsConfig answer' member
    simp at member
  have calls : s.sendAll host visited.calls =
      Session.sendAll host { created with answers := created.answers ++ more }
        (if visited.deleted then [.deleteProgram visited.tsConfig] else []) := by
    rw [← sent, ← sendAll_append, ← created_eq]
    rfl
  rw [calls]
  cases visited.deleted with
  | false =>
      refine ⟨⟨(.createProgram visited.tsConfig, answer) :: more, ?_, first.append base proper⟩,
        ⟨created.programId, others⟩, fun deleted => absurd deleted Bool.false_ne_true⟩
      simp [Session.sendAll, answers]
  | true =>
      have last : Proper host base [(Call.deleteProgram visited.tsConfig, Answer.ok)] := by
        intro file tsConfig answer' member
        simp at member
      have deletes : ∀ x, (created.services.deleteProgram created.programId).programs.get x =
          base.programs.get x := by
        intro x
        simp only [Services.deleteProgram, OrderedMap.get_delete]
        split
        · rename_i same
          rw [same, new]
        · exact others x ‹_›
      have final : Session.sendAll host { created with answers := created.answers ++ more }
          [.deleteProgram visited.tsConfig] =
          { created with
            services := created.services.deleteProgram created.programId
            answers := created.answers ++ more ++ [(.deleteProgram visited.tsConfig, .ok)] } :=
        @send_deleteProgram F P L O host { created with answers := created.answers ++ more } _
      simp only [if_true, final]
      refine ⟨⟨(.createProgram visited.tsConfig, answer) :: (more ++
        [(.deleteProgram visited.tsConfig, .ok)]), ?_, ?_⟩, ⟨"", fun x _ => deletes x⟩, fun _ => ?_⟩
      · simp [answers]
      · exact first.append base (proper.append base last)
      · exact ⟨deletes, below, sameLinters, new⟩

/-- A visit asks about its own program only, and if it deletes what it has created, the
programs are the ones from before. -/
theorem sendAll_visited (agrees : host.Agrees bridge) (unused : Unused base)
    {s : Session F P L O} (balanced : Balanced base s) {visited : Visited F}
    (sound : visited.Sound bridge) :
    Visits base host s (s.sendAll host visited.calls)
      (∀ built, host.createProgram visited.tsConfig = .ok built → visited.deleted = true) := by
  cases result : host.createProgram visited.tsConfig with
  | ok built =>
      obtain ⟨answers, leftover, balanced'⟩ := visits_creates base balanced unused result
      exact ⟨answers, leftover, fun deletes => balanced' (deletes built rfl)⟩
  | error thrown =>
      have noFiles : visited.files = [] := by
        rw [List.eq_nil_iff_forall_not_mem]
        intro file member
        obtain ⟨program, ⟨created, noError⟩, -⟩ := sound file member
        obtain ⟨built, creates⟩ := (agrees _ _ created).mp noError
        rw [result] at creates
        cases creates
      obtain ⟨tsConfig, files, deleted⟩ := visited
      subst noFiles
      exact visits_fails base balanced result deleted _

/-- The calls of all visits, one after another. Only the last one may be cut short. -/
theorem sendAll_visitAll [DecidableEq F] (agrees : host.Agrees bridge) (unused : Unused base)
    (tsConfigs : List String) (state : State F) {s : Session F P L O}
    (balanced : Balanced base s) :
    ∃ calls, (Action.finalState ((analysisLoop bridge).visitAll tsConfigs state)).calls =
        state.calls ++ calls ∧
      Visits base host s (s.sendAll host calls)
        (∃ state', (analysisLoop bridge).visitAll tsConfigs state = .ok () state') := by
  induction tsConfigs generalizing state s with
  | nil =>
      refine ⟨[], (List.append_nil _).symm, ⟨[], ?_, ?_⟩,
        ⟨"", fun x _ => balanced.programs x⟩, fun _ => balanced⟩
      · simp [Session.sendAll]
      · simp [Proper]
  | cons tsConfig tsConfigs ih =>
      obtain ⟨visited, rfl, sound, adds, finishes⟩ := analyzeTsConfig_spec bridge tsConfig state
      obtain ⟨answers, leftover, balanced'⟩ := sendAll_visited base agrees unused balanced sound
      cases ran : analyzeTsConfig bridge visited.tsConfig state with
      | error e t =>
          rw [ran] at adds
          have stopped : (analysisLoop bridge).visitAll (visited.tsConfig :: tsConfigs) state =
            .error e t := Traversal.Loop.visitAll_cons_error ran
          rw [stopped]
          exact ⟨visited.calls, adds.calls, answers, leftover, nofun⟩
      | ok found t =>
          rw [ran] at adds
          have goesOn : (analysisLoop bridge).visitAll (visited.tsConfig :: tsConfigs) state =
            (analysisLoop bridge).visitAll tsConfigs t := Traversal.Loop.visitAll_cons_ok ran
          obtain ⟨-, complete, -⟩ := finishes found t ran
          -- The visit has not thrown, so the plugin knows whether there is a program.
          have deletes : ∀ built, host.createProgram visited.tsConfig = .ok built →
              visited.deleted = true := by
            intro built creates
            obtain ⟨program, _, called, -⟩ := Action.bind_eq_ok ran
            obtain ⟨created, -⟩ := call_eq_ok called
            exact complete program ⟨created, (agrees _ _ created).mpr ⟨built, creates⟩⟩
          obtain ⟨calls, sent, ⟨more, answered, proper⟩, leftover', balanced''⟩ :=
            ih t (balanced' deletes)
          obtain ⟨first, answered', proper'⟩ := answers
          rw [goesOn, sent]
          refine ⟨visited.calls ++ calls, ?_, ⟨first ++ more, ?_, proper'.append base proper⟩,
            ?_, ?_⟩
          · have called : t.calls = state.calls ++ visited.calls := adds.calls
            rw [called, List.append_assoc]
          · rw [sendAll_append, answered, answered', List.append_assoc]
          · rw [sendAll_append]
            exact leftover'
          · rw [sendAll_append]
            exact balanced''

end Visit

/-! ## Runs -/

/-- The identifiers are numbers, so the one of a client that has created nothing is free. -/
theorem unused_of_reaches {events : List (Event P L O)} {server : Server P L O}
    (reached : (Bridge.Requests.bridge P L O).Reaches events server) :
    Unused server.services ∧ server.services.programs.get "" = none := by
  have found := found_of_reaches reached
  refine ⟨found.unused, Option.eq_none_iff_forall_ne_some.mpr ?_⟩
  intro program same
  obtain ⟨earlier, later, s, responses, id, built, files, references, missing, -, before, last,
    -⟩ := (found.found _ _).mp same
  have ids := programIds_of_reaches before
  have member : "" ∈ (s.responses.map Prod.snd).filterMap Answer.programId := by
    simp [last, Answer.programId]
  rw [ids] at member
  obtain ⟨k, -, empty⟩ := List.mem_map.mp member
  have digits := Nat.toDigits_ne_nil (n := k + 1) (b := 10)
  have none : (toString (k + 1)).toList = "".toList := congrArg String.toList empty
  rw [Nat.toString_eq_repr, Nat.toList_repr] at none
  exact digits none

/-- The plugin and the bridge, for any project. Whatever the bridge has done before, each
file is analysed with the program of its own `tsconfig.json`. If nothing throws, the
programs are the same afterwards; otherwise one of them at most is left behind. -/
theorem analyzeFiles_leaves_no_program {ε : Type} [DecidableEq F] (host : Host F P L O)
    (bridge : TypeScript.Bridge ε F) (agrees : host.Agrees bridge) (tsConfigs : List String)
    (finite : {tsConfig | bridge.Reachable tsConfigs tsConfig}.Finite)
    {events : List (Event P L O)} {server : Server P L O}
    (reached : (Bridge.Requests.bridge P L O).Reaches events server) :
    ∃ bound result session, (∀ fuel ≥ bound, analyzeFiles bridge fuel tsConfigs = result) ∧
      session = Session.sendAll host ⟨server.services, "", []⟩
        (Action.finalState result).calls ∧
      (∀ file tsConfig answer, (.analyze file tsConfig, answer) ∈ session.answers →
        ∃ built, host.createProgram tsConfig = .ok built ∧
          answer = host.analysis server.services file built.program) ∧
      (∃ programId, ∀ x ≠ programId,
        session.services.programs.get x = server.services.programs.get x) ∧
      ((∀ e s, result ≠ .error e s) →
        ∀ x, session.services.programs.get x = server.services.programs.get x) := by
  obtain ⟨unused, free⟩ := unused_of_reaches reached
  obtain ⟨bound, order, -, -, -, runs⟩ := exists_analyzeFiles_eq bridge tsConfigs finite
  have balanced : Balanced server.services (⟨server.services, "", []⟩ : Session F P L O) :=
    ⟨fun x => rfl, le_rfl, rfl, free⟩
  obtain ⟨calls, sent, ⟨more, answered, proper⟩, leftover, balanced'⟩ :=
    sendAll_visitAll server.services agrees unused order .new balanced
  refine ⟨bound, _, _, runs, rfl, ?_⟩
  have called : calls = (Action.finalState ((analysisLoop bridge).visitAll order .new)).calls :=
    sent.symm
  cases ran : (analysisLoop bridge).visitAll order .new with
  | error e s =>
      rw [ran] at called
      rw [Action.bind_error ran]
      change calls = s.calls at called
      simp only [Action.finalState, ← called]
      refine ⟨fun file tsConfig answer member => ?_, leftover, fun noError => ?_⟩
      · rw [answered] at member
        exact proper file tsConfig answer member
      · exact absurd rfl (noError e s)
  | ok _ s =>
      rw [ran] at called
      rw [Action.bind_ok ran]
      change calls = s.calls at called
      simp only [Action.finalState, pure, EStateM.pure, ← called]
      refine ⟨fun file tsConfig answer member => ?_, leftover, fun _ => ?_⟩
      · rw [answered] at member
        exact proper file tsConfig answer member
      · exact (balanced' ⟨s, ran⟩).programs

end Exchange

/-- The two projects that refer to each other, as the Node.js side meets them. -/
def cyclicHost : Host String String String String where
  createProgram tsConfig :=
    if tsConfig = "a/tsconfig.json" then
      .ok ⟨"program of a", ["a/x.ts"], ["b", "a"], false⟩
    else if tsConfig = "b/tsconfig.json" then
      .ok ⟨"program of b", ["a/x.ts", "b/y.ts"], ["a", "c"], false⟩
    else .error (.error "Cannot read file")
  resolve path := some (path ++ "/tsconfig.json")
  readFile file := .ok file
  lint content linter program :=
    .ok (linter ++ ": " ++ content.getD "" ++ " in the " ++ program.getD "")
  absolutePath file := "/" ++ file
  linterId _ := "default"
  absolutePath_ne file := by simp [String.append_eq_empty_iff]

theorem cyclicHost_agrees : cyclicHost.Agrees cyclicBridge := by
  intro tsConfig program created
  simp only [cyclicBridge] at created
  simp only [cyclicHost]
  split at created
  · cases created
    simp_all
  · split at created
    · cases created
      simp_all
    · cases created
      simp_all

theorem analyzeFiles_leaves_no_program_of_cycle :
    ∃ server, (Bridge.Requests.bridge String String String).Reaches
        [.receive 0 (.initLinter (some "default") (.ok "rules"))] server ∧
      ∃ bound result session,
        (∀ fuel ≥ bound, analyzeFiles cyclicBridge fuel ["a/tsconfig.json"] = result) ∧
        session = Session.sendAll cyclicHost ⟨server.services, "", []⟩
          (Action.finalState result).calls ∧
        (∀ file tsConfig answer, (.analyze file tsConfig, answer) ∈ session.answers →
          ∃ built, cyclicHost.createProgram tsConfig = .ok built ∧
            answer = cyclicHost.analysis server.services file built.program) ∧
        (∃ programId, ∀ x ≠ programId,
          session.services.programs.get x = server.services.programs.get x) ∧
        ((∀ e s, result ≠ .error e s) →
          ∀ x, session.services.programs.get x = server.services.programs.get x) := by
  refine ⟨_, rfl, ?_⟩
  exact analyzeFiles_leaves_no_program cyclicHost cyclicBridge cyclicHost_agrees
    ["a/tsconfig.json"] cyclicBridge_finite
    (show (Bridge.Requests.bridge String String String).Reaches
      [.receive 0 (.initLinter (some "default") (.ok "rules"))] _ from rfl)

end TypeScript

end SonarJS
