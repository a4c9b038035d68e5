import Mathlib.Algebra.GroupWithZero.Nat
import Mathlib.Algebra.Order.BigOperators.Group.List
import Mathlib.Tactic.Common
import SonarJS.Foundation.Action

/-!
# Starting and closing the eslint-bridge server

`EslintBridgeServerImpl` starts one Node.js process on demand and asks it for its status
over HTTP. What the class decides depends on three things it keeps (the status, the node
command, the heartbeat) and on what its environment does at each blocking point of a
call. The environment is data here: for each call, how every request, every sleep and
every operation on files or processes ends. A run is any sequence of calls, each with an
environment of its own.

The events of a call are a history variable: the processes it started and the answers it
got. They are what the properties of runs are about; no decision reads them.
-/

namespace SonarJS.Bridge

open Action

/-- `EslintBridgeServerImpl.Status`. -/
inductive Status
  | notStarted
  | failed
  | started
  deriving DecidableEq, Repr

/-- A command built by `NodeCommandBuilder`; of its arguments the port is kept. -/
structure NodeCommand where
  port : Nat
  deriving DecidableEq, Repr

inductive Event
  | processStarted
  | answered (body : String)
  deriving DecidableEq, Repr

/-- The exceptions of the operations the class calls. -/
inductive Failure
  | ioException (message : String)
  | nodeCommandException (message : String)
  | illegalStateException (message : String)
  deriving DecidableEq, Repr

/-- The exceptions that leave the class. -/
inductive JavaException
  | failure (cause : Failure)
  | serverAlreadyFailedException
  | rejectedExecutionException
  deriving DecidableEq, Repr

/-- The fields of `EslintBridgeServerImpl` that change, and the events of the call. -/
structure Server where
  status : Status := .notStarted
  port : Nat := 0
  nodeCommand : Option NodeCommand := none
  heartbeatFuture : Bool := false
  heartbeatServiceShutdown : Bool := false
  events : List Event := []
  deriving DecidableEq, Repr

abbrev ServerM := EStateM JavaException Server

/-! ## The environment of a call -/

/-- How an HTTP request ends. -/
inductive Exchange
  | answered (body : String)
  | interrupted
  | ioException
  deriving DecidableEq, Repr

/-- How `Thread.sleep` ends. -/
inductive Sleep
  | slept
  | interrupted
  deriving DecidableEq, Repr

/-- One round of the loop of `waitServerToStart`: the status request, the clock after it
and the sleep before the next round. -/
structure Round where
  request : Exchange
  currentTimeMillis : Int
  sleep : Sleep
  deriving DecidableEq, Repr

/-- What happens while `waitServerToStart` waits. The clock passes the deadline at one of
the rounds, however long the process takes. -/
structure Wait (timeoutMs : Int) where
  start : Int
  firstSleep : Sleep
  rounds : List Round
  expires : ∃ round ∈ rounds, timeoutMs < round.currentTimeMillis - start

/-- What a call of `startServerLazily` meets, in the order in which it meets it. -/
structure Environment (timeoutMs : Int) where
  request : Exchange
  deploy : Except Failure Unit
  deployRulesBundles : Except Failure Unit
  findOpenPort : Except Failure Nat
  scriptFile : String
  scriptFileExists : Bool
  build : Except Failure Unit
  start : Except Failure Unit
  wait : Wait timeoutMs

/-- What a call of `clean` meets. Waiting for the process ends in every case: it is left
on an interruption and the process is destroyed after a minute. -/
structure CleanEnvironment where
  request : Exchange
  close : Exchange
  deriving DecidableEq, Repr

/-! ## The operations -/

def OK : String := "OK!"

def handleInterruptedException (message : String) : JavaException :=
  .failure (.illegalStateException message)

def external {α : Type} (result : Except Failure α) : ServerM α :=
  Action.ofExcept (result.mapError .failure)

def record (event : Event) : ServerM Unit :=
  modify fun server => { server with events := server.events ++ [event] }

def setStatus (status : Status) : ServerM Unit :=
  modify fun server => { server with status := status }

def isAlive (exchange : Exchange) : ServerM Bool := do
  let server ← get
  if server.nodeCommand = none then
    return false
  else
    match exchange with
    | .answered body =>
        record (.answered body)
        return body = OK
    | .interrupted => throw (handleInterruptedException "isAlive was interrupted")
    | .ioException => return false

/-- The loop of `waitServerToStart`. An interrupted sleep leaves it with `true`. -/
def waitLoop (timeoutMs start : Int) :
    (rounds : List Round) → (∃ round ∈ rounds, timeoutMs < round.currentTimeMillis - start) →
      ServerM Bool
  | [], expires => False.elim (by simp at expires)
  | round :: rounds, expires => do
      if ← isAlive round.request then
        return true
      else if h : timeoutMs < round.currentTimeMillis - start then
        return false
      else
        match round.sleep with
        | .interrupted => return true
        | .slept => waitLoop timeoutMs start rounds (by simpa [h] using expires)

def waitServerToStart {timeoutMs : Int} (wait : Wait timeoutMs) : ServerM Bool :=
  match wait.firstSleep with
  | .interrupted => return true
  | .slept => waitLoop timeoutMs wait.start wait.rounds wait.expires

/-- `scheduleAtFixedRate`, which refuses tasks once `clean` has shut the service down. -/
def startHeartbeat : ServerM Unit := do
  let server ← get
  if server.heartbeatFuture then
    return ()
  else if server.heartbeatServiceShutdown then
    throw .rejectedExecutionException
  else
    modify fun server => { server with heartbeatFuture := true }

section Operations

variable (timeoutSeconds : Nat)

def startServer (env : Environment (timeoutSeconds * 1000)) : ServerM Unit := do
  let port ← external env.findOpenPort
  modify fun server => { server with port := port }
  if env.scriptFileExists = false then
    throw (.failure (.nodeCommandException
      ("Node.js script to start eslint-bridge server doesn't exist: " ++ env.scriptFile)))
  else
    external env.build
    modify fun server => { server with nodeCommand := some ⟨port⟩ }
    external env.start
    record .processStarted
    if ← waitServerToStart env.wait then
      setStatus .started
      startHeartbeat
    else
      setStatus .failed
      throw (.failure (.nodeCommandException
        ("Failed to start server (" ++ toString timeoutSeconds ++ "s timeout)")))

/-- The state in which `catch (NodeCommandException e)` rethrows `e`. -/
def caught : JavaException → Server → Server
  | .failure (.nodeCommandException _), server => { server with status := .failed }
  | _, server => server

def failOnNodeCommandException (action : ServerM Unit) : ServerM Unit := fun server =>
  match action server with
  | .ok _ server' => .ok () server'
  | .error e server' => .error e (caught e server')

def startServerLazily (env : Environment (timeoutSeconds * 1000)) : ServerM Unit := do
  let server ← get
  if server.status = .failed then
    throw .serverAlreadyFailedException
  else
    failOnNodeCommandException do
      if ← isAlive env.request then
        return ()
      else if server.status = .started then
        setStatus .failed
        throw .serverAlreadyFailedException
      else
        external env.deploy
        external env.deployRulesBundles
        startServer timeoutSeconds env

end Operations

/-- `request("", "close")`: an unresponsive server is an `IllegalStateException` too. -/
def requestClose : Exchange → ServerM Unit
  | .answered _ => return ()
  | .interrupted => throw (handleInterruptedException "Request close was interrupted.")
  | .ioException => throw (.failure (.illegalStateException "eslint-bridge is unresponsive"))

def clean (env : CleanEnvironment) : ServerM Unit := do
  modify fun server => { server with heartbeatServiceShutdown := true }
  if ← isAlive env.request then
    requestClose env.close
    modify fun server => { server with nodeCommand := none }
  else
    return ()

/-! ## What the operations do -/

/-- The Node.js processes that the call has started so far. -/
def Server.processes (server : Server) : Nat := server.events.count .processStarted

/-- The server got answers to status requests, and nothing else happened. -/
def Asked (server server' : Server) : Prop :=
  ∃ bodies : List String,
    server' = { server with events := server.events ++ bodies.map .answered }

theorem Asked.refl (server : Server) : Asked server server := ⟨[], by simp⟩

theorem Asked.trans {s t u : Server} (first : Asked s t) (second : Asked t u) : Asked s u := by
  obtain ⟨bodies, rfl⟩ := first
  obtain ⟨bodies', rfl⟩ := second
  exact ⟨bodies ++ bodies', by simp⟩

theorem Asked.status {s t : Server} (h : Asked s t) : t.status = s.status := by
  obtain ⟨bodies, rfl⟩ := h
  rfl

theorem Asked.nodeCommand {s t : Server} (h : Asked s t) : t.nodeCommand = s.nodeCommand := by
  obtain ⟨bodies, rfl⟩ := h
  rfl

theorem Asked.processes {s t : Server} (h : Asked s t) : t.processes = s.processes := by
  obtain ⟨bodies, rfl⟩ := h
  have none : (bodies.map Event.answered).count .processStarted = 0 := by
    apply List.count_eq_zero_of_not_mem
    simp
  simp [Server.processes, none]

theorem isAlive_spec (exchange : Exchange) (s : Server) :
    wp (isAlive exchange)
      (fun alive s' => Asked s s' ∧ (alive = true → .answered OK ∈ s'.events) ∧
        (s.nodeCommand ≠ none → exchange ≠ .interrupted ∧ (alive = true ↔ exchange = .answered OK)))
      (fun e s' => s' = s ∧ exchange = .interrupted ∧
        e = handleInterruptedException "isAlive was interrupted") s := by
  unfold isAlive
  by_cases absent : s.nodeCommand = none
  · simp [absent, Asked.refl]
  · cases exchange with
    | answered body =>
        have asked : Asked s { s with events := s.events ++ [.answered body] } := ⟨[body], rfl⟩
        simp [absent, record, asked]
        tauto
    | interrupted => simp [absent]
    | ioException => simp [absent, Asked.refl]

/-- The rounds of the loop lead to an interruption before they lead to an answer or to the
deadline. -/
def interruptedRound (timeoutMs start : Int) : List Round → Bool
  | [] => false
  | round :: rounds =>
      if round.request = .interrupted then true
      else if round.request = .answered OK then false
      else if timeoutMs < round.currentTimeMillis - start then false
      else if round.sleep = .interrupted then true
      else interruptedRound timeoutMs start rounds

/-- The calling thread is interrupted while `waitServerToStart` waits for the server. -/
@[grind =] def Wait.interrupted {timeoutMs : Int} (wait : Wait timeoutMs) : Bool :=
  wait.firstSleep = .interrupted || interruptedRound timeoutMs wait.start wait.rounds

theorem waitLoop_spec (timeoutMs start : Int) (rounds : List Round)
    (expires : ∃ round ∈ rounds, timeoutMs < round.currentTimeMillis - start) (s : Server)
    (built : s.nodeCommand ≠ none) :
    wp (waitLoop timeoutMs start rounds expires)
      (fun up s' => Asked s s' ∧ (up = true →
        interruptedRound timeoutMs start rounds = false → .answered OK ∈ s'.events))
      (fun e s' => Asked s s' ∧ interruptedRound timeoutMs start rounds = true ∧
        e = handleInterruptedException "isAlive was interrupted") s := by
  induction rounds generalizing s with
  | nil => simp at expires
  | cons round rounds ih =>
      unfold waitLoop
      rw [wp_bind]
      apply wp_mono (isAlive_spec round.request s)
      · intro alive t asked
        obtain ⟨asked, ok, known⟩ := asked
        obtain ⟨calm, alive_iff⟩ := known built
        cases alive with
        | true => simp [asked, ok]
        | false =>
            have silent : round.request ≠ .answered OK := by
              intro answered
              simp [answered] at alive_iff
            by_cases late : timeoutMs < round.currentTimeMillis - start
            · simp [late, asked]
            · cases slept : round.sleep with
              | interrupted => simp [late, slept, asked, interruptedRound, calm, silent]
              | slept =>
                  simp only [interruptedRound, calm, silent, late, slept,
                    Bool.false_eq_true, reduceCtorEq, if_false, dite_false]
                  apply wp_mono (ih _ t (asked.nodeCommand ▸ built))
                  · intro up u rest
                    exact ⟨asked.trans rest.1, rest.2⟩
                  · intro e u rest
                    exact ⟨asked.trans rest.1, rest.2⟩
      · rintro e t ⟨rfl, interrupted, rfl⟩
        exact ⟨Asked.refl t, by simp [interruptedRound, interrupted], rfl⟩

theorem waitServerToStart_spec {timeoutMs : Int} (wait : Wait timeoutMs) (s : Server)
    (built : s.nodeCommand ≠ none) :
    wp (waitServerToStart wait)
      (fun up s' => Asked s s' ∧ (up = true → wait.interrupted = false → .answered OK ∈ s'.events))
      (fun e s' => Asked s s' ∧ wait.interrupted = true ∧
        e = handleInterruptedException "isAlive was interrupted") s := by
  unfold waitServerToStart Wait.interrupted
  cases slept : wait.firstSleep with
  | interrupted => simp [Asked.refl]
  | slept => simpa using waitLoop_spec timeoutMs wait.start wait.rounds wait.expires s built

/-- How `startServer` fails. Once the process runs, only an interrupted wait leaves the
status as it was. -/
inductive StartFailure (interrupted : Bool) (s s' : Server) : JavaException → Prop
  | before (cause : Failure) (processes : s'.processes = s.processes)
      (status : s'.status = s.status) : StartFailure interrupted s s' (.failure cause)
  | timeout (message : String) (processes : s'.processes = s.processes + 1)
      (status : s'.status = .failed) :
      StartFailure interrupted s s' (.failure (.nodeCommandException message))
  | interrupted (message : String) (processes : s'.processes = s.processes + 1)
      (status : s'.status = s.status) (wait : interrupted = true) :
      StartFailure interrupted s s' (.failure (.illegalStateException message))
  | rejected (processes : s'.processes = s.processes + 1) (status : s'.status = .started) :
      StartFailure interrupted s s' .rejectedExecutionException

theorem wp_external {α : Type} {Q : α → Server → Prop} {E : JavaException → Server → Prop}
    {s : Server} (result : Except Failure α) :
    wp (external result) Q E s ↔
      (∀ a, result = .ok a → Q a s) ∧ ∀ cause, result = .error cause → E (.failure cause) s := by
  cases result with
  | ok a => simp [external, Except.mapError]
  | error cause => simp [external, Except.mapError]

theorem startHeartbeat_spec (s : Server) :
    wp startHeartbeat (fun _ s' => s'.status = s.status ∧ s'.events = s.events)
      (fun e s' => s' = s ∧ e = .rejectedExecutionException) s := by
  unfold startHeartbeat
  simp

theorem startServer_spec (timeoutSeconds : Nat) (env : Environment (timeoutSeconds * 1000))
    (s : Server) :
    wp (startServer timeoutSeconds env)
      (fun _ s' => s'.processes = s.processes + 1 ∧ s'.status = .started ∧
        (env.wait.interrupted = false → .answered OK ∈ s'.events))
      (fun e s' => StartFailure env.wait.interrupted s s' e) s := by
  unfold startServer
  simp only [wp_bind, wp_external, wp_modify, wp_ite, wp_throw]
  refine ⟨fun port _ => ⟨fun _ => .before _ rfl rfl, fun _ => ⟨fun _ _ => ⟨fun _ _ => ?_,
    fun cause _ => .before _ rfl rfl⟩, fun cause _ => .before _ rfl rfl⟩⟩,
    fun cause _ => .before _ rfl rfl⟩
  -- The process runs from here on.
  simp only [record, setStatus, wp_modify]
  apply wp_mono (waitServerToStart_spec env.wait _ (by simp))
  · intro up t waited
    obtain ⟨asked, answered⟩ := waited
    have processes : t.processes = s.processes + 1 := by
      rw [asked.processes]
      simp [Server.processes]
    refine ⟨fun isUp => ?_, fun _ => .timeout _ processes rfl⟩
    apply wp_mono (startHeartbeat_spec _)
    · intro _ u kept
      refine ⟨?_, kept.1, fun calm => ?_⟩
      · rw [Server.processes, kept.2]
        exact processes
      · rw [kept.2]
        exact answered isUp calm
    · rintro e u ⟨rfl, rfl⟩
      exact .rejected processes rfl
  · rintro e t ⟨asked, interrupted, rfl⟩
    refine .interrupted _ ?_ asked.status interrupted
    rw [asked.processes]
    simp [Server.processes]

/-- The exceptions that say that the server could not be started or is gone. -/
def JavaException.isServerFailure : JavaException → Bool
  | .failure (.nodeCommandException _) => true
  | .serverAlreadyFailedException => true
  | _ => false

/-- Everything a call of `startServerLazily` can do. -/
inductive StartStep (interrupted : Bool) (s s' : Server) : Except JavaException Unit → Prop
  | alreadyFailed (before : s.status = .failed) (after : s'.status = .failed)
      (processes : s'.processes = s.processes) :
      StartStep interrupted s s' (.error .serverAlreadyFailedException)
  | alive (before : s.status ≠ .failed) (after : s'.status = s.status)
      (processes : s'.processes = s.processes) (answered : .answered OK ∈ s'.events) :
      StartStep interrupted s s' (.ok ())
  | gone (before : s.status = .started) (after : s'.status = .failed)
      (processes : s'.processes = s.processes) :
      StartStep interrupted s s' (.error .serverAlreadyFailedException)
  | disturbed (e : JavaException) (harmless : e.isServerFailure = false)
      (before : s.status ≠ .failed) (after : s'.status = s.status)
      (processes : s'.processes = s.processes) : StartStep interrupted s s' (.error e)
  | failed (message : String) (before : s.status = .notStarted) (after : s'.status = .failed)
      (processes : s'.processes ≤ s.processes + 1) :
      StartStep interrupted s s' (.error (.failure (.nodeCommandException message)))
  | started (before : s.status = .notStarted) (after : s'.status = .started)
      (processes : s'.processes = s.processes + 1)
      (answered : interrupted = false → .answered OK ∈ s'.events) :
      StartStep interrupted s s' (.ok ())
  | rejected (before : s.status = .notStarted) (after : s'.status = .started)
      (processes : s'.processes = s.processes + 1) :
      StartStep interrupted s s' (.error .rejectedExecutionException)
  | abandoned (message : String) (before : s.status = .notStarted)
      (after : s'.status = .notStarted) (processes : s'.processes = s.processes + 1)
      (wait : interrupted = true) :
      StartStep interrupted s s' (.error (.failure (.illegalStateException message)))

theorem wp_failOnNodeCommandException {Q : Unit → Server → Prop}
    {E : JavaException → Server → Prop} {s : Server} {action : ServerM Unit} :
    wp (failOnNodeCommandException action) Q E s ↔
      wp action Q (fun e s' => E e (caught e s')) s := by
  unfold wp failOnNodeCommandException
  cases action s with
  | ok a s' => rfl
  | error e s' => rfl

/-- A failure before the process is started. -/
theorem StartStep.of_failure {interrupted : Bool} {s t : Server} (before : s.status = .notStarted)
    (after : t.status = s.status) (processes : t.processes = s.processes) (cause : Failure) :
    StartStep interrupted s (caught (.failure cause) t) (.error (.failure cause)) := by
  have notFailed : s.status ≠ .failed := by simp [before]
  cases cause with
  | ioException message => exact .disturbed _ rfl notFailed after processes
  | illegalStateException message => exact .disturbed _ rfl notFailed after processes
  | nodeCommandException message =>
      refine .failed message before rfl ?_
      show t.processes ≤ s.processes + 1
      omega

theorem StartStep.of_startFailure {interrupted : Bool} {s t t' : Server} {e : JavaException}
    (before : s.status = .notStarted) (asked : Asked s t)
    (failure : StartFailure interrupted t t' e) :
    StartStep interrupted s (caught e t') (.error e) := by
  have status := asked.status
  have processes := asked.processes
  cases failure with
  | before cause same kept =>
      exact .of_failure before (kept.trans status) (same.trans processes) cause
  | timeout message one failed => exact .failed message before rfl (by rw [← processes, ← one]; rfl)
  | interrupted message one kept wait =>
      exact .abandoned message before ((kept.trans status).trans before)
        (by rw [← processes, ← one]; rfl) wait
  | rejected one started => exact .rejected before started (by rw [← processes, ← one]; rfl)

theorem startServerLazily_spec (timeoutSeconds : Nat) (env : Environment (timeoutSeconds * 1000))
    (s : Server) :
    wp (startServerLazily timeoutSeconds env)
      (fun _ s' => StartStep env.wait.interrupted s s' (.ok ()))
      (fun e s' => StartStep env.wait.interrupted s s' (.error e)) s := by
  unfold startServerLazily
  simp only [wp_bind, wp_get, wp_ite, wp_throw]
  refine ⟨fun failed => .alreadyFailed failed failed rfl, fun notFailed => ?_⟩
  rw [wp_failOnNodeCommandException, wp_bind]
  apply wp_mono (isAlive_spec env.request s)
  · intro alive t answer
    obtain ⟨asked, answered, -⟩ := answer
    simp only [wp_bind, wp_ite, wp_throw, wp_pure, wp_external, setStatus, wp_modify]
    refine ⟨fun up => .alive notFailed asked.status asked.processes (answered up), fun _ =>
      ⟨fun started => .gone started rfl asked.processes, fun notStarted => ?_⟩⟩
    have before : s.status = .notStarted := by
      cases status : s.status with
      | notStarted => rfl
      | failed => exact absurd status notFailed
      | started => exact absurd status notStarted
    have failure : ∀ cause, StartStep env.wait.interrupted s (caught (.failure cause) t)
        (.error (.failure cause)) := StartStep.of_failure before asked.status asked.processes
    refine ⟨fun _ _ => ⟨fun _ _ => ?_, fun cause _ => failure cause⟩, fun cause _ => failure cause⟩
    apply wp_mono (startServer_spec timeoutSeconds env t)
    · intro _ u launched
      obtain ⟨processes, status, answered⟩ := launched
      exact .started before status (by rw [processes, asked.processes]) answered
    · intro e u failed
      exact .of_startFailure before asked failed
  · rintro e t ⟨rfl, -, rfl⟩
    exact .disturbed _ rfl notFailed rfl rfl

theorem clean_spec (env : CleanEnvironment) (s : Server) :
    wp (clean env) (fun _ s' => s'.status = s.status ∧ s'.processes = s.processes)
      (fun _ s' => s'.status = s.status ∧ s'.processes = s.processes) s := by
  unfold clean
  simp only [wp_bind, wp_modify]
  apply wp_mono (isAlive_spec env.request _)
  · intro alive t answer
    have kept : t.status = s.status ∧ t.processes = s.processes :=
      ⟨answer.1.status, answer.1.processes⟩
    simp only [wp_ite, wp_bind, wp_pure, wp_modify]
    refine ⟨fun _ => ?_, fun _ => kept⟩
    cases env.close with
    | answered body => exact kept
    | interrupted => exact kept
    | ioException => exact kept
  · rintro e t ⟨rfl, -, -⟩
    exact ⟨rfl, rfl⟩

/-! ## Runs -/

inductive Call (timeoutMs : Int)
  | startServerLazily (env : Environment timeoutMs)
  | clean (env : CleanEnvironment)

/-- What a call did: how it ended, the processes it started and the answers it got. -/
structure Record (timeoutMs : Int) where
  call : Call timeoutMs
  result : Except JavaException Unit
  events : List Event

section Runs

variable {timeoutSeconds : Nat}

def Call.action : Call (timeoutSeconds * 1000) → ServerM Unit
  | .startServerLazily env => Bridge.startServerLazily timeoutSeconds env
  | .clean env => Bridge.clean env

def perform (call : Call (timeoutSeconds * 1000)) (server : Server) :
    Record (timeoutSeconds * 1000) × Server :=
  match call.action { server with events := [] } with
  | .ok _ server' => (⟨call, .ok (), server'.events⟩, server')
  | .error e server' => (⟨call, .error e, server'.events⟩, server')

@[grind =] def run (server : Server) :
    List (Call (timeoutSeconds * 1000)) → List (Record (timeoutSeconds * 1000))
  | [] => []
  | call :: calls => (perform call server).1 :: run (perform call server).2 calls

end Runs

section Properties

variable {timeoutMs : Int}

def Call.isStart : Call timeoutMs → Bool
  | .startServerLazily _ => true
  | .clean _ => false

def Record.processes (record : Record timeoutMs) : Nat := record.events.count .processStarted

/-- A start that failed because of the server. -/
def Record.Failed (record : Record timeoutMs) : Prop :=
  record.call.isStart = true ∧ ∃ e, record.result = .error e ∧ e.isServerFailure = true

/-- The bridge is up when its start returns, there is only one bridge, and it stays failed
once it has failed. -/
structure Reliable (records : List (Record timeoutMs)) : Prop where
  up : ∀ record ∈ records, record.call.isStart = true → record.result = .ok () →
    .answered OK ∈ record.events
  once : (records.map Record.processes).sum ≤ 1
  failed : ∀ earlier record later, records = earlier ++ record :: later → record.Failed →
    ∀ record' ∈ later, record'.call.isStart = true →
      record'.result = .error .serverAlreadyFailedException

/-- No interruption while the call waits for the process it started. -/
def Call.Calm : Call timeoutMs → Prop
  | .startServerLazily env => env.wait.interrupted = false
  | .clean _ => True

instance (call : Call timeoutMs) : Decidable call.Calm :=
  match call with
  | .startServerLazily env => inferInstanceAs (Decidable (env.wait.interrupted = false))
  | .clean _ => inferInstanceAs (Decidable True)

end Properties

section RunProperties

variable {timeoutSeconds : Nat}

theorem perform_of_wp (call : Call (timeoutSeconds * 1000)) (s : Server)
    (P : Except JavaException Unit → Server → Prop)
    (h : wp call.action (fun _ s' => P (.ok ()) s') (fun e s' => P (.error e) s')
      { s with events := [] }) :
    P (perform call s).1.result (perform call s).2 := by
  unfold wp at h
  unfold perform
  split
  · rename_i ran
    rwa [ran] at h
  · rename_i ran
    rwa [ran] at h

@[simp] theorem perform_call (call : Call (timeoutSeconds * 1000)) (s : Server) :
    (perform call s).1.call = call := by
  unfold perform
  split <;> rfl

@[simp] theorem perform_events (call : Call (timeoutSeconds * 1000)) (s : Server) :
    (perform call s).1.events = (perform call s).2.events := by
  unfold perform
  split <;> rfl

theorem perform_startServerLazily (env : Environment (timeoutSeconds * 1000)) (s : Server) :
    StartStep env.wait.interrupted { s with events := [] }
      (perform (.startServerLazily env) s).2 (perform (.startServerLazily env) s).1.result :=
  perform_of_wp (.startServerLazily env) s
    (fun result s' => StartStep env.wait.interrupted { s with events := [] } s' result)
    (startServerLazily_spec timeoutSeconds env _)

theorem perform_clean (env : CleanEnvironment) (s : Server)
    (call : Call (timeoutSeconds * 1000)) (isClean : call = .clean env) :
    (perform call s).2.status = s.status ∧ (perform call s).2.processes = 0 := by
  subst isClean
  exact perform_of_wp (.clean env) s (fun _ s' => s'.status = s.status ∧ s'.processes = 0)
    (clean_spec env _)

/-- The processes that calm calls may still start. -/
def Server.allowance (server : Server) : Nat := if server.status = .notStarted then 1 else 0

/-- Only the first start launches a process, and unless it is interrupted it leaves
`NOT_STARTED` behind. -/
theorem perform_processes {call : Call (timeoutSeconds * 1000)} (calm : call.Calm) (s : Server) :
    (perform call s).1.processes + (perform call s).2.allowance ≤ s.allowance := by
  have same : (perform call s).1.processes = (perform call s).2.processes := by
    unfold Record.processes Server.processes
    rw [perform_events]
  have fresh : Server.processes { s with events := [] } = 0 := rfl
  rw [same]
  unfold Server.allowance
  cases call with
  | clean env =>
      obtain ⟨status, processes⟩ := perform_clean env s _ rfl
      rw [status, processes]
      omega
  | startServerLazily env =>
      have step := perform_startServerLazily env s
      generalize (perform (.startServerLazily env) s).2 = s' at step ⊢
      generalize (perform (.startServerLazily env) s).1.result = result at step
      have interrupted : env.wait.interrupted = false := calm
      cases step with
      | abandoned message before after processes wait => simp [interrupted] at wait
      | _ => simp_all

theorem perform_up {call : Call (timeoutSeconds * 1000)} (calm : call.Calm) (s : Server)
    (isStart : call.isStart = true) (ok : (perform call s).1.result = .ok ()) :
    .answered OK ∈ (perform call s).1.events := by
  cases call with
  | clean env => cases isStart
  | startServerLazily env =>
      have step := perform_startServerLazily env s
      rw [ok] at step
      rw [perform_events]
      cases step with
      | alive before after processes answered => exact answered
      | started before after processes answered => exact answered calm

theorem perform_failed (call : Call (timeoutSeconds * 1000)) (s : Server)
    (failed : (perform call s).1.Failed) : (perform call s).2.status = .failed := by
  obtain ⟨isStart, e, result, serverFailure⟩ := failed
  cases call with
  | clean env => simp [Call.isStart] at isStart
  | startServerLazily env =>
      have step := perform_startServerLazily env s
      rw [result] at step
      cases step with
      | alreadyFailed before after processes => exact after
      | gone before after processes => exact after
      | failed message before after processes => exact after
      | disturbed _ harmless before after processes => simp [harmless] at serverFailure
      | rejected before after processes => simp [JavaException.isServerFailure] at serverFailure
      | abandoned message before after processes wait =>
          simp [JavaException.isServerFailure] at serverFailure

theorem perform_stays_failed (call : Call (timeoutSeconds * 1000)) (s : Server)
    (failed : s.status = .failed) :
    (perform call s).2.status = .failed ∧ (call.isStart = true →
      (perform call s).1.result = .error .serverAlreadyFailedException) := by
  cases call with
  | clean env =>
      refine ⟨(perform_clean env s _ rfl).1.trans failed, fun isStart => ?_⟩
      cases isStart
  | startServerLazily env =>
      have step := perform_startServerLazily env s
      generalize (perform (.startServerLazily env) s).2 = s' at step ⊢
      generalize (perform (.startServerLazily env) s).1.result = result at step ⊢
      cases step with
      | alreadyFailed before after processes => exact ⟨after, fun _ => rfl⟩
      | _ => simp_all

theorem run_failed (calls : List (Call (timeoutSeconds * 1000))) (s : Server)
    (failed : s.status = .failed) :
    ∀ record ∈ run s calls, record.call.isStart = true →
      record.result = .error .serverAlreadyFailedException := by
  induction calls generalizing s with
  | nil => simp [run]
  | cons call calls ih =>
      obtain ⟨stays, throws⟩ := perform_stays_failed call s failed
      intro record member isStart
      obtain rfl | later := List.mem_cons.mp member
      · exact throws (by simpa using isStart)
      · exact ih _ stays record later isStart

theorem run_failed_for_good (calls : List (Call (timeoutSeconds * 1000))) (s : Server)
    (earlier later : List (Record (timeoutSeconds * 1000)))
    (record : Record (timeoutSeconds * 1000))
    (split : run s calls = earlier ++ record :: later) (failed : record.Failed) :
    ∀ record' ∈ later, record'.call.isStart = true →
      record'.result = .error .serverAlreadyFailedException := by
  induction calls generalizing s earlier with
  | nil => simp [run] at split
  | cons call calls ih =>
      cases earlier with
      | nil =>
          obtain ⟨rfl, rfl⟩ := List.cons.inj split
          exact run_failed calls _ (perform_failed call s failed)
      | cons first earlier =>
          obtain ⟨rfl, rest⟩ := List.cons.inj split
          exact ih _ earlier rest

theorem run_up (calls : List (Call (timeoutSeconds * 1000))) (s : Server)
    (calm : ∀ call ∈ calls, call.Calm) :
    ∀ record ∈ run s calls, record.call.isStart = true → record.result = .ok () →
      .answered OK ∈ record.events := by
  induction calls generalizing s with
  | nil => simp [run]
  | cons call calls ih =>
      intro record member isStart ok
      obtain rfl | later := List.mem_cons.mp member
      · exact perform_up (calm call (by simp)) s (by simpa using isStart) ok
      · exact ih _ (fun call' h => calm call' (by simp [h])) record later isStart ok

theorem run_processes (calls : List (Call (timeoutSeconds * 1000))) (s : Server)
    (calm : ∀ call ∈ calls, call.Calm) :
    ((run s calls).map Record.processes).sum ≤ s.allowance := by
  induction calls generalizing s with
  | nil => simp [run]
  | cons call calls ih =>
      have first := perform_processes (calm call (by simp)) s
      have rest := ih (perform call s).2 (fun call' h => calm call' (by simp [h]))
      simp only [run, List.map_cons, List.sum_cons]
      omega

/-- In every run in which no start is interrupted while it waits for its process, a start
that returns has got the answer `OK!`, one process is started at most, and a failure of
the server is final. -/
theorem run_reliable (calls : List (Call (timeoutSeconds * 1000)))
    (calm : ∀ call ∈ calls, call.Calm) : Reliable (run {} calls) where
  up := run_up calls _ calm
  once := run_processes calls _ calm
  failed := fun earlier record later split failed =>
    run_failed_for_good calls _ earlier later record split failed

end RunProperties

/-! ## Interrupted starts

With the default timeout of five minutes.
-/

def DEFAULT_TIMEOUT_SECONDS : Nat := 5 * 60

/-- A start that meets no obstacle before it waits for the process. -/
def smoothStart (request : Exchange) (firstSleep : Sleep) (rounds : List Round) :
    Call (DEFAULT_TIMEOUT_SECONDS * 1000) :=
  .startServerLazily {
    request := request
    deploy := .ok ()
    deployRulesBundles := .ok ()
    findOpenPort := .ok 53173
    scriptFile := "/work/package/bin/server"
    scriptFileExists := true
    build := .ok ()
    start := .ok ()
    wait := {
      start := 0
      firstSleep := firstSleep
      rounds := rounds ++ [⟨.ioException, 300001, .slept⟩]
      expires := by simp [DEFAULT_TIMEOUT_SECONDS] } }

/-- The process answers at the second request, is asked again, is closed, and is then
missing. -/
def slowStart : List (Call (DEFAULT_TIMEOUT_SECONDS * 1000)) :=
  [smoothStart .ioException .slept [⟨.ioException, 150, .slept⟩, ⟨.answered OK, 300, .slept⟩],
    smoothStart (.answered OK) .slept [],
    .clean ⟨.answered OK, .answered OK⟩,
    smoothStart .ioException .slept []]

theorem run_reliable_slow_start :
    (∀ call ∈ slowStart, call.Calm) ∧ Reliable (run {} slowStart) ∧
      (run {} slowStart).map (·.result) =
        [.ok (), .ok (), .ok (), .error .serverAlreadyFailedException] := by
  have calm : ∀ call ∈ slowStart, call.Calm := by decide
  exact ⟨calm, run_reliable slowStart calm, rfl⟩

/-- An interrupted sleep passes for a server that is up; an interrupted status request
leaves a process behind of which the next start knows nothing. -/
theorem run_interrupted_unreliable :
    ¬ Reliable (run {} [smoothStart .ioException .interrupted []]) ∧
    ¬ Reliable (run {} [smoothStart .ioException .slept [⟨.interrupted, 150, .slept⟩],
      smoothStart .ioException .slept [⟨.answered OK, 150, .slept⟩]]) := by
  constructor
  · intro reliable
    have answered := reliable.up _ (List.mem_singleton.mpr rfl) rfl rfl
    revert answered
    decide
  · intro reliable
    have once := reliable.once
    revert once
    decide

end SonarJS.Bridge
