import Mathlib.Data.List.Nodup
import SonarJS.Foundation.Transitions

/-!
# The orphan timeout of the bridge

The Node.js side of the bridge shuts itself down when nobody talks to it. A middleware
stops a timer when a request comes in and starts it again when the response has been
handed over; the callback of the timer closes the server.

The model follows `server.ts`, `middleware.ts` and `timeout.ts` event by event: the clock,
the timers that Node.js holds, the field of `Timeout`, and the responses whose `finish`
event is awaited. Requests overlap freely. A connection that is lost before its response
has been handed over never emits `finish`, and a request whose body `express.json` rejects
never gets to the middleware, which is registered behind it.
-/

namespace SonarJS

namespace Bridge

namespace Orphan

/-- A timer that has neither expired nor been cleared. -/
structure Timer where
  id : ℕ
  due : ℕ
deriving DecidableEq

/-- A response whose `finish` event is awaited. -/
structure Response where
  request : ℕ
  /-- The request was sent to `/close`. -/
  closes : Bool
deriving DecidableEq

structure Process where
  clock : ℕ := 0
  timers : List Timer := []
  nextTimer : ℕ := 0
  /-- `Timeout.timeout`. -/
  timeout : Option ℕ := none
  /-- The `listening` event of the server was emitted. -/
  started : Bool := false
  /-- `server.listening`. -/
  listening : Bool := false
  /-- The `close` event of the server was emitted. -/
  closed : Bool := false
  responses : List Response := []
deriving DecidableEq

def Process.setTimeout (delay : ℕ) (p : Process) : Process :=
  { p with
    timers := p.timers ++ [⟨p.nextTimer, p.clock + delay⟩]
    nextTimer := p.nextTimer + 1 }

def Process.clearTimeout (id : ℕ) (p : Process) : Process :=
  { p with timers := p.timers.filter fun timer => timer.id ≠ id }

/-- `server.close()`: no new connections, the open ones go on. -/
def Process.close (p : Process) : Process := { p with listening := false }

namespace Timeout

def stop (p : Process) : Process :=
  match p.timeout with
  | none => p
  | some id => { p.clearTimeout id with timeout := none }

def start (delay : ℕ) (p : Process) : Process :=
  { (stop p).setTimeout delay with timeout := some (stop p).nextTimer }

end Timeout

inductive Event
  | pass (ms : ℕ)
  | listening
  /-- A request gets to the middleware. -/
  | receive (request : ℕ) (closes : Bool)
  /-- A request is answered by the error handler of `express.json`. -/
  | refuse
  /-- The `finish` event of a response. -/
  | finish (request : ℕ)
  /-- The connection is lost before the response is handed over. -/
  | abort (request : ℕ)
  /-- Node.js calls back a timer. -/
  | expire (timer : ℕ)
  /-- The `close` event of the server, once no connection is left. -/
  | closed
deriving DecidableEq

def Process.responseTo (p : Process) (request : ℕ) : Option Response :=
  p.responses.find? fun response => response.request = request

/-- The callback of the timer, as `start` passes it to `timeoutMiddleware`. -/
def Process.orphaned (p : Process) : Process := if p.listening then p.close else p

/-- The listeners of `finish`: the one of the middleware is registered first, the one of
`response.end` in the handler of `/close` after it. -/
def Process.finished (delay : ℕ) (response : Response) (p : Process) : Process :=
  let restarted := Timeout.start delay { p with responses := p.responses.erase response }
  if response.closes then restarted.close else restarted

def step (delay : ℕ) (p : Process) : Event → Option Process
  | .pass ms => some { p with clock := p.clock + ms }
  | .listening =>
    if p.started then none else some { p with started := true, listening := true }
  | .receive request closes =>
    if p.started ∧ ¬p.closed ∧ p.responseTo request = none then
      some { Timeout.stop p with responses := p.responses ++ [⟨request, closes⟩] }
    else none
  | .refuse => if p.started ∧ ¬p.closed then some p else none
  | .finish request => (p.responseTo request).map fun response => p.finished delay response
  | .abort request =>
    (p.responseTo request).map fun response =>
      { p with responses := p.responses.erase response }
  | .expire timer =>
    match p.timers.find? fun t => t.id = timer with
    | none => none
    | some t =>
      if t.due ≤ p.clock then
        some { p with timers := p.timers.erase t }.orphaned
      else none
  | .closed =>
    if p.started ∧ ¬p.listening ∧ ¬p.closed ∧ p.responses = [] then
      some { Timeout.stop p with closed := true }
    else none

/-- `start` of `server.ts`. -/
def server (delay : ℕ) : TransitionSystem Process Event where
  initial := Timeout.start delay {}
  step := step delay

/-- What each event does, where it can happen. -/
inductive Happens (delay : ℕ) (p : Process) : Event → Process → Prop
  | pass (ms : ℕ) : Happens delay p (.pass ms) { p with clock := p.clock + ms }
  | listening : p.started = false →
      Happens delay p .listening { p with started := true, listening := true }
  | receive (request : ℕ) (closes : Bool) : p.responseTo request = none →
      Happens delay p (.receive request closes)
        { Timeout.stop p with responses := p.responses ++ [⟨request, closes⟩] }
  | refuse : Happens delay p .refuse p
  | finish (request : ℕ) (response : Response) : p.responseTo request = some response →
      Happens delay p (.finish request) (p.finished delay response)
  | abort (request : ℕ) (response : Response) : p.responseTo request = some response →
      Happens delay p (.abort request) { p with responses := p.responses.erase response }
  | expire (timer : Timer) : timer ∈ p.timers → timer.due ≤ p.clock →
      Happens delay p (.expire timer.id) { p with timers := p.timers.erase timer }.orphaned
  | closed : p.started = true → p.listening = false →
      Happens delay p .closed { Timeout.stop p with closed := true }

theorem happens_of_step {delay : ℕ} {p q : Process} {e : Event}
    (stepped : step delay p e = some q) : Happens delay p e q := by
  cases e with
  | pass ms =>
      cases stepped
      exact .pass ms
  | listening =>
      simp only [step, Option.ite_none_left_eq_some, Option.some.injEq] at stepped
      obtain ⟨new, rfl⟩ := stepped
      exact .listening (by simpa using new)
  | receive request closes =>
      simp only [step, Option.ite_none_right_eq_some, Option.some.injEq] at stepped
      obtain ⟨⟨-, -, new⟩, rfl⟩ := stepped
      exact .receive request closes new
  | refuse =>
      simp only [step, Option.ite_none_right_eq_some, Option.some.injEq] at stepped
      obtain ⟨-, rfl⟩ := stepped
      exact .refuse
  | finish request =>
      obtain ⟨response, found, rfl⟩ := Option.map_eq_some_iff.mp stepped
      exact .finish request response found
  | abort request =>
      obtain ⟨response, found, rfl⟩ := Option.map_eq_some_iff.mp stepped
      exact .abort request response found
  | expire id =>
      simp only [step] at stepped
      split at stepped
      · cases stepped
      · rename_i timer found
        simp only [Option.ite_none_right_eq_some, Option.some.injEq] at stepped
        obtain ⟨due, rfl⟩ := stepped
        have called : timer.id = id := by simpa using List.find?_some found
        exact called ▸ .expire timer (List.mem_of_find?_eq_some found) due
  | closed =>
      simp only [step, Option.ite_none_right_eq_some, Option.some.injEq] at stepped
      obtain ⟨⟨started, stopped, -⟩, rfl⟩ := stepped
      exact .closed started (by simpa using stopped)

/-! ## The alarm

What the timers amount to: one alarm, which is set or not. -/

structure Watch where
  clock : ℕ
  alarm : Option ℕ

def watchStep (delay : ℕ) (w : Watch) : Event → Option Watch
  | .pass ms => some { w with clock := w.clock + ms }
  | .listening | .refuse | .abort _ => some w
  | .receive _ _ | .closed => some { w with alarm := none }
  | .finish _ => some { w with alarm := some (w.clock + delay) }
  | .expire _ =>
    match w.alarm with
    | none => none
    | some due => if due ≤ w.clock then some { w with alarm := none } else none

def watch (delay : ℕ) : TransitionSystem Watch Event where
  initial := ⟨0, some delay⟩
  step := watchStep delay

/-- The timers of Node.js are the alarm, and `Timeout` knows the timer it has to clear. -/
inductive Armed (p : Process) : Option ℕ → Prop
  | off : p.timers = [] → Armed p none
  | on (timer : Timer) : p.timers = [timer] → p.timeout = some timer.id → Armed p (some timer.due)

structure Refines (p : Process) (w : Watch) : Prop where
  clock : p.clock = w.clock
  armed : Armed p w.alarm

section Timeout

variable {delay : ℕ} {p : Process} {alarm : Option ℕ}

@[simp] theorem stop_clock (p : Process) : (Timeout.stop p).clock = p.clock := by
  unfold Timeout.stop
  split <;> rfl

@[simp] theorem stop_responses (p : Process) : (Timeout.stop p).responses = p.responses := by
  unfold Timeout.stop
  split <;> rfl

@[simp] theorem stop_started (p : Process) : (Timeout.stop p).started = p.started := by
  unfold Timeout.stop
  split <;> rfl

@[simp] theorem stop_listening (p : Process) : (Timeout.stop p).listening = p.listening := by
  unfold Timeout.stop
  split <;> rfl

@[simp] theorem stop_closed (p : Process) : (Timeout.stop p).closed = p.closed := by
  unfold Timeout.stop
  split <;> rfl

theorem stop_timers (armed : Armed p alarm) : (Timeout.stop p).timers = [] := by
  cases armed with
  | off none =>
      unfold Timeout.stop
      split
      · exact none
      · simp [Process.clearTimeout, none]
  | on timer single field => simp [Timeout.stop, Process.clearTimeout, field, single]

@[simp] theorem start_clock : (Timeout.start delay p).clock = p.clock := stop_clock p

@[simp] theorem start_responses : (Timeout.start delay p).responses = p.responses :=
  stop_responses p

@[simp] theorem start_started : (Timeout.start delay p).started = p.started := stop_started p

@[simp] theorem start_listening : (Timeout.start delay p).listening = p.listening :=
  stop_listening p

@[simp] theorem start_closed : (Timeout.start delay p).closed = p.closed := stop_closed p

theorem start_armed (armed : Armed p alarm) :
    Armed (Timeout.start delay p) (some (p.clock + delay)) := by
  have single : (Timeout.start delay p).timers =
      [⟨(Timeout.stop p).nextTimer, p.clock + delay⟩] := by
    simp [Timeout.start, Process.setTimeout, stop_timers armed]
  exact .on _ single rfl

/-- Only the timers and the field of `Timeout` count. -/
theorem Armed.congr {q : Process} (armed : Armed p alarm) (timers : q.timers = p.timers)
    (timeout : q.timeout = p.timeout) : Armed q alarm := by
  cases armed with
  | off none => exact .off (timers.trans none)
  | on timer single field => exact .on timer (timers.trans single) (timeout.trans field)

@[simp] theorem orphaned_timers : p.orphaned.timers = p.timers := by
  unfold Process.orphaned
  split <;> rfl

@[simp] theorem orphaned_clock : p.orphaned.clock = p.clock := by
  unfold Process.orphaned
  split <;> rfl

@[simp] theorem orphaned_responses : p.orphaned.responses = p.responses := by
  unfold Process.orphaned
  split <;> rfl

@[simp] theorem orphaned_started : p.orphaned.started = p.started := by
  unfold Process.orphaned
  split <;> rfl

@[simp] theorem orphaned_listening : p.orphaned.listening = false := by
  unfold Process.orphaned
  split
  · rfl
  · simp_all

end Timeout

theorem refines_initial (delay : ℕ) : Refines (server delay).initial (watch delay).initial := by
  have armed : Armed (server delay).initial (some (0 + delay)) := start_armed (.off rfl)
  rw [Nat.zero_add] at armed
  exact ⟨rfl, armed⟩

/-- Only the timer that is armed can expire. -/
theorem Armed.eq_of_mem {p : Process} {alarm : Option ℕ} {timer : Timer} (armed : Armed p alarm)
    (member : timer ∈ p.timers) : p.timers = [timer] ∧ alarm = some timer.due := by
  cases armed with
  | off empty =>
      rw [empty] at member
      cases member
  | on other single field =>
      rw [single, List.mem_singleton] at member
      subst member
      exact ⟨single, rfl⟩

theorem refines_step {delay : ℕ} {p q : Process} {w : Watch} {e : Event} (refines : Refines p w)
    (stepped : step delay p e = some q) : ∃ v, watchStep delay w e = some v ∧ Refines q v := by
  obtain ⟨clock, armed⟩ := refines
  cases happens_of_step stepped with
  | pass ms => exact ⟨_, rfl, by simp [clock], armed.congr rfl rfl⟩
  | listening => exact ⟨_, rfl, clock, armed.congr rfl rfl⟩
  | receive request closes => exact ⟨_, rfl, by simp [clock], .off (stop_timers armed)⟩
  | refuse => exact ⟨_, rfl, clock, armed⟩
  | finish request response =>
      have restarted : Refines
          (Timeout.start delay { p with responses := p.responses.erase response })
          { w with alarm := some (w.clock + delay) } :=
        ⟨by simp [clock], clock ▸ start_armed (armed.congr rfl rfl)⟩
      refine ⟨_, rfl, ?_⟩
      unfold Process.finished
      split
      · exact ⟨restarted.clock, restarted.armed.congr rfl rfl⟩
      · exact restarted
  | abort request response => exact ⟨_, rfl, clock, armed.congr rfl rfl⟩
  | expire timer member due =>
      obtain ⟨single, alarm⟩ := armed.eq_of_mem member
      refine ⟨{ w with alarm := none }, ?_, by simp [clock], .off (by simp [single])⟩
      simp [watchStep, alarm, ← clock, due]
  | closed => exact ⟨_, rfl, by simp [clock], .off (stop_timers armed)⟩

/-- The process refines the watch, in every run. -/
theorem exists_watch {delay : ℕ} {events : List Event} {p : Process}
    (reached : (server delay).Reaches events p) :
    ∃ w, (watch delay).Reaches events w ∧ Refines p w :=
  reached.simulates (refines_initial delay) fun _ _ _ _ refines stepped =>
    refines_step refines stepped

/-! ## What the history says about the alarm -/

/-- The events that the middleware and the callback do not notice. -/
def Event.isQuiet : Event → Bool
  | .pass _ | .listening | .refuse | .abort _ => true
  | .receive _ _ | .finish _ | .expire _ | .closed => false

/-- The time that passes during some events. -/
def elapsed : List Event → ℕ
  | [] => 0
  | .pass ms :: events => ms + elapsed events
  | _ :: events => elapsed events

@[simp] theorem elapsed_append (es fs : List Event) :
    elapsed (es ++ fs) = elapsed es + elapsed fs := by
  induction es with
  | nil => simp [elapsed]
  | cons e es ih =>
      cases e with
      | pass ms => simp [elapsed, ih, Nat.add_assoc]
      | _ => simpa [elapsed] using ih

theorem watch_clock {delay : ℕ} {events : List Event} {w : Watch}
    (reached : (watch delay).Reaches events w) : w.clock = elapsed events := by
  refine reached.invariant (P := fun events w => w.clock = elapsed events) rfl ?_
  intro es v e u _ clock stepped
  cases e with
  | pass ms =>
      cases stepped
      simp [elapsed, clock]
  | expire id =>
      simp only [watch, watchStep] at stepped
      split at stepped
      · cases stepped
      · obtain ⟨-, same⟩ := Option.ite_none_right_eq_some.mp stepped
        cases same
        simpa [elapsed] using clock
  | _ =>
      cases stepped
      simpa [elapsed] using clock

/-- The runs after which the timer starts: the one of the start itself, and those that end
with a response. -/
def Arms (events : List Event) : Prop :=
  events = [] ∨ ∃ earlier request, events = earlier ++ [.finish request]

/-- The last event that was noticed decides whether the alarm is set, and for when. -/
inductive History (delay : ℕ) (events : List Event) : Option ℕ → Prop
  | armed (before quiet : List Event) : events = before ++ quiet → Arms before →
      (∀ e ∈ quiet, e.isQuiet) → History delay events (some (elapsed before + delay))
  | disarmed (before quiet : List Event) (e : Event) : events = before ++ e :: quiet →
      e.isQuiet = false → (∀ request, e ≠ .finish request) → (∀ e ∈ quiet, e.isQuiet) →
      History delay events none

theorem History.quiet {delay : ℕ} {events : List Event} {alarm : Option ℕ} {e : Event}
    (history : History delay events alarm) (isQuiet : e.isQuiet) :
    History delay (events ++ [e]) alarm := by
  have extends_quiet {quiet : List Event} (all : ∀ e ∈ quiet, e.isQuiet) :
      ∀ f ∈ quiet ++ [e], f.isQuiet := by
    intro f member
    obtain old | new := List.mem_append.mp member
    · exact all f old
    · rwa [List.mem_singleton.mp new]
  cases history with
  | armed before quiet split arms all =>
      exact .armed before (quiet ++ [e]) (by simp [split]) arms (extends_quiet all)
  | disarmed before quiet f split noticed unfinished all =>
      exact .disarmed before (quiet ++ [e]) f (by simp [split]) noticed unfinished
        (extends_quiet all)

theorem History.ends {delay : ℕ} (events : List Event) {e : Event} (noticed : e.isQuiet = false)
    (unfinished : ∀ request, e ≠ .finish request) : History delay (events ++ [e]) none :=
  .disarmed events [] e rfl noticed unfinished (by simp)

theorem watch_history {delay : ℕ} {events : List Event} {w : Watch}
    (reached : (watch delay).Reaches events w) : History delay events w.alarm := by
  refine reached.invariant (P := fun events w => History delay events w.alarm) ?_ ?_
  · have armed : History delay [] (some (0 + delay)) := .armed [] [] rfl (.inl rfl) (by simp)
    rw [Nat.zero_add] at armed
    exact armed
  · intro es v e u before history stepped
    cases e with
    | pass ms =>
        cases stepped
        exact history.quiet rfl
    | listening =>
        cases stepped
        exact history.quiet rfl
    | refuse =>
        cases stepped
        exact history.quiet rfl
    | abort request =>
        cases stepped
        exact history.quiet rfl
    | receive request closes =>
        cases stepped
        exact .ends es rfl (by simp)
    | closed =>
        cases stepped
        exact .ends es rfl (by simp)
    | finish request =>
        cases stepped
        have clock : elapsed (es ++ [.finish request]) = v.clock := by
          simp [elapsed, watch_clock before]
        rw [← clock]
        exact .armed _ [] (by simp) (.inr ⟨es, request, rfl⟩) (by simp)
    | expire id =>
        simp only [watch, watchStep] at stepped
        split at stepped
        · cases stepped
        · obtain ⟨-, same⟩ := Option.ite_none_right_eq_some.mp stepped
          cases same
          exact .ends es rfl (by simp)

/-! ## What the history says about the responses -/

theorem mem_responseTo {p : Process} {request : ℕ} {response : Response}
    (found : p.responseTo request = some response) :
    response ∈ p.responses ∧ response.request = request := by
  refine ⟨List.mem_of_find?_eq_some found, ?_⟩
  simpa using List.find?_some found

/-- No request is answered twice at a time. -/
def Distinct (p : Process) : Prop := (p.responses.map Response.request).Nodup

@[simp] theorem finished_responses {delay : ℕ} {response : Response} {p : Process} :
    (p.finished delay response).responses = p.responses.erase response := by
  simp only [Process.finished]
  split <;> exact stop_responses _

@[simp] theorem finished_started {delay : ℕ} {response : Response} {p : Process} :
    (p.finished delay response).started = p.started := by
  simp only [Process.finished]
  split <;> exact stop_started _

theorem listening_of_finished {delay : ℕ} {response : Response} {p : Process}
    (listening : (p.finished delay response).listening = true) : p.listening = true := by
  simp only [Process.finished] at listening
  split at listening
  · cases listening
  · simpa using listening

theorem distinct_of_reaches {delay : ℕ} {events : List Event} {p : Process}
    (reached : (server delay).Reaches events p) : Distinct p := by
  refine reached.invariant (P := fun _ p => Distinct p) (by simp [Distinct, server]) ?_
  intro es p e q _ distinct stepped
  have erased (response : Response) : ((p.responses.erase response).map Response.request).Nodup :=
    distinct.sublist ((List.erase_sublist ..).map _)
  cases happens_of_step stepped with
  | receive request closes new =>
      have fresh : ∀ response ∈ p.responses, response.request ≠ request := by
        simpa [Process.responseTo] using new
      simp only [Distinct, List.map_append, List.map_cons, List.map_nil]
      refine List.nodup_append.mpr ⟨distinct, by simp, ?_⟩
      intro _ old _ other
      obtain ⟨response, member, rfl⟩ := List.mem_map.mp old
      rw [List.mem_singleton.mp other]
      exact fresh response member
  | finish request response => simpa [Distinct] using erased response
  | abort request response => exact erased response
  | expire timer => simpa [Distinct] using distinct
  | closed => simpa [Distinct] using distinct
  | pass | listening | refuse => exact distinct

/-- Events that are not noticed leave the responses, except those that are lost. -/
theorem run_quiet {delay : ℕ} {p q : Process} {quiet : List Event}
    (ran : (server delay).run p quiet = some q) (all : ∀ e ∈ quiet, e.isQuiet) :
    q.responses ⊆ p.responses ∧
      ((∀ request, .abort request ∉ quiet) → q.responses = p.responses) := by
  constructor
  · refine TransitionSystem.run_keeps (P := fun q => q.responses ⊆ p.responses) ?_ ran
      (List.Subset.refl _)
    intro e member s t subset stepped
    cases happens_of_step stepped with
    | pass | listening | refuse => exact subset
    | abort request response => exact List.Subset.trans (List.erase_subset ..) subset
    | receive | finish | expire | closed => cases all _ member
  · intro kept
    refine TransitionSystem.run_keeps (P := fun q => q.responses = p.responses) ?_ ran rfl
    intro e member s t same stepped
    cases happens_of_step stepped with
    | pass | listening | refuse => exact same
    | abort request response => exact absurd member (kept request)
    | receive | finish | expire | closed => cases all _ member

/-- No timer expires before the server listens. -/
def StartsInTime (events : List Event) : Prop :=
  ∀ before after timer, events = before ++ .expire timer :: after → .listening ∈ before

theorem StartsInTime.of_append {es fs : List Event} (h : StartsInTime (es ++ fs)) :
    StartsInTime es := by
  rintro before after timer rfl
  exact h before (after ++ fs) timer (by simp)

/-- What a server that listens has not seen. -/
structure Listens (events : List Event) (p : Process) : Prop where
  started : p.listening = true → p.started = true
  unannounced : p.started = false → .listening ∉ events ∧ .closed ∉ events
  unclosed : p.listening = true → .closed ∉ events
  unexpired : StartsInTime events → p.listening = true → ∀ timer, .expire timer ∉ events

theorem listens_of_reaches {delay : ℕ} {events : List Event} {p : Process}
    (reached : (server delay).Reaches events p) : Listens events p := by
  refine reached.invariant (P := Listens) ⟨?_, ?_, ?_, ?_⟩ ?_
  · simp [server]
  · simp
  · simp
  · simp
  · intro es p e q _ listens stepped
    -- Where the event says nothing about the server, every part carries over.
    have unnoticed (open_ : q.listening = true → p.listening = true)
        (same : q.started = p.started) (notListening : e ≠ .listening) (notClosed : e ≠ .closed)
        (notExpire : ∀ timer, e ≠ .expire timer) : Listens (es ++ [e]) q := by
      refine ⟨fun h => same ▸ listens.started (open_ h), ?_, ?_, ?_⟩
      · intro new
        simpa [notListening.symm, notClosed.symm] using listens.unannounced (same ▸ new)
      · intro h
        simpa [notClosed.symm] using listens.unclosed (open_ h)
      · intro inTime h timer
        simpa [(notExpire timer).symm] using listens.unexpired inTime.of_append (open_ h) timer
    cases happens_of_step stepped with
    | pass ms => exact unnoticed id rfl (by simp) (by simp) (by simp)
    | receive request closes =>
        exact unnoticed (by simp) (stop_started p) (by simp) (by simp) (by simp)
    | refuse => exact unnoticed id rfl (by simp) (by simp) (by simp)
    | finish request response =>
        exact unnoticed listening_of_finished finished_started (by simp) (by simp) (by simp)
    | abort request response => exact unnoticed id rfl (by simp) (by simp) (by simp)
    | listening new =>
        obtain ⟨first, unclosed⟩ := listens.unannounced new
        refine ⟨fun _ => rfl, by simp, by simpa using unclosed, fun inTime _ timer expired => ?_⟩
        obtain ⟨before, after, split⟩ := List.append_of_mem (by simpa using expired)
        have early := inTime.of_append before after timer split
        exact first (by simp [split, early])
    | expire timer member due =>
        refine ⟨by simp, ?_, by simp, by simp⟩
        intro new
        simpa using listens.unannounced (by simpa using new)
    | closed started stopped =>
        refine ⟨?_, ?_, ?_, ?_⟩
        all_goals simp [stopped, started]

/-- A timer is set in a server that listens, once all requests have been answered. -/
theorem exists_armed {delay : ℕ} {events : List Event} {p : Process}
    (reached : (server delay).Reaches events p) (inTime : StartsInTime events)
    (listening : p.listening = true) (idle : p.responses = [])
    (unlost : ∀ request, .abort request ∉ events) :
    ∃ timer, p.timers = [timer] ∧ timer.due ≤ p.clock + delay := by
  have listens := listens_of_reaches reached
  obtain ⟨w, watched, clock, armed⟩ := exists_watch reached
  have history := watch_history watched
  have now : p.clock = elapsed events := clock.trans (watch_clock watched)
  generalize w.alarm = alarm at armed history
  cases history with
  | armed before quiet split arms all =>
      generalize due_eq : elapsed before + delay = due at armed
      cases armed with
      | on timer single field =>
      refine ⟨timer, single, ?_⟩
      rw [now, split, elapsed_append]
      omega
  | disarmed before quiet e split noticed unfinished all =>
      -- The last event that was noticed is one that a server that listens and has nothing to
      -- answer has not seen.
      exfalso
      have seen : e ∈ events := by simp [split]
      cases e with
      | receive request closes =>
          have unlostLater : ∀ other, .abort other ∉ quiet := by
            intro other lost
            exact unlost other (by simp [split, lost])
          rw [split, List.append_cons] at reached
          obtain ⟨t, received, ran⟩ := TransitionSystem.reaches_append.mp reached
          obtain ⟨u, -, stepped⟩ := TransitionSystem.reaches_concat.mp received
          have kept := (run_quiet ran all).2 unlostLater
          have happened : Happens delay u (.receive request closes) t := happens_of_step stepped
          cases happened
          simp [idle] at kept
      | expire timer => exact listens.unexpired inTime listening timer seen
      | closed => exact listens.unclosed listening seen
      | finish request => exact unfinished request rfl
      | pass | listening | refuse | abort => cases noticed

/-- While nothing comes in, a server that listens keeps the timer it has set. -/
theorem run_idle {delay : ℕ} {p q : Process} {timer : Timer} {rest : List Event}
    (ran : (server delay).run p rest = some q)
    (silent : ∀ request closes, .receive request closes ∉ rest)
    (started : p.started = true) (single : p.timers = [timer]) (idle : p.responses = []) :
    q.listening = true → q.timers = [timer] := by
  have kept := TransitionSystem.run_keeps
    (P := fun q => q.started = true ∧ q.responses = [] ∧
      (q.listening = true → q.timers = [timer])) ?_ ran ⟨started, idle, fun _ => single⟩
  · exact kept.2.2
  · rintro e member s t ⟨started, idle, armed⟩ stepped
    cases happens_of_step stepped with
    | pass ms => exact ⟨started, idle, armed⟩
    | listening new => simp [started] at new
    | receive request closes => exact absurd member (silent request closes)
    | refuse => exact ⟨started, idle, armed⟩
    | finish request response found => simp [Process.responseTo, idle] at found
    | abort request response found => simp [Process.responseTo, idle] at found
    | expire other => exact ⟨by simpa using started, by simpa using idle, by simp⟩
    | closed opened stopped => exact ⟨by simp [opened], by simp [idle], by simp [stopped]⟩

end Orphan

end Bridge

end SonarJS
