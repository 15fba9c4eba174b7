/-
Caips.Agents.EmergencyShutdown — the kill switch, after `agents/emergency_shutdown.py`,
with `DrainMiddleware` and `wait_idle` of `coreai/drain.py` and the endpoint
`POST /admin/shutdown` of `api/routes.py`.

The requests and the shutdowns of one server are coroutines on its event loop. What the
rest of the server does with an admitted request is the await `app`, and each call into a
subsystem during a teardown is an await of its own. A shutdown is known by its place in
`shutdowns`; the endpoint makes a new one where none is in progress.

`wait_for` interrupts what it waits for when its time is up, with an exception that only
it turns into a `TimeoutError` (`expired`), so that an interrupt from outside stays one.
Two calls in a `gather` that keeps their exceptions are one await.

`inside` and `journal` are a record that no branch of the code reads.
-/
import Caips.Coreai.Drain
import Caips.Logic.Coro
import Caips.Logic.Sync

namespace Caips.Agents

open Caips.Logic Caips.Coreai

inductive ShutdownMode where
  | graceful
  | immediate
  | forced
  deriving DecidableEq

inductive ShutdownReason where
  | operator
  | oom
  | unhandledError
  | watchdog
  | sigterm
  | sigint
  | apiTrigger
  deriving DecidableEq

/-- `ShutdownEvent`, without its time stamp. -/
structure ShutdownEvent where
  mode : ShutdownMode
  reason : ShutdownReason
  triggeredBy : String
  message : String := ""
  completed : Bool := false
  durationMs : ℤ := 0

/-- An `EmergencyShutdown`; `tasks` says whether it has a task runner. -/
structure EmergencyShutdown where
  tasks : Bool := true
  hooks : List String := []
  inProgress : Bool := false
  event : Option ShutdownEvent := none

/-- What a teardown calls. -/
inductive Teardown where
  | stopTasks
  | shutdownAgents
  | flushKernel
  | terminateKernel
  /-- The agents and the kernel, gathered. -/
  | agentsAndKernel
  | hook (name : String)
  | flushWrites
  | closeDb
  deriving DecidableEq

/-- An entry of the journal; `accepting` is what the controller says at the time. -/
inductive ServerEvent where
  | refused (path : String)
  | entered (path : String) (accepting : Bool)
  | left (path : String)
  /-- How a shutdown's wait for the requests in flight came out. -/
  | waited (j : ℕ) (idle : Bool)
  /-- A call into a subsystem is made. -/
  | calls (j : ℕ) (what : Teardown) (accepting : Bool)
  /-- It was logged that all subsystems are killed. -/
  | killing (j : ℕ)
  /-- The database has been closed. -/
  | closed (j : ℕ)
  /-- An exception of the database was logged. -/
  | closeError (j : ℕ)
  /-- The task that closes the database when all is killed was cancelled. -/
  | closeCancelled (j : ℕ)
  | exited (j : ℕ) (code : ℕ)
  deriving DecidableEq

structure Server where
  drain : DrainController := {}
  shutdowns : List EmergencyShutdown := []
  /-- `app_state["shutdown"]`. -/
  current : Option ℕ := none
  now : ℚ := 0
  auditFails : Bool := false
  auditLog : List ShutdownEvent := []
  /-- The paths of the requests that are counted. -/
  inside : List String := []
  journal : List ServerEvent := []

/-- What a request to `/admin/shutdown` asks for. -/
structure ShutdownOrder where
  mode : ShutdownMode
  message : String
  subject : String

/-- An ASGI scope, with the order it comes to after its checks, if any. -/
structure Scope where
  type : String
  path : String := ""
  order : Option ShutdownOrder := none

/-- A message to the client. -/
inductive SendMessage where
  | responseStart (status : ℕ) (headers : List (String × String))
  | responseBody (body : String)

inductive Exc where
  | cancelled
  /-- The interrupt of a `wait_for`, by how many are around it. -/
  | expired (depth : ℕ)
  | timeout
  | error (text : String)
  deriving DecidableEq

/-- The subclasses of `Exception`. -/
def Exc.isException : Exc → Bool
  | .timeout => true
  | .error _ => true
  | _ => false

/-- What a task of the server awaits; a wait for the event knows how often it had been set. -/
inductive Query where
  | app (scope : Scope)
  | send (m : SendMessage)
  | idle (seen : ℕ)
  | teardown (j : ℕ) (what : Teardown)

inductive Job where
  | request (scope : Scope)
  | trigger (j : ℕ) (mode : ShutdownMode) (reason : ShutdownReason) (triggeredBy message : String)
  | killAgents (j : ℕ)
  | killKernel (j : ℕ)
  | closeDb (j : ℕ)

abbrev Γ : Sig where
  State := Server
  Exc := Exc
  interrupt := .cancelled
  Query := Query
  Reply _ := Unit
  Child := Job
  Out _ := Unit

/-- A coroutine of the server. -/
abbrev Async (α : Type) : Type := Coro Γ α

namespace Server

/-- An entry of the journal. -/
def note (s : Server) (e : ServerEvent) : Server := { s with journal := e :: s.journal }

def setShutdown (s : Server) (j : ℕ) (f : EmergencyShutdown → EmergencyShutdown) : Server :=
  { s with shutdowns := s.shutdowns.modify j f }

/-- `controller.enter()`. -/
def enter (s : Server) (path : String) : Server :=
  { s with drain := s.drain.enter, inside := path :: s.inside }.note (.entered path s.drain.accepting)

/-- `controller.leave()`. -/
def leave (s : Server) (path : String) : Server :=
  { s with drain := s.drain.leave, inside := s.inside.erase path }.note (.left path)

/-! ## Actions -/

def read {α : Type} (f : Server → α) : Async α := Coro.act id fun s => .ret (f s)

def update (f : Server → Server) : Async Unit := Coro.act f fun _ => .ret ()

def query (q : Query) : Async Unit := Coro.call q

def record (e : ServerEvent) : Async Unit := update (·.note e)

/-- `except Exception`. -/
def except (c : Async Unit) (h : Async Unit) : Async Unit :=
  Coro.tryCatch c fun e => if e.isException then h else Coro.fail e

/-- `asyncio.wait_for`, with `depth` others around it. -/
def waitFor {α : Type} (depth : ℕ) (c : Async α) : Async α :=
  Coro.tryCatch c fun e => if e = .expired depth then Coro.fail .timeout else Coro.fail e

/-- `except TimeoutError`. -/
def exceptTimeout {α : Type} (c : Async α) (h : Async α) : Async α :=
  Coro.tryCatch c fun e => if e = .timeout then h else Coro.fail e

/-! ## Requests -/

/-- `POST /admin/shutdown`, after its checks: a shutdown that is in progress is kept. -/
def triggerShutdown (o : ShutdownOrder) : Async Unit := do
  let busy ← read fun s => (s.current.bind (s.shutdowns[·]?)).any (·.inProgress)
  if busy then pure ()
  else
    let j ← read (·.shutdowns.length)
    update fun s => { s with shutdowns := s.shutdowns ++ [{}], current := some j }
    let _ ← Coro.start (.trigger j o.mode .apiTrigger o.subject o.message)
    pure ()

/-- The server behind the middleware. -/
def app (scope : Scope) : Async Unit := do
  query (.app scope)
  match scope.order with
  | some o =>
    triggerShutdown o
    query (.app scope)
  | none => pure ()

def refusal : String := "\x7b\"error\": \"shutting_down\", \"detail\": \"Gateway is shutting down.\"\x7d"

/-- `DrainMiddleware.__call__`. -/
def serve (scope : Scope) : Async Unit := do
  if scope.type ≠ "http" then app scope
  else
    let accepting ← read (·.drain.accepting)
    if !accepting && !allowedPath scope.path then
      record (.refused scope.path)
      query (.send (.responseStart 503
        [("content-type", "application/json"), ("retry-after", "30"), ("content-length", toString refusal.length)]))
      query (.send (.responseBody refusal))
    else
      update (·.enter scope.path)
      Coro.tryFinally (app scope) (update (·.leave scope.path))

/-! ## Teardown -/

variable (j : ℕ)

/-- A call into a subsystem. -/
def call (what : Teardown) : Async Unit := do
  update fun s => s.note (.calls j what s.drain.accepting)
  query (.teardown j what)

/-- `wait_idle`, within `depth` others. -/
def waitIdle (depth : ℕ) : Async Bool :=
  exceptTimeout (do
    waitFor depth (do
      let d ← read (·.drain)
      if d.idle then pure () else query (.idle d.releases))
    pure true) (pure false)

/-- `_wait_for_in_flight`. -/
def waitForInFlight : Async Unit := do
  let idle ← waitIdle 1
  record (.waited j idle)

/-- `_stop_tasks`. -/
def stopTasks : Async Unit := do
  let tasks ← read fun s => (s.shutdowns[j]?).any (·.tasks)
  if tasks then except (call j .stopTasks) (pure ()) else pure ()

/-- `_close_db`. -/
def closeDb (flush : Bool) : Async Unit :=
  except (do
    Coro.when flush (call j .flushWrites)
    call j .closeDb
    record (.closed j)) (record (.closeError j))

/-- The loop of `_run_hooks`. -/
def runHooks : List String → Async Unit
  | [] => pure ()
  | name :: rest => do
      except (call j (.hook name)) (pure ())
      runHooks rest

/-- `_drain_and_flush`. -/
def drainAndFlush : Async Unit := do
  waitForInFlight j
  stopTasks j
  call j .shutdownAgents
  call j .flushKernel
  let hooks ← read fun s => ((s.shutdowns[j]?).map (·.hooks)).getD []
  runHooks j hooks
  closeDb j true

/-- `_stop_and_flush`. -/
def stopAndFlush : Async Unit := do
  waitForInFlight j
  stopTasks j
  call j .agentsAndKernel
  closeDb j true

/-- `_kill_agents`. -/
def killAgents : Async Unit := do
  except (waitFor 0 (stopTasks j)) (pure ())
  except (waitFor 0 (call j .shutdownAgents)) (pure ())

/-- `_kill_kernel`. -/
def killKernel : Async Unit := except (waitFor 0 (call j .terminateKernel)) (pure ())

/-- `_close_db(flush=False)`, as a task of the gather. -/
def killDb : Async Unit :=
  Coro.tryCatch (closeDb j false) fun e => do
    record (.closeCancelled j)
    Coro.fail e

/-- `_forced_shutdown`. -/
def forcedShutdown : Async Unit := do
  record (.killing j)
  let agents ← Coro.start (.killAgents j)
  let kernel ← Coro.start (.killKernel j)
  let db ← Coro.start (.closeDb j)
  let _ ← Coro.wait .all [agents, kernel, db]
  pure ()

/-- `_immediate_shutdown`. -/
def immediateShutdown : Async Unit := exceptTimeout (waitFor 0 (stopAndFlush j)) (forcedShutdown j)

/-- `_graceful_shutdown`. -/
def gracefulShutdown : Async Unit := exceptTimeout (waitFor 0 (drainAndFlush j)) (immediateShutdown j)

def teardown : ShutdownMode → Async Unit
  | .graceful => gracefulShutdown j
  | .immediate => immediateShutdown j
  | .forced => forcedShutdown j

/-- `_write_audit_log`, which logs an error of the file. -/
def writeAuditLog (s : Server) : Server :=
  match (s.shutdowns[j]?).bind (·.event) with
  | none => s
  | some event => if s.auditFails then s else { s with auditLog := s.auditLog ++ [event] }

/-- A shutdown has begun, and the intake is closed. -/
def begin (event : ShutdownEvent) (s : Server) : Server :=
  { s.setShutdown j fun x => { x with inProgress := true, event := some event } with drain := s.drain.beginDrain s.now }

/-- The end of the event: it is completed, after `ms`. -/
def complete (ms : ℤ) (s : Server) : Server :=
  s.setShutdown j fun x => { x with event := x.event.map fun e => { e with completed := true, durationMs := ms } }

/-- `trigger`. -/
def trigger (mode : ShutdownMode) (reason : ShutdownReason) (triggeredBy message : String) : Async Unit := do
  let inProgress ← read fun s => (s.shutdowns[j]?).any (·.inProgress)
  if inProgress then pure ()
  else
    let start ← read (·.now)
    update (·.begin j { mode, reason, triggeredBy, message })
    Coro.handle (do
        teardown j mode
        update fun s => s.complete j ((s.now - start) * 1000).floor
        update (·.writeAuditLog j))
      (fun _ => record (.exited j 0))
      fun e => if e.isException then record (.exited j 1) else Coro.fail e

/-! ## The program -/

def body (_ : ℕ) : Job → Async Unit
  | .request scope => serve scope
  | .trigger j mode reason triggeredBy message => trigger j mode reason triggeredBy message
  | .killAgents j => killAgents j
  | .killKernel j => killKernel j
  | .closeDb j => killDb j

/-- Only `wait_for` makes its interrupt, and a gather keeps the exceptions; the event lets a
waiter go on if it was set since. -/
def answers : Query → Server → Except Exc Unit → Prop
  | .idle seen, s, .ok _ => seen < s.drain.releases
  | .idle _, _, .error e => e.isException = false
  | .teardown _ .agentsAndKernel, _, .error e => e.isException = false
  | .app _, _, .error (.expired _) => False
  | .send _, _, .error (.expired _) => False
  | _, _, _ => True

/-- What the outside world does. -/
inductive Op where
  | clock (now : ℚ)
  | audit (fails : Bool)
  /-- A shutdown that other code has made. -/
  | make (x : EmergencyShutdown)

def op : Op → Server → Option Server
  | .clock now, s => if s.now ≤ now then some { s with now := now } else none
  | .audit fails, s => some { s with auditFails := fails }
  | .make x, s => if x.inProgress then none else some { s with shutdowns := s.shutdowns ++ [x] }

/-- Requests, and triggers of any shutdown there is, by signals or other code. -/
def accept : Job → Server → Option Server
  | .request _, s => some s
  | .trigger j _ _ _ _, s => if j < s.shutdowns.length then some s else none
  | _, _ => none

abbrev program : Program Γ where
  body := body
  enter := accept
  answers := answers
  Op := Op
  op := op
  reboot _ := none

/-- A server that has just been started. -/
def Started (s : Server) : Prop := ∃ now auditFails auditLog, s = { now := now, auditFails := auditFails, auditLog := auditLog }

def machine : Machine (Pool Γ) (Move Γ Op) := program.machine Started

end Server

end Caips.Agents
