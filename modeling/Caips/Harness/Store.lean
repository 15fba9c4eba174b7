/-
Caips.Harness.Store — an agent run and what is stored of it, after
`harness/config.py` and `harness/store.py`, with the clock, the tools and the
memory that its executions find.

One run is followed. Its row, its trace and the bus are what the source keeps;
`frames` are the local variables (`msgs` and `state`) of the executions that are
under way, by the number of their task. Trace and bus events stand in one
journal, the latest first, together with what the source does without leaving a
record: which status the row takes, what a checkpoint holds, when a limit is
checked, a model call is started and answered, a tool is run, a request is
accepted. No branch of the code reads the journal.
-/
import Caips.Harness.Context
import Caips.Tools.Registry

namespace Caips.Harness

open Caips.Logic Caips.Providers Caips.Tools

/-! ## Agents -/

/-- `AgentDef`. -/
structure AgentDef where
  name : String
  systemPrompt : String
  model : Option String := none
  allowedTools : List String := []
  maxSteps : ℤ := 20
  maxCostUsd : Option ℚ := none
  maxTotalTokens : Option ℤ := none
  deadlineS : Option ℚ := none
  contextTokens : ℤ := 24000
  keepRecent : ℤ := 6
  maxTokens : ℕ := 1024
  temperature : ℚ := 1 / 5
  stallRepeats : ℤ := 3
  approvalTools : List String := []
  isLocal : Bool := false
  summarize : Bool := false
  plan : Bool := false
  planMaxSteps : ℤ := 6
  askWhenUncertain : Bool := false
  memoryNs : Option String := none
  memoryRecall : ℤ := 5

/-- `effective`, with `LOCAL_CAPS`. -/
def AgentDef.effective (a : AgentDef) : AgentDef :=
  if a.isLocal then
    { a with
      maxSteps := min a.maxSteps 8
      contextTokens := min a.contextTokens 6000
      maxTokens := min a.maxTokens 512 }
  else a

/-! ## The row -/

inductive RunStatus where
  | running
  | paused
  | waitingApproval
  | completed
  | failed
  | cancelled
  deriving DecidableEq

/-- The values of `control`, but for the empty one. -/
inductive Control where
  | pause
  | cancel
  | kill
  deriving DecidableEq

inductive StopReason where
  | completed
  | paused
  | shutdown
  | cancelled
  | killed
  | deadline
  | maxSteps
  | costLimit
  | tokenLimit
  | stalled
  | error
  deriving DecidableEq

/-- `PAUSE_REASONS`. -/
def Control.reason : Control → StopReason
  | .pause => .paused
  | .cancel => .cancelled
  | .kill => .killed

def StopReason.status : StopReason → RunStatus
  | .completed => .completed
  | .cancelled => .cancelled
  | .killed => .cancelled
  | _ => .failed

/-- `ACTIVE`. -/
def RunStatus.active : RunStatus → Bool
  | .running => true
  | .paused => true
  | .waitingApproval => true
  | _ => false

/-- Nothing executes the run: it can be ended at once. -/
def RunStatus.idle : RunStatus → Bool
  | .paused => true
  | .waitingApproval => true
  | _ => false

/-- A row of `runs`. -/
structure Run where
  agent : String
  owner : String
  status : RunStatus := .running
  stopReason : Option StopReason := none
  step : ℕ := 0
  costUsd : ℚ := 0
  inputTokens : ℕ := 0
  outputTokens : ℕ := 0
  control : Option Control := none
  pending : Option (List Providers.ToolCall) := none
  messages : List Message
  result : Option String := none
  deadline : Option ℚ := none

/-- `_finished`: an error stop can be resumed. -/
def Run.finished (r : Run) : Bool :=
  r.status = .completed || r.status = .cancelled || (r.status = .failed && r.stopReason ≠ some .error)

/-- The local variables of an execution: `msgs` and `state`. -/
structure Locals where
  msgs : List Message := []
  step : ℕ := 0
  costUsd : ℚ := 0
  inputTokens : ℕ := 0
  outputTokens : ℕ := 0

/-- What an execution starts from. -/
def Run.locals (r : Run) : Locals := ⟨r.messages, r.step, r.costUsd, r.inputTokens, r.outputTokens⟩

/-- The columns a checkpoint writes. -/
def Run.save (r : Run) (l : Locals) : Run :=
  { r with
    messages := l.msgs
    step := l.step
    costUsd := l.costUsd
    inputTokens := l.inputTokens
    outputTokens := l.outputTokens }

/-! ## The journal -/

/-- What a model call is made for. -/
inductive Purpose where
  | plan
  | step
  | summary
  deriving DecidableEq

/-- An answered model call, with the account it was charged to. -/
structure ModelCall where
  purpose : Purpose
  account : String
  costUsd : ℚ
  inputTokens : ℕ
  outputTokens : ℕ

/-- What a check of the limits has read. -/
structure Reading where
  now : ℚ
  step : ℕ
  costUsd : ℚ
  tokens : ℕ

/-- An event of the trace. -/
inductive TraceEvent where
  | runStarted (agent owner : String)
  | started (step : ℕ)
  | resumed (step : ℕ)
  | plan (chars : ℕ) (costUsd : ℚ) (inputTokens outputTokens : ℕ)
  | contextCompacted (messages tokens : ℕ)
  | modelCall (step : ℕ) (model provider : String) (inputTokens outputTokens : ℕ) (costUsd : ℚ) (toolCalls : ℕ)
  | approval (tool : String) (approved : Bool)
  | toolCall (step : ℕ) (tool : String) (ok : Bool) (args : List String) (chars : ℕ) (error : Option String)
  | approvalRequested (tool callId : String)
  | checkpoint (step : ℕ)
  | paused (step : ℕ)
  | error (name detail : String)
  | runFinished (reason : StopReason) (step : Option ℕ) (costUsd : Option ℚ)

/-- An entry of the journal. -/
inductive Entry where
  | trace (e : TraceEvent)
  /-- `run.finished` on the bus. -/
  | finished (agent owner : String) (status : RunStatus) (reason : StopReason) (costUsd : ℚ)
  /-- The stored status changes to this one. -/
  | became (status : RunStatus)
  /-- A checkpoint. -/
  | saved (l : Locals)
  /-- An execution has read the row. -/
  | entered (status : RunStatus) (pending : Option (List Providers.ToolCall)) (decision : Option Bool)
  /-- The limits were checked. -/
  | checked (r : Reading)
  /-- The budget of an account is checked, and a model call is started. -/
  | asked (purpose : Purpose) (account : String) (messages : List Message)
  /-- The model call was answered, and the account charged. -/
  | called (c : ModelCall)
  /-- The handler of a tool is invoked; the call is the one a human was asked
  about if there is a decision. -/
  | handled (call : Providers.ToolCall) (decision : Option Bool)
  /-- A request to pause, cancel or kill was accepted. -/
  | requested (c : Control)

/-- `round(x, 6)`: to the nearest, and of two to the even one. -/
def round6 (x : ℚ) : ℚ :=
  let scaled := x * 1000000
  let below := scaled.floor
  let gap := scaled - below
  (if gap < 1 / 2 ∨ gap = 1 / 2 ∧ below % 2 = 0 then below else below + 1) / 1000000

/-! ## The state -/

/-- The run, its journal, and what its executions find. -/
structure HarnessState where
  run : Run
  journal : List Entry
  now : ℚ
  registry : ToolRegistry := {}
  /-- What a search of the memory finds now: keys and values. -/
  recalled : List (String × String) := []
  frames : ℕ → Option Locals := fun _ => none
  /-- The executions that are under way. -/
  live : ℕ := 0

namespace HarnessState

/-- `event`, and every other entry of the journal. -/
def note (s : HarnessState) (e : Entry) : HarnessState := { s with journal := e :: s.journal }

/-- `set`: a write of the row. -/
def write (s : HarnessState) (f : Run → Run) : HarnessState :=
  { s with
    run := f s.run
    journal := if (f s.run).status = s.run.status then s.journal else .became (f s.run).status :: s.journal }

/-- The local variables of an execution. -/
def locals (s : HarnessState) (i : ℕ) : Locals := (s.frames i).getD {}

def setFrame (s : HarnessState) (i : ℕ) (l : Option Locals) : HarnessState :=
  { s with frames := fun j => if j = i then l else s.frames j }

/-- `checkpoint`: the local variables and further columns, in one write. -/
def save (s : HarnessState) (i : ℕ) (f : Run → Run) : HarnessState :=
  (s.write fun r => f (r.save (s.locals i))).note (.saved (s.locals i))

/-- `bus.emit("run.finished")`. -/
def announce (s : HarnessState) (status : RunStatus) (reason : StopReason) (costUsd : Option ℚ) : HarnessState :=
  s.note (.finished s.run.agent s.run.owner status reason (round6 (costUsd.getD s.run.costUsd)))

/-- `_finish`. -/
def finish (s : HarnessState) (status : RunStatus) (reason : StopReason) : HarnessState :=
  ((s.write fun r => { r with status := status, stopReason := some reason, control := none }).note
    (.trace (.runFinished reason none none))).announce status reason none

/-- `request`: only an active run accepts it. -/
def request (s : HarnessState) (c : Control) : HarnessState :=
  if s.run.status.active then (s.write fun r => { r with control := some c }).note (.requested c) else s

/-- `cancel`. -/
def cancel (s : HarnessState) : HarnessState :=
  if s.run.status.idle then (s.note (.requested .cancel)).finish .cancelled .cancelled else s.request .cancel

/-- `kill`, of all runs or those of an owner. -/
def kill (s : HarnessState) (owner : Option String) : HarnessState :=
  if owner.all fun o => o = "" || o = s.run.owner then
    let s := s.request .kill
    if s.run.status.idle then s.finish .cancelled .killed else s
  else s

end HarnessState

end Caips.Harness
