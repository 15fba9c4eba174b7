/-
Caips.Agents.AgentManager — agents and the calls on them, after
`agents/agent_manager.py` and `execute`, `pause` and `resume` of
`agents/autonomous_agent.py`.

Calls run side by side, and each is a list of steps from one place where it awaits to
the next. A call keeps the record it has found; what it writes to a record that is no
longer in `agents` is lost, since ids are not used twice. A call that raises before
it awaits anything changes nothing and is no step.
-/
import Caips.Logic.Dict
import Caips.Logic.Machine

namespace Caips.Agents

open Caips.Logic

/-- `AgentStatus` -/
inductive AgentStatus where
  | initializing
  | idle
  | running
  | paused
  | failed
  | terminated
  deriving DecidableEq

/-- `AgentRecord`, with the event `_paused` of its agent, which is set unless the
agent is paused. -/
structure AgentRecord where
  status : AgentStatus := .initializing
  taskCount : ℕ := 0
  errorCount : ℕ := 0
  isSet : Bool := true
  deriving DecidableEq

/-- What a call awaits. -/
inductive Call where
  /-- `spawn_agent` awaits `initialize`. -/
  | spawning (agentId : ℕ)
  /-- `dispatch_task` awaits `execute`. -/
  | executing (agentId : ℕ)
  /-- `terminate_agent` awaits `shutdown`. -/
  | terminating (agentId : ℕ)
  /-- `_restart_agent` awaits `shutdown`. -/
  | stopping (agentId : ℕ)
  /-- `_restart_agent` awaits `initialize`. -/
  | starting (agentId : ℕ)
  deriving DecidableEq

def Call.agentId : Call → ℕ
  | spawning a | executing a | terminating a | stopping a | starting a => a

/-- How a call ends that may fail. -/
inductive Ending where
  | success
  | error
  | cancelled
  deriving DecidableEq

structure AgentManager where
  agents : Dict ℕ AgentRecord := .empty
  calls : List Call := []

namespace AgentManager

/-- `MAX_AGENTS` -/
def maxAgents : ℕ := 32

variable (x : AgentManager)

/-- A record is written to. -/
def update (a : ℕ) (f : AgentRecord → AgentRecord) : Dict ℕ AgentRecord :=
  match x.agents.get? a with
  | some r => x.agents.set a (f r)
  | none => x.agents

/-- A call that has its record, up to where it awaits. -/
def enter (a : ℕ) (available : AgentRecord → Bool) (f : AgentRecord → AgentRecord) (next : List Call) :
    Option AgentManager :=
  if (x.agents.get? a).any available then some ⟨x.update a f, next ++ x.calls⟩ else none

/-- A call goes on from where it awaits. -/
def proceed (c : Call) (f : AgentRecord → AgentRecord) (next : List Call) : Option AgentManager :=
  if c ∈ x.calls then some ⟨x.update c.agentId f, next ++ x.calls.erase c⟩ else none

/-- `spawn_agent`, up to `initialize`, with an id of its own. -/
def spawnAgent (a : ℕ) : Option AgentManager :=
  if x.agents.size < maxAgents ∧ x.agents.get? a = none ∧ ∀ c ∈ x.calls, c.agentId ≠ a then
    some ⟨x.agents.set a {}, .spawning a :: x.calls⟩
  else none

/-- `spawn_agent` behind `initialize`. A cancellation leaves the record as it is. -/
def spawned (a : ℕ) (ending : Ending) : Option AgentManager :=
  x.proceed (.spawning a) (fun r => match ending with
    | .success => { r with status := .idle }
    | .error => { r with status := .failed }
    | .cancelled => r) []

/-- `dispatch_task`, up to `execute`. -/
def dispatchTask (a : ℕ) : Option AgentManager :=
  x.enter a (fun r => r.status = .idle ∨ r.status = .running)
    (fun r => { r with status := .running, taskCount := r.taskCount + 1 }) [.executing a]

/-- `dispatch_task` behind `execute`. -/
def dispatched (a : ℕ) (ending : Ending) : Option AgentManager :=
  x.proceed (.executing a) (fun r => match ending with
    | .success => { r with status := .idle }
    | .cancelled => { r with status := .idle }
    | .error => { r with errorCount := r.errorCount + 1, status := .idle }) []

/-- `pause_agent` -/
def pauseAgent (a : ℕ) : Option AgentManager :=
  x.enter a (fun _ => true) (fun r => { r with isSet := false, status := .paused }) []

/-- `resume_agent` -/
def resumeAgent (a : ℕ) : Option AgentManager :=
  x.enter a (fun _ => true) (fun r => { r with isSet := true, status := .idle }) []

/-- `terminate_agent`, up to `shutdown`. -/
def terminateAgent (a : ℕ) : Option AgentManager := x.enter a (fun _ => true) (fun r => r) [.terminating a]

/-- `terminate_agent` behind `shutdown`, however that ends: a second one finds no entry to delete. -/
def terminated (a : ℕ) : Option AgentManager :=
  (x.proceed (.terminating a) (fun r => { r with status := .terminated }) []).map fun y =>
    { y with agents := y.agents.pop a }

/-- `_restart_agent`, up to `shutdown`. -/
def restartAgent (a : ℕ) : Option AgentManager := x.enter a (fun _ => true) (fun r => r) [.stopping a]

/-- `_restart_agent` behind `shutdown`, up to `initialize`. -/
def stopped (a : ℕ) (ending : Ending) : Option AgentManager :=
  match ending with
  | .cancelled => x.proceed (.stopping a) (fun r => r) []
  | .success | .error =>
    x.proceed (.stopping a) (fun r => { r with status := .initializing, errorCount := 0 }) [.starting a]

/-- `_restart_agent` behind `initialize`. -/
def restarted (a : ℕ) (ending : Ending) : Option AgentManager :=
  x.proceed (.starting a) (fun r => match ending with
    | .success => { r with status := .idle }
    | .error | .cancelled => r) []

/-- What can happen next. -/
inductive Event where
  | spawnAgent (agentId : ℕ)
  | spawned (agentId : ℕ) (ending : Ending)
  | dispatchTask (agentId : ℕ)
  | dispatched (agentId : ℕ) (ending : Ending)
  | pauseAgent (agentId : ℕ)
  | resumeAgent (agentId : ℕ)
  | terminateAgent (agentId : ℕ)
  | terminated (agentId : ℕ)
  | restartAgent (agentId : ℕ)
  | stopped (agentId : ℕ) (ending : Ending)
  | restarted (agentId : ℕ) (ending : Ending)
  deriving DecidableEq

def step : Event → Option AgentManager
  | .spawnAgent a => x.spawnAgent a
  | .spawned a ending => x.spawned a ending
  | .dispatchTask a => x.dispatchTask a
  | .dispatched a ending => x.dispatched a ending
  | .pauseAgent a => x.pauseAgent a
  | .resumeAgent a => x.resumeAgent a
  | .terminateAgent a => x.terminateAgent a
  | .terminated a => x.terminated a
  | .restartAgent a => x.restartAgent a
  | .stopped a ending => x.stopped a ending
  | .restarted a ending => x.restarted a ending

def machine : Machine AgentManager Event := .ofFun (· = {}) step

end AgentManager

end Caips.Agents
