/-
Caips.Coreai.TaskRunner — the worker of each agent, after
`coreai/task_runner.py`, with `Kernel.stop` of `coreai/kernel.py`.

asyncio objects have an identity: a queue and a worker are indices into
lists of all that were ever made, and the dictionaries of the runner hold
indices. A run is part of the worker that waits for it: a worker makes one
run at a time and `_current` never holds a run that has ended.

Every event is what some coroutine does between two awaits, and any
enabled one can be next. A coroutine that was cancelled raises in its next
step, before its first one too. What the agent does in `dispatch_task` is
the environment's: it ends with any outcome at any time, but it ends
cancelled only if its run was asked to.
-/
import Caips.Logic.Machine
import Caips.Logic.PriorityQueue
import Caips.Coreai.Orchestrator
import Mathlib.Data.Prod.Lex
import Mathlib.Order.Lex

namespace Caips.Coreai

open Caips.Logic

/-- `(-priority, seq, task_id)`, compared from the left. -/
abbrev QueueEntry := Int ×ₗ Nat ×ₗ Nat

namespace QueueEntry

def make (priority : Int) (seq taskId : Nat) : QueueEntry := toLex (-priority, toLex (seq, taskId))

def priority (e : QueueEntry) : Int := -(ofLex e).1

def seq (e : QueueEntry) : Nat := (ofLex (ofLex e).2).1

def taskId (e : QueueEntry) : Nat := (ofLex (ofLex e).2).2

end QueueEntry

/-- How far `_run` is: made, in its agent's hands, or over. -/
inductive RunStage where
  | created
  | begun
  | over
  deriving DecidableEq, Repr

/-- The task `_run(task_id, agent_id)`. -/
structure TaskRun where
  taskId : Nat
  stage : RunStage := .created
  cancelled : Bool := false
  deriving DecidableEq, Repr

/-- Where `_work` is: not started, at `q.get()`, at `asyncio.wait({run})`, at the
`gather` of a run it cancelled, or over. -/
inductive WorkerStage where
  | created
  | getting (q : Nat)
  | waiting (q : Nat) (run : TaskRun)
  | stopping (run : TaskRun)
  | over
  deriving DecidableEq, Repr

/-- The task `_work(agent_id)`. -/
structure Worker where
  agentId : String
  stage : WorkerStage := .created
  cancelled : Bool := false
  deriving DecidableEq, Repr

/-- The run a worker waits for. -/
def Worker.run? (k : Worker) : Option TaskRun :=
  match k.stage with
  | .waiting _ run => some run
  | .stopping run => some run
  | _ => none

def Worker.setRun (k : Worker) (run : TaskRun) : Worker :=
  match k.stage with
  | .waiting q _ => { k with stage := .waiting q run }
  | .stopping _ => { k with stage := .stopping run }
  | _ => k

inductive KernelState where
  | running
  | stopping
  | stopped
  deriving DecidableEq, Repr

/-- A runner with its orchestrator and the kernel. -/
structure TaskRunner where
  orch : Orchestrator := {}
  timeoutS : Nat := 120
  /-- Agents to queues. -/
  queues : Dict String Nat := .empty
  /-- Agents to workers. -/
  workers : Dict String Nat := .empty
  /-- Agents to a task and the worker whose run it is. -/
  current : Dict String (Nat × Nat) := .empty
  seq : Nat := 0
  madeQueues : List (PriorityQueue QueueEntry) := []
  madeWorkers : List Worker := []
  /-- The calls of `drop_agent` that await a worker. -/
  drops : List (String × Nat) := []
  kernel : KernelState := .running

/-- How `dispatch_task` ends. -/
inductive DispatchOutcome where
  | result (r : Option String)
  | timeout
  | error (kind text : String)
  | cancelled

inductive TaskEvent where
  | registerAgent (agentId : String)
  | assignTask (agentId : String) (priority : Int) (now : Nat)
  | submit (taskId : Nat)
  | cancel (taskId : Nat)
  | dropAgent (agentId : String)
  /-- A `drop_agent` goes on after its worker has ended. -/
  | dropped (agentId : String) (worker : Nat)
  | work (worker : Nat)
  /-- The first step of the run of a worker; `available` says whether the agent
  manager still has the agent. -/
  | begin (worker : Nat) (available : Bool)
  | finish (worker : Nat) (outcome : DispatchOutcome)
  | stop
  | stopped

namespace TaskRunner

variable (s : TaskRunner)

def setWorker (w : Nat) (k : Worker) : TaskRunner :=
  { s with madeWorkers := s.madeWorkers.set w k }

/-- The queue an agent has or gets: `setdefault(agent_id, PriorityQueue())`. -/
def queueFor (agentId : String) : Nat × TaskRunner :=
  match s.queues.get? agentId with
  | some q => (q, s)
  | none =>
    (s.madeQueues.length,
      { s with
        queues := s.queues.set agentId s.madeQueues.length
        madeQueues := s.madeQueues ++ [.empty] })

/-- `q.put_nowait(…)`. -/
def putNowait (q : Nat) (e : QueueEntry) : TaskRunner :=
  { s with
    madeQueues := s.madeQueues.modify q fun h => h.put e
    seq := s.seq + 1 }

/-- `worker is None or worker.done()`. -/
def needsWorker (agentId : String) : Bool :=
  match (s.workers.get? agentId).bind fun w => s.madeWorkers[w]? with
  | none => true
  | some k => decide (k.stage = .over)

/-- A worker for the agent, unless it has one at work. -/
def ensureWorker (agentId : String) : TaskRunner :=
  if s.needsWorker agentId then
    { s with
      workers := s.workers.set agentId s.madeWorkers.length
      madeWorkers := s.madeWorkers ++ [{ agentId }] }
  else s

/-- `submit`, which raises for an unknown task. -/
def submit (taskId : Nat) : TaskRunner :=
  match s.orch.getTask taskId with
  | none => s
  | some task =>
    let (q, s) := s.queueFor task.agentId
    (s.putNowait q (.make task.priority s.seq taskId)).ensureWorker task.agentId

/-- Whether a task is still to be started. -/
def isPending (taskId : Nat) : Bool :=
  (s.orch.getTask taskId).any fun t => decide (t.status = .pending)

/-- `_still_running`. -/
def stillRunning (taskId : Nat) : Bool :=
  (s.orch.getTask taskId).any fun t => decide (t.status = .running)

/-- A worker at the head of its loop: it takes the first entry whose task is
pending and makes a run for it, or waits at `q.get()`. -/
def takeNext (w : Nat) (k : Worker) (q : Nat) : TaskRunner :=
  match s.madeQueues[q]? with
  | none => s
  | some h =>
    match h.takeFirst fun e => s.isPending e.taskId with
    | (none, rest) =>
      { s with madeQueues := s.madeQueues.set q rest }.setWorker w { k with stage := .getting q }
    | (some e, rest) =>
      { s with
        madeQueues := s.madeQueues.set q rest
        current := s.current.set k.agentId (e.taskId, w) }.setWorker w
          { k with stage := .waiting q { taskId := e.taskId } }

/-- `_current.pop(agent_id, None)`. -/
def clearCurrent (agentId : String) : TaskRunner := { s with current := s.current.pop agentId }

/-- The next step of `_work`. -/
def work (w : Nat) : Option TaskRunner :=
  match s.madeWorkers[w]? with
  | none => none
  | some k =>
    match k.stage with
    | .created =>
      if k.cancelled then some (s.setWorker w { k with stage := .over })
      else
        match s.queues.get? k.agentId with
        | none => some (s.setWorker w { k with stage := .over })  -- KeyError
        | some q => some (s.takeNext w k q)
    | .getting q =>
      if k.cancelled then some (s.setWorker w { k with stage := .over })
      else some (s.takeNext w k q)
    | .waiting q run =>
      if k.cancelled then
        some (s.setWorker w { k with stage := .stopping { run with cancelled := true } })
      else if run.stage = .over then some ((s.clearCurrent k.agentId).takeNext w k q)
      else none
    | .stopping run =>
      if run.stage = .over then
        some ((s.clearCurrent k.agentId).setWorker w { k with stage := .over })
      else none
    | .over => none

/-- `_fail`. -/
def fail (taskId : Nat) (error : String) : TaskRunner :=
  if s.stillRunning taskId || s.isPending taskId then { s with orch := s.orch.failTask taskId error } else s

/-- The first step of `_run`. -/
def begin (w : Nat) (available : Bool) : Option TaskRunner :=
  match s.madeWorkers[w]? with
  | none => none
  | some k =>
    match k.run? with
    | none => none
    | some run =>
      if run.stage = .created then
        let ended := s.setWorker w (k.setRun { run with stage := .over })
        if run.cancelled then some ended
        else
          match s.orch.getTask run.taskId with
          | none => some ended  -- KeyError
          | some _ =>
            if available then
              some ({ s with orch := s.orch.startTask run.taskId }.setWorker w
                (k.setRun { run with stage := .begun }))
            else
              some (ended.fail run.taskId
                s!"RuntimeError: Agent {k.agentId} is no longer available")
      else none

/-- What `_run` does with the outcome of its dispatch. -/
def settle (taskId : Nat) : DispatchOutcome → TaskRunner
  | .result none => s.fail taskId "RuntimeError: Agent finished without a final result"
  | .result (some r) =>
    if s.stillRunning taskId then { s with orch := s.orch.completeTask taskId r } else s
  | .timeout => s.fail taskId s!"Task timed out after {s.timeoutS}s"
  | .error kind text => s.fail taskId s!"{kind}: {text}"
  | .cancelled => s

/-- The last step of `_run`. -/
def finish (w : Nat) (outcome : DispatchOutcome) : Option TaskRunner :=
  match s.madeWorkers[w]? with
  | none => none
  | some k =>
    match k.run?, outcome with
    | none, _ => none
    | some run, .cancelled =>
      if run.stage = .begun ∧ run.cancelled then
        some (s.setWorker w (k.setRun { run with stage := .over }))
      else none
    | some run, outcome =>
      if run.stage = .begun then
        some ((s.settle run.taskId outcome).setWorker w (k.setRun { run with stage := .over }))
      else none

/-- `cur[1].cancel()`, when the agent's current task is this one. -/
def cancelRun (agentId : String) (taskId : Nat) : TaskRunner :=
  match s.current.get? agentId with
  | none => s
  | some (t, w) =>
    if t = taskId then
      match s.madeWorkers[w]?.bind fun k => k.run?.map fun run => (k, run) with
      | none => s
      | some (k, run) => s.setWorker w (k.setRun { run with cancelled := true })
    else s

/-- `cancel`. -/
def cancel (taskId : Nat) : TaskRunner :=
  match s.orch.getTask taskId with
  | none => s
  | some task =>
    if task.status = .pending ∨ task.status = .running then
      { s with orch := s.orch.cancelTask taskId }.cancelRun task.agentId taskId
    else s

/-- What `drop_agent` does at the end. -/
def forgetAgent (agentId : String) : TaskRunner :=
  { s with
    queues := s.queues.pop agentId
    orch := s.orch.unregisterAgent agentId }

/-- `drop_agent`, up to where it awaits the worker. -/
def dropAgent (agentId : String) : TaskRunner :=
  let s := ((s.orch.getAgentTasks agentId).map AgentTask.taskId).foldl cancel s
  match s.workers.get? agentId with
  | none => s.forgetAgent agentId
  | some w =>
    { s with
      workers := s.workers.pop agentId
      madeWorkers := s.madeWorkers.modify w fun k => { k with cancelled := true }
      drops := s.drops ++ [(agentId, w)] }

/-- The rest of `drop_agent`, once the worker has ended. -/
def dropped (agentId : String) (w : Nat) : Option TaskRunner :=
  if (agentId, w) ∈ s.drops ∧ (s.madeWorkers[w]?).all fun k => decide (k.stage = .over) then
    some ({ s with drops := s.drops.erase (agentId, w) }.forgetAgent agentId)
  else none

/-- What `Kernel.stop` does to the tasks: pending ones are cancelled in the
orchestrator. -/
def kernelStop : Option TaskRunner :=
  if s.kernel = .stopped then none
  else
    some { s with
      kernel := .stopping
      orch := (s.orch.getPendingTasks.map AgentTask.taskId).foldl Orchestrator.cancelTask s.orch }

/-- One step of the event loop, `none` when it is not enabled. -/
def step : TaskEvent → Option TaskRunner
  | .registerAgent a => some { s with orch := s.orch.registerAgent a }
  | .assignTask a p now => some { s with orch := s.orch.assignTask a p now }
  | .submit t => some (s.submit t)
  | .cancel t => some (s.cancel t)
  | .dropAgent a => some (s.dropAgent a)
  | .dropped a w => s.dropped a w
  | .work w => s.work w
  | .begin w available => s.begin w available
  | .finish w outcome => s.finish w outcome
  | .stop => s.kernelStop
  | .stopped => if s.kernel = .stopping then some { s with kernel := .stopped } else none

/-- A runner as constructed, over a store of any size. -/
def Fresh (s : TaskRunner) : Prop :=
  ∃ timeoutS maxFinished, s = { timeoutS, orch := { taskStore := { maxFinished } } }

def machine : Machine TaskRunner TaskEvent := .ofFun Fresh step

end TaskRunner

end Caips.Coreai
