/-
Caips.Agents.TaskOrchestrator — tasks, their attempts and the dispatch loop, after
`agents/task_orchestrator.py`.

`_queue`, `_results` and `_running_tasks` are kept by task: an item has the number of
its entries in the queue, its future, and the attempt that stands in the running
table. An attempt is the asyncio task of `_run_task`; it is known by its number among
the attempts of its item. A cancelled asyncio task raises when it is next resumed,
before its first step too. What `dispatch_task` does is the environment's: it ends
with any outcome at any time. Entries of equal priority and time leave the queue in
any order.
-/
import Caips.Logic.Machine
import Mathlib.Data.Int.Notation
import Mathlib.Data.Rat.Init
import Mathlib.Algebra.GroupWithZero.Nat

namespace Caips.Agents

open Caips.Logic

/-- `TaskStatus` -/
inductive TaskStatus where
  | queued
  | running
  | completed
  | failed
  | cancelled
  deriving DecidableEq

/-- The future of a task. -/
inductive Future where
  | pending
  | result (value : Option String)
  | exception (message : String)
  | cancelled
  deriving DecidableEq

/-- Where an attempt is. -/
inductive Stage where
  | created
  /-- It awaits `dispatch_task`. -/
  | running
  /-- `_handle_failure` awaits `put`. -/
  | putting
  /-- It has ended, and its done-callback is to come. -/
  | ended
  | forgotten
  deriving DecidableEq

structure Attempt where
  agentId : ℕ
  stage : Stage := .created
  /-- `cancel` was called on it, and it has not been resumed since. -/
  cancelling : Bool := false
  deriving DecidableEq

namespace Attempt

/-- Not `done()`. -/
def live (a : Attempt) : Bool := a.stage = .created ∨ a.stage = .running ∨ a.stage = .putting

/-- `cancel()` -/
def cancel (a : Attempt) : Attempt := if a.live then { a with cancelling := true } else a

end Attempt

/-- How an attempt's `dispatch_task` ends. -/
inductive Outcome where
  | success (result : Option String)
  | timeout
  | error (text : String)
  | cancelled
  deriving DecidableEq

/-- `TaskItem`, with what the collections of the orchestrator hold of it. -/
structure TaskItem where
  priority : ℤ
  createdAt : ℚ
  timeout : ℕ
  maxRetries : ℤ
  retries : ℕ := 0
  assignedTo : Option ℕ := none
  status : TaskStatus := .queued
  result : Option String := none
  error : Option String := none
  /-- How often it is in `_queue`. -/
  entries : ℕ := 0
  /-- `submit` awaits `put`. -/
  submitting : Bool := false
  /-- What `_results` has of it. -/
  future : Future := .pending
  attempts : List Attempt := []
  /-- What `_running_tasks` has of it. -/
  runningTask : Option ℕ := none
  /-- `cancel` has returned `True`. -/
  told : Bool := false
  deriving DecidableEq

namespace TaskItem

variable (t : TaskItem)

/-- The future is resolved if it is not done. -/
def resolve (f : Future) : TaskItem := if t.future = .pending then { t with future := f } else t

def setStage (k : ℕ) (stage : Stage) : TaskItem :=
  { t with attempts := t.attempts.modify k fun a => { a with stage := stage, cancelling := false } }

def put : TaskItem := { t with entries := t.entries + 1 }

/-- `submit`, as far as it does not have to wait. -/
def submit (priority : ℤ) (createdAt : ℚ) (timeout : ℕ) (maxRetries : ℤ) (full : Bool) : TaskItem where
  priority := priority
  createdAt := createdAt
  timeout := timeout
  maxRetries := maxRetries
  entries := if full then 0 else 1
  submitting := full

/-- `submit` goes on with `put`, where that has to wait. -/
def submitted (full : Bool) : Option TaskItem :=
  if t.submitting ∧ ¬full then some { t with submitting := false, entries := t.entries + 1 } else none

/-- The call of `submit` is cancelled while it waits. -/
def dropped : Option TaskItem := if t.submitting then some { t with submitting := false } else none

/-- A turn of the dispatch loop that takes this item, with an agent that is idle. -/
def dispatch (agentId : ℕ) : TaskItem :=
  if t.status = .cancelled then { t with entries := t.entries - 1 }
  else { t with
    entries := t.entries - 1
    attempts := t.attempts ++ [{ agentId := agentId }]
    runningTask := some t.attempts.length }

/-- The first step of `_run_task`. -/
def begin (k : ℕ) (a : Attempt) : TaskItem :=
  if a.cancelling then t.setStage k .ended
  else { t with assignedTo := some a.agentId, status := .running }.setStage k .running

/-- `_handle_failure` -/
def handleFailure (k : ℕ) (full : Bool) (error : String) : TaskItem :=
  let t := { t with error := some error, retries := t.retries + 1 }
  if (t.retries : ℤ) < t.maxRetries then
    let t := { t with status := .queued, assignedTo := none }
    if full then t.setStage k .putting else t.put.setStage k .ended
  else
    ({ t with status := .failed }.resolve
      (.exception s!"Task failed after {t.retries} attempts: {error}")).setStage k .ended

/-- `_run_task` behind `dispatch_task`. -/
def finish (k : ℕ) (full : Bool) : Outcome → TaskItem
  | .success result =>
    if t.status = .cancelled then t.setStage k .ended
    else ({ t with status := .completed, result := result }.resolve (.result result)).setStage k .ended
  | .cancelled => { t with status := .cancelled }.setStage k .ended
  | .timeout =>
    if t.status = .cancelled then t.setStage k .ended
    else t.handleFailure k full s!"Timed out after {t.timeout}s"
  | .error text => if t.status = .cancelled then t.setStage k .ended else t.handleFailure k full text

/-- `_handle_failure` goes on with `put`, where that has to wait. -/
def putBack (k : ℕ) (a : Attempt) (full : Bool) : Option TaskItem :=
  if a.cancelling then some (t.setStage k .ended)
  else if full then none
  else some (t.put.setStage k .ended)

/-- `_forget_task` -/
def forget (k : ℕ) : TaskItem := { t with runningTask := none }.setStage k .forgotten

/-- The attempt in the running table is cancelled. -/
def cancelRunning : TaskItem :=
  match t.runningTask with
  | some k => { t with attempts := t.attempts.modify k Attempt.cancel }
  | none => t

/-- `cancel`, where it returns `True`. -/
def cancel : Option TaskItem :=
  if t.status = .completed ∨ t.status = .failed then none
  else some ({ t with status := .cancelled, told := true }.cancelRunning.resolve .cancelled)

/-- `heapq` has this item before the other. -/
def before (u : TaskItem) : Prop := t.priority < u.priority ∨ t.priority = u.priority ∧ t.createdAt < u.createdAt

instance (u : TaskItem) : Decidable (t.before u) := by unfold before; infer_instance

end TaskItem

structure TaskOrchestrator where
  tasks : List TaskItem := []
  /-- The dispatch loop goes on. -/
  running : Bool := true
  /-- The calls of `stop` that wait, each with the attempts it waits for. -/
  stops : List (List (ℕ × ℕ)) := []

/-- What happens to one task. -/
inductive TaskEvent where
  | submitted
  | dropped
  | dispatch (agentId : ℕ)
  | begin (attempt : ℕ)
  | finish (attempt : ℕ) (outcome : Outcome)
  | putBack (attempt : ℕ)
  | forget (attempt : ℕ)
  | cancel
  deriving DecidableEq

namespace TaskOrchestrator

inductive Event where
  | submit (priority : ℤ) (createdAt : ℚ) (timeout : ℕ) (maxRetries : ℤ)
  | task (taskId : ℕ) (event : TaskEvent)
  | stop
  | stopped (pending : List (ℕ × ℕ))
  deriving DecidableEq

/-- `MAX_QUEUE_SIZE` -/
def maxQueueSize : ℕ := 512

variable (x : TaskOrchestrator)

/-- `_queue.full()` -/
def full : Bool := maxQueueSize ≤ (x.tasks.map TaskItem.entries).sum

/-- The next of the queue. -/
def Next (t : TaskItem) : Prop := 0 < t.entries ∧ ∀ u ∈ x.tasks, 0 < u.entries → ¬u.before t

instance (t : TaskItem) : Decidable (x.Next t) := by unfold Next; infer_instance

/-- An attempt that is in this stage. -/
def attemptIn (t : TaskItem) (k : ℕ) (stage : Stage) : Option Attempt :=
  t.attempts[k]?.filter fun a => a.stage = stage

def taskStep (t : TaskItem) : TaskEvent → Option TaskItem
  | .submitted => t.submitted x.full
  | .dropped => t.dropped
  | .dispatch agentId => if x.running ∧ x.Next t then some (t.dispatch agentId) else none
  | .begin k => (attemptIn t k .created).map (t.begin k)
  | .finish k outcome => (attemptIn t k .running).map fun _ => t.finish k x.full outcome
  | .putBack k => (attemptIn t k .putting).bind fun a => t.putBack k a x.full
  | .forget k => (attemptIn t k .ended).map fun _ => t.forget k
  | .cancel => t.cancel

/-- The attempts in `_running_tasks`. -/
def pending : List (ℕ × ℕ) := x.tasks.zipIdx.flatMap fun (t, id) => t.runningTask.toList.map (id, ·)

/-- The attempt is over. -/
def isDone (e : ℕ × ℕ) : Bool := !((x.tasks[e.1]?.bind fun t => t.attempts[e.2]?).any Attempt.live)

def step : Event → Option TaskOrchestrator
  | .submit priority createdAt timeout maxRetries =>
    some { x with tasks := x.tasks ++ [.submit priority createdAt timeout maxRetries x.full] }
  | .task id event =>
    x.tasks[id]?.bind fun t => (x.taskStep t event).map fun u => { x with tasks := x.tasks.set id u }
  | .stop => some
      { tasks := x.tasks.map TaskItem.cancelRunning, running := false, stops := x.pending :: x.stops }
  | .stopped pending =>
    if pending ∈ x.stops ∧ pending.all x.isDone then some
      { tasks := x.tasks.map fun t => { t with runningTask := none }.resolve .cancelled
        running := x.running
        stops := x.stops.erase pending }
    else none

/-- The orchestrator from `start` on. -/
def machine : Machine TaskOrchestrator Event := .ofFun (· = {}) step

end TaskOrchestrator

end Caips.Agents
