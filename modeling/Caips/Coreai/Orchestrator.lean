/-
Caips.Coreai.Orchestrator — tasks and who they belong to, after
`coreai/orchestrator.py`.

`TaskStore` keeps pending and running tasks always and the `max_finished`
tasks that finished last. `Orchestrator` writes every status. It checks
none: `start_task` makes any task running, `cancel_task` makes any task
cancelled, and it is for the callers to ask first.

A task id is the value of a counter, which stands for `uuid4`. Objective,
context and metadata of a task are left out: the lifecycle reads none of
them. A method that raises leaves the state it had reached.
-/
import Caips.Logic.Dict

namespace Caips.Coreai

open Caips.Logic

inductive TaskStatus where
  | pending
  | running
  | completed
  | failed
  | cancelled
  deriving DecidableEq, Repr

/-- `TaskStore._TERMINAL`. -/
def TaskStatus.Terminal (t : TaskStatus) : Prop := t = .completed ∨ t = .failed ∨ t = .cancelled

instance (t : TaskStatus) : Decidable t.Terminal := inferInstanceAs (Decidable (_ ∨ _))

structure AgentTask where
  taskId : Nat
  agentId : String
  status : TaskStatus := .pending
  result : Option String := none
  error : Option String := none
  createdAt : Nat
  priority : Int

structure TaskStore where
  tasks : Dict Nat AgentTask := .empty
  finished : Dict Nat Unit := .empty
  maxFinished : Nat := 1000
  /-- The next `uuid4`. -/
  nextId : Nat := 0

namespace TaskStore

/-- `_prune`. -/
def prune (s : TaskStore) (task : AgentTask) : TaskStore :=
  if task.status.Terminal then
    let finished := s.finished.setLast task.taskId ()
    let old := finished.keys.take (finished.size - s.maxFinished)
    { s with
      tasks := old.foldl Dict.pop s.tasks
      finished := finished.keepLast s.maxFinished }
  else s

def create (s : TaskStore) (agentId : String) (priority : Int) (now : Nat) : AgentTask × TaskStore :=
  let task : AgentTask := { taskId := s.nextId, agentId, priority, createdAt := now }
  (task, { s with tasks := s.tasks.set s.nextId task, nextId := s.nextId + 1 })

def get (s : TaskStore) (taskId : Nat) : Option AgentTask := s.tasks.get? taskId

def update (s : TaskStore) (task : AgentTask) : TaskStore :=
  { s with tasks := s.tasks.set task.taskId task }.prune task

def listByAgent (s : TaskStore) (agentId : String) : List AgentTask :=
  s.tasks.values.filter fun t => t.agentId = agentId

/-- Highest priority first, then by the time of creation. -/
def listByStatus (s : TaskStore) (status : TaskStatus) : List AgentTask :=
  (s.tasks.values.filter fun t => t.status = status).mergeSort fun t u =>
    decide (u.priority < t.priority) || (t.priority == u.priority && decide (t.createdAt ≤ u.createdAt))

end TaskStore

/-- What `agents` counts for an agent. -/
structure AgentEntry where
  totalTasks : Nat := 0
  completedTasks : Nat := 0
  failedTasks : Nat := 0

structure Orchestrator where
  taskStore : TaskStore := {}
  agents : Dict String AgentEntry := .empty
  activeTasks : Dict Nat String := .empty

namespace Orchestrator

def getTask (o : Orchestrator) (taskId : Nat) : Option AgentTask := o.taskStore.get taskId

/-- `self.agents[agent_id][…] += 1`. -/
def count (o : Orchestrator) (agentId : Option String) (f : AgentEntry → AgentEntry) : Orchestrator :=
  match agentId.bind fun a => (o.agents.get? a).map fun e => (a, e) with
  | some (a, e) => { o with agents := o.agents.set a (f e) }
  | none => o

def registerAgent (o : Orchestrator) (agentId : String) : Orchestrator :=
  { o with agents := o.agents.set agentId {} }

/-- `assign_task`, which raises for an agent that is not registered. -/
def assignTask (o : Orchestrator) (agentId : String) (priority : Int) (now : Nat) : Orchestrator :=
  match o.agents.get? agentId with
  | none => o
  | some _ =>
    let (task, store) := o.taskStore.create agentId priority now
    { o with
      taskStore := store
      activeTasks := o.activeTasks.set task.taskId agentId }.count (some agentId)
        fun e => { e with totalTasks := e.totalTasks + 1 }

/-- `start_task`. -/
def startTask (o : Orchestrator) (taskId : Nat) : Orchestrator :=
  match o.getTask taskId with
  | none => o
  | some task => { o with taskStore := o.taskStore.update { task with status := .running } }

/-- `complete_task`. -/
def completeTask (o : Orchestrator) (taskId : Nat) (result : String) : Orchestrator :=
  match o.getTask taskId with
  | none => o
  | some task =>
    { o with
      taskStore := o.taskStore.update { task with status := .completed, result := some result }
      activeTasks := o.activeTasks.pop taskId }.count (o.activeTasks.get? taskId)
        fun e => { e with completedTasks := e.completedTasks + 1 }

/-- `fail_task`. -/
def failTask (o : Orchestrator) (taskId : Nat) (error : String) : Orchestrator :=
  match o.getTask taskId with
  | none => o
  | some task =>
    { o with
      taskStore := o.taskStore.update { task with status := .failed, error := some error }
      activeTasks := o.activeTasks.pop taskId }.count (o.activeTasks.get? taskId)
        fun e => { e with failedTasks := e.failedTasks + 1 }

/-- `cancel_task`. -/
def cancelTask (o : Orchestrator) (taskId : Nat) : Orchestrator :=
  match o.getTask taskId with
  | none => o
  | some task =>
    { o with
      taskStore := o.taskStore.update { task with status := .cancelled }
      activeTasks := o.activeTasks.pop taskId }

/-- `unregister_agent`: its active tasks are cancelled first. -/
def unregisterAgent (o : Orchestrator) (agentId : String) : Orchestrator :=
  let own := (o.activeTasks.entries.filter fun e => e.2 = agentId).map Prod.fst
  let o := own.foldl cancelTask o
  { o with agents := o.agents.pop agentId }

def getAgentTasks (o : Orchestrator) (agentId : String) : List AgentTask :=
  o.taskStore.listByAgent agentId

def getPendingTasks (o : Orchestrator) : List AgentTask := o.taskStore.listByStatus .pending

end Orchestrator

end Caips.Coreai
