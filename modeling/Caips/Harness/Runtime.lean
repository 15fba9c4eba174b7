/-
Caips.Harness.Runtime — the background tasks of `harness/runtime.py`:
`HarnessRuntime.spawn`, the done-callback `_forget` and `stop`.

An asyncio task is an object with an identity; here it is an index into
`created`, the list of all tasks `spawn` ever made. `tasks` is the
dictionary the runtime keeps. The event loop does four things to it, each a
label of the machine: a `spawn` call, the first step of a created task, its
completion, and its done-callback. asyncio schedules the callback when the
task completes and runs it in a LATER step, so other handlers, `spawn` among
them, can run in between.

What the task executes (`HarnessRunner.execute`) plays no part here: it may
complete at any time, started or cancelled before its start.
-/
import Caips.Logic.Machine
import Caips.Logic.Dict

namespace Caips.Harness

open Caips.Logic

/-- How far a task is. -/
inductive TaskStatus where
  | created
  | started
  | done
  deriving DecidableEq, Repr

/-- A task made by `spawn`: the run it executes, the decision it was given, how
far it is, and whether its done-callback has run. -/
structure Task where
  rid : String
  decision : Option Bool
  status : TaskStatus
  notified : Bool
  deriving DecidableEq, Repr

/-- `HarnessRuntime`, with the tasks it created. -/
structure HarnessRuntime where
  tasks : Dict String Nat
  created : List Task

/-- What the event loop does next. -/
inductive Event where
  | spawn (rid : String) (decision : Option Bool)
  | start (task : Nat)
  | complete (task : Nat)
  | callback (task : Nat)
  deriving DecidableEq, Repr

namespace HarnessRuntime

/-- `task.done()` for a task object. -/
def isDone (s : HarnessRuntime) (i : Nat) : Bool :=
  match s.created[i]? with
  | some t => decide (t.status = .done)
  | none => true

/-- `spawn`: one task per run, unless one is stored that is not done. -/
def spawn (s : HarnessRuntime) (rid : String) (decision : Option Bool) : HarnessRuntime :=
  if (s.tasks.get? rid).any fun i => !s.isDone i then s
  else
    { tasks := s.tasks.set rid s.created.length
      created := s.created ++ [⟨rid, decision, .created, false⟩] }

/-- `_forget(rid)`: the done-callback drops whatever is stored for the run. -/
def forget (s : HarnessRuntime) (rid : String) : HarnessRuntime :=
  { s with tasks := s.tasks.pop rid }

/-- The tasks `stop` cancels and awaits: `self.tasks.values()`. -/
def stopTargets (s : HarnessRuntime) : List Nat := s.tasks.values

/-- One step of the event loop, `none` when it is not enabled. -/
def step (s : HarnessRuntime) : Event → Option HarnessRuntime
  | .spawn rid decision => some (s.spawn rid decision)
  | .start i =>
    match s.created[i]? with
    | some t =>
      if t.status = .created then
        some { s with created := s.created.set i { t with status := .started } }
      else none
    | none => none
  | .complete i =>
    match s.created[i]? with
    | some t =>
      if t.status ≠ .done then
        some { s with created := s.created.set i { t with status := .done } }
      else none
    | none => none
  | .callback i =>
    match s.created[i]? with
    | some t =>
      if t.status = .done ∧ t.notified = false then
        some ({ s with created := s.created.set i { t with notified := true } }.forget t.rid)
      else none
    | none => none

/-- A runtime as constructed. -/
def start (s : HarnessRuntime) : Prop := s = ⟨.empty, []⟩

def machine : Machine HarnessRuntime Event := .ofFun start step

end HarnessRuntime

end Caips.Harness
