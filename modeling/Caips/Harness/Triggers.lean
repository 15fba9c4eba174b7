/-
Caips.Harness.Triggers — scheduled and event-triggered runs, after
`harness/triggers.py`.

A firing starts a task (`_go`) that runs the agent until the run first stops:
it has ended, or waits for an approval, is paused, or has failed with an error. A run
that can go on may later be resumed elsewhere, in a task the trigger knows
nothing of. The loops of `tick` and `on_bus_event` are taken turn by turn; every
reading of the clock is a part of the event, an exact number, and is never before the
last one.
-/
import Caips.Logic.Json
import Caips.Logic.Dict
import Caips.Logic.Machine
import Mathlib.Algebra.Order.Ring.Rat

namespace Caips.Harness

open Caips.Logic

/-- `Trigger`. A trigger has an interval, a cron expression (the time after which
it is due next), a secret, or an event; `task` is the text of the run, `firing` the run
whose task was started last. -/
structure Trigger where
  agent : String
  task : String
  owner : String := "local"
  intervalS : ℚ := 0
  cron : Option (ℚ → ℚ) := none
  webhookSecret : String := ""
  event : String := ""
  «match» : List (String × Json) := []
  maxPerHour : ℤ := 6
  nextAt : ℚ := 0
  fired : List ℚ := []
  skipped : ℕ := 0
  firing : Option ℕ := none

/-- A run that a trigger started. -/
structure TriggeredRun where
  trigger : String
  agent : String
  task : String
  owner : String
  startedAt : ℚ
  /-- The task of the trigger executes it. -/
  firing : Bool := true
  /-- It was resumed, and executes. -/
  resumed : Bool := false
  /-- It does not execute, but can be resumed. -/
  resumable : Bool := false

/-- An event of the bus. -/
structure BusEvent where
  type : String
  fields : Dict String Json

/-- What the manager uses of the language and its library: `==` of values, the HMAC
of a message under a key, `int`, `json.loads`, and the substitution of plain
fields in a task. -/
structure TriggerLib where
  eq : Json → Json → Bool
  hmac : String → String → String
  parseInt : String → Option ℤ
  fieldsOf : String → List (String × Json)
  substitute : String → List (String × Json) → String

/-- `TriggerManager`, with the runs it started and the firings it refused. -/
structure TriggerManager where
  now : ℚ := 0
  triggers : Dict String Trigger := .empty
  runs : List TriggeredRun := []
  refused : List String := []

inductive TriggerEvent where
  /-- One turn of the loop in `tick`. -/
  | due (name : String) (now later : ℚ)
  /-- One turn of the loop in `on_bus_event`. -/
  | bus (name : String) (e : BusEvent) (now : ℚ)
  | webhook (name body timestamp signature : String) (now later : ℚ)
  /-- The task of a firing is done. -/
  | done (i : ℕ) (resumable : Bool)
  | resume (i : ℕ)
  | stop (i : ℕ) (resumable : Bool)

/-- A run executes. -/
def TriggeredRun.executing (r : TriggeredRun) : Bool := r.firing || r.resumed

namespace TriggerManager

variable (L : TriggerLib)

/-- The task of the last firing is not done. -/
def going (m : TriggerManager) (t : Trigger) : Bool :=
  t.firing.any fun i => m.runs[i]?.any (·.firing)

/-- The firings within the last hour. -/
def recent (now : ℚ) (fired : List ℚ) : List ℚ := fired.filter fun x => now - x < 3600

/-- `_fire`. -/
def fire (m : TriggerManager) (name : String) (t : Trigger) (fields : List (String × Json)) (now : ℚ) : TriggerManager :=
  let fired := recent now t.fired
  if m.going t ∨ (fired.length : ℤ) ≥ t.maxPerHour then
    { m with
      now := now
      triggers := m.triggers.set name { t with fired := fired, skipped := t.skipped + 1 }
      refused := m.refused ++ [name] }
  else
    { m with
      now := now
      triggers := m.triggers.set name { t with fired := fired ++ [now], firing := some m.runs.length }
      runs := m.runs ++ [{ trigger := name, agent := t.agent, task := L.substitute t.task fields, owner := t.owner, startedAt := now }] }

/-- A signed request: fresh and under the trigger's secret. -/
def signed (t : Trigger) (body timestamp signature : String) (now : ℚ) : Bool :=
  (L.parseInt timestamp).any (fun n => |now - n| ≤ 300) && L.hmac t.webhookSecret (timestamp ++ "." ++ body) = signature

/-- The trigger that an event fires, as it is then, with the fields for its task
and the time. -/
def selects (m : TriggerManager) : TriggerEvent → Option (String × Trigger × List (String × Json) × ℚ)
  | .due name now later => do
      let t ← m.triggers.get? name
      let now := max m.now now
      if (t.intervalS ≠ 0 ∨ t.cron.isSome) ∧ now ≥ t.nextAt then
        let nextAt := match t.cron with
          | some nextAfter => nextAfter now
          | none => now + t.intervalS
        some (name, { t with nextAt := nextAt }, [], max now later)
      else none
  | .bus name e now => do
      let t ← m.triggers.get? name
      if t.event = e.type ∧ t.match.all (fun x => L.eq ((e.fields.get? x.1).getD (.atom .null)) x.2) then
        some (name, t, e.fields.entries, max m.now now)
      else none
  | .webhook name body timestamp signature now later => do
      let t ← m.triggers.get? name
      let now := max m.now now
      if t.webhookSecret ≠ "" ∧ signed L t body timestamp signature now then
        some (name, t, L.fieldsOf body, max now later)
      else none
  | _ => none

/-- A run in its new state. -/
def setRun (m : TriggerManager) (i : ℕ) (r : TriggeredRun) : TriggerManager := { m with runs := m.runs.set i r }

def step (m : TriggerManager) : TriggerEvent → Option TriggerManager
  | .done i resumable => do
      let r ← m.runs[i]?
      if r.firing then some (m.setRun i { r with firing := false, resumable := resumable }) else none
  | .resume i => do
      let r ← m.runs[i]?
      if r.resumable ∧ ¬r.executing then some (m.setRun i { r with resumed := true, resumable := false }) else none
  | .stop i resumable => do
      let r ← m.runs[i]?
      if r.resumed then some (m.setRun i { r with resumed := false, resumable := resumable }) else none
  | ev => match m.selects L ev with
    | some (name, t, fields, now) => some (m.fire L name t fields now)
    | none => some m

/-- The runs of a manager whose triggers have not fired. -/
def machine : Machine TriggerManager TriggerEvent :=
  .ofFun (fun m => m.runs = [] ∧ m.refused = [] ∧
    ∀ name t, m.triggers.get? name = some t → t.fired = [] ∧ t.skipped = 0 ∧ t.firing = none) (step L)

/-- When the runs of a trigger were started. -/
def startsOf (m : TriggerManager) (name : String) : List ℚ :=
  (m.runs.filter fun r => r.trigger = name).map (·.startedAt)

/-- How many runs of a trigger execute. -/
def executing (m : TriggerManager) (name : String) : ℕ :=
  m.runs.countP fun r => r.trigger = name && r.executing

/-- A step leaves the runs of a trigger apart: a run is resumed only if no other
one executes, and a trigger that is not held back, by its last firing or its
cap, is fired only if none of its runs was resumed and executes. -/
def Apart (m : TriggerManager) : TriggerEvent → Prop
  | .resume i => ∀ r, m.runs[i]? = some r → m.executing r.trigger = 0
  | .done _ _ => True
  | .stop _ _ => True
  | ev => ∀ name t fields now, m.selects L ev = some (name, t, fields, now) → ¬m.going t →
      ((recent now t.fired).length : ℤ) < t.maxPerHour → ∀ r ∈ m.runs, r.trigger = name → ¬r.resumed

end TriggerManager

end Caips.Harness
