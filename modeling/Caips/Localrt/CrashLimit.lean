/-
Caips.Localrt.CrashLimit — how often a model that crashes is started.

The provider of `Supervisor.lean`, and an operator who unloads models through
`POST /v1/local/models/{model_id}/unload` (`api/local_models_api.py`). The endpoint
runs in the event loop, where nothing else happens while `reap_idle` runs.
-/
import Caips.Localrt.Supervisor

namespace Caips.Localrt

open Caips.Logic

/-- What happens to a provider that has an operator. -/
inductive OperatedEvent where
  | managed (ev : ManagedEvent)
  /-- The endpoint calls `unload`. -/
  | unload (model : String)
  deriving DecidableEq

abbrev OperatedStep := Machine.Step Managed OperatedEvent

namespace Managed

def operate (x : Managed) : OperatedEvent → Option Managed
  | .managed ev => x.step ev
  | .unload model => if x.reaping = none then some { x with supervisor := (x.supervisor.unload model).1 } else none

def record (x : Managed) (name : String) : Option Loaded := x.supervisor.loaded.get? name

/-- The model a process is spawned for in a step. -/
def spawned (x : Managed) : OperatedEvent → Option String
  | .managed .work => match x.preparing with
      | some (.ensuring model) =>
        if model ∈ x.supervisor.failed then none
        else if (x.record model).any fun m => !m.alive && (x.supervisor.restart x.now model m).2 then some model
        else none
      | some (.makingRoom model) => if (x.supervisor.loaded.size : ℤ) ≥ x.supervisor.maxLoaded then none else some model
      | _ => none
  | _ => none

/-! ## The limit -/

/-- A step starts a process of a model. -/
def Starts (name : String) (e : OperatedStep) : Prop := spawned e.source e.label = some name

instance (name : String) (e : OperatedStep) : Decidable (Starts name e) :=
  inferInstanceAs (Decidable (spawned e.source e.label = some name))

/-- How often a model is started. -/
def starts (name : String) (l : List OperatedStep) : ℕ := l.countP fun e => decide (Starts name e)

/-- A step restarts a model, and sets the time before which it is not to be started
again. -/
def SetsDelay (name : String) (t : ℚ) (e : OperatedStep) : Prop :=
  Starts name e ∧ (∃ m, e.source.record name = some m) ∧ ∃ m, e.target.record name = some m ∧ m.nextRestartAt = t

/-- The process of a model crashes after every start. -/
def CrashesEachTime (name : String) (l : List OperatedStep) : Prop :=
  ∀ l₁ e l₂ e' l₃, l = l₁ ++ e :: l₂ ++ e' :: l₃ → Starts name e → Starts name e' →
    ∃ c ∈ l₂, c.label = .managed (.crash name)

/-- The last restart of a model, if there was one, is long enough ago. -/
def Settled (x : Managed) (m : Loaded) : Prop := m.restarts = 0 ∨ m.nextRestartAt ≤ x.now

/-- A step does not forget a crash: what is evicted or reaped runs, and neither that
nor what is unloaded waits for its next restart; and no model that is marked failed
is unloaded. -/
def Mindful (x : Managed) : OperatedEvent → Prop
  | .managed .work => match x.preparing with
      | some (.makingRoom _) => (x.supervisor.loaded.size : ℤ) ≥ x.supervisor.maxLoaded →
          ∀ victim m, x.supervisor.oldest = some (victim, m) → m.alive ∧ x.Settled m
      | _ => True
  | .managed .reapNext => ∀ name todo, x.reaping = some ⟨name :: todo, false⟩ →
      ∀ m, x.record name = some m → m.alive ∧ x.Settled m
  | .unload name => name ∉ x.supervisor.failed ∧ ∀ m, x.record name = some m → x.Settled m
  | _ => True

end Managed

end Caips.Localrt
