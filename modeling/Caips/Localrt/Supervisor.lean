/-
Caips.Localrt.Supervisor — child processes that serve local models, after
`localrt/supervisor.py` and `localrt/provider.py`.

`ensure` runs in a worker thread while the lock of the provider is held; the
probe's `reap_idle` runs in the event loop. Stopping a child waits until it has
exited, so the two threads can each be waiting for a child at the same time, and
nothing else happens in the event loop while `reap_idle` waits. Ports, commands
and logs play no part; a request whose model is unknown or does not fit never
gets as far as `ensure`.
-/
import Caips.Logic.Dict
import Caips.Logic.Machine
import Mathlib.Data.List.MinMax
import Mathlib.Algebra.Order.Ring.Rat

namespace Caips.Localrt

open Caips.Logic

/-- `Loaded`; a model is filed under its name. -/
structure Loaded where
  alive : Bool
  lastUsed : ℚ
  restarts : ℕ := 0
  nextRestartAt : ℚ := 0
  deriving DecidableEq

/-- `Supervisor`. -/
structure Supervisor where
  maxLoaded : ℤ := 1
  idleTimeoutS : ℚ := 600
  maxRestarts : ℤ := 5
  loaded : Dict String Loaded := .empty
  failed : List String := []

/-- Where the holder of the provider's lock is. -/
inductive Preparing where
  | ensuring (model : String)
  /-- In the loop that evicts until there is room. -/
  | makingRoom (model : String)
  /-- `unload` waits for an evicted child to exit. -/
  | evicting (model : String)
  /-- `ensure` has returned; the child is asked whether it is ready. -/
  | loading (model : String)
  deriving DecidableEq

/-- `reap_idle` on its way: what it still has to unload, and whether it waits
for a child to exit. -/
structure Reaping where
  todo : List String
  waiting : Bool := false
  deriving DecidableEq

/-- `ManagedLocalProvider` with its supervisor, and the models of the requests
that were prepared and have not finished. -/
structure Managed where
  supervisor : Supervisor
  now : ℚ := 0
  preparing : Option Preparing := none
  reaping : Option Reaping := none
  requests : List String := []

inductive ManagedEvent where
  | tick (now : ℚ)
  /-- A request takes the lock. -/
  | lock (model : String)
  /-- The worker thread goes on. -/
  | work
  /-- The child answers, and the lock is released. -/
  | ready
  | loadTimeout
  | finish (i : ℕ)
  | reap
  /-- `reap_idle` goes on. -/
  | reapNext
  | crash (model : String)
  deriving DecidableEq

namespace Supervisor

/-- The model prepared longest ago, the first of them in `loaded`. -/
def oldest (s : Supervisor) : Option (String × Loaded) := s.loaded.entries.argmin fun e => e.2.lastUsed

/-- The models `reap_idle` finds idle. -/
def idle (s : Supervisor) (now : ℚ) : List String :=
  (s.loaded.entries.filter fun e => now - e.2.lastUsed > s.idleTimeoutS).map Prod.fst

/-- `unload`, until it waits for the child: what is left, and whether there is a
child to wait for. -/
def unload (s : Supervisor) (name : String) : Supervisor × Bool :=
  ({ s with loaded := s.loaded.pop name }, (s.loaded.get? name).any (·.alive))

/-- `loaded[name] = m`. -/
def load (s : Supervisor) (name : String) (m : Loaded) : Supervisor := { s with loaded := s.loaded.set name m }

/-- `_restart`; nothing if it raises. -/
def restart (s : Supervisor) (now : ℚ) (name : String) (m : Loaded) : Supervisor × Bool :=
  if m.restarts ≥ s.maxRestarts then ({ s with failed := name :: s.failed, loaded := s.loaded.pop name }, false)
  else if now < m.nextRestartAt then (s, false)
  else
    let restarts := m.restarts + 1
    let m : Loaded := ⟨true, now, restarts, now + min (2 ^ restarts) 60⟩
    (s.load name m, true)

/-- The loaded models whose child runs. -/
def running (s : Supervisor) : ℕ := s.loaded.count (·.alive)

end Supervisor

namespace Managed

/-- One step of the worker thread; the lock is released when `ensure` raises. -/
def work (x : Managed) : Option Managed := do
  match ← x.preparing with
  | .ensuring model =>
    if model ∈ x.supervisor.failed then some { x with preparing := none }
    else match x.supervisor.loaded.get? model with
      | none => some { x with preparing := some (.makingRoom model) }
      | some m =>
        if m.alive then
          let s := x.supervisor.load model { m with lastUsed := x.now }
          some { x with supervisor := s, preparing := some (.loading model) }
        else
          let (s, started) := x.supervisor.restart x.now model m
          some { x with supervisor := s, preparing := if started then some (.loading model) else none }
  | .makingRoom model =>
    if (x.supervisor.loaded.size : ℤ) ≥ x.supervisor.maxLoaded then
      match x.supervisor.oldest with
      | none => some { x with preparing := none }
      | some (victim, _) =>
        let (s, waits) := x.supervisor.unload victim
        some { x with supervisor := s, preparing := some (if waits then .evicting model else .makingRoom model) }
    else
      let s := x.supervisor.load model ⟨true, x.now, 0, 0⟩
      some { x with supervisor := s, preparing := some (.loading model) }
  | .evicting model => some { x with preparing := some (.makingRoom model) }
  | .loading _ => none

/-- One step of `reap_idle`. -/
def reapNext (x : Managed) : Option Managed := do
  let r ← x.reaping
  if r.waiting then some { x with reaping := some { r with waiting := false } }
  else match r.todo with
    | [] => some { x with reaping := none }
    | name :: todo =>
      let (s, waits) := x.supervisor.unload name
      some { x with supervisor := s, reaping := some ⟨todo, waits⟩ }

def step (x : Managed) : ManagedEvent → Option Managed
  | .tick now => if now < x.now then none else some { x with now := now }
  | .lock model =>
    if x.reaping = none ∧ x.preparing = none then some { x with preparing := some (.ensuring model) } else none
  | .work => x.work
  | .ready => match x.reaping, x.preparing with
    | none, some (.loading model) => some { x with preparing := none, requests := x.requests ++ [model] }
    | _, _ => none
  | .loadTimeout => match x.reaping, x.preparing with
    | none, some (.loading _) => some { x with preparing := none }
    | _, _ => none
  | .finish i => if x.reaping = none ∧ i < x.requests.length then some { x with requests := x.requests.eraseIdx i } else none
  | .reap => if x.reaping = none then some { x with reaping := some ⟨x.supervisor.idle x.now, false⟩ } else none
  | .reapNext => x.reapNext
  | .crash model => do
      let m ← x.supervisor.loaded.get? model
      some { x with supervisor := x.supervisor.load model { m with alive := false } }

def machine : Machine Managed ManagedEvent :=
  .ofFun (fun x => x.supervisor.loaded = .empty ∧ x.preparing = none ∧ x.reaping = none ∧ x.requests = []) step

def evicted : Option Preparing → ℕ
  | some (.evicting _) => 1
  | _ => 0

/-- The child that `reap_idle` waits for. -/
def reaped : Option Reaping → ℕ
  | some ⟨_, true⟩ => 1
  | _ => 0

/-- The children that run, those that are being stopped among them. -/
def children (x : Managed) : ℕ := x.supervisor.running + evicted x.preparing + reaped x.reaping

/-- A step unloads a model whose child runs. -/
def Unloads (x u : Managed) (name : String) : Prop :=
  (∃ m, x.supervisor.loaded.get? name = some m ∧ m.alive) ∧ u.supervisor.loaded.get? name = none

/-- One loaded model comes before another in the order of eviction. -/
def Before (s : Supervisor) (o e : String × Loaded) : Prop :=
  o.2.lastUsed < e.2.lastUsed ∨
    o.2.lastUsed = e.2.lastUsed ∧ s.loaded.entries.idxOf o < s.loaded.entries.idxOf e

/-- If `reap_idle` waits for a child to exit, there is room for two. -/
def Roomy (x : Managed) : Prop := reaped x.reaping = 1 → (x.supervisor.running : ℤ) + 1 < x.supervisor.maxLoaded

/-- A step meets no request: where a model is evicted, another one was prepared
before those in use; where the idle ones are reaped, those in use were prepared
within the timeout; and no child takes the place of one that `reap_idle` still
waits for. -/
def Calm (x : Managed) : ManagedEvent → Prop
  | .work => match x.preparing with
    | some (.ensuring model) => ∀ m, x.supervisor.loaded.get? model = some m → ¬m.alive →
        m.restarts < x.supervisor.maxRestarts → m.nextRestartAt ≤ x.now → x.Roomy
    | some (.makingRoom _) =>
      if (x.supervisor.loaded.size : ℤ) ≥ x.supervisor.maxLoaded then
        ∀ e ∈ x.supervisor.loaded.entries, e.2.alive → e.1 ∈ x.requests →
          ∃ o ∈ x.supervisor.loaded.entries, Before x.supervisor o e
      else x.Roomy
    | _ => True
  | .reap => ∀ e ∈ x.supervisor.loaded.entries, e.1 ∈ x.requests → x.now - e.2.lastUsed ≤ x.supervisor.idleTimeoutS
  | _ => True

end Managed

end Caips.Localrt
