/-
Caips.Coreai.CircuitBreaker — the per-provider circuit breaker of
`coreai/circuit_breaker.py`, and the system of the calls that go through
one breaker.

The class is translated method by method. Two points of the Python carry
over and matter for every theorem about it:

* `state` is a PROPERTY WITH AN EFFECT. Reading it moves an `OPEN` breaker
  whose reset timeout has passed to `HALF_OPEN` and clears the probe
  counter. `refresh` is that effect; every method that reads `self.state`
  starts from the refreshed breaker. `release` and `retry_after` read the
  stored `_state` instead, so they do not.
* The clock is an argument. A method that reads it twice
  (`record_failure`: once for `state`, once in `_open`) takes both readings.

`Calls` adds what the class itself does not keep: which admitted calls have
not settled yet, and what the breaker was when it admitted them. One call
asks `allow` once and, if admitted, settles once, at any later time and in
any order.
-/
import Caips.Logic.Machine
import Mathlib.Data.Rat.Defs
import Mathlib.Algebra.Order.Ring.Rat

namespace Caips.Coreai

open Caips.Logic

/-- `CircuitState`. -/
inductive CircuitState where
  | closed
  | open
  | halfOpen
  deriving DecidableEq, Repr

/-- The value of the enumeration, as `snapshot` and `on_change` show it. -/
def CircuitState.value : CircuitState → String
  | .closed => "closed"
  | .open => "open"
  | .halfOpen => "half_open"

/-- A `CircuitBreaker` object. `rawState` is the stored `_state`; `changes`
lists the arguments `_changed` was called with. The constructor refuses a
threshold below 1, so the object carries the bound. -/
structure CircuitBreaker where
  name : String
  failureThreshold : Nat
  resetTimeout : ℚ
  halfOpenMaxCalls : Nat
  rawState : CircuitState
  failures : Nat
  openedAt : ℚ
  probesInFlight : Nat
  totalOpened : Nat
  changes : List String
  threshold_pos : 1 ≤ failureThreshold
  deriving DecidableEq

namespace CircuitBreaker

/-- `CircuitBreaker.__init__`. -/
def init (name : String) (failureThreshold : Nat) (resetTimeout : ℚ) (halfOpenMaxCalls : Nat) :
    Except String CircuitBreaker :=
  if h : 1 ≤ failureThreshold then
    .ok { name, failureThreshold, resetTimeout, halfOpenMaxCalls
          rawState := .closed, failures := 0, openedAt := 0
          probesInFlight := 0, totalOpened := 0, changes := [], threshold_pos := h }
  else .error "failure_threshold must be at least 1"

/-- What reading the property `state` does to the object. -/
def refresh (b : CircuitBreaker) (now : ℚ) : CircuitBreaker :=
  if b.rawState = .open ∧ b.resetTimeout ≤ now - b.openedAt then
    { b with rawState := .halfOpen, probesInFlight := 0 }
  else b

/-- The property `state`. -/
def state (b : CircuitBreaker) (now : ℚ) : CircuitState := (b.refresh now).rawState

/-- `would_allow`, with the object after the peek. -/
def wouldAllow (b : CircuitBreaker) (now : ℚ) : Bool × CircuitBreaker :=
  let b := b.refresh now
  match b.rawState with
  | .closed => (true, b)
  | .halfOpen => (decide (b.probesInFlight < b.halfOpenMaxCalls), b)
  | .open => (false, b)

/-- `allow`. -/
def allow (b : CircuitBreaker) (now : ℚ) : Bool × CircuitBreaker :=
  let b := b.refresh now
  match b.rawState with
  | .closed => (true, b)
  | .halfOpen =>
    if b.probesInFlight < b.halfOpenMaxCalls then
      (true, { b with probesInFlight := b.probesInFlight + 1 })
    else (false, b)
  | .open => (false, b)

/-- `_changed`. The callback's own exceptions are swallowed there. -/
def changed (b : CircuitBreaker) (new : String) : CircuitBreaker :=
  { b with changes := b.changes ++ [new] }

/-- `_open`, at the clock reading it takes. -/
def open' (b : CircuitBreaker) (now : ℚ) : CircuitBreaker :=
  { b with rawState := .open, openedAt := now, probesInFlight := 0
           totalOpened := b.totalOpened + 1 }.changed "open"

/-- `record_success`. -/
def recordSuccess (b : CircuitBreaker) (now : ℚ) : CircuitBreaker :=
  let b := b.refresh now
  match b.rawState with
  | .open => b
  | .halfOpen =>
    { b with probesInFlight := b.probesInFlight - 1, rawState := .closed
             failures := 0 }.changed "closed"
  | .closed => { b with rawState := .closed, failures := 0 }

/-- `record_failure`; `later` is the reading `_open` takes. -/
def recordFailure (b : CircuitBreaker) (now later : ℚ) : CircuitBreaker :=
  let b := b.refresh now
  match b.rawState with
  | .open => b
  | .halfOpen => { b with probesInFlight := b.probesInFlight - 1 }.open' later
  | .closed =>
    let b := { b with failures := b.failures + 1 }
    if b.failureThreshold ≤ b.failures then b.open' later else b

/-- `release`: reads the stored state, not the property. -/
def release (b : CircuitBreaker) : CircuitBreaker :=
  if b.rawState = .halfOpen then { b with probesInFlight := b.probesInFlight - 1 } else b

/-- `retry_after`: reads the stored state, not the property. -/
def retryAfter (b : CircuitBreaker) (now : ℚ) : Option ℚ :=
  if b.rawState = .open then some (max 0 (b.resetTimeout - (now - b.openedAt))) else none

/-- `snapshot`: state, consecutive failures, times opened, retry-after. -/
def snapshot (b : CircuitBreaker) (now later : ℚ) :
    (String × Nat × Nat × Option ℚ) × CircuitBreaker :=
  let b := b.refresh now
  ((b.rawState.value, b.failures, b.totalOpened, b.retryAfter later), b)

end CircuitBreaker

/-! ## The calls through one breaker -/

/-- How an admitted call settles. -/
inductive Outcome where
  | success
  | failure
  | released
  deriving DecidableEq, Repr

/-- The one method call that settles an admitted call. -/
def CircuitBreaker.settle (b : CircuitBreaker) (o : Outcome) (now later : ℚ) : CircuitBreaker :=
  match o with
  | .success => b.recordSuccess now
  | .failure => b.recordFailure now later
  | .released => b.release

/-- An admitted, unsettled call: how often the breaker had opened when it
admitted the call, and whether it admitted it as a half-open probe. -/
structure Call where
  id : Nat
  opened : Nat
  probe : Bool
  deriving DecidableEq, Repr

/-- A breaker, the last clock reading, and the calls in flight. -/
structure Calls where
  breaker : CircuitBreaker
  now : ℚ
  inFlight : List Call
  deriving DecidableEq

/-- What can happen next: a call asks for admission, an admitted call
settles, or somebody reads the state. -/
inductive Op where
  | allow (id : Nat) (now : ℚ)
  | settle (id : Nat) (o : Outcome) (now later : ℚ)
  | observe (now : ℚ)
  deriving DecidableEq

namespace Calls

/-- The call in flight with this id. -/
def find (s : Calls) (id : Nat) : Option Call := s.inFlight.find? fun c => c.id == id

/-- One operation. `none` when it cannot happen: the clock would go back, the
id is in use, or no such call is in flight. -/
def step (s : Calls) : Op → Option Calls
  | .allow id now =>
    if s.now ≤ now ∧ s.find id = none then
      let r := s.breaker.allow now
      let c : Call := ⟨id, r.2.totalOpened, decide (r.2.rawState = .halfOpen)⟩
      some { breaker := r.2, now := now
             inFlight := if r.1 then c :: s.inFlight else s.inFlight }
    else none
  | .settle id o now later =>
    if s.now ≤ now ∧ now ≤ later ∧ s.find id ≠ none then
      some { breaker := s.breaker.settle o now later, now := later
             inFlight := s.inFlight.filter fun c => c.id != id }
    else none
  | .observe now =>
    if s.now ≤ now then some { s with breaker := s.breaker.refresh now, now := now } else none

/-- The breaker once the operation has read the state: the time-based move from
`OPEN` to `HALF_OPEN` has happened. `release` reads no state. -/
def seen (s : Calls) : Op → CircuitBreaker
  | .allow _ now => s.breaker.refresh now
  | .settle _ .released _ _ => s.breaker
  | .settle _ _ now _ => s.breaker.refresh now
  | .observe now => s.breaker.refresh now

/-- A breaker as constructed, nothing in flight. -/
def start (s : Calls) : Prop :=
  (∃ name threshold reset probes,
    CircuitBreaker.init name threshold reset probes = .ok s.breaker) ∧ s.inFlight = []

def machine : Machine Calls Op := .ofFun start step

/-- A call admitted before the breaker last opened. -/
def stale (s : Calls) (c : Call) : Bool := decide (c.opened < s.breaker.totalOpened)

/-- An unsettled probe of the current half-open period: admitted as a probe,
with no opening since. -/
def live (s : Calls) (c : Call) : Bool :=
  c.probe && decide (c.opened = s.breaker.totalOpened)

/-- How many probes of the current half-open period are in flight. -/
def liveProbes (s : Calls) : Nat := s.inFlight.countP s.live

end Calls

end Caips.Coreai
