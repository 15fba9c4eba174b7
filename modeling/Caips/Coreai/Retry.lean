/-
Caips.Coreai.Retry — the request deadline and the waiting rules of a retry,
after `coreai/deadline.py` and `coreai/retry.py`.

A `Deadline` keeps the clock reading at which it ends; every method takes the
reading it is called at. The retry loop itself is a coroutine and lives with
the router (`Caips.Coreai.Router`).
-/
import Caips.Coreai.Errors
import Mathlib.Algebra.Order.Ring.Rat
import Mathlib.Algebra.Field.Rat

namespace Caips.Coreai

/-- `Deadline`: `_end`, absent for an unlimited one. -/
structure Deadline where
  endsAt : Option ℚ
  deriving DecidableEq

namespace Deadline

/-- `Deadline.__init__`. -/
def init (seconds : Option ℚ) (now : ℚ) : Deadline := ⟨seconds.map (now + ·)⟩

/-- `remaining`. -/
def remaining (d : Deadline) (now : ℚ) : Option ℚ := d.endsAt.map fun e => max 0 (e - now)

/-- `expired`. -/
def expired (d : Deadline) (now : ℚ) : Bool :=
  match d.endsAt with
  | some e => decide (e ≤ now)
  | none => false

/-- `clamp`. -/
def clamp (d : Deadline) (seconds : Option ℚ) (now : ℚ) : Option ℚ :=
  match d.remaining now, seconds with
  | none, s => s
  | some r, none => some r
  | some r, some s => some (min s r)

end Deadline

/-- `RetryConfig`. -/
structure RetryConfig where
  maxAttempts : Nat := 3
  initialWaitSeconds : ℚ := 1
  maxWaitSeconds : ℚ := 30
  exponentialBase : ℚ := 2
  jitter : Bool := true

/-- `compute_wait`, for one draw `rng` of the random generator. -/
def computeWait (attempt : Nat) (info : ErrorInfo) (cfg : RetryConfig) (rng : ℚ) : Option ℚ :=
  match info.retryAfter with
  | some w => if w ≤ cfg.maxWaitSeconds then some w else none
  | none =>
    let backoff :=
      min (cfg.initialWaitSeconds * cfg.exponentialBase ^ (attempt - 1)) cfg.maxWaitSeconds
    if cfg.jitter then some (backoff / 2 + rng * backoff / 2) else some backoff

end Caips.Coreai
