/-
Caips.Api.Middleware — the rate limit of the HTTP API, after
`api/middleware.py`.

A request is known by its client key, and the clock of a request is the one
reading `_check_rate_limit` takes (`time.time`, which may go back). With an
`rpm` below 1 the check looks for the oldest entry of an empty window and
raises; the table keeps that window.
-/
import Caips.Logic.Dict
import Caips.Logic.Machine
import Caips.Logic.Rounding
import Mathlib.Data.Rat.Floor

namespace Caips.Api

open Caips.Logic

/-- `RateLimitMiddleware`: the times of the admitted requests by client, and
`_last_sweep`. -/
structure RateLimitMiddleware where
  rpm : ℤ := 60
  windows : Dict String (List ℚ) := .empty
  lastSweep : ℚ := 0

/-- `SWEEP_INTERVAL_S`. -/
def sweepIntervalS : ℚ := 60

/-- `MAX_CLIENTS`. -/
def maxClients : ℕ := 10000

/-- The response to a refused request: its text, its status, and the header
`Retry-After`. -/
structure Refusal where
  content : String
  statusCode : ℕ
  retryAfter : String
  deriving DecidableEq

/-- What `dispatch` does with a request. -/
inductive Dispatch where
  | passed
  | refused (r : Refusal)
  | raised (exc : String)
  deriving DecidableEq

namespace RateLimitMiddleware

/-- `_sweep`. -/
def sweep (m : RateLimitMiddleware) (now cutoff : ℚ) : RateLimitMiddleware :=
  if now - m.lastSweep < sweepIntervalS then m
  else
    { m with
      lastSweep := now
      windows := m.windows.filter fun w => !(w.getLast?.all fun t => t ≤ cutoff) }

/-- The end of `_check_rate_limit`, once the client's window is trimmed. -/
def admitClient (m : RateLimitMiddleware) (clientKey : String) (window : List ℚ) (now : ℚ) :
    Except String (Bool × ℚ) × RateLimitMiddleware :=
  if m.rpm ≤ window.length then
    (match window with
      | [] => .error "IndexError"
      | oldest :: _ => .ok (false, max (60 - (now - oldest)) 0),
      { m with windows := m.windows.set clientKey window })
  else (.ok (true, 0), { m with windows := m.windows.set clientKey (window ++ [now]) })

/-- `_check_rate_limit`. -/
def checkRateLimit (m : RateLimitMiddleware) (clientKey : String) (now : ℚ) :
    Except String (Bool × ℚ) × RateLimitMiddleware :=
  let cutoff := now - 60
  let m := m.sweep now cutoff
  match m.windows.get? clientKey with
  | none =>
    if maxClients ≤ m.windows.size then (.ok (false, 60), m)
    else m.admitClient clientKey [] now
  | some window => m.admitClient clientKey (window.dropWhile fun t => t ≤ cutoff) now

/-- The response of a refusal; the header is `str(int(retry_after))`. -/
def refusal (retryAfter : ℚ) : Refusal where
  content := s!"Rate limit exceeded. Retry after {nearestEven retryAfter}s."
  statusCode := 429
  retryAfter := toString (truncate retryAfter)

/-- `dispatch`, up to the call of the application. -/
def dispatch (m : RateLimitMiddleware) (clientKey : String) (now : ℚ) : Dispatch × RateLimitMiddleware :=
  match m.checkRateLimit clientKey now with
  | (.ok (true, _), m) => (.passed, m)
  | (.ok (false, retryAfter), m) => (.refused (refusal retryAfter), m)
  | (.error exc, m) => (.raised exc, m)

/-- `_remaining`, which is the header `X-RateLimit-Remaining` of a response. -/
def remaining (m : RateLimitMiddleware) (clientKey : String) (now : ℚ) : ℤ :=
  let window := (m.windows.get? clientKey).getD []
  max 0 (m.rpm - window.countP fun t => now - 60 < t)

end RateLimitMiddleware

/-! ## The requests of all clients -/

/-- The middleware, the last reading of its clock, and the requests it let through. -/
structure Traffic where
  limiter : RateLimitMiddleware
  now : ℚ
  admitted : List (String × ℚ)

/-- A request: the client, and what the clock shows. -/
structure Request where
  clientKey : String
  now : ℚ

namespace Traffic

/-- `allowed` of an answer. -/
def allowed : Except String (Bool × ℚ) → Bool
  | .ok (yes, _) => yes
  | .error _ => false

/-- One request. -/
def step (s : Traffic) (r : Request) : Option Traffic :=
  let answer := s.limiter.checkRateLimit r.clientKey r.now
  some { limiter := answer.2, now := r.now
         admitted := if allowed answer.1 then s.admitted ++ [(r.clientKey, r.now)] else s.admitted }

/-- The middleware as it is built. -/
def start (s : Traffic) : Prop := ∃ rpm, s.limiter = { rpm := rpm } ∧ s.admitted = []

def machine : Machine Traffic Request := .ofFun start step

/-- The clock does not go back. -/
def forward (s : Traffic) (r : Request) : Prop := s.now ≤ r.now

instance (s : Traffic) (r : Request) : Decidable (forward s r) := inferInstanceAs (Decidable (s.now ≤ r.now))

end Traffic

end Caips.Api
