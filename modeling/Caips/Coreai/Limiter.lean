/-
Caips.Coreai.Limiter — rate limits of one provider, after
`coreai/limiter.py`: the token buckets, the semaphore of concurrency slots
and the counter of active requests.

`acquire` is a coroutine with two awaits and lives with the router
(`Caips.Coreai.Router`); here are the object and the operations it is made
of. The semaphore is its counter: waking a waiter and giving it the slot is
one step of the event loop, so `slots` counts what is free to take.
-/
import Mathlib.Algebra.Order.Ring.Rat
import Mathlib.Algebra.Field.Rat

namespace Caips.Coreai

theorem default_requests_pos : 1 ≤ 100 := by decide

theorem default_tokens_pos : 1 ≤ 90000 := by decide

theorem default_concurrent_pos : 1 ≤ 10 := by decide

/-- `RateLimitConfig`: the constructor refuses values below 1. -/
structure RateLimitConfig where
  requestsPerMinute : Nat := 100
  tokensPerMinute : Nat := 90000
  concurrentRequests : Nat := 10
  requests_pos : 1 ≤ requestsPerMinute := by first | exact Caips.Coreai.default_requests_pos | decide
  tokens_pos : 1 ≤ tokensPerMinute := by first | exact Caips.Coreai.default_tokens_pos | decide
  concurrent_pos : 1 ≤ concurrentRequests := by first | exact Caips.Coreai.default_concurrent_pos | decide

/-- `TokenBucket`. -/
structure TokenBucket where
  capacity : ℚ
  refillRate : ℚ
  tokens : ℚ
  lastRefill : ℚ
  deriving DecidableEq

namespace TokenBucket

/-- `TokenBucket.__init__`. -/
def init (capacity refillRate now : ℚ) : TokenBucket :=
  { capacity, refillRate, tokens := capacity, lastRefill := now }

/-- `_refill`. -/
def refill (b : TokenBucket) (now : ℚ) : TokenBucket :=
  { b with
    tokens := min b.capacity (b.tokens + (now - b.lastRefill) * b.refillRate)
    lastRefill := now }

/-- `reserve`: the deduction always happens; the seconds to wait for it. -/
def reserve (b : TokenBucket) (tokens now : ℚ) : ℚ × TokenBucket :=
  let b := b.refill now
  let b := { b with tokens := b.tokens - min tokens b.capacity }
  (if 0 ≤ b.tokens then 0 else -b.tokens / b.refillRate, b)

/-- `refund`. -/
def refund (b : TokenBucket) (tokens : ℚ) : TokenBucket :=
  { b with tokens := min b.capacity (b.tokens + min tokens b.capacity) }

end TokenBucket

/-- `ProviderLimiter`. -/
structure ProviderLimiter where
  name : String
  config : RateLimitConfig
  requestBucket : TokenBucket
  tokenBucket : TokenBucket
  slots : Nat
  activeRequests : Nat := 0
  totalRequests : Nat := 0
  totalWaits : ℚ := 0
  totalRejected : Nat := 0

namespace ProviderLimiter

/-- `ProviderLimiter.__init__`. -/
def init (name : String) (config : RateLimitConfig) (now : ℚ) : ProviderLimiter :=
  { name, config
    requestBucket := .init config.requestsPerMinute (config.requestsPerMinute / 60) now
    tokenBucket := .init config.tokensPerMinute (config.tokensPerMinute / 60) now
    slots := config.concurrentRequests }

/-- A waiter is given a slot. -/
def takeSlot (l : ProviderLimiter) : ProviderLimiter := { l with slots := l.slots - 1 }

/-- `self._slots.release()`. -/
def giveSlot (l : ProviderLimiter) : ProviderLimiter := { l with slots := l.slots + 1 }

/-- `self.total_rejected += 1`. -/
def reject (l : ProviderLimiter) : ProviderLimiter :=
  { l with totalRejected := l.totalRejected + 1 }

/-- Both reservations of `acquire`; the longer of the two waits. -/
def reserve (l : ProviderLimiter) (tokens now : ℚ) : ℚ × ProviderLimiter :=
  let r := l.requestBucket.reserve 1 now
  let t := l.tokenBucket.reserve tokens now
  (max r.1 t.1, { l with requestBucket := r.2, tokenBucket := t.2 })

/-- What `acquire` undoes when it fails while it holds a slot. -/
def abandon (l : ProviderLimiter) (tokens : ℚ) : ProviderLimiter :=
  { l with
    requestBucket := l.requestBucket.refund 1
    tokenBucket := l.tokenBucket.refund tokens }.giveSlot

/-- The end of `acquire`: the request is active. -/
def letIn (l : ProviderLimiter) (waited : ℚ) : ProviderLimiter :=
  { l with
    activeRequests := l.activeRequests + 1
    totalRequests := l.totalRequests + 1
    totalWaits := l.totalWaits + waited }

/-- `release`. -/
def release (l : ProviderLimiter) : ProviderLimiter :=
  if 0 < l.activeRequests then
    { l with activeRequests := l.activeRequests - 1 }.giveSlot
  else l

@[simp] theorem slots_takeSlot (l : ProviderLimiter) : l.takeSlot.slots = l.slots - 1 := rfl

@[simp] theorem activeRequests_takeSlot (l : ProviderLimiter) :
    l.takeSlot.activeRequests = l.activeRequests := rfl

@[simp] theorem config_takeSlot (l : ProviderLimiter) : l.takeSlot.config = l.config := rfl

@[simp] theorem slots_reserve (l : ProviderLimiter) (tokens now : ℚ) :
    (l.reserve tokens now).2.slots = l.slots := rfl

@[simp] theorem activeRequests_reserve (l : ProviderLimiter) (tokens now : ℚ) :
    (l.reserve tokens now).2.activeRequests = l.activeRequests := rfl

@[simp] theorem config_reserve (l : ProviderLimiter) (tokens now : ℚ) :
    (l.reserve tokens now).2.config = l.config := rfl

@[simp] theorem slots_abandon (l : ProviderLimiter) (tokens : ℚ) :
    (l.abandon tokens).slots = l.slots + 1 := rfl

@[simp] theorem activeRequests_abandon (l : ProviderLimiter) (tokens : ℚ) :
    (l.abandon tokens).activeRequests = l.activeRequests := rfl

@[simp] theorem config_abandon (l : ProviderLimiter) (tokens : ℚ) :
    (l.abandon tokens).config = l.config := rfl

@[simp] theorem slots_letIn (l : ProviderLimiter) (waited : ℚ) : (l.letIn waited).slots = l.slots :=
  rfl

@[simp] theorem activeRequests_letIn (l : ProviderLimiter) (waited : ℚ) :
    (l.letIn waited).activeRequests = l.activeRequests + 1 := rfl

@[simp] theorem config_letIn (l : ProviderLimiter) (waited : ℚ) :
    (l.letIn waited).config = l.config := rfl

theorem release_of_active {l : ProviderLimiter} (h : 0 < l.activeRequests) :
    l.release = { l with activeRequests := l.activeRequests - 1, slots := l.slots + 1 } := by
  rw [release, if_pos h, giveSlot]

end ProviderLimiter

end Caips.Coreai
