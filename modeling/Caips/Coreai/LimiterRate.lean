/-
Caips.Coreai.LimiterRate — the rate a provider's limiter really lets
through, after `ProviderLimiter.acquire` of `coreai/limiter.py`.

The calls of one limiter are a state machine: between two awaits a call runs
alone, so an event is one such piece (the arrival, the piece from the slot to
the sleep, the end of the sleep, a cancellation). The clock may move on between
two readings inside a piece; the readings are arguments of the event. Each
reservation is kept with the level its buckets had (`Charge`), which makes the
two buckets instances of `Logic.Bucket`: `book` is that reading of the state, and
`reserve` and `refund` of the code are `take` and `giveBack` there.

The buckets are charged when a call reserves, and the call is let in when BOTH
buckets have covered it, or whenever its task is run after that. So the law

  weights let in from `s` to `t` ≤ capacity + refill_rate · (t - s)

holds only for windows that begin before the bucket could have filled up behind
the back of the oldest request let in (`rateLaw`); `burst` is a run in which a
cancelled waiter gives back what a later one has already waited for.
-/
import Caips.Logic.Bucket
import Caips.Logic.Machine
import Caips.Coreai.Router

namespace Caips.Coreai

open Caips.Logic

/-- The two buckets of a limiter. -/
inductive Side where
  | request
  | token
  deriving DecidableEq

def Side.capacity : Side → RateLimitConfig → ℚ
  | .request, config => config.requestsPerMinute
  | .token, config => config.tokensPerMinute

/-- What a bucket is refilled by in a second. -/
def Side.refillRate (side : Side) (config : RateLimitConfig) : ℚ := side.capacity config / 60

/-- The bucket of a side. -/
def ProviderLimiter.bucket (l : ProviderLimiter) : Side → TokenBucket
  | .request => l.requestBucket
  | .token => l.tokenBucket

/-- What a request of `tokens` weighs: one request, or its tokens up to the
capacity. -/
def Side.weight (config : RateLimitConfig) (tokens : Nat) : Side → ℚ
  | .request => 1
  | .token => min tokens config.tokensPerMinute

/-- A call that waits for a concurrency slot. -/
structure Waiter where
  tokens : Nat
  maxWait : Option ℚ
  started : ℚ

/-- A call that has reserved: its charges, when its sleep is over, and when it
was let in. -/
structure Reservation where
  waiter : Waiter
  requestCharge : Charge ℚ
  tokenCharge : Charge ℚ
  wakes : ℚ
  admitted : Option ℚ

namespace Reservation

def charge (r : Reservation) : Side → Charge ℚ
  | .request => r.requestCharge
  | .token => r.tokenCharge

/-- Its sleep is not over. -/
def asleep (r : Reservation) : Bool := r.admitted.isNone && r.requestCharge.returned.isNone

/-- Both charges are given back, after `n` reservations. -/
def giveBack (r : Reservation) (n : Nat) : Reservation :=
  { r with
    requestCharge := { r.requestCharge with returned := some n }
    tokenCharge := { r.tokenCharge with returned := some n } }

end Reservation

/-- The calls of one limiter: those waiting for a slot, and every reservation
so far, numbered in the order in which they were made. -/
structure LimiterCalls where
  now : ℚ
  limiter : ProviderLimiter
  queue : List Waiter := []
  count : Nat := 0
  reservation : Nat → Reservation

namespace LimiterCalls

/-- What happens next. `d` and `e` are what the clock moves between readings. -/
inductive Event where
  | tick (d : ℚ)
  | call (tokens : Nat) (maxWait : Option ℚ) (d e : ℚ)
  | slot (i : Nat) (d e : ℚ)
  | leave (i : Nat)
  | timeout (i : Nat)
  | wake (k : Nat)
  | cancel (k : Nat)
  | release

def noReservation : Reservation where
  waiter := { tokens := 0, maxWait := none, started := 0 }
  requestCharge := { time := 0, before := 0, weight := 0 }
  tokenCharge := { time := 0, before := 0, weight := 0 }
  wakes := 0
  admitted := none

/-- A new limiter. -/
def init (name : String) (config : RateLimitConfig) (now : ℚ) : LimiterCalls :=
  { now, limiter := .init name config now, reservation := fun _ => noReservation }

/-- `reserve` of a bucket, as a charge. -/
def charged (b : TokenBucket) (tokens now : ℚ) : Charge ℚ :=
  { time := now, before := (b.refill now).tokens, weight := min tokens b.capacity }

/-- From the slot to the sleep: reserve in both buckets; a call that would have
to wait longer than it may gives everything back. -/
def reserve (c : LimiterCalls) (w : Waiter) (d e : ℚ) : LimiterCalls :=
  let l := c.limiter.takeSlot
  let request := l.requestBucket.reserve 1 c.now
  let token := l.tokenBucket.reserve w.tokens (c.now + d)
  let wait := max request.1 token.1
  let now := c.now + d + e
  let reserved := { l with requestBucket := request.2, tokenBucket := token.2 }
  let r : Reservation :=
    { waiter := w
      requestCharge := charged l.requestBucket 1 c.now
      tokenCharge := charged l.tokenBucket w.tokens (c.now + d)
      wakes := now + wait
      admitted := none }
  let next := { c with now, count := c.count + 1 }
  if (Router.left w.maxWait w.started now).any (· < wait) then
    { next with
      limiter := reserved.reject.abandon w.tokens
      reservation := Function.update c.reservation c.count (r.giveBack (c.count + 1)) }
  else if 0 < wait then
    { next with
      limiter := reserved
      reservation := Function.update c.reservation c.count r }
  else
    { next with
      limiter := reserved.letIn (now - w.started)
      reservation := Function.update c.reservation c.count { r with admitted := some now } }

/-- The arrival: `started`, and `left()` at the next reading. Without time to
wait a call takes a free slot at once or is turned away. -/
def call (c : LimiterCalls) (w : Waiter) (d e : ℚ) : LimiterCalls :=
  if (Router.left w.maxWait w.started c.now).any (· ≤ 0) then
    if c.limiter.slots = 0 then { c with limiter := c.limiter.reject } else c.reserve w d e
  else { c with queue := c.queue ++ [w] }

/-- The end of the sleep. -/
def wake (c : LimiterCalls) (k : Nat) : LimiterCalls :=
  let r := c.reservation k
  { c with
    limiter := c.limiter.letIn (c.now - r.waiter.started)
    reservation := Function.update c.reservation k { r with admitted := some c.now } }

/-- A sleeping call is cancelled. -/
def cancel (c : LimiterCalls) (k : Nat) : LimiterCalls :=
  let r := c.reservation k
  { c with
    limiter := c.limiter.abandon r.waiter.tokens
    reservation := Function.update c.reservation k (r.giveBack c.count) }

/-- Its time to wait is over. -/
def late (c : LimiterCalls) (w : Waiter) : Bool := w.maxWait.any (w.started + · ≤ c.now)

/-- One event; `none` when it cannot happen. -/
def step (c : LimiterCalls) : Event → Option LimiterCalls
  | .tick d => if 0 ≤ d then some { c with now := c.now + d } else none
  | .call tokens maxWait d e =>
    if 0 ≤ d ∧ 0 ≤ e then
      some ({ c with now := c.now + d }.call { tokens, maxWait, started := c.now } d e)
    else none
  | .slot i d e =>
    c.queue[i]?.bind fun w =>
      if 0 < c.limiter.slots ∧ 0 ≤ d ∧ 0 ≤ e then
        some ({ c with queue := c.queue.eraseIdx i }.reserve w d e)
      else none
  | .leave i => if i < c.queue.length then some { c with queue := c.queue.eraseIdx i } else none
  | .timeout i =>
    if c.queue[i]?.any c.late then
      some { c with queue := c.queue.eraseIdx i, limiter := c.limiter.reject }
    else none
  | .wake k =>
    if k < c.count ∧ (c.reservation k).asleep = true ∧ (c.reservation k).wakes ≤ c.now then
      some (c.wake k)
    else none
  | .cancel k => if k < c.count ∧ (c.reservation k).asleep = true then some (c.cancel k) else none
  | .release => some { c with limiter := c.limiter.release }

def machine : Machine LimiterCalls Event :=
  .ofFun (fun c => ∃ name config now, c = init name config now) step

/-! ## The law -/

/-- The history of one bucket. -/
def book (c : LimiterCalls) (side : Side) : Bucket ℚ where
  capacity := (c.limiter.bucket side).capacity
  rate := (c.limiter.bucket side).refillRate
  level := (c.limiter.bucket side).tokens
  last := (c.limiter.bucket side).lastRefill
  count := c.count
  charge := fun k => (c.reservation k).charge side

/-- The reservations let in from `s` to `t`. -/
def admittedIn (c : LimiterCalls) (s t : ℚ) : Finset Nat :=
  (Finset.range c.count).filter fun k => (c.reservation k).admitted.any (fun a => s ≤ a ∧ a ≤ t) = true

/-- What was let in from `s` to `t` keeps to the bucket's capacity and rate. -/
def RateLaw (c : LimiterCalls) (side : Side) (s t : ℚ) : Prop :=
  ∑ k ∈ c.admittedIn s t, side.weight c.limiter.config (c.reservation k).waiter.tokens ≤
    side.capacity c.limiter.config + side.refillRate c.limiter.config * (t - s)

instance (c : LimiterCalls) (side : Side) (s t : ℚ) : Decidable (c.RateLaw side s t) :=
  inferInstanceAs (Decidable (_ ≤ _))

/-- What the bucket held before the oldest reservation let in from `s` to `t`,
with what was given back of older ones before the newest of them reserved, and
refilled until `s`, fits the capacity. -/
def Fits (c : LimiterCalls) (side : Side) (s t : ℚ) : Prop :=
  ∀ j ∈ c.admittedIn s t, ∀ k ∈ c.admittedIn s t, (∀ i ∈ c.admittedIn s t, j ≤ i ∧ i ≤ k) →
    (c.book side).supply j k s ≤ side.capacity c.limiter.config

instance (c : LimiterCalls) (side : Side) (s t : ℚ) : Decidable (c.Fits side s t) :=
  inferInstanceAs (Decidable (∀ j ∈ c.admittedIn s t, ∀ k ∈ c.admittedIn s t, _ → _))

/-! ## The code's buckets -/

/-- What `acquire` passes to `reserve` and `refund`. -/
def amount (tokens : Nat) : Side → ℚ
  | .request => 1
  | .token => tokens

/-- The bucket read with a history of charges. -/
def bookOf (b : TokenBucket) (n : Nat) (charge : Nat → Charge ℚ) : Bucket ℚ where
  capacity := b.capacity
  rate := b.refillRate
  level := b.tokens
  last := b.lastRefill
  count := n
  charge := charge

theorem bookOf_reserve (b : TokenBucket) (tokens now : ℚ) (n : Nat) (charge : Nat → Charge ℚ) :
    bookOf (b.reserve tokens now).2 (n + 1) (Function.update charge n (charged b tokens now)) =
      (bookOf b n charge).take (min tokens b.capacity) now := rfl

theorem bookOf_refund (b : TokenBucket) {tokens : ℚ} {n k : Nat} {charge : Nat → Charge ℚ}
    (h : (charge k).weight = min tokens b.capacity) :
    bookOf (b.refund tokens) n (Function.update charge k { charge k with returned := some n }) =
      (bookOf b n charge).giveBack k := by
  unfold bookOf TokenBucket.refund Bucket.giveBack
  simp only [h]

/-- The wait `reserve` answers ends when the charge is due. -/
theorem dueAt_charged (b : TokenBucket) (tokens now : ℚ) :
    (charged b tokens now).dueAt b.refillRate = now + (b.reserve tokens now).1 := by
  unfold Charge.dueAt
  by_cases hpaid : min tokens b.capacity ≤ (b.refill now).tokens
  · have hwait : (b.reserve tokens now).1 = 0 := if_pos (sub_nonneg.mpr hpaid)
    rw [hwait, add_zero]
    exact if_pos hpaid
  · have hwait : (b.reserve tokens now).1 =
        -((b.refill now).tokens - min tokens b.capacity) / b.refillRate :=
      if_neg fun h => hpaid (sub_nonneg.mp h)
    rw [hwait, neg_sub]
    exact if_neg hpaid

theorem charge_update (f : Nat → Reservation) (n : Nat) (r : Reservation) (side : Side) :
    (fun k => (Function.update f n r k).charge side) =
      Function.update (fun k => (f k).charge side) n (r.charge side) := by
  funext k
  by_cases h : k = n
  · subst h; simp
  · simp [h]

theorem weight_eq (config : RateLimitConfig) (tokens : Nat) (side : Side) :
    side.weight config tokens = min (amount tokens side) (side.capacity config) := by
  have hone : (1 : ℚ) ≤ config.requestsPerMinute := by exact_mod_cast config.requests_pos
  cases side with
  | request => exact (min_eq_left hone).symm
  | token => rfl

theorem capacity_pos (config : RateLimitConfig) (side : Side) : 0 < side.capacity config := by
  cases side with
  | request => exact Nat.cast_pos.mpr config.requests_pos
  | token => exact Nat.cast_pos.mpr config.tokens_pos

theorem weight_nonneg (config : RateLimitConfig) (tokens : Nat) (side : Side) :
    0 ≤ side.weight config tokens := by
  have hcapacity := (capacity_pos config side).le
  rw [weight_eq]
  cases side with
  | request => exact le_min zero_le_one hcapacity
  | token => exact le_min (Nat.cast_nonneg tokens) hcapacity

/-! ## The invariant -/

/-- What holds of the calls of a limiter in every run. -/
structure Inv (c : LimiterCalls) : Prop where
  capacity : ∀ side, (c.limiter.bucket side).capacity = side.capacity c.limiter.config
  rate : ∀ side, (c.limiter.bucket side).refillRate = side.refillRate c.limiter.config
  sound : ∀ side, (c.book side).Sound
  weight : ∀ k < c.count, ∀ side, ((c.reservation k).charge side).weight =
    side.weight c.limiter.config (c.reservation k).waiter.tokens
  due : ∀ k < c.count, ∀ side,
    ((c.reservation k).charge side).dueAt (side.refillRate c.limiter.config) ≤ (c.reservation k).wakes
  together : ∀ k < c.count, ∀ side, ((c.reservation k).charge side).returned =
    (c.reservation k).requestCharge.returned
  admitted : ∀ k < c.count, ∀ a, (c.reservation k).admitted = some a →
    (c.reservation k).wakes ≤ a ∧ (c.reservation k).requestCharge.returned = none

namespace Inv

variable {c c' : LimiterCalls}

/-- Only buckets and reservations matter. -/
theorem congr (h : c.Inv) (hconfig : c'.limiter.config = c.limiter.config)
    (hbucket : c'.limiter.bucket = c.limiter.bucket) (hcount : c'.count = c.count)
    (hreservation : c'.reservation = c.reservation) : c'.Inv where
  capacity := by rw [hbucket, hconfig]; exact h.capacity
  rate := by rw [hbucket, hconfig]; exact h.rate
  sound := by
    intro side
    have hbook : c'.book side = c.book side := by
      unfold book
      rw [hbucket, hcount, hreservation]
    rw [hbook]
    exact h.sound side
  weight := by rw [hcount, hreservation, hconfig]; exact h.weight
  due := by rw [hcount, hreservation, hconfig]; exact h.due
  together := by rw [hcount, hreservation]; exact h.together
  admitted := by rw [hcount, hreservation]; exact h.admitted

theorem init (name : String) (config : RateLimitConfig) (now : ℚ) :
    (LimiterCalls.init name config now).Inv where
  capacity := fun side => by cases side <;> rfl
  rate := fun side => by cases side <;> rfl
  sound := by
    intro side
    have hrate : ((LimiterCalls.init name config now).book side).rate = side.refillRate config := by
      cases side <;> rfl
    refine Bucket.Sound.empty ?_ rfl fun _ => by cases side <;> exact le_refl 0
    rw [hrate]
    exact div_pos (capacity_pos config side) (by norm_num)
  weight := fun k hk => absurd hk (Nat.not_lt_zero k)
  due := fun k hk => absurd hk (Nat.not_lt_zero k)
  together := fun k hk => absurd hk (Nat.not_lt_zero k)
  admitted := fun k hk => absurd hk (Nat.not_lt_zero k)

/-- A new reservation `r`, made by charging both buckets. -/
theorem push (h : c.Inv) {r : Reservation} (time : Side → ℚ)
    (hconfig : c'.limiter.config = c.limiter.config)
    (hbucket : ∀ side, c'.limiter.bucket side =
      ((c.limiter.bucket side).reserve (amount r.waiter.tokens side) (time side)).2)
    (hcount : c'.count = c.count + 1)
    (hreservation : c'.reservation = Function.update c.reservation c.count r)
    (hcharge : ∀ side,
      r.charge side = charged (c.limiter.bucket side) (amount r.waiter.tokens side) (time side))
    (hwakes : ∀ side,
      time side + ((c.limiter.bucket side).reserve (amount r.waiter.tokens side) (time side)).1 ≤ r.wakes)
    (hadmitted : ∀ a, r.admitted = some a → r.wakes ≤ a) : c'.Inv where
  capacity := by
    intro side
    rw [hbucket, hconfig]
    exact h.capacity side
  rate := by
    intro side
    rw [hbucket, hconfig]
    exact h.rate side
  sound := by
    intro side
    have hbook : c'.book side = (c.book side).take
        (min (amount r.waiter.tokens side) (c.limiter.bucket side).capacity) (time side) := by
      show bookOf (c'.limiter.bucket side) c'.count (fun k => (c'.reservation k).charge side) = _
      rw [hbucket, hcount, hreservation, charge_update, hcharge, bookOf_reserve]
      rfl
    rw [hbook, h.capacity, ← weight_eq]
    exact (h.sound side).take (weight_nonneg _ _ side) _
  weight := by
    intro k hk side
    rw [hcount] at hk
    rw [hreservation, hconfig]
    rcases Nat.lt_succ_iff_lt_or_eq.mp hk with hlt | rfl
    · rw [Function.update_of_ne hlt.ne]
      exact h.weight k hlt side
    · rw [Function.update_self, hcharge, weight_eq, ← h.capacity]
      rfl
  due := by
    intro k hk side
    rw [hcount] at hk
    rw [hreservation, hconfig]
    rcases Nat.lt_succ_iff_lt_or_eq.mp hk with hlt | rfl
    · rw [Function.update_of_ne hlt.ne]
      exact h.due k hlt side
    · rw [Function.update_self, hcharge, ← h.rate, dueAt_charged]
      exact hwakes side
  together := by
    intro k hk side
    rw [hcount] at hk
    rw [hreservation]
    rcases Nat.lt_succ_iff_lt_or_eq.mp hk with hlt | rfl
    · rw [Function.update_of_ne hlt.ne]
      exact h.together k hlt side
    · rw [Function.update_self, hcharge]
      exact (congrArg Charge.returned (hcharge .request)).symm
  admitted := by
    intro k hk a ha
    rw [hcount] at hk
    rw [hreservation] at ha ⊢
    rcases Nat.lt_succ_iff_lt_or_eq.mp hk with hlt | rfl
    · rw [Function.update_of_ne hlt.ne] at ha ⊢
      exact h.admitted k hlt a ha
    · rw [Function.update_self] at ha ⊢
      exact ⟨hadmitted a ha, congrArg Charge.returned (hcharge .request)⟩

/-- A reservation that was not let in gives both charges back. -/
theorem back (h : c.Inv) {k : Nat} (hk : k < c.count) (hsleeps : (c.reservation k).asleep = true)
    (hconfig : c'.limiter.config = c.limiter.config)
    (hbucket : ∀ side, c'.limiter.bucket side =
      (c.limiter.bucket side).refund (amount (c.reservation k).waiter.tokens side))
    (hcount : c'.count = c.count)
    (hreservation : c'.reservation =
      Function.update c.reservation k ((c.reservation k).giveBack c.count)) : c'.Inv := by
  obtain ⟨hout, hheld⟩ : (c.reservation k).admitted = none ∧
      (c.reservation k).requestCharge.returned = none := by
    simpa [Reservation.asleep] using hsleeps
  have hcharge : ∀ side, ((c.reservation k).giveBack c.count).charge side =
      { (c.reservation k).charge side with returned := some c.count } := fun side => by
    cases side <;> rfl
  have hsame : ∀ i, i ≠ k → c'.reservation i = c.reservation i := fun i hi => by
    rw [hreservation, Function.update_of_ne hi]
  have hself : c'.reservation k = (c.reservation k).giveBack c.count := by
    rw [hreservation, Function.update_self]
  constructor
  case capacity =>
    intro side
    rw [hbucket, hconfig]
    exact h.capacity side
  case rate =>
    intro side
    rw [hbucket, hconfig]
    exact h.rate side
  case sound =>
    intro side
    have hweight : ((c.reservation k).charge side).weight =
        min (amount (c.reservation k).waiter.tokens side) (c.limiter.bucket side).capacity := by
      rw [h.weight k hk, weight_eq, h.capacity]
    have hbook : c'.book side = (c.book side).giveBack k := by
      show bookOf (c'.limiter.bucket side) c'.count (fun k => (c'.reservation k).charge side) = _
      rw [hbucket, hcount, hreservation, charge_update, hcharge]
      exact bookOf_refund (c.limiter.bucket side) (n := c.count) hweight
    rw [hbook]
    exact (h.sound side).giveBack hk ((h.together k hk side).trans hheld)
  case weight =>
    intro i hi side
    rw [hcount] at hi
    rw [hconfig]
    by_cases hik : i = k
    · subst hik
      rw [hself, hcharge]
      exact h.weight i hi side
    · rw [hsame i hik]
      exact h.weight i hi side
  case due =>
    intro i hi side
    rw [hcount] at hi
    rw [hconfig]
    by_cases hik : i = k
    · subst hik
      rw [hself, hcharge]
      exact h.due i hi side
    · rw [hsame i hik]
      exact h.due i hi side
  case together =>
    intro i hi side
    rw [hcount] at hi
    by_cases hik : i = k
    · subst hik
      rw [hself, hcharge]
      rfl
    · rw [hsame i hik]
      exact h.together i hi side
  case admitted =>
    intro i hi a ha
    rw [hcount] at hi
    by_cases hik : i = k
    · subst hik
      rw [hself] at ha
      exact nomatch hout.symm.trans ha
    · rw [hsame i hik] at ha ⊢
      exact h.admitted i hi a ha

/-- A sleep is over. -/
theorem wake (h : c.Inv) {k : Nat} (hk : k < c.count) (hsleeps : (c.reservation k).asleep = true)
    (hdue : (c.reservation k).wakes ≤ c.now) : (c.wake k).Inv := by
  obtain ⟨-, hheld⟩ : (c.reservation k).admitted = none ∧
      (c.reservation k).requestCharge.returned = none := by
    simpa [Reservation.asleep] using hsleeps
  have hcharge : ∀ i side, ((c.wake k).reservation i).charge side = (c.reservation i).charge side := by
    intro i side
    by_cases hik : i = k
    · subst hik
      simp only [LimiterCalls.wake, Function.update_self]
      cases side <;> rfl
    · simp only [LimiterCalls.wake, Function.update_of_ne hik]
  have hrest : ∀ i, ((c.wake k).reservation i).waiter = (c.reservation i).waiter ∧
      ((c.wake k).reservation i).wakes = (c.reservation i).wakes := by
    intro i
    by_cases hik : i = k
    · subst hik
      simp [LimiterCalls.wake]
    · simp [LimiterCalls.wake, hik]
  constructor
  case capacity => exact h.capacity
  case rate => exact h.rate
  case sound =>
    intro side
    have hbook : (c.wake k).book side = c.book side := by
      unfold book
      simp only [hcharge]
      rfl
    rw [hbook]
    exact h.sound side
  case weight =>
    intro i hi side
    rw [hcharge, (hrest i).1]
    exact h.weight i hi side
  case due =>
    intro i hi side
    rw [hcharge, (hrest i).2]
    exact h.due i hi side
  case together =>
    intro i hi side
    rw [hcharge]
    exact (h.together i hi side).trans (congrArg Charge.returned (hcharge i .request)).symm
  case admitted =>
    intro i hi a ha
    have hreturned := congrArg Charge.returned (hcharge i .request)
    rw [(hrest i).2]
    by_cases hik : i = k
    · subst hik
      have hnow : some c.now = some a := by simpa [LimiterCalls.wake] using ha
      obtain rfl := Option.some.inj hnow
      exact ⟨hdue, hreturned.trans hheld⟩
    · have hold : (c.reservation i).admitted = some a := by simpa [LimiterCalls.wake, hik] using ha
      obtain ⟨hle, hin⟩ := h.admitted i hi a hold
      exact ⟨hle, hreturned.trans hin⟩

/-- The readings of the clock in one piece of `acquire`. -/
def readings (c : LimiterCalls) (d : ℚ) : Side → ℚ
  | .request => c.now
  | .token => c.now + d

theorem reserve (h : c.Inv) (w : Waiter) {d e : ℚ} (hd : 0 ≤ d) (he : 0 ≤ e) :
    (c.reserve w d e).Inv := by
  have hwakes : ∀ side, readings c d side +
      ((c.limiter.bucket side).reserve (amount w.tokens side) (readings c d side)).1 ≤
      c.now + d + e + max (c.limiter.requestBucket.reserve 1 c.now).1
        (c.limiter.tokenBucket.reserve w.tokens (c.now + d)).1 := by
    intro side
    have hleft := le_max_left (c.limiter.requestBucket.reserve 1 c.now).1
      (c.limiter.tokenBucket.reserve w.tokens (c.now + d)).1
    have hright := le_max_right (c.limiter.requestBucket.reserve 1 c.now).1
      (c.limiter.tokenBucket.reserve w.tokens (c.now + d)).1
    cases side with
    | request =>
      show c.now + (c.limiter.requestBucket.reserve 1 c.now).1 ≤ _
      linarith
    | token =>
      show c.now + d + (c.limiter.tokenBucket.reserve w.tokens (c.now + d)).1 ≤ _
      linarith
  unfold LimiterCalls.reserve
  dsimp only
  split_ifs with hrefused hsleeps
  · -- the reservation is made, and given back in the same piece
    have hpushed : Inv
        { c with
          now := c.now + d + e
          count := c.count + 1
          limiter :=
            { c.limiter.takeSlot with
              requestBucket := (c.limiter.requestBucket.reserve 1 c.now).2
              tokenBucket := (c.limiter.tokenBucket.reserve w.tokens (c.now + d)).2 }
          reservation := Function.update c.reservation c.count
            { waiter := w
              requestCharge := charged c.limiter.requestBucket 1 c.now
              tokenCharge := charged c.limiter.tokenBucket w.tokens (c.now + d)
              wakes := c.now + d + e + max (c.limiter.requestBucket.reserve 1 c.now).1
                (c.limiter.tokenBucket.reserve w.tokens (c.now + d)).1
              admitted := none } } :=
      h.push (readings c d) rfl (fun side => by cases side <;> rfl) rfl rfl
        (fun side => by cases side <;> rfl) hwakes nofun
    refine hpushed.back (k := c.count) (Nat.lt_succ_self _) ?_ rfl ?_ rfl ?_
    · simp only [Function.update_self]
      rfl
    · intro side
      simp only [Function.update_self]
      cases side <;> rfl
    · simp only [Function.update_self, Function.update_idem]
      rfl
  · exact h.push (readings c d) rfl (fun side => by cases side <;> rfl) rfl rfl
      (fun side => by cases side <;> rfl) hwakes nofun
  · refine h.push (readings c d) rfl (fun side => by cases side <;> rfl) rfl rfl
      (fun side => by cases side <;> rfl) hwakes fun a ha => ?_
    rw [← Option.some.inj ha]
    exact add_le_of_nonpos_right (not_lt.mp hsleeps)

theorem call (h : c.Inv) (w : Waiter) {d e : ℚ} (hd : 0 ≤ d) (he : 0 ≤ e) : (c.call w d e).Inv := by
  unfold LimiterCalls.call
  split_ifs
  · exact h.congr rfl rfl rfl rfl
  · exact h.reserve w hd he
  · exact h.congr rfl rfl rfl rfl

theorem release (h : c.Inv) : Inv { c with limiter := c.limiter.release } := by
  have hkept : c.limiter.release.config = c.limiter.config ∧
      c.limiter.release.bucket = c.limiter.bucket := by
    unfold ProviderLimiter.release
    split_ifs
    · exact ⟨rfl, rfl⟩
    · exact ⟨rfl, rfl⟩
  exact h.congr hkept.1 hkept.2 rfl rfl

/-- Every event keeps the invariant. -/
theorem step {i : Event} (h : c.Inv) (hstep : c.step i = some c') : c'.Inv := by
  cases i with
  | tick d =>
    obtain ⟨-, hmoved⟩ := Option.ite_none_right_eq_some.mp hstep
    obtain rfl := Option.some.inj hmoved
    exact h.congr rfl rfl rfl rfl
  | call tokens maxWait d e =>
    obtain ⟨⟨hd, he⟩, hcall⟩ := Option.ite_none_right_eq_some.mp hstep
    obtain rfl := Option.some.inj hcall
    have hmoved : Inv { c with now := c.now + d } := h.congr rfl rfl rfl rfl
    exact hmoved.call _ hd he
  | slot i d e =>
    obtain ⟨w, -, hslot⟩ := Option.bind_eq_some_iff.mp hstep
    obtain ⟨⟨-, hd, he⟩, hreserve⟩ := Option.ite_none_right_eq_some.mp hslot
    obtain rfl := Option.some.inj hreserve
    have hleft : Inv { c with queue := c.queue.eraseIdx i } := h.congr rfl rfl rfl rfl
    exact hleft.reserve w hd he
  | leave i =>
    obtain ⟨-, hmoved⟩ := Option.ite_none_right_eq_some.mp hstep
    obtain rfl := Option.some.inj hmoved
    exact h.congr rfl rfl rfl rfl
  | timeout i =>
    obtain ⟨-, hmoved⟩ := Option.ite_none_right_eq_some.mp hstep
    obtain rfl := Option.some.inj hmoved
    exact h.congr rfl rfl rfl rfl
  | wake k =>
    obtain ⟨⟨hk, hsleeps, hdue⟩, hwake⟩ := Option.ite_none_right_eq_some.mp hstep
    obtain rfl := Option.some.inj hwake
    exact h.wake hk hsleeps hdue
  | cancel k =>
    obtain ⟨⟨hk, hsleeps⟩, hcancel⟩ := Option.ite_none_right_eq_some.mp hstep
    obtain rfl := Option.some.inj hcancel
    exact h.back hk hsleeps rfl (fun side => by cases side <;> rfl) rfl rfl
  | release =>
    obtain rfl := Option.some.inj hstep
    exact h.release

end Inv

theorem inv_of_reach {c : LimiterCalls} (h : machine.Reach Machine.free c) : c.Inv := by
  refine h.invariant (fun c hc => ?_) fun c i c' hc hstep _ => hc.step hstep
  obtain ⟨name, config, now, rfl⟩ := hc
  exact Inv.init name config now

/-! ## The rate law -/

/-- **Rate law.** In every run of a limiter, and for each of its buckets, the
weights of the requests let in from `s` to `t` keep to capacity and rate, when
what the oldest of them found still fits the bucket at `s`. -/
theorem rate_law {c : LimiterCalls} (hc : machine.Reach Machine.free c) (side : Side) {s t : ℚ}
    (hst : s ≤ t) (hfits : c.Fits side s t) : c.RateLaw side s t := by
  have hinv := inv_of_reach hc
  have hmem : ∀ k ∈ c.admittedIn s t, k < c.count ∧
      ((c.book side).charge k).returned = none ∧ ((c.book side).charge k).dueAt (c.book side).rate ≤ t := by
    intro k hk
    obtain ⟨hrange, hin⟩ := Finset.mem_filter.mp hk
    have hlt := Finset.mem_range.mp hrange
    obtain ⟨a, ha, hwindow⟩ : ∃ a, (c.reservation k).admitted = some a ∧
        decide (s ≤ a ∧ a ≤ t) = true := by
      simpa [Option.any_eq_true] using hin
    obtain ⟨hwakes, hheld⟩ := hinv.admitted k hlt a ha
    have hdue := hinv.due k hlt side
    rw [← hinv.rate side] at hdue
    exact ⟨hlt, (hinv.together k hlt side).trans hheld,
      hdue.trans (hwakes.trans (of_decide_eq_true hwindow).2)⟩
  have hcapacity : 0 ≤ (c.book side).capacity :=
    (capacity_pos c.limiter.config side).le.trans_eq (hinv.capacity side).symm
  have hlaw := (hinv.sound side).admitted_le hcapacity hst hmem ?_
  · have hweights : ∑ k ∈ c.admittedIn s t, side.weight c.limiter.config (c.reservation k).waiter.tokens =
        ∑ k ∈ c.admittedIn s t, ((c.book side).charge k).weight :=
      Finset.sum_congr rfl fun k hk => (hinv.weight k (hmem k hk).1 side).symm
    unfold RateLaw
    rw [hweights, ← hinv.capacity, ← hinv.rate]
    exact hlaw
  · intro j hj k hk hbounds
    exact (hfits j hj k hk hbounds).trans_eq (hinv.capacity side).symm

/-! ## Runs -/

def sixtyAMinute : RateLimitConfig := { tokensPerMinute := 60 }

/-- What a limiter of `sixtyAMinute` has seen after the events. -/
def after (events : List Event) : Option LimiterCalls :=
  Machine.exec step (init "p" sixtyAMinute 0) events

theorem reach_of_after {events : List Event} {c : LimiterCalls} (h : after events = some c) :
    machine.Reach Machine.free c :=
  Machine.exec_reach (.start ⟨_, _, _, rfl⟩) h

/-- The first call drains the bucket; the second sleeps for a minute and the
third for two; the second is cancelled, and what it gives back covers a fourth
call after two minutes as well. -/
def refunded : List Event :=
  [.call 60 none 0 0, .slot 0 0 0, .call 60 none 0 0, .slot 0 0 0, .call 60 none 0 0, .slot 0 0 0,
    .cancel 1, .call 60 none 0 0, .slot 0 0 0, .tick 120, .wake 2, .wake 3]

/-- The rate law fails: 120 tokens are let in at one moment. -/
theorem burst : ∃ c, machine.Reach Machine.free c ∧ ¬c.RateLaw .token 120 120 := by
  have hrun : (after refunded).any (fun c => !decide (c.RateLaw .token 120 120)) = true := by
    decide +kernel
  obtain ⟨c, hc, hbroken⟩ := Machine.exists_of_any hrun
  exact ⟨c, reach_of_after hc, by simpa using hbroken⟩

/-- The law at work on two calls that wait for each other. -/
theorem rate_law_two : ∃ c : LimiterCalls, machine.Reach Machine.free c ∧
    c.admittedIn 60 120 = {1, 2} ∧ c.RateLaw .token 60 120 := by
  have hrun : (after [.call 60 none 0 0, .slot 0 0 0, .call 60 none 0 0, .slot 0 0 0,
      .call 60 none 0 0, .slot 0 0 0, .tick 60, .wake 1, .tick 60, .wake 2]).any
      (fun c => decide (c.admittedIn 60 120 = {1, 2} ∧ c.Fits .token 60 120)) = true := by
    decide +kernel
  obtain ⟨c, hc, htest⟩ := Machine.exists_of_any hrun
  obtain ⟨hmem, hfits⟩ := of_decide_eq_true htest
  exact ⟨c, reach_of_after hc, hmem, rate_law (reach_of_after hc) .token (by norm_num) hfits⟩

end LimiterCalls

end Caips.Coreai
