/-
Caips.Coreai.Router — the calls of a `Router`: `route`, `stream`, `embed` and
what they are made of, after `coreai/router.py`, with `acquire` of
`coreai/limiter.py` and the retry loop of `coreai/retry.py`.

Every `await` of the source that can suspend is a query of the event loop
(`Query`), so a reply or an exception of any kind can come back there and any
other task, any provider change and the clock can come in between. Points of
the translation:

* `try`/`except`/`else`/`finally` are `Coro.handle` and `Coro.tryFinally`.
  `except Exception` tests `isException`; a cancelled task and a closed
  generator pass it by.
* The `while True` of a stream takes the number of chunks the provider sends
  at most as an argument; every run has some such number.
* The outcome of a streamed delivery is first a value, because `finally`
  reads the locals the delivery left.
* `HedgeFailure` is raised and caught at one place each, so it is a result.
* The tickets of `allow` and `acquire` are handed to whoever settles them.

Log lines, spans and counters nothing reads are left out.
-/
import Caips.Logic.Coro
import Caips.Coreai.Planner

namespace Caips.Coreai

open Caips.Logic Caips.Providers

namespace Router

open RouterState

/-! ## The event loop's side -/

/-- What the router awaits. `firstChunk` opens the provider's generator and
asks it once; `yieldChunk` is a `yield` of the router's own generator. -/
inductive Query where
  | slotLocked (l : Nat)
  | slot (l : Nat) (timeout : Option ℚ)
  | sleep (seconds : ℚ)
  | complete (name : String) (p : Provider) (r : CompletionRequest) (timeout : Option ℚ)
  | firstChunk (name : String) (p : Provider) (r : CompletionRequest) (timeout : Option ℚ)
  | nextChunk (timeout : ℚ)
  | closeStream
  | yieldChunk (chunk : String)
  | embed (name : String) (p : Provider) (texts : List String) (model : Option String) (timeout : ℚ)

/-- What a provider's `embed` returns. -/
structure Embedding where
  vectors : List (List ℚ)
  inputTokens : Nat
  model : String

def Query.Reply : Query → Type
  | .slotLocked _ => Bool
  | .slot _ _ => Unit
  | .sleep _ => Unit
  | .complete _ _ _ _ => CompletionResponse
  | .firstChunk _ _ _ _ => String
  | .nextChunk _ => String
  | .closeStream => Unit
  | .yieldChunk _ => Unit
  | .embed _ _ _ _ _ => Embedding

/-- The tasks: the three public calls, and one leg of a hedged call. -/
inductive Call where
  | route (r : CompletionRequest) (preferred : Option String) (deadlineSeconds : Option ℚ)
  | stream (r : CompletionRequest) (preferred : Option String) (deadlineSeconds : Option ℚ)
      (chunks : Nat)
  | embed (texts : List String) (model : Option String) (preferred : Option String)
  | leg (name : String) (r : CompletionRequest) (deadline : Deadline) (attempts : Nat) (probe : Nat)

def Call.Out : Call → Type
  | .route _ _ _ => CompletionResponse
  | .stream _ _ _ _ => Unit
  | .embed _ _ _ => Embedding × String
  | .leg _ _ _ _ _ => CompletionResponse

/-- The signature of the router's coroutines. -/
abbrev Γ : Sig where
  State := RouterState
  Exc := Exc
  interrupt := .cancelled
  Query := Query
  Reply := Query.Reply
  Child := Call
  Out := Call.Out

/-- A coroutine of the router. -/
abbrev Async (α : Type) : Type := Coro Γ α

variable (S : Setup)

/-- Await a query. -/
def query (q : Query) : Async q.Reply := Coro.ask (.call q : Ask Γ)

/-- Read the router; an exception is raised. -/
def reads {α : Type} (f : RouterState → Except Exc α) : Async α := Coro.sync (Sync.reads f)

/-- Change the router. -/
def update (f : RouterState → RouterState) : Async Unit := Coro.sync (Sync.update f)

/-- Change the router and return what the change yields. -/
def yields {α : Type} (f : RouterState → α × RouterState) : Async α := Coro.sync (Sync.yields f)

def clock : Async ℚ := reads fun s => .ok s.now

/-- `isinstance(exc, TimeoutError)`. -/
def isTimeoutError (e : Exc) : Bool := e.facts.isTimeout

/-! ## Admission by the rate limiter -/

/-- `left()` of `acquire`. -/
def left (maxWait : Option ℚ) (started now : ℚ) : Option ℚ :=
  maxWait.map fun w => max 0 (w - (now - started))

/-- `self.total_rejected += 1; raise RateLimited(self.name, retry_after)`. -/
def reject {α : Type} (l : Nat) (retryAfter : Option ℚ) : Async α := do
  let name ← yields fun s => ((s.limiterAt l).name, s.onLimiter l .reject)
  Coro.fail (.rateLimited name retryAfter)

/-- The first part of `acquire`: wait for a concurrency slot. -/
def takeSlot (l : Nat) (budget : Option ℚ) : Async Unit := do
  if budget.any (· ≤ 0) then
    let locked : Bool ← query (.slotLocked l)
    Coro.when locked (reject l none)
    update fun s => s.onLimiter l .takeSlot
  else
    Coro.handle (query (.slot l budget)) (fun _ => update fun s => s.onLimiter l .takeSlot)
      fun e => if isTimeoutError e then reject l none else Coro.fail e

/-- The second part of `acquire`, which holds a slot: reserve the request and
its tokens and wait until they are covered. -/
def awaitRates (l : Nat) (tokens : ℚ) (maxWait : Option ℚ) (started : ℚ) : Async Unit := do
  let wait ← yields fun s =>
    let r := (s.limiterAt l).reserve tokens s.now
    (r.1, s.onLimiter l fun _ => r.2)
  let now ← clock
  Coro.when ((left maxWait started now).any (· < wait)) (reject l (some wait))
  Coro.when (0 < wait) (query (.sleep wait))

/-- `ProviderLimiter.acquire`: the ticket of the admission. -/
def acquire (l : Nat) (tokens : ℚ) (maxWait : Option ℚ) : Async Nat := do
  let started ← clock
  takeSlot l (left maxWait started started)
  Coro.tryCatch (awaitRates l tokens maxWait started) fun e => do
    update fun s => s.onLimiter l (·.abandon tokens)
    Coro.fail e
  yields fun s => s.letIn l (s.now - started)

/-- `GlobalRateLimiter.acquire`: a name without a limiter is admitted. -/
def limiterAcquire (name : String) (tokens : ℚ) (maxWait : Option ℚ) : Async (Option Nat) := do
  match ← reads fun s => .ok (s.limiters.get? name) with
  | none => return none
  | some l => return some (← acquire l tokens maxWait)

/-- `_admit`: on failure the breaker probe taken by `allow` is given back. -/
def admitCall (name : String) (r : CompletionRequest) (deadline : Deadline) (probe : Nat) :
    Async (Option Nat) := do
  let now ← clock
  Coro.tryCatch (limiterAcquire name (estimateTokens r) (deadline.remaining now)) fun e => do
    Coro.when e.isRateLimited (Coro.sync (countLocalRateLimit name))
    let b ← reads fun s => lookup s.breakers name
    update fun s => s.breakerRelease b probe
    Coro.fail e

/-! ## Retries -/

/-- `compute_wait`, drawing from the random generator when it needs to. -/
def drawWait (attempt : Nat) (info : ErrorInfo) : Async (Option ℚ) :=
  if info.retryAfter.isSome then pure (computeWait attempt info S.config.retry 0)
  else do
    let rng ← yields fun s => (s.random.headD 0, { s with random := s.random.tail })
    return computeWait attempt info S.config.retry rng

/-- `run_with_retry`, with `more` attempts allowed after attempt number
`attempt`. -/
def runWithRetry {α : Type} (func : Async α) (deadline : Deadline) :
    (more : Nat) → (attempt : Nat) → Async α
  | 0, _ => func
  | more + 1, attempt =>
    Coro.tryCatch func fun e =>
      if !e.isException || !(classify e).retryable then Coro.fail e
      else do
        match ← drawWait S attempt (classify e) with
        | none => Coro.fail e
        | some wait =>
          let now ← clock
          Coro.when ((deadline.remaining now).any (· ≤ wait)) (Coro.fail e)
          update fun s => { s with totalRetries := s.totalRetries + 1 }
          query (.sleep wait)
          runWithRetry func deadline more (attempt + 1)

/-- `RetryManager.execute`, or one plain call where retries are off. -/
def execute {α : Type} (func : Async α) (deadline : Deadline) (maxAttempts : Nat) : Async α :=
  if S.config.enableRetry then
    let attempts := if maxAttempts = 0 then S.config.retry.maxAttempts else maxAttempts
    Coro.tryCatch (runWithRetry S func deadline (attempts - 1) 1) fun e => do
      Coro.when e.isException (update fun s => { s with totalFailures := s.totalFailures + 1 })
      Coro.fail e
  else func

/-! ## Calling a provider -/

/-- `deadline.check()` at the start of a call, which gives the probe back. -/
def checkDeadline (deadline : Deadline) (b probe : Nat) : Async Unit := do
  let now ← clock
  Coro.when (deadline.expired now) do
    update fun s => s.breakerRelease b probe
    Coro.fail (.deadlineExceeded "request deadline exceeded")

/-- The seconds one attempt may take. -/
def attemptSeconds (name : String) (deadline : Deadline) : Async (Option ℚ) := do
  let now ← clock
  let seconds := deadline.clamp (some (S.config.timeoutFor name)) now
  Coro.when (seconds.any (· ≤ 0)) (Coro.fail (.deadlineExceeded "request deadline exceeded"))
  return seconds

/-- What an attempt that ran into its timeout raises. -/
def timedOut {α : Type} (name : String) (deadline : Deadline) (seconds : Option ℚ) : Async α := do
  let now ← clock
  Coro.when (deadline.expired now)
    (Coro.fail (.deadlineExceeded ("deadline exceeded waiting on " ++ name)))
  Coro.fail (.providerTimeout name (seconds.getD (S.config.timeoutFor name)))

/-- `one_call`. -/
def oneCall (name : String) (p : Provider) (r : CompletionRequest) (deadline : Deadline) :
    Async CompletionResponse := do
  let seconds ← attemptSeconds S name deadline
  Coro.tryCatch (query (.complete name p r seconds)) fun e =>
    if isTimeoutError e then timedOut S name deadline seconds else Coro.fail e

/-- Settle a breaker after an exception: `except Exception` records the error
and counts it or not; for everything else the probe is given back. -/
def settleFailure (name : String) (b probe : Nat) (e : Exc) : Async Unit :=
  if e.isException then do
    let info := classify e
    Coro.sync (recordError name info.kind (statusOf e))
    update fun s =>
      if info.countsAgainstBreaker then s.recordProbeFailure b probe
      else s.breakerRelease b probe
  else update fun s => s.breakerRelease b probe

/-- `_call_provider`. The caller must have been admitted by the breaker. -/
def callProvider (name : String) (r : CompletionRequest) (deadline : Deadline) (attempts : Nat)
    (probe : Nat) : Async CompletionResponse := do
  let p ← reads fun s => lookup s.providers name
  let b ← reads fun s => lookup s.breakers name
  checkDeadline deadline b probe
  let ticket ← admitCall name r deadline probe
  Coro.tryFinally
    (Coro.handle (execute S (oneCall S name p r deadline) deadline attempts)
      (fun response => do
        update fun s => s.recordProbeSuccess b probe
        return response)
      fun e => do
        settleFailure name b probe e
        Coro.fail e)
    (update fun s => s.limiterRelease name ticket)

/-! ## Opening a stream -/

/-- `_close_stream`: closing is best effort. -/
def closeStream : Async Unit :=
  Coro.tryCatch (query .closeStream) fun e =>
    if e.isException then pure () else Coro.fail e

/-- `attempt` of `_open_stream`: the first chunk, none at the end of the
stream. -/
def openOnce (name : String) (p : Provider) (r : CompletionRequest) (deadline : Deadline) :
    Async (Option String) := do
  let seconds ← attemptSeconds S name deadline
  Coro.handle (query (.firstChunk name p r seconds)) (fun chunk => pure (some chunk)) fun e =>
    if e = .stopAsyncIteration then pure none
    else if isTimeoutError e then do
      closeStream
      timedOut S name deadline seconds
    else do
      closeStream
      Coro.fail e

/-- `_open_stream`: the first chunk and the ticket of the limiter. On failure
breaker and limiter are settled here. -/
def openStream (name : String) (r : CompletionRequest) (deadline : Deadline) (attempts : Nat)
    (b probe : Nat) : Async (Option String × Option Nat) := do
  let p ← reads fun s => lookup s.providers name
  checkDeadline deadline b probe
  let ticket ← admitCall name r deadline probe
  Coro.handle (execute S (openOnce S name p r deadline) deadline attempts)
    (fun first => pure (first, ticket))
    fun e => do
      settleFailure name b probe e
      update fun s => s.limiterRelease name ticket
      Coro.fail e

/-! ## Planning a request -/

/-- The check of an explicit provider choice. -/
def checkPreferred (preferred : Option String) (s : RouterState) : Except Exc Unit :=
  match preferred with
  | some name =>
    if s.providers.contains name then .ok ()
    else
      let available := namesText (s.providers.keys.mergeSort (· ≤ ·))
      .error (.valueError s!"Provider '{name}' not available. Available: {available}")
  | none => .ok ()

/-- `validate_conversation(request.messages)`. -/
def checkConversation (r : CompletionRequest) : Except Exc Unit :=
  match validateConversation r.messages with
  | .error message => .error (.valueError message)
  | .ok () => .ok ()

/-- What `_route` and `_stream` do before they call a provider: the request
after alias resolution, its deadline and its candidates. -/
def prepare (r : CompletionRequest) (preferred : Option String) (deadlineSeconds : Option ℚ) :
    Routing (CompletionRequest × Deadline × List (String × CompletionRequest)) := do
  Sync.update fun s => { s with requestCount := s.requestCount + 1 }
  let r ← Sync.reads fun s => .ok (s.resolveAlias S r)
  Sync.reads (checkPreferred preferred)
  Sync.reads fun _ => checkConversation r
  let deadline ← Sync.reads fun s =>
    .ok (Deadline.init (deadlineSeconds <|> S.config.deadlineSeconds) s.now)
  let screened ← screen S r preferred
  return (r, deadline, screened)

/-- Attempts on one candidate: fewer while others remain. -/
def attemptsFor (isLast : Bool) : Nat :=
  if isLast then S.config.maxRetryAttempts
  else min S.config.maxRetryAttempts S.config.maxAttemptsBeforeFailover

/-- What is known when a candidate is turned to: the failures so far, the last
exception, the providers already tried as a hedge. -/
structure Progress where
  failures : List (String × ErrorKind) := []
  lastExc : Option Exc := none
  skip : List String := []

/-- A failure of `name`. -/
def Progress.add (g : Progress) (name : String) (e : Exc) : Progress :=
  { g with failures := g.failures ++ [(name, (classify e).kind)], lastExc := some e }

/-- The end of both candidate loops, in task `i`. -/
def exhausted {α : Type} (i : Nat) (single : Bool) (g : Progress) : Async α := do
  update fun s => s.turnTo i []
  match single, g.lastExc with
  | true, some e => Coro.fail e
  | _, _ => do
      let wait ← reads fun s => .ok s.soonestRetryAfter
      Coro.fail (.allProvidersUnavailable g.failures wait)

/-- Whether a failed candidate ends the request: the deadline ran out, or the
failure is no reason to try another provider. -/
def givesUp (e : Exc) : Bool :=
  (classify e).kind = .deadline || !(S.config.enableFailover && (classify e).failover)

/-- `self.failover_count += 1`, if another candidate follows. -/
def countFailover (isLast : Bool) : Async Unit :=
  if isLast then pure () else update fun s => { s with failoverCount := s.failoverCount + 1 }

/-- `breaker.allow()` of a candidate: the breaker, and the ticket of an
admission or the exception that stands for a refusal. -/
def allowCandidate (name : String) : Async (Nat × Except Exc Nat) := do
  let b ← reads fun s => lookup s.breakers name
  match ← yields fun s => s.allow b with
  | some probe => return (b, .ok probe)
  | none =>
    let wait ← reads fun s => .ok ((s.breakerAt b).retryAfter s.now)
    return (b, .error (.circuitOpen name wait))

/-! ## Hedging -/

/-- How a hedged call ends: with the first response and whether the partner
was called at all, or with the exceptions of both legs. -/
inductive Hedged where
  | won (name : String) (response : CompletionResponse) (launched : Bool)
  | failed (errors : List (String × Exc))

/-- The hedged call was won by the provider `name`. -/
def Hedged.wonBy : Hedged → String → Bool
  | .won winner _ _, name => winner = name
  | .failed _, _ => false

def legResponse : (c : Call) → c.Out → CompletionResponse
  | .leg _ _ _ _ _, r => r
  | _, _ => default

/-- `t.result()`. -/
def result : Γ.Ending → Except Exc CompletionResponse
  | ⟨h, .ok a⟩ => .ok (legResponse h.2 a)
  | ⟨_, .error e⟩ => .error e

/-- `for t in done`: the first leg that succeeded, or the exceptions of these
legs. An interrupted leg interrupts the caller. -/
def firstSuccess :
    List Γ.Ending → Except Exc ((Γ.Handle × CompletionResponse) ⊕ List (Γ.Handle × Exc))
  | [] => .ok (.inr [])
  | x :: rest =>
    match result x with
    | .ok response => .ok (.inl (x.1, response))
    | .error e =>
      if e = .cancelled then .error e
      else do
        match ← firstSuccess rest with
        | .inl winner => return .inl winner
        | .inr errors => return .inr ((x.1, e) :: errors)

/-- `await asyncio.gather(*legs, return_exceptions=True)`. -/
def awaitAll (legs : List Γ.Handle) : Async Unit := do
  let _ ← Coro.wait .all legs

/-- The `while pending` loop of `_call_hedged`; each round ends a leg. -/
def hedgeLoop (nameOf : Γ.Handle → String) : Nat → List Γ.Handle → List (String × Exc) → Async Hedged
  | 0, _, errors => pure (.failed errors)
  | rounds + 1, pending, errors =>
    if pending.isEmpty then pure (.failed errors)
    else do
      let done ← Coro.wait .first pending
      let pending := pending.filter fun h => !(done.any fun x => x.1.1 = h.1)
      match firstSuccess done with
      | .error e => Coro.fail e
      | .ok (.inl (winner, response)) => do
          -- `other.cancel()`: interrupts may reach the other leg at any await
          Coro.when (!pending.isEmpty) (awaitAll pending)
          return .won (nameOf winner) response true
      | .ok (.inr failed) =>
        hedgeLoop nameOf rounds pending (errors ++ failed.map fun x => (nameOf x.1, x.2))

/-- `_call_hedged`. -/
def callHedged (primary partner : String) (r partnerReq : CompletionRequest) (deadline : Deadline)
    (attempts partnerAttempts : Nat) (probe : Nat) : Async Hedged := do
  let t1 ← Coro.start (.leg primary r deadline attempts probe)
  -- `asyncio.wait({t1}, timeout=delay)`: done or not, whatever the delay
  match ← Coro.wait .upTo [t1] with
  | x :: _ => return .won primary (← Coro.ofExcept (result x)) false
  | [] =>
  let b ← reads fun s => lookup s.breakers partner
  match ← yields fun s => s.allow b with
  | none => return .won primary (legResponse t1.2 (← Coro.join t1)) false
  | some partnerProbe =>
    let t2 ← Coro.start (.leg partner partnerReq deadline partnerAttempts partnerProbe)
    update fun s => { s with hedgeCount := s.hedgeCount + 1 }
    let nameOf := fun h : Γ.Handle => if h.1 = t1.1 then primary else partner
    let hedged ← Coro.tryCatch (hedgeLoop nameOf 2 [t1, t2] []) fun e => do
      Coro.when (e = .cancelled) (awaitAll [t1, t2])
      Coro.fail e
    Coro.when (hedged.wonBy partner) (update fun s => { s with hedgeWins := s.hedgeWins + 1 })
    return hedged

/-! ## `route` -/

/-- The key a response to `r` from `name` is cached under. -/
def cacheKey (name : String) (model : Option String) (r : CompletionRequest) : CacheKey where
  provider := name
  model := orElse model "*"
  messages := r.messages.map fun m => (m.role, m.content)
  systemPrompt := r.systemPrompt
  temperature := r.temperature
  maxTokens := r.maxTokens
  responseFormat := r.responseFormat

/-- The cache lookup of `_route`, for the first candidate. -/
def cacheLookup (s : RouterState) (name : String) (model : Option String) (r : CompletionRequest) :
    Option CompletionResponse × RouterState :=
  match s.cache with
  | some c =>
    if !r.stream && r.cacheable then
      let hit := c.get (cacheKey name model r) s.now
      (hit.1, { s with cache := some hit.2 })
    else (none, s)
  | none => (none, s)

/-- A cache hit: no upstream call was made, so it costs nothing. -/
def cacheHit (hit : CompletionResponse) : CompletionResponse :=
  { hit with
    cached := true
    costUsd := 0
    latencyMs := 0
    metadata := (hit.metadata.set "original_cost_usd" (.num hit.costUsd)).set "original_latency_ms"
      (.num hit.latencyMs) }

/-- `_cache_response`. -/
def cacheResponse (name : String) (r : CompletionRequest) (response : CompletionResponse)
    (s : RouterState) : RouterState :=
  match s.cache with
  | some c =>
    if !r.stream && r.cacheable then
      { s with cache := some (c.set (cacheKey name r.model r) response S.config.cacheTtlSeconds s.now) }
    else s
  | none => s

/-- What `_route` writes into the metadata of a response. -/
def annotate (g : Progress) (response : CompletionResponse) : CompletionResponse :=
  let response :=
    if g.failures.isEmpty then response
    else { response with
      metadata := response.metadata.set "failed_over_from" (.names (g.failures.map Prod.fst)) }
  if g.skip.isEmpty then response
  else { response with metadata := response.metadata.set "hedged" (.bool true) }

/-- The end of a successful request. -/
def succeed (name : String) (r : CompletionRequest) (response : CompletionResponse) (g : Progress) :
    Async CompletionResponse := do
  update (cacheResponse S name r response)
  let response := annotate g response
  Coro.sync (recordSuccess name response.costUsd response.latencyMs)
  update fun s =>
    s.recordUsage name response.model (some response.latencyMs) response.inputTokens
      response.outputTokens
  return response

/-- The partner of a hedged call: the next candidate, unless the request is
not hedged, the candidate is the last, or the next was tried or is the same. -/
def partnerOf (hedging : Bool) (r : CompletionRequest) (name : String) (g : Progress) :
    List (String × CompletionRequest) → Option (String × CompletionRequest)
  | [] => none
  | next :: _ =>
    if hedging && !r.stream && !g.skip.contains next.1 && next.1 ≠ name then some next else none

/-- The candidate loop of `_route`, in task `i`. -/
def routeLoop (i : Nat) (r : CompletionRequest) (deadline : Deadline) (hedging single : Bool) :
    List (String × CompletionRequest) → Progress → Async CompletionResponse
  | [], g => exhausted i single g
  | (name, req) :: rest, g =>
    if g.skip.contains name then routeLoop i r deadline hedging single rest g
    else do
      update fun s => s.turnTo i (name :: (rest.map Prod.fst).filter fun n => !g.skip.contains n)
      match ← allowCandidate name with
      | (_, .error e) => routeLoop i r deadline hedging single rest (g.add name e)
      | (_, .ok probe) =>
        match partnerOf hedging r name g rest with
        | none =>
          Coro.handle (callProvider S name req deadline (attemptsFor S rest.isEmpty) probe)
            (fun response => succeed S name req response g)
            fun e => do
              Coro.when (!e.isException || givesUp S e) (Coro.fail e)
              countFailover rest.isEmpty
              routeLoop i r deadline hedging single rest (g.add name e)
        | some (partner, partnerReq) =>
          Coro.handle
            (callHedged name partner req partnerReq deadline (attemptsFor S rest.isEmpty)
              (attemptsFor S rest.tail.isEmpty) probe)
            (fun
              | .won winner response launched =>
                succeed S winner (if winner = partner then partnerReq else req) response
                  (if launched then { g with skip := partner :: g.skip } else g)
              | .failed errors => do
                  let last ← Coro.ofExcept (lookup (Dict.ofList errors) name)
                  let g : Progress :=
                    { failures := g.failures ++ errors.map fun x => (x.1, (classify x.2).kind)
                      lastExc := some last
                      skip := partner :: g.skip }
                  Coro.when (errors.any (fun x => (classify x.2).kind = .deadline) || givesUp S last)
                    (Coro.fail last)
                  countFailover rest.isEmpty
                  routeLoop i r deadline hedging single rest g)
            fun e => do
              Coro.when (!e.isException || givesUp S e) (Coro.fail e)
              countFailover rest.isEmpty
              routeLoop i r deadline hedging single rest (g.add name e)

/-- `route`, as task `i`. -/
def route (i : Nat) (r : CompletionRequest) (preferred : Option String)
    (deadlineSeconds : Option ℚ) : Async CompletionResponse := do
  let (r, deadline, screened) ← Coro.sync (prepare S r preferred deadlineSeconds)
  let (name, req) := screened.headD ("", r)
  match ← yields fun s => cacheLookup s name req.model r with
  | some hit => return cacheHit hit
  | none =>
    let delay ← reads fun s => s.hedgeDelay S r preferred
    routeLoop S i r deadline delay.isSome (screened.length == 1) screened {}

/-! ## `stream` -/

/-- The delivery of a stream's chunks after the first, at most `chunks` of
them: the characters delivered, and how the delivery ended. -/
def deliverRest (name : String) : (chunks : Nat) → (chars : Nat) → Async (Nat × Except Exc Unit)
  | 0, chars => pure (chars, .ok ())
  | chunks + 1, chars =>
    Coro.handle (query (.nextChunk (S.config.timeoutFor name)))
      (fun (chunk : String) =>
        Coro.handle (query (.yieldChunk chunk))
          (fun _ => deliverRest name chunks (chars + chunk.length))
          fun e => pure (chars + chunk.length, .error e))
      fun e =>
        if e = .stopAsyncIteration then pure (chars, .ok ())
        else if isTimeoutError e then
          pure (chars, .error (.providerTimeout name (S.config.timeoutFor name)))
        else pure (chars, .error e)

/-- The delivery of an open stream, whose first chunk is in hand. -/
def deliver (name : String) (first : Option String) (chunks : Nat) :
    Async (Nat × Except Exc Unit) :=
  match first with
  | none => pure (0, .ok ())
  | some chunk =>
    Coro.handle (query (.yieldChunk chunk)) (fun _ => deliverRest S name chunks chunk.length)
      fun e => pure (chunk.length, .error e)

/-- `_settle_stream`, up to the exceptions it swallows. -/
def settleStreamRaw (name : String) (r : CompletionRequest) (u : Nat) (chars : Nat)
    (completed : Bool) : Routing Unit := do
  let p ← Sync.reads fun s => lookup s.providers name
  let usage ← Sync.reads fun s => .ok (s.usageAt u)
  let usage := { usage with
    provider := name
    completed := completed
    model := if usage.model = "" then orElse r.model p.defaultModel else usage.model }
  let prompt := (r.messages.map fun m => m.content.length).sum + (r.systemPrompt.getD "").length
  let estimated := { usage with
    inputTokens := max 1 (prompt / 4)
    outputTokens := max 1 (chars / 4)
    estimated := true }
  let final := if usage.reported then usage else estimated
  let final := { final with costUsd := p.bill final.inputTokens final.outputTokens final.model }
  Sync.update fun s =>
    { s.onUsage u fun _ => final with
      streamsEstimated :=
        if usage.reported then s.streamsEstimated else bump s.streamsEstimated name }
  onStats name fun st => { st with totalCost := st.totalCost + final.costUsd }
  Sync.update fun s => s.recordUsage name final.model none final.inputTokens final.outputTokens

/-- `_settle_stream`. Never raises. -/
def settleStream (name : String) (r : CompletionRequest) (u : Nat) (chars : Nat)
    (delivered completed : Bool) : Async Unit :=
  if delivered then update fun s => (settleStreamRaw name r u chars completed s).2 else pure ()

/-- What follows the delivery of an open stream: breaker, statistics, and the
exception the delivery ended with. -/
def concludeStream (name : String) (b probe : Nat) (outcome : Except Exc Unit) : Async Unit :=
  match outcome with
  | .ok () => do
      update fun s => s.recordProbeSuccess b probe
      Coro.sync (onStats name fun st => { st with requests := st.requests + 1 })
  | .error e => do
      settleFailure name b probe e
      Coro.fail e

/-- An open stream, from its first chunk to its end. -/
def runStream (i : Nat) (name : String) (r : CompletionRequest) (u : Nat) (b probe : Nat)
    (ticket : Option Nat) (first : Option String) (chunks : Nat) : Async Unit := do
  let model ← reads fun s =>
    if orElse r.model "" = "" then (lookup s.providers name).map Provider.defaultModel
    else .ok (orElse r.model "")
  update fun s => s.onUsage u fun usage => { usage with openedModel := model }
  let (chars, outcome) ← deliver S name first chunks
  Coro.tryFinally (concludeStream name b probe outcome) do
    settleStream name r u chars first.isSome outcome.isOk
    update fun s => s.limiterRelease name ticket
    update fun s => s.turnTo i []
    closeStream

/-- A new usage object: `usage = StreamUsage()`. -/
def newUsage : Async Nat :=
  yields fun s =>
    (s.usagesMade, { s.onUsage s.usagesMade fun _ => {} with usagesMade := s.usagesMade + 1 })

/-- The candidate loop of `_stream`, in task `i`. -/
def streamLoop (i : Nat) (deadline : Deadline) (single : Bool) (chunks : Nat) :
    List (String × CompletionRequest) → Progress → Async Unit
  | [], g => exhausted i single g
  | (name, req) :: rest, g => do
      update fun s => s.turnTo i (name :: rest.map Prod.fst)
      match ← allowCandidate name with
      | (_, .error e) => streamLoop i deadline single chunks rest (g.add name e)
      | (b, .ok probe) =>
        let u ← newUsage
        let req := { req with streamUsage := some u }
        Coro.handle (openStream S name req deadline (attemptsFor S rest.isEmpty) b probe)
          (fun x => runStream S i name req u b probe x.2 x.1 chunks)
          fun e => do
            Coro.when (!e.isException || givesUp S e) (Coro.fail e)
            countFailover rest.isEmpty
            streamLoop i deadline single chunks rest (g.add name e)

/-- `stream`, as task `i`: the generator from its first `__anext__` to its
end. The wrapper around `_stream` only adds the span. -/
def stream (i : Nat) (r : CompletionRequest) (preferred : Option String)
    (deadlineSeconds : Option ℚ) (chunks : Nat) : Async Unit := do
  let (_, deadline, screened) ← Coro.sync (prepare S r preferred deadlineSeconds)
  streamLoop S i deadline (screened.length == 1) chunks screened {}

/-! ## `embed` -/

/-- The loop of `embed` over the provider names. -/
def embedLoop (texts : List String) (model : Option String) :
    List String → List (String × ErrorKind) → Option Exc → Async (Embedding × String)
  | [], errors, last =>
    match last, errors with
    | some e, [_] => Coro.fail e
    | _, [] => Coro.fail (.valueError "No configured provider supports embeddings")
    | _, _ => do
        let wait ← reads fun s => .ok s.soonestRetryAfter
        Coro.fail (.allProvidersUnavailable errors wait)
  | name :: rest, errors, last => do
      match ← reads fun s => .ok (s.providers.get? name) with
      | none => Coro.fail (.valueError ("Provider '" ++ name ++ "' not available"))
      | some p =>
        if p.supportsEmbeddings = false then embedLoop texts model rest errors last
        else
          let b ← reads fun s => lookup s.breakers name
          match ← yields fun s => s.allow b with
          | none => embedLoop texts model rest (errors ++ [(name, .circuitOpen)]) last
          | some probe =>
            Coro.handle (query (.embed name p texts model (S.config.timeoutFor name)))
              (fun (v : Embedding) => do
                let b ← reads fun s => lookup s.breakers name
                update fun s => s.recordProbeSuccess b probe
                update fun s => s.recordUsage name v.model none v.inputTokens 0
                return (v, name))
              fun e => do
                -- `except Exception`: an interrupt passes, and the probe stays out
                Coro.when (!e.isException) (Coro.fail e)
                let info := classify e
                Coro.sync (recordError name info.kind (statusOf e))
                let b ← reads fun s => lookup s.breakers name
                update fun s =>
                  if info.countsAgainstBreaker then s.recordProbeFailure b probe
                  else s.breakerRelease b probe
                Coro.when (!(S.config.enableFailover && info.failover)) (Coro.fail e)
                embedLoop texts model rest (errors ++ [(name, info.kind)]) (some e)

/-- `embed`. -/
def embed (texts : List String) (model preferred : Option String) : Async (Embedding × String) := do
  let names ← reads fun s =>
    .ok (if orElse preferred "" = "" then s.providers.keys else [orElse preferred ""])
  embedLoop S texts model names [] none

/-! ## The system -/

/-- What happens to a router besides its calls: time passes, a provider object
changes its attributes or a stream reports its usage, the policy file or the
budgets change, and providers are added, replaced and dropped. -/
inductive Op where
  | tick (seconds : ℚ)
  | provider (name : String) (p : Provider)
  | report (u : Nat) (input output : Option Nat) (model : Option String)
  | policies (p : Option PolicySet)
  | modelGate (gate : String → Option (String × ℚ))
  | setProvider (name : String) (p : Provider)
  | dropProvider (name : String)

/-- The effect of an operation. Time does not go back, and an object does not
change whether it is a local server. -/
def applyOp : Op → RouterState → Option RouterState
  | .tick d, s => if 0 ≤ d then some { s with now := s.now + d } else none
  | .provider name p, s =>
    match s.providers.get? name with
    | some old =>
      if p.isLocal = old.isLocal then some { s with providers := s.providers.set name p }
      else none
    | none => none
  | .report u i o m, s =>
    some (s.onUsage u fun usage => usage.report i o m)
  | .policies p, s => some { s with policies := p }
  | .modelGate g, s => some { s with modelGate := g }
  | .setProvider name p, s => some (s.setProvider S name p)
  | .dropProvider name, s => some (s.dropProvider name)

/-- The answers a query can get. A semaphore gives a slot only while it has
one; a generator is closed only at a `yield`, and everything else may end in
a reply or any other exception. -/
def answers : (q : Query) → RouterState → Except Exc q.Reply → Prop
  | .slotLocked l, s, .ok (locked : Bool) => locked = false → 0 < (s.limiterAt l).slots
  | .slotLocked _, _, .error _ => False
  | .slot l _, s, .ok _ => 0 < (s.limiterAt l).slots
  | .slot _ _, _, .error e => e = .asyncTimeout ∨ e = .cancelled
  | .sleep _, _, .ok _ => True
  | .sleep _, _, .error e => e = .cancelled
  | .yieldChunk _, _, .ok _ => True
  | .yieldChunk _, _, .error e => e = .generatorExit ∨ e = .cancelled
  | _, _, .ok _ => True
  | _, _, .error e => e ≠ .generatorExit

instance : (q : Query) → (s : RouterState) → (r : Except Exc q.Reply) → Decidable (answers q s r)
  | .slotLocked l, s, .ok (locked : Bool) =>
    inferInstanceAs (Decidable (locked = false → 0 < (s.limiterAt l).slots))
  | .slotLocked _, _, .error _ => inferInstanceAs (Decidable False)
  | .slot l _, s, .ok _ => inferInstanceAs (Decidable (0 < (s.limiterAt l).slots))
  | .slot _ _, _, .error e => inferInstanceAs (Decidable (e = .asyncTimeout ∨ e = .cancelled))
  | .sleep _, _, .ok _ => inferInstanceAs (Decidable True)
  | .sleep _, _, .error e => inferInstanceAs (Decidable (e = .cancelled))
  | .yieldChunk _, _, .ok _ => inferInstanceAs (Decidable True)
  | .yieldChunk _, _, .error e => inferInstanceAs (Decidable (e = .generatorExit ∨ e = .cancelled))
  | .complete _ _ _ _, _, .ok _ | .firstChunk _ _ _ _, _, .ok _ | .nextChunk _, _, .ok _ | .closeStream, _, .ok _
  | .embed _ _ _ _ _, _, .ok _ => inferInstanceAs (Decidable True)
  | .complete _ _ _ _, _, .error e => inferInstanceAs (Decidable (e ≠ .generatorExit))
  | .firstChunk _ _ _ _, _, .error e => inferInstanceAs (Decidable (e ≠ .generatorExit))
  | .nextChunk _, _, .error e => inferInstanceAs (Decidable (e ≠ .generatorExit))
  | .closeStream, _, .error e => inferInstanceAs (Decidable (e ≠ .generatorExit))
  | .embed _ _ _ _ _, _, .error e => inferInstanceAs (Decidable (e ≠ .generatorExit))

/-- The body of each task. -/
def body (i : Nat) : (c : Call) → Async c.Out
  | .route r preferred deadlineSeconds => route S i r preferred deadlineSeconds
  | .stream r preferred deadlineSeconds chunks => stream S i r preferred deadlineSeconds chunks
  | .embed texts model preferred => embed S texts model preferred
  | .leg name r deadline attempts probe => callProvider S name r deadline attempts probe

/-- The router as a program of the event loop. A leg is started by its hedged
call only. -/
abbrev program : Program Γ where
  body := body S
  enter
    | .leg _ _ _ _ _, _ => none
    | _, s => some s
  answers := answers
  Op := Op
  op := applyOp S
  reboot := fun _ => none

instance (q : Γ.Query) (s : Γ.State) (r : Except Γ.Exc (Γ.Reply q)) :
    Decidable ((program S).answers q s r) := inferInstanceAs (Decidable (answers q s r))

/-- A router as constructed, with any policies, aliases, clock and random
draws. -/
def Fresh (s : RouterState) : Prop :=
  ∃ providers, s =
    { RouterState.init S providers with
      now := s.now, random := s.random, policies := s.policies, modelGate := s.modelGate
      aliases := s.aliases, modelAliases := s.modelAliases }

def system : Machine (Pool Γ) (Move Γ Op) := (program S).machine (Fresh S)

end Router

end Caips.Coreai
