/-
Caips.Coreai.RouterState — the state of a `Router` and its bookkeeping, after
the constructor, `set_provider`, `drop_provider` and the recording methods of
`coreai/router.py`.

The router keeps five tables by provider name. Breakers and limiters are
objects that a request may still hold after its provider was dropped or
replaced, so their tables hold references and the objects live in
`breakerAt` and `limiterAt`; dropping a name removes the reference, not the
object.

Three fields record what the source does not. The ledgers keep which
admissions of a breaker (`probes`) and of a limiter (`admitted`) were settled,
and on which object: an operation that admits returns a ticket and an
operation that settles is given one. `focus` keeps, by task, the candidate a
request is at and those it has still before it. No branch of the code depends
on them.
-/
import Caips.Logic.Ledger
import Caips.Logic.Sync
import Caips.Coreai.CircuitBreaker
import Caips.Coreai.Retry
import Caips.Coreai.Limiter
import Caips.Coreai.Policy
import Caips.Coreai.Cache
import Mathlib.Data.List.Sort

namespace Caips.Coreai

open Caips.Logic Caips.Providers

/-! ## Configuration -/

/-- `RoutingStrategy`. -/
inductive RoutingStrategy where
  | cheapest
  | fastest
  | balanced
  | roundRobin
  | fallback
  deriving DecidableEq, Repr

theorem default_threshold_pos : 1 ≤ 5 := by decide

theorem default_hedge_pos : ∀ h ∈ (none : Option ℚ), 0 < h := by simp

/-- `RoutingConfig`, with the two weights as given (`costWeight` and
`latencyWeight` divide them by their sum). The last field is the constructor's
check; the threshold's is that of the breakers it is passed to. -/
structure RoutingConfig where
  strategy : RoutingStrategy := .balanced
  enableCache : Bool := true
  cacheTtlSeconds : Nat := 3600
  enableRetry : Bool := true
  maxRetryAttempts : Nat := 3
  rawCostWeight : ℚ := 7 / 10
  rawLatencyWeight : ℚ := 3 / 10
  enableFailover : Bool := true
  requestTimeoutSeconds : ℚ := 60
  providerTimeouts : Dict String ℚ := Dict.empty.set "deepseek" 120
  deadlineSeconds : Option ℚ := some 120
  maxAttemptsBeforeFailover : Nat := 2
  retryInitialWaitSeconds : ℚ := 1
  retryMaxWaitSeconds : ℚ := 30
  circuitFailureThreshold : Nat := 5
  circuitResetSeconds : ℚ := 30
  cacheMaxEntries : Nat := 1000
  healthWeight : ℚ := 1 / 2
  hedgeAfterSeconds : Option ℚ := none
  rateLimits : Dict String RateLimitConfig := Dict.empty
  threshold_pos : 1 ≤ circuitFailureThreshold := by first | exact Caips.Coreai.default_threshold_pos | decide
  hedge_pos : ∀ h ∈ hedgeAfterSeconds, 0 < h := by first | exact Caips.Coreai.default_hedge_pos | simp

namespace RoutingConfig

/-- `self.cost_weight`. -/
def costWeight (c : RoutingConfig) : ℚ := c.rawCostWeight / (c.rawCostWeight + c.rawLatencyWeight)

/-- `self.latency_weight`. -/
def latencyWeight (c : RoutingConfig) : ℚ :=
  c.rawLatencyWeight / (c.rawCostWeight + c.rawLatencyWeight)

/-- `_timeout_for`. -/
def timeoutFor (c : RoutingConfig) (name : String) : ℚ :=
  (c.providerTimeouts.get? name).getD c.requestTimeoutSeconds

/-- The retry configuration the router builds its `RetryManager` with. -/
def retry (c : RoutingConfig) : RetryConfig where
  maxAttempts := c.maxRetryAttempts
  initialWaitSeconds := c.retryInitialWaitSeconds
  maxWaitSeconds := c.retryMaxWaitSeconds

end RoutingConfig

/-- `ModelProfile`: the fields the router reads. -/
structure ModelProfile where
  modelId : String
  provider : String
  contextWindow : Nat
  maxOutputTokens : Nat
  supportsVision : Bool := false
  supportsStreaming : Bool := true
  supportsFunctionCalling : Bool := true
  deriving DecidableEq

/-- What a router is set up with and never changes: its configuration, the
model registry (`get`, and `default_for`, which raises a `KeyError` where this
one has none), and the score of a `HealthTracker` from its events and the
clock, a sum of powers that stays uninterpreted here. -/
structure Setup where
  config : RoutingConfig := {}
  registry : String → Option ModelProfile := fun _ => none
  defaultFor : String → Option ModelProfile := fun _ => none
  healthScore : List (ℚ × Bool) → ℚ → ℚ := fun _ _ => 1

/-! ## State -/

/-- One entry of `provider_stats`. -/
structure ProviderStats where
  requests : Nat := 0
  errors : Nat := 0
  totalCost : ℚ := 0
  latencyMsHistory : List ℚ := []
  errorKinds : Dict String Nat := Dict.empty
  errorStatuses : Dict String Nat := Dict.empty

/-- One entry of `model_stats`. -/
structure ModelStats where
  requests : Nat := 0
  inputTokens : Nat := 0
  outputTokens : Nat := 0
  latencySumMs : ℚ := 0
  latencyBuckets : List Nat := List.replicate 10 0

/-- A `Router`. `random` are the draws of the retry jitter to come. `modelGate`
is the budget gate: the text and the retry hint of the `BudgetExceeded` it raises
for a model. -/
structure RouterState where
  now : ℚ := 0
  random : List ℚ := []
  providers : Dict String Provider := Dict.empty
  limiters : Dict String Nat := Dict.empty
  breakers : Dict String Nat := Dict.empty
  health : Dict String (List (ℚ × Bool)) := Dict.empty
  providerStats : Dict String ProviderStats := Dict.empty
  breakerAt : Nat → CircuitBreaker
  breakersMade : Nat := 0
  limiterAt : Nat → ProviderLimiter
  limitersMade : Nat := 0
  usageAt : Nat → StreamUsage := fun _ => {}
  usagesMade : Nat := 0
  cache : Option ResponseCache := none
  policies : Option PolicySet := none
  modelGate : String → Option (String × ℚ) := fun _ => none
  aliases : Dict String String := Dict.empty
  modelAliases : Dict String String := Dict.empty
  policyRr : Dict String Nat := Dict.empty
  rrIndex : Nat := 0
  requestCount : Nat := 0
  failoverCount : Nat := 0
  hedgeCount : Nat := 0
  hedgeWins : Nat := 0
  totalRetries : Nat := 0
  totalFailures : Nat := 0
  modelStats : Dict (String × String) ModelStats := Dict.empty
  streamsEstimated : Dict String Nat := Dict.empty
  probes : Ledger Nat := Ledger.empty
  admitted : Ledger Nat := Ledger.empty
  focus : Nat → List String := fun _ => []

/-- Code of the router between two awaits. -/
abbrev Routing (α : Type) : Type := Sync Exc RouterState α

/-- `table[name]`. -/
def lookup {α : Type} (table : Dict String α) (name : String) : Except Exc α :=
  match table.get? name with
  | some a => .ok a
  | none => .error (.keyError name)

theorem lookup_of_get? {α : Type} {table : Dict String α} {name : String} {a : α}
    (h : table.get? name = some a) : lookup table name = .ok a := by rw [lookup, h]

theorem get?_of_lookup {α : Type} {table : Dict String α} {name : String} {a : α}
    (h : lookup table name = .ok a) : table.get? name = some a := by
  unfold lookup at h
  split at h
  · rename_i hget
    rw [hget, Except.ok.inj h]
  · cases h

namespace RouterState

/-- The breaker both the constructor and `set_provider` create. -/
def newBreaker (c : RoutingConfig) (name : String) : CircuitBreaker where
  name := name
  failureThreshold := c.circuitFailureThreshold
  resetTimeout := c.circuitResetSeconds
  halfOpenMaxCalls := 1
  rawState := .closed
  failures := 0
  openedAt := 0
  probesInFlight := 0
  totalOpened := 0
  changes := []
  threshold_pos := c.threshold_pos

/-- The tables of a new name: limiter, breaker, health and statistics. -/
def register (S : Setup) (s : RouterState) (name : String) : RouterState :=
  { s with
    limiters := s.limiters.set name s.limitersMade
    limiterAt := Function.update s.limiterAt s.limitersMade
      (.init name ((S.config.rateLimits.get? name).getD {}) s.now)
    limitersMade := s.limitersMade + 1
    breakers := s.breakers.set name s.breakersMade
    breakerAt := Function.update s.breakerAt s.breakersMade (newBreaker S.config name)
    breakersMade := s.breakersMade + 1
    health := s.health.set name []
    providerStats := s.providerStats.set name {} }

/-- `set_provider`. -/
def setProvider (S : Setup) (s : RouterState) (name : String) (p : Provider) : RouterState :=
  let s' := { s with providers := s.providers.set name p }
  if s.providers.contains name then s' else s'.register S name

/-- `drop_provider`. -/
def dropProvider (s : RouterState) (name : String) : RouterState :=
  { s with
    providers := s.providers.pop name
    limiters := s.limiters.pop name
    breakers := s.breakers.pop name
    health := s.health.pop name
    providerStats := s.providerStats.pop name }

/-- The state before any provider is known. -/
def blank (S : Setup) : RouterState where
  breakerAt := fun _ => newBreaker S.config ""
  limiterAt := fun _ => .init "" {} 0
  cache := if S.config.enableCache then some { backend := { maxEntries := S.config.cacheMaxEntries } }
    else none
  aliases := ((Dict.empty.set "fast" "low_latency").set "cheap" "bulk").set "best" "high_quality"

/-- `Router.__init__`. -/
def init (S : Setup) (providers : List (String × Provider)) : RouterState :=
  providers.foldl (fun s p => s.setProvider S p.1 p.2) (blank S)

/-- Task `i` is at the first of these candidates. -/
def turnTo (s : RouterState) (i : Nat) (names : List String) : RouterState :=
  { s with focus := Function.update s.focus i names }

/-! ## Breakers, with the ledger of admissions -/

/-- `breaker.allow()`, with the ticket of an admission. -/
def allow (s : RouterState) (b : Nat) : Option Nat × RouterState :=
  let r := (s.breakerAt b).allow s.now
  let s := { s with breakerAt := Function.update s.breakerAt b r.2 }
  if r.1 then
    let t := s.probes.take b
    (some t.1, { s with probes := t.2 })
  else (none, s)

/-- A method of the breaker `b` that settles the admission `t`. -/
def settle (s : RouterState) (b t : Nat) (f : CircuitBreaker → CircuitBreaker) : RouterState :=
  { s with
    breakerAt := Function.update s.breakerAt b (f (s.breakerAt b))
    probes := s.probes.giveBack t b }

/-- `breaker.release()`. -/
def breakerRelease (s : RouterState) (b t : Nat) : RouterState := s.settle b t .release

/-- `breaker.record_success()`. -/
def recordProbeSuccess (s : RouterState) (b t : Nat) : RouterState :=
  s.settle b t fun c => c.recordSuccess s.now

/-- `breaker.record_failure()`. -/
def recordProbeFailure (s : RouterState) (b t : Nat) : RouterState :=
  s.settle b t fun c => c.recordFailure s.now s.now

/-- `breaker.would_allow()`. -/
def wouldAllow (s : RouterState) (b : Nat) : Bool × RouterState :=
  let r := (s.breakerAt b).wouldAllow s.now
  (r.1, { s with breakerAt := Function.update s.breakerAt b r.2 })

/-- `_soonest_retry_after`. -/
def soonestRetryAfter (s : RouterState) : Option ℚ :=
  let waits := s.breakers.values.filterMap fun b => (s.breakerAt b).retryAfter s.now
  waits.min?

/-! ## Limiters, with the ledger of admissions -/

/-- A method of the limiter object `l`. -/
def onLimiter (s : RouterState) (l : Nat) (f : ProviderLimiter → ProviderLimiter) : RouterState :=
  { s with limiterAt := Function.update s.limiterAt l (f (s.limiterAt l)) }

/-- The end of `acquire`, with the ticket of the admission. -/
def letIn (s : RouterState) (l : Nat) (waited : ℚ) : Nat × RouterState :=
  let t := s.admitted.take l
  (t.1, { s.onLimiter l (·.letIn waited) with admitted := t.2 })

/-- `GlobalRateLimiter.release(name)`, for the admission `t` if the caller
holds one: the limiter is looked up again by name. -/
def limiterRelease (s : RouterState) (name : String) (t : Option Nat) : RouterState :=
  match s.limiters.get? name with
  | none => s
  | some l =>
    let s' := s.onLimiter l .release
    match t with
    | some t => { s' with admitted := s.admitted.giveBack t l }
    | none => s'

/-! ## Statistics -/

/-- `self.health[name].record(ok)`; the deque keeps the last 200 events. -/
def recordHealth (name : String) (ok : Bool) : Routing Unit := do
  let events ← Sync.reads fun s => lookup s.health name
  Sync.update fun s =>
    let events := events ++ [(s.now, ok)]
    { s with health := s.health.set name (events.drop (events.length - 200)) }

/-- Change the statistics object behind a name. -/
def onStats (name : String) (f : ProviderStats → ProviderStats) : Routing Unit := do
  let st ← Sync.reads fun s => lookup s.providerStats name
  Sync.update fun s => { s with providerStats := s.providerStats.set name (f st) }

/-- `_record_success`. -/
def recordSuccess (name : String) (costUsd latencyMs : ℚ) : Routing Unit := do
  onStats name fun st => { st with requests := st.requests + 1 }
  recordHealth name true
  onStats name fun st =>
    let history := st.latencyMsHistory ++ [latencyMs]
    { st with
      totalCost := st.totalCost + costUsd
      latencyMsHistory := if 20 < history.length then history.drop 1 else history }

/-- `d[key] = d.get(key, 0) + 1`. -/
def bump (d : Dict String Nat) (key : String) : Dict String Nat :=
  d.set key ((d.get? key).getD 0 + 1)

/-- The health event of a failure; a bad request is none. -/
def recordIllness (name : String) (kind : ErrorKind) : Routing Unit :=
  if kind ≠ .badRequest then recordHealth name false else pure ()

/-- `_record_error`. -/
def recordError (name : String) (kind : ErrorKind) (status : Option Nat) : Routing Unit := do
  onStats name fun st => { st with errors := st.errors + 1 }
  recordIllness name kind
  onStats name fun st =>
    { st with
      errorKinds := bump st.errorKinds kind.value
      errorStatuses := match status with
        | some st' => bump st.errorStatuses (toString st')
        | none => st.errorStatuses }

/-- `_count_local_rate_limit`. -/
def countLocalRateLimit (name : String) : Routing Unit :=
  onStats name fun st => { st with errorKinds := bump st.errorKinds "local_rate_limit" }

/-- `LATENCY_BUCKETS_MS`. -/
def latencyBucketsMs : List ℚ := [50, 100, 250, 500, 1000, 2500, 5000, 10000, 30000]

/-- `_model_entry`: the key the entry of a model is kept under. Past 50 models
of one provider the rest share `other`. -/
def modelKey (s : RouterState) (name model : String) : String × String :=
  if s.modelStats.contains (name, model) then (name, model)
  else if 50 ≤ (s.modelStats.keys.filter fun k => k.1 = name).length then (name, "other")
  else (name, model)

/-- `_record_usage`. -/
def recordUsage (s : RouterState) (name model : String) (latencyMs : Option ℚ)
    (inTok outTok : Nat) : RouterState :=
  let key := s.modelKey name (if model = "" then "unknown" else model)
  let e := (s.modelStats.get? key).getD {}
  let e := { e with
    requests := e.requests + 1
    inputTokens := e.inputTokens + inTok
    outputTokens := e.outputTokens + outTok }
  let e := match latencyMs with
    | none => e
    | some ms =>
      { e with
        latencySumMs := e.latencySumMs + ms
        latencyBuckets := e.latencyBuckets.modify
          ((latencyBucketsMs.findIdx? (ms ≤ ·)).getD latencyBucketsMs.length) (· + 1) }
  { s with modelStats := s.modelStats.set key e }

/-- Change the usage object `u`. -/
def onUsage (s : RouterState) (u : Nat) (f : StreamUsage → StreamUsage) : RouterState :=
  { s with usageAt := Function.update s.usageAt u (f (s.usageAt u)) }

/-- `_p50_latency`. -/
def p50 (history : List ℚ) : Option ℚ := (history.insertionSort (· ≤ ·))[history.length / 2]?

end RouterState

end Caips.Coreai
