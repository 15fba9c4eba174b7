/-
Caips.Coreai.Metrics — the counters of a router and their text, after
`Router.stats` of `coreai/router.py` and `coreai/metrics.py`.

`Stats` is what `stats()` returns, as far as the text is made of it. What its
construction ensures is kept with it: one row for a model of a provider, and one
bucket more than there are bounds in each. The counters of unlisted models come
from the price list and are given to `stats`.

The writer's methods are functions of the lines they append. Integers are made
floats before they are printed, and one that is too large for a float raises an
`OverflowError`; only the histogram prints its counts as they are.
-/
import Caips.Logic.Exposition
import Caips.Coreai.RouterState

namespace Caips.Coreai

open Caips.Logic

namespace Metrics

/-! ## Statistics -/

/-- A number of the statistics. -/
inductive Number where
  | int (n : ℕ)
  | float (x : ℚ)
  deriving DecidableEq

/-- A row of `provider_stats`; the last two are of the breaker's snapshot. -/
structure ProviderRow where
  requests : ℕ
  totalCost : ℚ
  p50LatencyMs : Option ℚ
  health : ℚ
  errorKinds : Dict String ℕ
  errorStatuses : Dict String ℕ
  state : String
  timesOpened : ℕ

/-- A row of `model_stats`. -/
structure ModelRow where
  provider : String
  model : String
  inputTokens : ℕ
  outputTokens : ℕ
  latencySumMs : ℚ
  latencyBuckets : List ℕ

/-- What `ResponseCache.stats` returns. -/
structure CacheStats where
  cacheHits : ℕ
  cacheMisses : ℕ
  totalRequests : ℕ
  hitRatePercent : ℚ

/-- The dictionary it is. -/
def CacheStats.dict (c : CacheStats) : Dict String Number :=
  (((Dict.empty.set "cache_hits" (.int c.cacheHits)).set "cache_misses" (.int c.cacheMisses)).set
    "total_requests" (.int c.totalRequests)).set "hit_rate_percent" (.float c.hitRatePercent)

/-- What `Router.stats` returns. -/
structure Stats where
  totalRequests : ℕ
  failovers : ℕ
  hedgesLaunched : ℕ
  hedgesWonBySecond : ℕ
  providerStats : Dict String ProviderRow
  modelStats : List ModelRow
  latencyBucketBoundsMs : List ℚ
  unpricedModels : Dict (String × String) ℕ
  streamsEstimated : Dict String ℕ
  cacheStats : Option CacheStats
  distinct : (modelStats.map fun r => (r.provider, r.model)).Nodup
  buckets : ∀ r ∈ modelStats, r.latencyBuckets.length = latencyBucketBoundsMs.length + 1

/-! ## Labels and samples -/

/-- `_esc`. -/
def esc (value : List Char) : List Char :=
  Text.replace ['"'] ['\\', '"'] (Text.replace ['\n'] ['\\', 'n'] (Text.replace ['\\'] ['\\', '\\'] value))

/-- `_labels`. -/
def labels (l : List (String × String)) : List Char :=
  if l = [] then []
  else '{' :: List.intercalate [','] (l.map fun p => p.1.toList ++ '=' :: '"' :: esc p.2.toList ++ ['"']) ++ ['}']

/-- `f"{float(value):g}"`. -/
def general : Number → Except String (List Char)
  | .int n =>
    if (Float.ofNat n).isInf then .error "int too large to convert to float"
    else .ok (Decimal.general (Binary64.toRat (.ofNat n)))
  | .float x => .ok (Decimal.general x)

/-- The arguments of a call of `_Writer.metric`. -/
structure Family where
  name : String
  kind : String
  help : String
  samples : List (List (String × String) × Number)

/-- `_Writer.metric`. -/
def metric (f : Family) : Except String (List (List Char)) :=
  if f.samples = [] then .ok []
  else do
    let lines ← f.samples.mapM fun s => (general s.2).map fun v => f.name.toList ++ labels s.1 ++ ' ' :: v
    .ok (("# HELP ".toList ++ f.name.toList ++ ' ' :: f.help.toList) ::
      ("# TYPE ".toList ++ f.name.toList ++ ' ' :: f.kind.toList) :: lines)

/-! ## The histogram -/

/-- The loop over the bounds, with the requests counted so far. -/
def bucketLines (name : List Char) (base : List (String × String)) : ℕ → List (ℚ × ℕ) → List (List Char)
  | _, [] => []
  | running, (bound, count) :: l =>
    (name ++ "_bucket".toList ++ labels (base ++ [("le", String.ofList (Decimal.general (bound / 1000)))]) ++
      ' ' :: Nat.toDigits 10 (running + count)) :: bucketLines name base (running + count) l

/-- The lines of one model. -/
def rowLines (name : List Char) (bounds : List ℚ) (r : ModelRow) : Except String (List (List Char)) :=
  let base := [("provider", r.provider), ("model", r.model)]
  let counted := bounds.zip r.latencyBuckets
  match r.latencyBuckets[bounds.length]? with
  | none => .error "list index out of range"
  | some last =>
    let running := Nat.toDigits 10 ((counted.map Prod.snd).sum + last)
    .ok (bucketLines name base 0 counted ++
      [name ++ "_bucket".toList ++ labels (base ++ [("le", "+Inf")]) ++ ' ' :: running,
        name ++ "_sum".toList ++ labels base ++ ' ' :: Decimal.general (r.latencySumMs / 1000),
        name ++ "_count".toList ++ labels base ++ ' ' :: running])

/-- `_histogram`. -/
def histogram (st : Stats) : Except String (List (List Char)) :=
  let bounds := st.latencyBucketBoundsMs
  let rows := st.modelStats.filter fun r => r.latencyBuckets.sum ≠ 0
  let name := "caips_request_duration_seconds".toList
  if rows = [] ∨ bounds = [] then .ok []
  else do
    let lines ← rows.mapM (rowLines name bounds)
    .ok (("# HELP ".toList ++ name ++ " Provider call latency of successful requests.".toList) ::
      ("# TYPE ".toList ++ name ++ " histogram".toList) :: lines.flatten)

/-! ## The text -/

/-- `_STATES`. -/
def states : List String := ["closed", "open", "half_open"]

/-- `sorted(counts.items())`. -/
def sortedItems (counts : Dict String ℕ) : List (String × ℕ) := counts.entries.insertionSort fun a b => a.1 ≤ b.1

/-- The calls of `metric` above the histogram. -/
def familiesAbove (st : Stats) : List Family :=
  let providers := st.providerStats.entries
  [{ name := "caips_requests_total", kind := "counter", help := "Requests handled by the gateway."
     samples := [([], .int st.totalRequests)] },
   { name := "caips_failovers_total", kind := "counter"
     help := "Requests that moved to another provider after a failure."
     samples := [([], .int st.failovers)] },
   { name := "caips_hedges_launched_total", kind := "counter", help := "Hedged requests launched."
     samples := [([], .int st.hedgesLaunched)] },
   { name := "caips_hedges_won_total", kind := "counter"
     help := "Hedged requests where the second provider answered first."
     samples := [([], .int st.hedgesWonBySecond)] },
   { name := "caips_provider_requests_total", kind := "counter", help := "Requests sent to a provider."
     samples := providers.map fun p => ([("provider", p.1)], .int p.2.requests) },
   { name := "caips_provider_errors_total", kind := "counter", help := "Failed provider calls by error kind."
     samples := providers.flatMap fun p =>
       (sortedItems p.2.errorKinds).map fun k => ([("provider", p.1), ("kind", k.1)], .int k.2) },
   { name := "caips_provider_error_status_total", kind := "counter"
     help := "Failed provider calls by HTTP status (for example Anthropic 529)."
     samples := providers.flatMap fun p =>
       (sortedItems p.2.errorStatuses).map fun k => ([("provider", p.1), ("status", k.1)], .int k.2) },
   { name := "caips_provider_cost_usd_total", kind := "counter", help := "Estimated spend per provider in USD."
     samples := providers.map fun p => ([("provider", p.1)], .float p.2.totalCost) },
   { name := "caips_provider_latency_p50_ms", kind := "gauge"
     help := "Median recent latency per provider in milliseconds."
     samples := providers.flatMap fun p =>
       p.2.p50LatencyMs.toList.map fun ms => ([("provider", p.1)], .float ms) },
   { name := "caips_provider_health", kind := "gauge", help := "Recent success rate per provider, 0 to 1."
     samples := providers.map fun p => ([("provider", p.1)], .float p.2.health) },
   { name := "caips_circuit_state", kind := "gauge"
     help := "1 for the circuit breaker's current state per provider, else 0."
     samples := providers.flatMap fun p =>
       states.map fun state => ([("provider", p.1), ("state", state)], .int (if p.2.state = state then 1 else 0)) },
   { name := "caips_circuit_opened_total", kind := "counter"
     help := "Times a provider's circuit breaker has opened."
     samples := providers.map fun p => ([("provider", p.1)], .int p.2.timesOpened) }]

/-- The calls of `metric` below the histogram, up to the cache. -/
def familiesBelow (st : Stats) : List Family :=
  [{ name := "caips_tokens_total", kind := "counter"
     help := "Tokens processed, by provider, model and direction."
     samples := st.modelStats.flatMap fun r =>
       [([("provider", r.provider), ("model", r.model), ("type", "input")], .int r.inputTokens),
        ([("provider", r.provider), ("model", r.model), ("type", "output")], .int r.outputTokens)] },
   { name := "caips_stream_usage_estimated_total", kind := "counter"
     help := "Streams whose token counts were estimated (the provider reported none)."
     samples := st.streamsEstimated.entries.map fun p => ([("provider", p.1)], .int p.2) },
   { name := "caips_unpriced_requests_total", kind := "counter"
     help := "Requests for models missing from config/pricing.yml (default rate used)."
     samples := st.unpricedModels.entries.map fun u =>
       ([("provider", u.1.1), ("model", u.1.2)], .int u.2) }]

/-- The calls of `metric` for the cache: two keys are looked up in its statistics. -/
def cacheFamilies (cache : Dict String Number) : List Family :=
  [("hits", "caips_cache_hits_total", "Response cache hits."),
   ("misses", "caips_cache_misses_total", "Response cache misses.")].filterMap fun (key, name, help) =>
    (cache.get? key).map fun v => { name := name, kind := "counter", help := help, samples := [([], v)] }

/-- The last calls of `metric`. -/
def serverFamilies (accepting : Bool) (inFlight : ℕ) : List Family :=
  [{ name := "caips_accepting_traffic", kind := "gauge"
     help := "1 while the gateway accepts new requests, 0 while draining."
     samples := [([], .int accepting.toNat)] },
   { name := "caips_in_flight_requests", kind := "gauge", help := "Requests currently being served."
     samples := [([], .int inFlight)] }]

/-- `render_prometheus`. -/
def renderPrometheus (st : Stats) (accepting : Bool) (inFlight : ℕ) : Except String (List Char) := do
  let cache := (st.cacheStats.map CacheStats.dict).getD Dict.empty
  let above ← (familiesAbove st).mapM metric
  let rows ← histogram st
  let below ← (familiesBelow st ++ cacheFamilies cache ++ serverFamilies accepting inFlight).mapM metric
  .ok (Exposition.unlines (above.flatten ++ rows ++ below.flatten))

end Metrics

open Metrics

/-! ## `stats` -/

/-- `ResponseCache.stats`. -/
def ResponseCache.stats (c : ResponseCache) : CacheStats where
  cacheHits := c.hits
  cacheMisses := c.misses
  totalRequests := c.hits + c.misses
  hitRatePercent := if 0 < c.hits + c.misses then roundTo 2 (c.hits / (c.hits + c.misses : ℕ) * 100) else 0

namespace RouterState

/-- Every row of `model_stats` has one bucket more than there are bounds. -/
def Stocked (s : RouterState) : Prop :=
  ∀ e ∈ s.modelStats.entries, e.2.latencyBuckets.length = latencyBucketsMs.length + 1

/-- A row of `provider_stats`; the snapshot brings the breaker up to date, which is left out. -/
def providerRow (S : Setup) (s : RouterState) (name : String) (st : ProviderStats) : Except Exc ProviderRow := do
  let health ← lookup s.health name
  let b ← lookup s.breakers name
  let snapshot := ((s.breakerAt b).snapshot s.now s.now).1
  .ok {
    requests := st.requests
    totalCost := st.totalCost
    p50LatencyMs := p50 st.latencyMsHistory
    health := roundTo 4 (S.healthScore health s.now)
    errorKinds := st.errorKinds
    errorStatuses := st.errorStatuses
    state := snapshot.1
    timesOpened := snapshot.2.2.1 }

/-- `Router.stats`, with the counters of unlisted models. -/
def stats (S : Setup) (unpriced : Dict (String × String) ℕ) (s : RouterState) (h : s.Stocked) : Except Exc Stats := do
  let providers ← s.providerStats.entries.foldlM
    (fun d e => (s.providerRow S e.1 e.2).map fun row => d.set e.1 row) Dict.empty
  .ok {
    totalRequests := s.requestCount
    failovers := s.failoverCount
    hedgesLaunched := s.hedgeCount
    hedgesWonBySecond := s.hedgeWins
    providerStats := providers
    modelStats := s.modelStats.entries.map fun e =>
      ⟨e.1.1, e.1.2, e.2.inputTokens, e.2.outputTokens, e.2.latencySumMs, e.2.latencyBuckets⟩
    latencyBucketBoundsMs := latencyBucketsMs
    unpricedModels := unpriced
    streamsEstimated := s.streamsEstimated
    cacheStats := s.cache.map ResponseCache.stats
    distinct := by
      rw [List.map_map]
      exact s.modelStats.nodup
    buckets := by
      intro r hr
      obtain ⟨e, he, rfl⟩ := List.mem_map.mp hr
      exact h e he }

end RouterState

end Caips.Coreai
