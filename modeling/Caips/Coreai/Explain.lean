/-
Caips.Coreai.Explain — the dry run of `coreai/router.py`: `explain` with
`_candidates_no_side_effects` and `_plan_with_policy` as explain calls it, with
`advance=False` and with its trace.

`explain` does not call what `route` calls. It has its own handling of a pinned
provider, looks the policy up under a name of its own, and orders the providers
itself; the functions below keep to that, so that the two can be compared.
-/
import Caips.Coreai.Router

namespace Caips.Coreai

open Caips.Logic Caips.Providers

/-! ## The report -/

/-- The notes of a trace row: `p50 above latency ceiling …ms`, `pinned provider
unavailable`, and `eligible but not used (failover disabled/pinned model)`. -/
inductive TraceNote where
  | aboveCeiling (ceiling : ℚ)
  | pinnedUnavailable
  | notUsed
  deriving DecidableEq

/-- What the report says about one provider. -/
structure TraceRow where
  provider : String
  reason : Option String := none
  p50LatencyMs : Option ℚ := none
  score : Option ℚ := none
  health : Option ℚ := none
  note : Option TraceNote := none
  position : Option Nat := none

/-- `status`: `eligible`, or `excluded` with a reason. -/
def TraceRow.status (row : TraceRow) : String := if row.reason.isNone then "eligible" else "excluded"

/-- The report of `explain`. -/
structure Explanation where
  policy : Option Policy := none
  pinnedByRequest : Bool := false
  strategy : Option RoutingStrategy := none
  order : List String
  providers : List TraceRow

namespace RouterState

variable (S : Setup)

/-- `round(x, digits)`: halves go to the even neighbour. -/
def roundTo (x : ℚ) (digits : Nat) : ℚ :=
  let y := x * 10 ^ digits
  let down := y.floor
  let rest := y - down
  let n := if rest < 1 / 2 then down else if 1 / 2 < rest then down + 1
    else if down % 2 = 0 then down else down + 1
  n / 10 ^ digits

/-- The last position of a name in the order, from 1 on. -/
def positionIn (order : List String) (name : String) : Option Nat :=
  (order.reverse.findIdx? (· = name)).map fun i => order.length - i

/-! ## Under a policy -/

/-- `_policy_for(request, name)`. -/
def policyNamed (s : RouterState) (r : CompletionRequest) (name : Option String) :
    Except Exc (Option Policy) :=
  match s.policies with
  | none => .ok none
  | some set =>
    if orElse name "" = "" then s.policyFor r
    else match set.get name with
      | some policy => .ok (some policy)
      | none => .error (unknownPolicy set (orElse name ""))

/-- Why a policy's trace excludes a provider. -/
def exclusion (policy : Policy) (blocked : List String) (name : String) : Option String :=
  match policy.permits name with
  | some reason => some reason
  | none =>
    if excluded policy name then some "not in policy fallback chain"
    else if name ∈ blocked then some "circuit open" else none

/-- The row of a provider in the trace of `_plan_with_policy`. -/
def traceRow (s : RouterState) (r : CompletionRequest) (policy : Policy)
    (eligible blocked order : List String) (name : String) : TraceRow :=
  let ranked := name ∈ eligible ∧ policy.strategy ≠ .fallback ∧ policy.strategy ≠ .roundRobin
  let value := ((s.policyScores S r policy eligible).toOption.getD []).find? fun x => x.1 = name
  let p50 := ((s.p50Latency name).toOption.join).getD 0
  { provider := name
    reason := exclusion policy blocked name
    p50LatencyMs := if ranked ∧ policy.strategy = .fastest then value.map Prod.snd else none
    score := if ranked ∧ policy.strategy ≠ .fastest then value.map fun x => roundTo x.2 6 else none
    health :=
      if ranked ∧ policy.strategy ≠ .fastest then
        (s.healthOf S name).toOption.map fun x => roundTo x 4
      else none
    note :=
      if name ∈ eligible ∧ name ∉ order then some .notUsed
      else match policy.latencyCeilingMs with
        | some ceiling =>
          if ranked ∧ ceiling < p50 then some (.aboveCeiling ceiling)
          else if policy.strategy = .explicit ∧ name = policy.provider.getD "" ∧ name ∉ eligible then
            some .pinnedUnavailable
          else none
        | none =>
          if policy.strategy = .explicit ∧ name = policy.provider.getD "" ∧ name ∉ eligible then
            some .pinnedUnavailable
          else none
    position := positionIn order name }

/-- `_plan_with_policy` with `advance=False`: the order and the trace. -/
def dryPlan (r : CompletionRequest) (policy : Policy) : Routing (List String × List TraceRow) := do
  let names ← Sync.reads fun s => .ok s.providers.keys
  let (eligible, blocked) ← eligibleFor policy names
  if eligible.isEmpty then
    let order ← noneEligible policy blocked
    return (order, [])
  else
    let ranked ← Sync.reads fun s => s.rankForPolicy S r policy eligible
    let order := followChain policy eligible (pinFirst policy eligible ranked)
    let order ← Sync.reads fun s =>
      .ok (if r.model.isNone then s.applyPolicyModels S policy order eligible else order)
    let order := if r.model.isSome ∨ S.config.enableFailover = false then order.take 1 else order
    let trace ← Sync.reads fun s => .ok (names.map (s.traceRow S r policy eligible blocked order))
    return (order, trace)

/-! ## Without a policy -/

/-- `saved = self._rr_index; try: … finally: self._rr_index = saved`. -/
def restoringRoundRobin {α : Type} (m : Routing α) : Routing α := fun s =>
  ((m s).1, { (m s).2 with rrIndex := s.rrIndex })

/-- `_candidates_no_side_effects`. -/
def candidatesNoSideEffects (r : CompletionRequest) (healthy : List String) :
    Routing (List String) := do
  let primary ← restoringRoundRobin (selectProvider S r healthy)
  if S.config.enableFailover = false ∨ r.model.isSome then return [primary]
  else
    let rest ← Sync.reads fun s => s.failoverOrder S r (healthy.filter (· ≠ primary))
    return primary :: rest

/-- The row of a provider in the report of a request without a policy. -/
def plainRow (healthy order : List String) (name : String) : TraceRow where
  provider := name
  reason := if name ∈ healthy then none else some "circuit open"
  position := if name ∈ order then some (order.idxOf name + 1) else none

/-- The row of a provider in the report of a pinned request. -/
def pinnedRow (preferred name : String) : TraceRow where
  provider := name
  reason := if name = preferred then none else some "request pinned another provider"

/-! ## `explain` -/

/-- `explain` for a pinned provider. -/
def explainPinned (s : RouterState) (preferred : String) : Explanation where
  pinnedByRequest := true
  order := [preferred]
  providers := s.providers.keys.map (pinnedRow preferred)

/-- `explain` under a policy. -/
def explainUnder (r : CompletionRequest) (policy : Policy) : Routing Explanation := do
  let (order, trace) ← dryPlan S r policy
  return { policy := some policy, order, providers := trace }

/-- `explain` without a policy. -/
def explainHealthy (r : CompletionRequest) : Routing Explanation := do
  let names ← Sync.reads fun s => .ok s.providers.keys
  let healthy ← healthyAmong names
  if healthy.isEmpty then Sync.reads fun s => .error (s.allOpen s.providers.keys)
  else
    let order ← candidatesNoSideEffects S r healthy
    return { strategy := some S.config.strategy, order, providers := names.map (plainRow healthy order) }

/-- `explain`. -/
def explain (r : CompletionRequest) (policyName preferred : Option String) : Routing Explanation :=
  match preferred with
  | some name => do
      Sync.reads (Router.checkPreferred (some name))
      Sync.reads fun s => .ok (s.explainPinned name)
  | none => do
      match ← Sync.reads fun s => s.policyNamed r policyName with
      | some policy => explainUnder S r policy
      | none => explainHealthy S r

end RouterState

end Caips.Coreai
