/-
Caips.Coreai.Planner — which providers a request is offered to, in which
order and with which model: `resolve_alias` and everything behind `_screen`
in `coreai/router.py`.

All of it runs between two awaits. The parts that only read the router are
functions of its state; a lookup by name raises `KeyError` where the source
would (`lookup`). What changes the state is in `Routing`: reading a breaker
can move it to `HALF_OPEN`, and the round robins advance. The trace that
`_plan_with_policy` builds for the explain endpoint is left out: routing
drops it.
-/
import Caips.Coreai.RouterState

namespace Caips.Coreai

open Caips.Logic Caips.Providers

namespace RouterState

variable (S : Setup)

/-! ## Request estimates -/

/-- `value or default`, for a text. -/
def orElse (o : Option String) (d : String) : String :=
  match o with
  | some v => if v = "" then d else v
  | none => d

/-- `_estimate_tokens`. -/
def estimateTokens (r : CompletionRequest) : Nat :=
  let chars := (r.messages.map fun m => m.content.length).sum + (r.systemPrompt.getD "").length +
    4000 * (requestImages r).length
  max 100 (chars / 4)

/-- `_estimate_output_tokens`. -/
def estimateOutputTokens (r : CompletionRequest) (fallback : Nat) : Nat :=
  if r.maxTokens = 0 then fallback else r.maxTokens

/-! ## Aliases, owners and policies -/

/-- `registry.get(model) if model else None`. -/
def profileOf (model : Option String) : Option ModelProfile :=
  if orElse model "" = "" then none else S.registry (orElse model "")

/-- `_owner_of`. -/
def ownerOf (s : RouterState) (model : Option String) : Option String :=
  match profileOf S model with
  | some profile => some profile.provider
  | none =>
    if orElse model "" = "" then none
    else (s.providers.entries.find? fun e => e.2.isLocal && e.2.models.contains (orElse model "")).map
      Prod.fst

/-- `alias_policy`. -/
def aliasPolicy (s : RouterState) (model : Option String) : Option String := do
  if orElse model "" = "" then none
  let target ← s.aliases.get? (orElse model "")
  let policies ← s.policies
  let _ ← policies.get (some target)
  some target

/-- The value of an optional text in a metadata mapping. -/
def metaText : Option String → Value
  | some v => .str v
  | none => .null

/-- `resolve_alias`: the request after it. -/
def resolveAlias (s : RouterState) (r : CompletionRequest) : CompletionRequest :=
  if (S.registry (r.model.getD "")).isSome then r
  else match s.modelAliases.get? (r.model.getD "") with
    | some target =>
      { r with metadata := r.metadata.set "model_alias" (metaText r.model), model := some target }
    | none =>
      match s.aliasPolicy r.model with
      | none => r
      | some policy =>
        { r with
          metadata := (r.metadata.set "policy" (.str policy)).set "alias" (metaText r.model)
          model := none }

/-- A list of names as it is printed. -/
def namesText (l : List String) : String :=
  "[" ++ ", ".intercalate (l.map fun n => "'" ++ n ++ "'") ++ "]"

/-- A metadata value as it is printed in a message. -/
def valueText : Value → String
  | .null => "None"
  | .bool b => if b then "True" else "False"
  | .num q => toString q
  | .str s => s
  | .names l => namesText l
  | .other _ => ""

/-- The exception for a policy name the set does not have. -/
def unknownPolicy (set : PolicySet) (name : String) : Exc :=
  .valueError s!"Unknown routing policy '{name}'. Available: {namesText set.names}"

/-- `_policy_for`, for the policy the request's metadata names. -/
def policyFor (s : RouterState) (r : CompletionRequest) : Except Exc (Option Policy) :=
  match s.policies with
  | none => .ok none
  | some set =>
    match r.meta "policy" with
    | .str "" => .ok (set.get none)
    | .str name =>
      match set.get (some name) with
      | some policy => .ok (some policy)
      | none => .error (unknownPolicy set name)
    | name =>
      if name.truthy = false then .ok (set.get none)
      else match name with
        | .names _ => .error (.typeError "unhashable type: 'list'")
        | .other _ => .error (.typeError "unhashable type: 'dict'")
        | name => .error (unknownPolicy set (valueText name))

/-! ## Scores -/

/-- The estimated cost of the request on a provider. -/
def rawCost (s : RouterState) (r : CompletionRequest) (name : String) : Except Exc ℚ := do
  let p ← lookup s.providers name
  let estimated := estimateTokens r
  return p.estimateCost estimated (estimateOutputTokens r estimated) (orElse r.model p.defaultModel)

/-- `_p50_latency` of a provider by name. -/
def p50Latency (s : RouterState) (name : String) : Except Exc (Option ℚ) := do
  let st ← lookup s.providerStats name
  return p50 st.latencyMsHistory

/-- `self.health[name].score()`. -/
def healthOf (s : RouterState) (name : String) : Except Exc ℚ := do
  let events ← lookup s.health name
  return S.healthScore events s.now

/-- What `_balanced_scores` collects of one provider. -/
structure RawScore where
  name : String
  cost : ℚ
  latency : ℚ
  health : ℚ

/-- The first loop of `_balanced_scores` for one provider. -/
def rawScore (s : RouterState) (r : CompletionRequest) (name : String) : Except Exc RawScore := do
  let cost ← s.rawCost r name
  let latency ← s.p50Latency name
  let health ← s.healthOf S name
  return { name, cost, latency := latency.getD 500, health }

/-- `max(values) or 1.0`. -/
def maxOrOne (values : List ℚ) : ℚ :=
  let m := values.max?.getD 0
  if m = 0 then 1 else m

/-- `_balanced_scores`: the score of each provider, in the order given. -/
def balancedScores (s : RouterState) (r : CompletionRequest) (available : List String)
    (costW latencyW : ℚ) : Except Exc (List (String × ℚ)) := do
  let raw ← available.mapM (s.rawScore S r)
  let maxCost := maxOrOne (raw.map RawScore.cost)
  let maxLatency := maxOrOne (raw.map RawScore.latency)
  return raw.map fun x =>
    (x.name, costW * x.cost / maxCost + latencyW * x.latency / maxLatency +
      S.config.healthWeight * (1 - x.health))

/-- `sorted(names, key=score)`: the sort is stable. -/
def sortByScore (scores : List (String × ℚ)) : List String :=
  (scores.insertionSort fun a b => a.2 ≤ b.2).map Prod.fst

/-- The first of the least scores: `best` starts at the first provider and is
replaced by a strictly smaller one. -/
def leastScore (scores : List (String × ℚ)) (first : String) : String :=
  match scores with
  | [] => first
  | x :: l => (l.foldl (fun b y => if y.2 < b.2 then y else b) x).1

/-! ## Selection without a policy -/

/-- `[n for n in names if self.breakers[n].would_allow()]`. -/
def healthyAmong : List String → Routing (List String)
  | [] => pure []
  | n :: rest => do
      let b ← Sync.reads fun s => lookup s.breakers n
      let ok ← Sync.yields fun s => s.wouldAllow b
      let healthy ← healthyAmong rest
      return if ok then n :: healthy else healthy

/-- The next position of a round robin over `names`. -/
def advanceRoundRobin (names : List String) (first : String) : Routing String :=
  Sync.yields fun s =>
    (names.getD (s.rrIndex % names.length) first, { s with rrIndex := s.rrIndex + 1 })

/-- `_select_fastest`. -/
def selectFastest (available : List String) (first : String) : Routing String := do
  let rows ← Sync.reads fun s =>
    available.mapM fun n => do
      let st ← lookup s.providerStats n
      return (n, st.latencyMsHistory)
  let underSampled := (rows.filter fun x => x.2.length < 3).map Prod.fst
  match underSampled with
  | [] => return leastScore (rows.map fun x => (x.1, (p50 x.2).getD 0)) first
  | n :: _ => advanceRoundRobin underSampled n

/-- `_select_provider`. -/
def selectProvider (r : CompletionRequest) (available : List String) : Routing String :=
  match available with
  | [] => throw (.valueError "No providers available")
  | first :: _ =>
    match S.config.strategy with
    | .cheapest => do
        let costs ← Sync.reads fun s => available.mapM fun n => do return (n, ← s.rawCost r n)
        return leastScore costs first
    | .fastest => selectFastest available first
    | .balanced => do
        let scores ← Sync.reads fun s =>
          s.balancedScores S r available S.config.costWeight S.config.latencyWeight
        return leastScore scores first
    | .roundRobin => advanceRoundRobin available first
    | .fallback => pure first

/-- `_failover_order`. -/
def failoverOrder (s : RouterState) (r : CompletionRequest) (names : List String) :
    Except Exc (List String) :=
  if S.config.strategy = .fallback ∨ names.length < 2 then .ok names
  else do
    let scores ← s.balancedScores S r names S.config.costWeight S.config.latencyWeight
    return sortByScore scores

/-! ## Selection under a policy -/

/-- The scores `_rank_for_policy` sorts by. -/
def policyScores (s : RouterState) (r : CompletionRequest) (policy : Policy)
    (eligible : List String) : Except Exc (List (String × ℚ)) :=
  match policy.strategy with
  | .fastest => eligible.mapM fun n => do
      -- `lat or 500.0`: no samples, and a median of zero, both rank at 500
      let lat ← s.p50Latency n
      return (n, if lat.getD 0 = 0 then 500 else lat.getD 0)
  | .cheapest => s.balancedScores S r eligible 1 0
  | _ => s.balancedScores S r eligible policy.costWeight policy.latencyWeight

/-- `_rank_for_policy`. -/
def rankForPolicy (s : RouterState) (r : CompletionRequest) (policy : Policy)
    (eligible : List String) : Except Exc (List String) :=
  match policy.strategy with
  | .fallback => .ok (policy.fallbackChain.filter (· ∈ eligible))
  | .roundRobin =>
    let k := (s.policyRr.get? policy.name).getD 0 % eligible.length
    .ok (eligible.drop k ++ eligible.take k)
  | _ => do
      let scores ← s.policyScores S r policy eligible
      let ordered := sortByScore scores
      match policy.latencyCeilingMs with
      | none => return ordered
      | some ceiling =>
        let rows ← ordered.mapM fun n => do return (n, (← s.p50Latency n).getD 0)
        let within := (rows.filter fun x => x.2 ≤ ceiling).map Prod.fst
        return within ++ ordered.filter (· ∉ within)

/-- Why a policy excludes a registered provider: its allow and deny lists,
and for a chained strategy not being in the chain. -/
def excluded (policy : Policy) (name : String) : Bool :=
  (policy.permits name).isSome ||
    ((policy.strategy = .fallback || policy.strategy = .explicit) &&
      (!policy.fallbackChain.isEmpty || policy.strategy = .explicit) &&
      (some name ≠ policy.provider && !policy.fallbackChain.contains name))

/-- The first loop of `_plan_with_policy`: the eligible providers, and those
the policy allows but whose breaker refuses. -/
def eligibleFor (policy : Policy) : List String → Routing (List String × List String)
  | [] => pure ([], [])
  | n :: rest => do
      if excluded policy n then eligibleFor policy rest
      else
        let b ← Sync.reads fun s => lookup s.breakers n
        let ok ← Sync.yields fun s => s.wouldAllow b
        let (eligible, blocked) ← eligibleFor policy rest
        return if ok then (n :: eligible, blocked) else (eligible, n :: blocked)

/-- A policy that neither pins a provider nor lists an order. -/
def unchained (policy : Policy) : Bool :=
  policy.strategy ≠ .explicit && policy.strategy ≠ .fallback

/-- The first half of `_apply_policy_models`: the owner of the policy's model
goes first. -/
def modelOwnerFirst (s : RouterState) (policy : Policy) (order eligible : List String) :
    List String :=
  match s.ownerOf S policy.model with
  | some o =>
    if unchained policy ∧ orElse policy.model "" ≠ "" ∧ o ∈ eligible then
      o :: order.filter (· ≠ o)
    else order
  | none => order

/-- `_apply_policy_models`: then the owner of its fallback model second. -/
def applyPolicyModels (s : RouterState) (policy : Policy) (order eligible : List String) :
    List String :=
  let order := s.modelOwnerFirst S policy order eligible
  match order, s.ownerOf S policy.fallbackModel with
  | head :: tail, some o =>
    if orElse policy.fallbackModel "" ≠ "" ∧ S.config.enableFailover ∧ o ∈ eligible ∧
        (o = head ∨ unchained policy) then
      head :: o :: tail.filter (· ≠ o)
    else order
  | _, _ => order

/-- `_policy_models`. -/
def policyModels (s : RouterState) (policy : Policy) (order : List String) : List (Option String) :=
  order.mapIdx fun i name =>
    let wanted := if i = 0 then policy.model else policy.fallbackModel
    let owner := s.ownerOf S wanted
    if orElse wanted "" ≠ "" ∧ (owner = none ∨ owner = some name) then wanted else none

/-- The exception for candidates that are all behind an open breaker. -/
def allOpen (s : RouterState) (names : List String) : Exc :=
  .allProvidersUnavailable (names.map fun n => (n, .circuitOpen)) s.soonestRetryAfter

/-- `_plan_with_policy` where the policy leaves no provider. -/
def noneEligible (policy : Policy) (blocked : List String) : Routing (List String) :=
  if blocked.isEmpty then
    throw (.valueError s!"Policy '{policy.name}' permits no registered provider")
  else Sync.reads fun s => .error (s.allOpen blocked)

/-- The pinned provider of an explicit policy goes first. -/
def pinFirst (policy : Policy) (eligible ranked : List String) : List String :=
  let pinned := policy.provider.getD ""
  if policy.strategy = .explicit ∧ pinned ∈ eligible then
    (if pinned = "" then [] else [pinned]) ++ ranked.filter (· ≠ pinned)
  else ranked

/-- After the first provider the policy's chain is followed, if it has one. -/
def followChain (policy : Policy) (eligible ranked : List String) : List String :=
  if !policy.fallbackChain.isEmpty ∧ policy.strategy ≠ .fallback then
    let chain := policy.fallbackChain.filter (· ∈ eligible)
    let head := ranked.take 1
    head ++ chain.filter (· ∉ head)
  else ranked

/-- `self._policy_rr[policy.name] += 1`, for a round-robin policy. -/
def advancePolicy (policy : Policy) : Routing Unit :=
  if policy.strategy = .roundRobin then
    Sync.update fun s => { s with policyRr := bump s.policyRr policy.name }
  else pure ()

/-- `_plan_with_policy` with `advance=True`: the order. -/
def planWithPolicy (r : CompletionRequest) (policy : Policy) : Routing (List String) := do
  let names ← Sync.reads fun s => .ok s.providers.keys
  let (eligible, blocked) ← eligibleFor policy names
  if eligible.isEmpty then noneEligible policy blocked
  else
    let ranked ← Sync.reads fun s => s.rankForPolicy S r policy eligible
    let order := followChain policy eligible (pinFirst policy eligible ranked)
    advancePolicy policy
    let order ← Sync.reads fun s =>
      .ok (if r.model.isNone then s.applyPolicyModels S policy order eligible else order)
    return if r.model.isSome ∨ S.config.enableFailover = false then order.take 1 else order

/-! ## The plan -/

/-- `_plan_any` for a pinned provider. -/
def planPreferred (s : RouterState) (r : CompletionRequest) (preferred : String) :
    Except Exc (List (String × Option String)) :=
  match s.ownerOf S r.model with
  | some owner =>
    if owner ≠ preferred then
      .error (.valueError ("Model '" ++ r.model.getD "" ++ "' belongs to provider '" ++ owner ++
        "', not '" ++ preferred ++ "'"))
    else .ok [(preferred, r.model)]
  | none => .ok [(preferred, r.model)]

/-- Why an explicit model is refused before its owner is asked. -/
def ownerProblem (s : RouterState) (policy : Option Policy) (owner model : String) : Except Exc Unit :=
  if !s.providers.contains owner then
    .error (.valueError s!"Model '{model}' needs provider '{owner}', which is not configured")
  else match policy with
    | none => .ok ()
    | some p =>
      match p.permits owner with
      | none => .ok ()
      | some reason =>
        .error (.valueError
          s!"Policy '{p.name}' does not allow provider '{owner}' for model '{model}': {reason}")

/-- `_plan_any` for an explicit model: the provider that owns it serves it. -/
def planOwned (r : CompletionRequest) (policy : Option Policy) (owner : String) :
    Routing (List (String × Option String)) := do
  Sync.reads fun s => s.ownerProblem policy owner (r.model.getD "")
  let b ← Sync.reads fun s => lookup s.breakers owner
  let ok ← Sync.yields fun s => s.wouldAllow b
  if ok then return [(owner, r.model)]
  else Sync.reads fun s => .error (s.allOpen [owner])

/-- `_plan_any` under a policy. -/
def planUnder (r : CompletionRequest) (policy : Policy) : Routing (List (String × Option String)) := do
  let order ← planWithPolicy S r policy
  Sync.reads fun s =>
    .ok (if r.model.isSome then order.map (·, r.model) else order.zip (s.policyModels S policy order))

/-- `_plan_any` without a policy. -/
def planHealthy (r : CompletionRequest) : Routing (List (String × Option String)) := do
  let names ← Sync.reads fun s => .ok s.providers.keys
  let healthy ← healthyAmong names
  if healthy.isEmpty then Sync.reads fun s => .error (s.allOpen s.providers.keys)
  else
    let primary ← selectProvider S r healthy
    if S.config.enableFailover = false ∨ r.model.isSome then return [(primary, r.model)]
    else
      let rest ← Sync.reads fun s => s.failoverOrder S r (healthy.filter (· ≠ primary))
      return (primary :: rest).map (·, none)

/-- `_plan_any`: candidates, each with the model it should use. -/
def planAny (r : CompletionRequest) (preferred : Option String) :
    Routing (List (String × Option String)) :=
  match preferred with
  | some preferred => Sync.reads fun s => s.planPreferred S r preferred
  | none => do
      let policy ← Sync.reads fun s => s.policyFor r
      let owner ← Sync.reads fun s => .ok (s.ownerOf S r.model)
      match owner, policy with
      | some owner, policy => planOwned r policy owner
      | none, some policy => planUnder S r policy
      | none, none => planHealthy S r

/-- `getattr(self.providers[n], "is_local", False) is True`. -/
def isLocal (s : RouterState) (name : String) : Except Exc Bool := do
  let p ← lookup s.providers name
  return p.isLocal

/-- The candidates of a list that are local, respectively not. -/
def localOnly (s : RouterState) (want : Bool) (plan : List (String × Option String)) :
    Except Exc (List (String × Option String)) := do
  let rows ← plan.mapM fun x => do return (x, ← s.isLocal x.1)
  return (rows.filter fun x => x.2 = want).map Prod.fst

/-- `_apply_difficulty`. -/
def applyDifficulty (s : RouterState) (plan : List (String × Option String)) (difficulty : Value) :
    Except Exc (List (String × Option String)) :=
  if difficulty ≠ .str "easy" ∧ difficulty ≠ .str "hard" then .ok plan
  else do
    let first ← s.localOnly (difficulty = .str "easy") plan
    return first ++ plan.filter (· ∉ first)

/-- `_plan`, once the candidates are known. -/
def restrict (s : RouterState) (r : CompletionRequest) (preferred : Option String)
    (order : List (String × Option String)) : Except Exc (List (String × Option String)) :=
  if !(r.meta "private").truthy then
    if preferred.isNone ∧ 1 < order.length then s.applyDifficulty order (r.meta "difficulty")
    else .ok order
  else do
    let kept ← s.localOnly true order
    if kept.isEmpty then
      .error (.valueError
        "Request is private but no local provider can serve it; it was not sent to a cloud provider.")
    else .ok kept

/-- `_plan`. -/
def plan (r : CompletionRequest) (preferred : Option String) :
    Routing (List (String × Option String)) := do
  let order ← planAny S r preferred
  Sync.reads fun s => s.restrict r preferred order

/-! ## The screen -/

/-- `_resolve_model_profile`. -/
def resolveModelProfile (name : String) (model : Option String) : Option ModelProfile :=
  if orElse model "" ≠ "" then S.registry (orElse model "") else S.defaultFor name

/-- `_model_problem`. -/
def modelProblem (s : RouterState) (r : CompletionRequest) (name : String) :
    Except Exc (Option String) := do
  let p ← lookup s.providers name
  let images := !(requestImages r).isEmpty
  if images ∧ p.supportsVision = false then
    return some s!"Provider '{name}' does not accept image input."
  if nonempty r.tools then
    if r.stream then return some "Tool calling is not supported with streaming yet."
    if p.supportsTools = false then
      return some s!"Provider '{name}' does not support tool calling."
  match p.capabilityProblem r with
  | some problem => return some problem
  | none =>
    match resolveModelProfile S name r.model with
    | none => return none
    | some profile =>
      if images ∧ profile.supportsVision = false then
        return some s!"{profile.modelId} does not accept image input."
      if nonempty r.tools ∧ profile.supportsFunctionCalling = false then
        return some s!"{profile.modelId} does not support tool calling."
      let estimated := estimateTokens r
      let out := r.maxTokens
      if profile.contextWindow < estimated + out then
        return some s!"Request (~{estimated} input + {out} max_tokens = ~{estimated + out} tokens) exceeds {profile.modelId}'s {profile.contextWindow}-token context window."
      if profile.maxOutputTokens ≠ 0 ∧ profile.maxOutputTokens < out then
        return some s!"max_tokens={out} exceeds {profile.modelId}'s output limit of {profile.maxOutputTokens} tokens."
      if r.stream ∧ profile.supportsStreaming = false then
        return some s!"{profile.modelId} does not support streaming."
      return none

/-- `_admit_model`. -/
def admitModel (s : RouterState) (r : CompletionRequest) (name : String) : Except Exc Unit := do
  let p ← lookup s.providers name
  match s.modelGate (orElse r.model p.defaultModel) with
  | none => return ()
  | some (m, w) => throw (.budgetExceeded m w)

/-- The outcome of `_screen` for one candidate: it is kept, or skipped with a
reason or a spent budget. -/
inductive Verdict where
  | keep (r : CompletionRequest)
  | problem (reason : String)
  | budget (e : Exc)

/-- The body of the loop of `_screen`. -/
def screenOne (s : RouterState) (r : CompletionRequest) (single : Bool)
    (candidate : String × Option String) : Except Exc Verdict := do
  let req := if candidate.2 = r.model then r else { r with model := candidate.2 }
  let reason ← s.modelProblem S req candidate.1
  if orElse reason "" ≠ "" then
    if single then throw (.valueError (orElse reason ""))
    return .problem (orElse reason "")
  match s.admitModel req candidate.1 with
  | .ok () => return .keep req
  | .error (.budgetExceeded m w) =>
    if single then throw (.budgetExceeded m w)
    return .budget (.budgetExceeded m w)
  | .error e => throw e

/-- The loop of `_screen`: what was kept, the first problem, the first spent
budget. -/
def screenAll (s : RouterState) (r : CompletionRequest) (single : Bool) :
    List (String × Option String) →
      Except Exc (List (String × CompletionRequest) × Option String × Option Exc)
  | [] => .ok ([], none, none)
  | c :: rest => do
      let verdict ← s.screenOne S r single c
      let (keep, problem, budget) ← screenAll s r single rest
      match verdict with
      | .keep req => return ((c.1, req) :: keep, problem, budget)
      | .problem reason => return (keep, some reason, budget)
      | .budget e => return (keep, problem, some e)

/-- `_screen`, once the plan is known. -/
def screened (s : RouterState) (r : CompletionRequest) (single : Bool)
    (plan : List (String × Option String)) : Except Exc (List (String × CompletionRequest)) := do
  let (keep, problem, budget) ← s.screenAll S r single plan
  if keep.isEmpty then
    match budget with
    | some e => .error e
    | none => .error (.valueError (problem.getD "No provider can serve this request"))
  else .ok keep

/-- `_screen`. -/
def screen (r : CompletionRequest) (preferred : Option String) :
    Routing (List (String × CompletionRequest)) := do
  let plan ← plan S r preferred
  Sync.reads fun s =>
    s.screened S r (preferred.isSome || r.model.isSome || plan.length == 1) plan

/-- `_hedge_delay`. -/
def hedgeDelay (s : RouterState) (r : CompletionRequest) (preferred : Option String) :
    Except Exc (Option ℚ) :=
  if preferred.isSome ∨ r.stream ∨ r.model.isSome then .ok none
  else do
    let policy ← s.policyFor r
    match policy.bind Policy.hedgeAfterMs with
    | some ms => return some (ms / 1000)
    | none => return S.config.hedgeAfterSeconds

end RouterState

end Caips.Coreai
