/-
Caips.Providers.Local — the provider of a server the user runs, after
`providers/local.py`.

`probe` and `refreshModels` take what `GET /v1/models` came to: the ids it listed,
or nothing where it failed. `complete` and `stream` are awaited by the router; of
them this has the check for a model and the counter `inflight`, which goes up
after that check and down in a `finally`. The capabilities of each model are
those `_caps` makes of the configuration.
-/
import Caips.Providers.Base
import Mathlib.Algebra.GroupWithZero.Nat

namespace Caips.Providers

open Caips.Logic

/-- `Capabilities`: what one local model can do. -/
structure Capabilities where
  tools : Bool := false
  vision : Bool := false
  jsonMode : Bool := true
  contextLength : Option ℕ := none
  deriving DecidableEq, Repr

/-- `LocalProvider`. A queue limit of 0 means unlimited. -/
structure LocalProvider where
  name : String
  models : List String := []
  defaultModel : String := ""
  maxQueue : ℕ := 0
  inflight : ℤ := 0
  up : Bool := true
  defaultCaps : Capabilities := {}
  caps : Dict String Capabilities := Dict.empty

namespace LocalProvider

/-- `sorted(models)[0] if models else ""`. -/
def firstModel (models : List String) : String := (models.mergeSort (· ≤ ·)).headD ""

/-- `__init__`. -/
def init (name : String) (models : List String) (defaultModel : String) (maxQueue : ℕ)
    (defaultCaps : Capabilities) (caps : Dict String Capabilities) : LocalProvider where
  name := name
  models := models
  defaultModel := if defaultModel = "" then firstModel models else defaultModel
  maxQueue := maxQueue
  defaultCaps := defaultCaps
  caps := caps

/-- `x or default_model`. -/
def modelOf (p : LocalProvider) (model : Option String) : String :=
  (model.filter (· ≠ "")).getD p.defaultModel

/-- `capabilities`. -/
def capabilities (p : LocalProvider) (model : Option String) : Capabilities :=
  (p.caps.get? (p.modelOf model)).getD p.defaultCaps

/-- `self.max_queue and self.inflight >= self.max_queue`. -/
def busy (p : LocalProvider) : Bool := p.maxQueue ≠ 0 ∧ (p.maxQueue : ℤ) ≤ p.inflight

/-- `capability_problem`: why this server's model cannot serve the request. -/
def capabilityProblem (p : LocalProvider) (r : CompletionRequest) : Option String :=
  let model := p.modelOf r.model
  let cap := p.capabilities (some model)
  let need := (r.messages.map fun m => m.content.length).sum / 4 + r.maxTokens
  if p.up = false then some s!"Local server '{p.name}' is down (failed its last health check)."
  else if p.busy then
    some s!"Local server '{p.name}' is busy ({p.inflight} requests in flight, limit {p.maxQueue})."
  else if nonempty r.tools ∧ cap.tools = false then
    some s!"Local model '{model}' on '{p.name}' is not configured for tool calling."
  else if requestImages r ≠ [] ∧ cap.vision = false then
    some s!"Local model '{model}' on '{p.name}' does not accept image input."
  else
    match cap.contextLength with
    | some context =>
      if context ≠ 0 ∧ context < need then
        some s!"Request (~{need} tokens) exceeds the {context}-token context of local model '{model}'."
      else none
    | none => none

/-- The models a listing adds. -/
def learn (p : LocalProvider) (found : List String) : LocalProvider :=
  { p with
    models := found ∪ p.models
    defaultModel := if p.defaultModel = "" then firstModel found else p.defaultModel }

/-- `refresh_models`. -/
def refreshModels (p : LocalProvider) : Option (List String) → LocalProvider
  | some found => p.learn found
  | none => p

/-- `probe`. -/
def probe (p : LocalProvider) : Option (List String) → LocalProvider
  | some found => { p.learn found with up := true }
  | none => { p with up := false }

/-- `_need_model`. -/
def needModel (p : LocalProvider) (r : CompletionRequest) : Except String String :=
  let model := p.modelOf r.model
  if model = "" then .error s!"No model given and none known for local server '{p.name}'."
  else .ok model

/-- `complete` and `stream` up to their first await: the exception for want of a
model, or the call is counted. -/
def enter (p : LocalProvider) (r : CompletionRequest) : Except String LocalProvider :=
  (p.needModel r).map fun _ => { p with inflight := p.inflight + 1 }

/-- `finally: self.inflight -= 1`. -/
def leave (p : LocalProvider) : LocalProvider := { p with inflight := p.inflight - 1 }

/-- The object as the router sees it. The router bills a stream without its latency,
so the bill is nothing. -/
def provider (p : LocalProvider) : Provider where
  name := p.name
  isLocal := true
  supportsVision := true
  supportsTools := true
  supportsEmbeddings := true
  defaultModel := p.defaultModel
  models := p.models
  capabilityProblem := p.capabilityProblem

/-! ## The queue check -/

theorem busy_iff {p : LocalProvider} : p.busy = true ↔ p.maxQueue ≠ 0 ∧ (p.maxQueue : ℤ) ≤ p.inflight :=
  decide_eq_true_iff

theorem enter_ok {p q : LocalProvider} {r : CompletionRequest} (h : p.enter r = .ok q) :
    q = { p with inflight := p.inflight + 1 } := by
  unfold enter at h
  cases hm : p.needModel r with
  | error e => rw [hm] at h; cases h
  | ok m => rw [hm] at h; exact (Except.ok.inj h).symm

/-- What listings and health checks leave alone. -/
structure Same (p q : LocalProvider) : Prop where
  name : q.name = p.name
  maxQueue : q.maxQueue = p.maxQueue
  inflight : q.inflight = p.inflight

theorem same_probe (p : LocalProvider) (found : Option (List String)) : Same p (p.probe found) := by
  cases found <;> exact ⟨rfl, rfl, rfl⟩

theorem same_refreshModels (p : LocalProvider) (found : Option (List String)) :
    Same p (p.refreshModels found) := by
  cases found <;> exact ⟨rfl, rfl, rfl⟩

end LocalProvider

end Caips.Providers
