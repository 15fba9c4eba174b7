/-
Caips.Coreai.Policy — routing policies, after the data classes of
`coreai/policy.py`.

A policy set is what `PolicyStore.current()` returns; when and how the file
behind it is read again is left to the environment of the router.
-/
import Caips.Logic.Dict
import Mathlib.Data.Rat.Defs
import Mathlib.Data.List.Nodup

namespace Caips.Coreai

open Caips.Logic

/-- The canonical strategy names of a policy (`STRATEGIES`). -/
inductive PolicyStrategy where
  | balanced
  | cheapest
  | fastest
  | roundRobin
  | fallback
  | explicit
  deriving DecidableEq, Repr

/-- `Policy`. `allow := none` allows everything. The last two fields are checks
of `parse_policies`, which builds every policy. -/
structure Policy where
  name : String
  strategy : PolicyStrategy
  costWeight : ℚ := 7 / 10
  latencyWeight : ℚ := 3 / 10
  latencyCeilingMs : Option ℚ := none
  hedgeAfterMs : Option ℚ := none
  fallbackChain : List String := []
  fallbackModel : Option String := none
  provider : Option String := none
  model : Option String := none
  allow : Option (List String) := none
  deny : List String := []
  chain_nodup : fallbackChain.Nodup := by decide
  chain_given : strategy = .fallback → fallbackChain ≠ [] := by decide
  deriving DecidableEq

/-- `Policy.permits`: `none`, or the reason the provider may not serve. -/
def Policy.permits (p : Policy) (provider : String) : Option String :=
  if provider ∈ p.deny then some "denied by policy"
  else match p.allow with
    | some allow => if provider ∈ allow then none else some "not in policy allow list"
    | none => none

/-- `PolicySet`. -/
structure PolicySet where
  policies : Dict String Policy

/-- `PolicySet.get`: the policy of that name, of `default` without a name. -/
def PolicySet.get (s : PolicySet) (name : Option String) : Option Policy :=
  s.policies.get? (if name.getD "" = "" then "default" else name.getD "")

/-- `PolicySet.names`. -/
def PolicySet.names (s : PolicySet) : List String := s.policies.keys.mergeSort (· ≤ ·)

end Caips.Coreai
