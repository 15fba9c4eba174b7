/-
Caips.Coreai.Pricing — the price table of `coreai/pricing.py`.

The counters of unlisted models (`unpriced`) are left out: no price depends on
them.
-/
import Caips.Logic.Dict
import Mathlib.Data.Rat.Defs

namespace Caips.Coreai

open Caips.Logic

/-- `Rate`: USD per million tokens. -/
structure Rate where
  inputPerMtok : ℚ
  outputPerMtok : ℚ

/-- `Rate.cost`. A count that is absent is 0. -/
def Rate.cost (r : Rate) (inputTokens outputTokens : Option ℕ) : ℚ :=
  ((inputTokens.getD 0 : ℕ) * r.inputPerMtok + (outputTokens.getD 0 : ℕ) * r.outputPerMtok) / 1000000

/-- The rates of one provider. -/
structure PriceEntry where
  standard : Rate
  models : Dict String Rate

/-- `PriceTable`. -/
structure PriceTable where
  providers : Dict String PriceEntry

namespace PriceTable

/-- `PriceTable.rate`, up to whether the model is listed. -/
def rate (t : PriceTable) (provider model : String) : Option Rate :=
  (t.providers.get? provider).map fun entry => (entry.models.get? model).getD entry.standard

/-- `PriceTable.cost`: a provider with no table is a `PricingError`. -/
def cost (t : PriceTable) (provider model : String) (inputTokens outputTokens : Option ℕ) :
    Except String ℚ :=
  match t.rate provider model with
  | some rate => .ok (rate.cost inputTokens outputTokens)
  | none => .error ("no prices for provider '" ++ provider ++ "'")

end PriceTable

end Caips.Coreai
