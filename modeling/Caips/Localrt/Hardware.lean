/-
Caips.Localrt.Hardware — planning how a model is loaded, after `plan` of
`localrt/hardware.py`.

Numbers are exact: `headroom` and what is computed from it are rational.
-/
import Caips.Logic.Rounding
import Mathlib.Data.Rat.Floor

namespace Caips.Localrt

open Caips.Logic

inductive Backend where
  | cuda
  | metal
  | vulkan
  | cpu
  deriving DecidableEq

structure Hardware where
  backend : Backend
  ramBytes : ℕ
  vramBytes : ℕ

/-- What `plan` returns. -/
structure Plan where
  ctx : ℕ
  nGpuLayers : ℕ
  fits : Bool
  deriving DecidableEq

/-- What `plan` is called with, but for the overrides. -/
structure PlanArgs where
  modelBytes : ℕ
  trainedCtx : ℕ
  nLayers : ℕ
  hw : Hardware
  parallel : ℕ
  headroom : ℚ

/-- `kv_cache_bytes`. -/
def kvCacheBytes (ctx nLayers embd : ℕ) : ℕ := 2 * nLayers * ctx * embd * 2

namespace PlanArgs

variable (a : PlanArgs)

/-- The cache for a context, with the layers and the width that are assumed. -/
def kvBytes (ctx : ℕ) : ℕ := kvCacheBytes (ctx * a.parallel) 32 4096

def budget : ℤ := truncate ((if a.hw.vramBytes = 0 then a.hw.ramBytes else a.hw.vramBytes : ℕ) * a.headroom)

def perLayer : ℚ := a.modelBytes / max a.nLayers 1

/-- What so many layers and the cache take. -/
def exactNeed (ctx layers : ℕ) : ℚ := a.perLayer * layers + a.kvBytes ctx

def need (ctx layers : ℕ) : ℤ := truncate (a.exactNeed ctx layers)

def firstCtx : ℕ := min (if a.trainedCtx = 0 then 4096 else a.trainedCtx) 8192

/-- The loop that shrinks the context. -/
def shrink (ctx : ℕ) : ℕ :=
  if 2048 < ctx ∧ a.budget < a.need ctx a.nLayers then shrink (ctx / 2) else ctx
termination_by ctx
decreasing_by omega

/-- The loop that moves layers off the GPU. -/
def offload (ctx : ℕ) : ℕ → ℕ
  | 0 => 0
  | layers + 1 => if a.budget < a.need ctx (layers + 1) then offload ctx layers else layers + 1

end PlanArgs

/-- `plan`. -/
def plan (a : PlanArgs) (ctxOverride : ℕ) (nglOverride : Option ℕ) : Plan :=
  let ctx := if ctxOverride = 0 then a.shrink a.firstCtx else ctxOverride
  if a.hw.backend = .cpu then
    { ctx, nGpuLayers := nglOverride.getD 0, fits := decide (((a.modelBytes + a.kvBytes ctx : ℕ) : ℤ) ≤ a.budget) }
  else
    let layers := a.offload ctx a.nLayers
    { ctx
      nGpuLayers := nglOverride.getD layers
      fits := decide (0 < layers ∨ (a.modelBytes : ℚ) ≤ a.hw.ramBytes * a.headroom) }

end Caips.Localrt
