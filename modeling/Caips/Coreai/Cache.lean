/-
Caips.Coreai.Cache — the response cache the router builds for itself, after
`MemoryCache` and `ResponseCache` of `coreai/cache.py`.

The operations are `async` in the source but nothing in them suspends.
`MemoryCache` is generic in its keys and values. The text key of
`ResponseCache` (a digest of provider, model, messages and options) is kept as
the record it is computed from. The clock's readings are the numbers its doubles
stand for, and their sums are rounded.
-/
import Caips.Logic.Rounding
import Caips.Providers.Base

namespace Caips.Coreai

open Caips.Logic Caips.Providers

/-- What `_make_key` digests. -/
structure CacheKey where
  provider : String
  model : String
  messages : List (String × String)
  systemPrompt : Option String
  temperature : ℚ
  maxTokens : Nat
  responseFormat : Option String
  deriving DecidableEq

/-- `_validate_ttl`. -/
def validateTtl (ttlSeconds : ℤ) : Except String Unit :=
  if ttlSeconds < 0 then .error "ttl_seconds must be a non-negative integer" else .ok ()

/-- `MemoryCache`: entries with their expiry, least recently used first. -/
structure MemoryCache (κ ν : Type) where
  maxEntries : Nat
  store : Dict κ (ν × ℚ) := Dict.empty
  evictions : Nat := 0

namespace MemoryCache

variable {κ ν : Type}

/-- `MemoryCache.__init__`. -/
def init (maxEntries : ℤ) : Except String (MemoryCache κ ν) :=
  if maxEntries < 1 then .error "max_entries must be a positive integer"
  else .ok { maxEntries := maxEntries.toNat }

variable [DecidableEq κ]

/-- `move_to_end`, after storing `v`. -/
def touch (c : MemoryCache κ ν) (k : κ) (v : ν × ℚ) : MemoryCache κ ν :=
  { c with store := (c.store.pop k).set k v }

/-- `get`. -/
def get (c : MemoryCache κ ν) (k : κ) (now : ℚ) : Option ν × MemoryCache κ ν :=
  match c.store.get? k with
  | none => (none, c)
  | some (v, expiry) =>
    if expiry ≤ now then (none, { c with store := c.store.pop k })
    else (some v, c.touch k (v, expiry))

/-- `purge_expired`. -/
def purgeExpired (c : MemoryCache κ ν) (now : ℚ) : MemoryCache κ ν :=
  let expired := c.store.entries.filter fun e => decide (e.2.2 ≤ now)
  { c with store := expired.foldl (fun d e => d.pop e.1) c.store }

/-- The keys the eviction loop of `set` pops. -/
def overflow (c : MemoryCache κ ν) : List κ :=
  c.store.keys.take (c.store.keys.length - c.maxEntries)

/-- The eviction loop of `set`: the oldest entries go until the size fits. -/
def evict (c : MemoryCache κ ν) : MemoryCache κ ν :=
  { c with
    store := c.overflow.foldl Dict.pop c.store
    evictions := c.evictions + c.overflow.length }

/-- The least integers that make no float: `int too large to convert to float`. -/
@[irreducible] def ttlLimit : ℕ := 2 ^ 1024 - 2 ^ 970

/-- `clock() + ttl_seconds`: the integer is made a double, and the sum is rounded. -/
def expiry (now : ℚ) (ttl : ℕ) : ℚ := nearestDouble (now + nearestDouble ttl)

/-- `set`, up to its eviction loop. The clock is read for the expiry, and again
where expired entries are purged. -/
def stored (c : MemoryCache κ ν) (k : κ) (v : ν) (ttl : Nat) (now later : ℚ) : MemoryCache κ ν :=
  let c := c.touch k (v, expiry now ttl)
  if c.maxEntries < c.store.keys.length then c.purgeExpired later else c

/-- `set`, once its time to live is known to make a float. -/
def write (c : MemoryCache κ ν) (k : κ) (v : ν) (ttl : Nat) (now later : ℚ) : MemoryCache κ ν :=
  if ttl = 0 then { c with store := c.store.pop k }
  else (c.stored k v ttl now later).evict

/-- `set`. It raises before it stores anything. -/
def set (c : MemoryCache κ ν) (k : κ) (v : ν) (ttlSeconds : ℤ) (now later : ℚ) :
    Except String (MemoryCache κ ν) := do
  validateTtl ttlSeconds
  if ttlLimit ≤ ttlSeconds.toNat then throw "int too large to convert to float"
  return c.write k v ttlSeconds.toNat now later

/-- `delete`. -/
def delete (c : MemoryCache κ ν) (k : κ) : MemoryCache κ ν := { c with store := c.store.pop k }

/-- `clear`. -/
def clear (c : MemoryCache κ ν) : MemoryCache κ ν := { c with store := Dict.empty }

end MemoryCache

/-- `ResponseCache` over a `MemoryCache`. -/
structure ResponseCache where
  backend : MemoryCache CacheKey CompletionResponse
  hits : Nat := 0
  misses : Nat := 0

namespace ResponseCache

/-- `get`. -/
def get (c : ResponseCache) (k : CacheKey) (now : ℚ) : Option CompletionResponse × ResponseCache :=
  match c.backend.get k now with
  | (some v, b) => (some v, { c with backend := b, hits := c.hits + 1 })
  | (none, b) => (none, { c with backend := b, misses := c.misses + 1 })

/-- `set`. The router's time stands still while it stores a response, and its time
to live is taken to make a float. -/
def set (c : ResponseCache) (k : CacheKey) (v : CompletionResponse) (ttl : Nat) (now : ℚ) :
    ResponseCache :=
  { c with backend := c.backend.write k v ttl now now }

end ResponseCache

end Caips.Coreai
