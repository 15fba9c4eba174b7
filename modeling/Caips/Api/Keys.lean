/-
Caips.Api.Keys — adding and deleting provider keys while the gateway runs,
after `api/keys_api.py`.

A request edits the store and starts its reload in one step: calling a
coroutine runs it up to its first await. A reload computes the wanted
providers once and then goes through them, awaiting `refresh_models` of each
self-hosted one that is new or has changed. What it has yet to do is all it
remembers, so a suspended reload is its list of providers, the first of them
being refreshed.

`refresh_models` and the probes of the monitor find the models a server has,
or fail; they give a provider without a default model one. Of the router only
the shared dictionary of providers is kept, and what a request answers is
left out.
-/
import Caips.Logic.Machine
import Caips.Providers.Load

namespace Caips.Api

open Caips.Logic Caips.Coreai Caips.Providers

/-- `sorted(found)[0]`. -/
def firstModel (found : List String) : String := (found.mergeSort fun a b => decide (a ≤ b)).headD ""

/-- What discovering models does to a provider: one without a default model
takes the first that was found. `none` is a server that is down. -/
def discover (p : LoadedProvider) (found : Option (List String)) : LoadedProvider :=
  match found with
  | none => p
  | some found =>
    { p with members := p.members.map fun a =>
        if a.defaultModel = "" ∧ found ≠ [] then { a with defaultModel := firstModel found } else a }

/-- What a reload has yet to register; the first of these is being refreshed. -/
structure Reload where
  name : String
  provider : LoadedProvider
  rest : List (String × LoadedProvider)

def Reload.pending (r : Reload) : List (String × LoadedProvider) := (r.name, r.provider) :: r.rest

/-- The store, the providers of the router, and the reloads that are waiting. -/
structure Gateway where
  store : List KeyEntry
  providers : Dict String LoadedProvider
  reloads : List Reload := []

inductive KeyEvent where
  | addKey (body : KeyBody) (id : String) (now : Nat)
  | deleteKey (id : String)
  /-- A `refresh_models` a reload awaits ends. -/
  | refreshed (reload : Nat) (found : Option (List String))
  /-- The monitor probes a registered self-hosted provider. -/
  | probed (name : String) (found : Option (List String))

namespace Gateway

variable (S : LoadSetting)

/-- The loop of `reload_providers`, up to its next await. -/
def register (live : Dict String LoadedProvider) :
    List (String × LoadedProvider) → Dict String LoadedProvider × List Reload
  | [] => (live, [])
  | (name, p) :: rest =>
    match live.get? name with
    | some cur =>
      if ¬cur.managed then register live rest  -- clashes with a provider from config/local.yml
      else if fingerprint cur ≠ fingerprint p then
        if p.isLocal then (live, [⟨name, p, rest⟩]) else register (live.set name p) rest
      else register live rest
    | none =>
      if p.isLocal then (live, [⟨name, p, rest⟩]) else register (live.set name p) rest

/-- The managed providers that are no longer wanted, dropped. -/
def dropStale (live fresh : Dict String LoadedProvider) : Dict String LoadedProvider :=
  live.entries.foldl
    (fun d e => if e.2.managed && !fresh.contains e.1 then d.pop e.1 else d) live

/-- `reload_providers`, up to its first await. -/
def reloadProviders (g : Gateway) : Gateway :=
  let fresh := (loadProviders S g.store).providers
  let (live, waiting) := register (dropStale g.providers fresh) fresh.entries
  { g with providers := live, reloads := g.reloads ++ waiting }

/-- `add_key`. -/
def addKey (g : Gateway) (body : KeyBody) (id : String) (now : Nat) : Gateway :=
  match Keystore.add S.toKeySetting g.store body id now with
  | .error _ => g
  | .ok store => { g with store }.reloadProviders S

/-- `delete_key`. -/
def deleteKey (g : Gateway) (id : String) : Gateway :=
  if id.startsWith "env:" then g
  else
    match Keystore.remove g.store id with
    | none => g
    | some store => { g with store }.reloadProviders S

/-- A reload goes on after an await. -/
def refreshed (g : Gateway) (i : Nat) (found : Option (List String)) : Option Gateway :=
  match g.reloads[i]? with
  | none => none
  | some r =>
    let (live, waiting) := register (g.providers.set r.name (discover r.provider found)) r.rest
    some { g with providers := live, reloads := g.reloads.eraseIdx i ++ waiting }

/-- A probe of a registered provider. -/
def probed (g : Gateway) (name : String) (found : Option (List String)) : Option Gateway :=
  match g.providers.get? name with
  | none => none
  | some p => if p.isLocal then some { g with providers := g.providers.set name (discover p found) } else none

def step (g : Gateway) : KeyEvent → Option Gateway
  | .addKey body id now => some (g.addKey S body id now)
  | .deleteKey id => some (g.deleteKey S id)
  | .refreshed i found => g.refreshed i found
  | .probed name found => g.probed name found

/-- The gateway as it starts: the providers of its store, and those of
`config/local.yml` under names that are free. -/
def Started (g : Gateway) : Prop :=
  ∃ locals : List (String × LoadedProvider), (∀ e ∈ locals, e.2.managed = false) ∧ g.reloads = [] ∧
    g.providers = locals.foldl (fun d e => if d.contains e.1 then d else d.set e.1 e.2)
      (loadProviders S g.store).providers

def machine : Machine Gateway KeyEvent := .ofFun (Started S) (step S)

end Gateway

end Caips.Api
