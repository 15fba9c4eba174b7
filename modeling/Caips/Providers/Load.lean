/-
Caips.Providers.Load — the providers that keys give, after
`providers/__init__.py`.

Of a provider this keeps what `fingerprint` reads, one `Account` for each key
behind it, and the two marks a reload looks at. The constructors are the
SDKs': whether one fails, and what model and endpoint a native provider has,
is a parameter, and so are the environment variables.
-/
import Caips.Coreai.Keystore

namespace Caips.Providers

open Caips.Logic Caips.Coreai

/-- What `fingerprint` says of one key: `(api_key, base_url, default_model)`. -/
structure Account where
  apiKey : String
  baseUrl : String
  defaultModel : String
  deriving DecidableEq, Repr

/-- A provider; several accounts are a `KeyPoolProvider`. -/
structure LoadedProvider where
  members : List Account
  managed : Bool := false
  isLocal : Bool := false
  deriving DecidableEq, Repr

def fingerprint (p : LoadedProvider) : List Account := p.members

/-- What `load_providers` finds around it. -/
structure LoadSetting extends KeySetting where
  /-- `PROVIDER_MAP`: names, their variables, and the stripped values of these. -/
  providerMap : List (String × String × String)
  /-- `EXTRA_ENV`: labs, and the stripped values of their variables. -/
  extraEnv : List (String × String)
  /-- `PROVIDER_MAP[name][0](api_key=key)`. -/
  native : String → String → Except String Account
  /-- How the client of a key and an endpoint fails. -/
  client : String → String → Option String
  /-- `GrokProvider.default_model`, which `CompatProvider` inherits. -/
  grokModel : String

/-- `ProviderLoadResult`. -/
structure ProviderLoadResult where
  providers : Dict String LoadedProvider := .empty
  skipped : Dict String String := .empty
  failed : Dict String String := .empty

variable (S : LoadSetting)

/-- A client for a key at an endpoint. -/
def connect (apiKey baseUrl model : String) : Except String Account :=
  match S.client apiKey baseUrl with
  | none => .ok ⟨apiKey, baseUrl, model⟩
  | some error => .error error

/-- `CompatProvider(key, name, base_url, model)`. -/
def compatProvider (key baseUrl model : String) : Except String Account :=
  connect S key (Keystore.stripSlashes baseUrl) (if model = "" then S.grokModel else model)

/-- `LocalProvider(name, base_url, api_key, default_model=…)`. -/
def localProvider (key baseUrl model : String) : Except String Account :=
  connect S (if key = "" then "not-needed" else key) (Keystore.stripSlashes baseUrl) model

/-- `_build`. -/
def build (lab : Lab) (key : String) (entry : KeySecret) : Except String Account :=
  if lab.kind = .native then S.native lab.id key
  else
    compatProvider S key (if entry.baseUrl = "" then lab.baseUrl else entry.baseUrl)
      (if entry.model = "" then lab.model else entry.model)

/-- Entries by lab, with the environment's key first. -/
def byLab (entries : List KeySecret) : Dict String (List KeySecret) :=
  let stored := entries.foldl (fun d e => d.set e.provider ((d.get? e.provider).getD [] ++ [e])) .empty
  S.extraEnv.foldl
    (fun d e =>
      if e.2 = "" then d
      else
        let env : KeySecret := { provider := e.1, label := "env", baseUrl := "", model := "", apiKey := e.2 }
        d.set e.1 (env :: (d.get? e.1).getD []))
    stored

/-- Several keys for one lab become one provider under the lab's name. -/
def loadLab (lab : Lab) (items : List KeySecret) (result : ProviderLoadResult) : ProviderLoadResult :=
  let own := ((result.providers.get? lab.id).map LoadedProvider.members).getD []
  let (members, failed) := items.foldl
    (fun acc item =>
      if item.label = "env" ∧ acc.1 ≠ [] then acc  -- the native key is there already
      else
        match build S lab item.apiKey item with
        | .ok a => (acc.1 ++ [a], acc.2)
        | .error error => (acc.1, acc.2.set s!"{lab.id}/{item.label}" error))
    (own, result.failed)
  if members = [] then { result with failed }
  else
    { providers := result.providers.set lab.id { members, managed := true }
      skipped := result.skipped.pop lab.id
      failed }

/-- Self-hosted and custom servers: one provider for each entry, named by its
label. -/
def loadServer (kind : LabKind) (result : ProviderLoadResult) (item : KeySecret) : ProviderLoadResult :=
  if result.providers.contains item.label then
    { result with failed := result.failed.set item.label "name clashes with another provider" }
  else
    match (if kind = .local then localProvider S item.apiKey item.baseUrl item.model
           else compatProvider S item.apiKey item.baseUrl item.model) with
    | .ok a =>
      { result with
        providers := result.providers.set item.label
          { members := [a], managed := true, isLocal := decide (kind = .local) } }
    | .error error => { result with failed := result.failed.set item.label error }

/-- `_load_store`. -/
def loadStore (entries : List KeyEntry) (result : ProviderLoadResult) : ProviderLoadResult :=
  match Keystore.loadSecrets S.toKeySetting entries with
  | .error error => { result with failed := result.failed.set "keystore" error }
  | .ok secrets =>
    (byLab S secrets).entries.foldl
      (fun result e =>
        match S.byId.get? e.1 with
        | none => result
        | some lab =>
          if lab.kind = .native ∨ lab.kind = .compat then loadLab S lab e.2 result
          else e.2.foldl (loadServer S lab.kind) result)
      result

/-- One provider of the environment. -/
def loadNative (result : ProviderLoadResult) (name envVar apiKey : String) : ProviderLoadResult :=
  if apiKey = "" then { result with skipped := result.skipped.set name s!"{envVar} not set" }
  else
    match S.native name apiKey with
    | .ok a => { result with providers := result.providers.set name { members := [a], managed := true } }
    | .error error => { result with failed := result.failed.set name error }

/-- `load_providers(include_local_yml=False)` over a store. -/
def loadProviders (entries : List KeyEntry) : ProviderLoadResult :=
  loadStore S entries (S.providerMap.foldl (fun result e => loadNative S result e.1 e.2.1 e.2.2) {})

end Caips.Providers
