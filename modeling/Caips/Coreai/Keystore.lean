/-
Caips.Coreai.Keystore — provider keys added at runtime, after
`coreai/keystore.py`, with the catalog of `providers/catalog.py`.

The store is the list of entries in its file. What lies outside is a
parameter: the cipher, the catalog and its presets, `str.lower`, and the ids
and times an added entry gets. `Keystore.add` reads and writes under a lock,
so it is one step.
-/
import Caips.Logic.Dict

namespace Caips.Coreai

open Caips.Logic

inductive LabKind where
  | native
  | compat
  | local
  | custom
  deriving DecidableEq, Repr

/-- An entry of `CATALOG`; its label, region and variable are left out. -/
structure Lab where
  id : String
  kind : LabKind
  baseUrl : String := ""
  model : String := ""

/-- What the store and the loader find around them. -/
structure KeySetting where
  catalog : List Lab
  /-- `PRESETS` of the self-hosted servers. -/
  presets : Dict String String
  lower : String → String
  encrypt : String → String
  decrypt : String → Option String
  /-- `SECRET_KEY` or `CAIPS_KEYSTORE_SECRET` is set. -/
  hasSecret : Bool

/-- `BY_ID`. -/
def KeySetting.byId (S : KeySetting) : Dict String Lab := .ofList (S.catalog.map fun l => (l.id, l))

/-- An entry of the store. -/
structure KeyEntry where
  id : String
  provider : String
  label : String
  baseUrl : String
  model : String
  created : Nat
  token : String
  deriving DecidableEq, Repr

/-- The body of an add-key request. -/
structure KeyBody where
  provider : String
  apiKey : String := ""
  label : String := ""
  baseUrl : String := ""
  model : String := ""

/-- An entry with its key decrypted. -/
structure KeySecret where
  provider : String
  label : String
  baseUrl : String
  model : String
  apiKey : String

namespace Keystore

/-- `str.isspace` of one character. -/
def isSpace (c : Char) : Bool :=
  let n := c.toNat
  (9 ≤ n && n ≤ 13) || (28 ≤ n && n ≤ 32) || n == 0x85 || n == 0xa0 || n == 0x1680 ||
    (0x2000 ≤ n && n ≤ 0x200a) || n == 0x2028 || n == 0x2029 || n == 0x202f || n == 0x205f || n == 0x3000

/-- `s.rstrip(…)`. -/
def rstrip (p : Char → Bool) (s : String) : String :=
  String.ofList (s.toList.reverse.dropWhile p).reverse

/-- `s.strip()`. -/
def strip (s : String) : String :=
  rstrip isSpace (String.ofList (s.toList.dropWhile isSpace))

/-- `s.rstrip("/")`. -/
def stripSlashes (s : String) : String := rstrip (· == '/') s

/-- A lower-case letter or a digit of ASCII. -/
def isLower (c : Char) : Bool := ('a' ≤ c && c ≤ 'z') || ('0' ≤ c && c ≤ '9')

/-- `NAME_RE.fullmatch`. -/
def nameOk (s : String) : Bool :=
  match s.toList with
  | [] => false
  | c :: rest => isLower c && rest.length ≤ 31 && rest.all fun c => isLower c || c == '_' || c == '-'

def isUrl (s : String) : Bool := s.startsWith "http://" || s.startsWith "https://"

variable (S : KeySetting)

/-- `_fernet`, as far as it fails. -/
def fernet : Except String Unit :=
  if S.hasSecret then .ok () else .error "set SECRET_KEY (or CAIPS_KEYSTORE_SECRET) to store keys"

/-- `load_secrets`: entries that cannot be decrypted are skipped. -/
def loadSecrets (entries : List KeyEntry) : Except String (List KeySecret) :=
  if entries.isEmpty then .ok []
  else do
    fernet S
    .ok <| entries.filterMap fun e =>
      (if e.token = "" then some "" else S.decrypt e.token).map fun key =>
        { provider := e.provider, label := e.label, baseUrl := e.baseUrl, model := e.model, apiKey := key }

/-- The endpoint `add` stores for a body, after what it checks of it. -/
def checkBody (lab : Lab) (provider apiKey label baseUrl : String) : Except String String :=
  if lab.kind ≠ .local ∧ apiKey = "" then .error "api_key is required"
  else do
    let baseUrl ←
      if lab.kind = .local ∨ lab.kind = .custom then
        if ¬nameOk label then .error "label (the provider name) must be a-z, 0-9, '-' or '_'"
        else if S.byId.contains label then .error s!"label '{label}' is reserved"
        else
          let baseUrl := if baseUrl = "" then (S.presets.get? label).getD "" else baseUrl
          if baseUrl = "" then
            .error ("base_url is required (or label one of: " ++ ", ".intercalate S.presets.keys ++ ")")
          else .ok baseUrl
      else if baseUrl ≠ "" ∧ lab.kind = .native then
        .error s!"{provider} uses its SDK's endpoint; base_url is not supported"
      else .ok baseUrl
    if baseUrl ≠ "" ∧ ¬isUrl baseUrl then .error "base_url must start with http:// or https://"
    else .ok baseUrl

/-- The label `add` gives an entry. -/
def chooseLabel (lab : Lab) (entries : List KeyEntry) (provider label : String) : Except String String :=
  let same := entries.filter fun e => e.provider = provider
  if lab.kind = .local ∨ lab.kind = .custom then
    if entries.any fun e => (e.provider == "local" || e.provider == "custom") && e.label == label then
      .error s!"a server named '{label}' already exists"
    else .ok label
  else
    let label := if label = "" then toString (same.length + 1) else label
    if ¬nameOk label then .error "label must be a-z, 0-9, '-' or '_'"
    else if same.any fun e => e.label == label then
      .error s!"{provider} already has a key labelled '{label}'"
    else .ok label

/-- `add`: the store with the new entry. -/
def add (entries : List KeyEntry) (body : KeyBody) (id : String) (now : Nat) :
    Except String (List KeyEntry) :=
  match S.byId.get? body.provider with
  | none => .error s!"unknown provider '{body.provider}'"
  | some lab => do
      let apiKey := strip body.apiKey
      let label := S.lower (strip body.label)
      let model := strip body.model
      let baseUrl ← checkBody S lab body.provider apiKey label (stripSlashes (strip body.baseUrl))
      let label ← chooseLabel lab entries body.provider label
      let token ← if apiKey = "" then .ok "" else do
        fernet S
        .ok (S.encrypt apiKey)
      .ok (entries ++ [{ id, provider := body.provider, label, baseUrl, model, created := now, token }])

/-- `remove`: the store without the entry, or nothing to remove. -/
def remove (entries : List KeyEntry) (id : String) : Option (List KeyEntry) :=
  let kept := entries.filter fun e => e.id ≠ id
  if kept.length = entries.length then none else some kept

end Keystore

end Caips.Coreai
