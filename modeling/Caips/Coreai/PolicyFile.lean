/-
Caips.Coreai.PolicyFile — reading a policy file, after `parse_policies` and
`load_policies` of `coreai/policy.py`.

A document is what `yaml.safe_load` builds. Two things a validator of such
documents can meet besides a problem to report: Python refuses to order keys
of different types, and it refuses to turn an integer into a float or into
text when the integer is too large. Both are exceptions of their own, and
`Except` carries them beside `PolicyError`.
-/
import Caips.Coreai.Policy

namespace Caips.Coreai

open Caips.Logic

/-! ## Documents -/

/-- The scalars of a document; these are also the keys of its mappings. A
timestamp is in microseconds, with a time zone or without. -/
inductive YamlScalar where
  | null
  | bool (b : Bool)
  | int (n : ℤ)
  | float (x : Float)
  | str (s : String)
  | bytes (b : List UInt8)
  | date (ordinal : ℕ)
  | datetime (aware : Bool) (micros : ℤ)
  deriving DecidableEq

/-- A document: `other` is a tuple or a set, which `!!omap`, `!!pairs` and
`!!set` build. -/
inductive YamlValue where
  | scalar (k : YamlScalar)
  | list (items : List YamlValue)
  | dict (entries : List (YamlScalar × YamlValue))
  | other (items : List YamlValue)

/-- The entries of a mapping. -/
abbrev YamlEntries := List (YamlScalar × YamlValue)

def YamlValue.null : YamlValue := .scalar .null

def YamlValue.str (s : String) : YamlValue := .scalar (.str s)

/-- `d.get(key, default)`. -/
def lookupD (d : YamlEntries) (key : String) (default : YamlValue) : YamlValue :=
  (Dict.find (.str key) d).getD default

/-- The scalar has a text: Python writes integers of up to 4300 digits. -/
def YamlScalar.writable : YamlScalar → Bool
  | .int n => (Nat.toDigits 10 n.natAbs).length ≤ 4300
  | _ => true

mutual

def YamlValue.writable : YamlValue → Bool
  | .scalar k => k.writable
  | .list items => writableItems items
  | .dict entries => writableEntries entries
  | .other items => writableItems items

def writableItems : List YamlValue → Bool
  | [] => true
  | v :: items => v.writable && writableItems items

def writableEntries : List (YamlScalar × YamlValue) → Bool
  | [] => true
  | e :: entries => e.1.writable && e.2.writable && writableEntries entries

end

/-- The kinds of scalars that `<` compares among themselves. -/
inductive YamlOrder where
  | number
  | text
  | bytes
  | date
  | naive
  | aware
  deriving DecidableEq

def YamlScalar.order : YamlScalar → Option YamlOrder
  | .null => none
  | .bool _ | .int _ | .float _ => some .number
  | .str _ => some .text
  | .bytes _ => some .bytes
  | .date _ => some .date
  | .datetime aware _ => some (if aware then .aware else .naive)

/-- `float(value)` of a number, as it is compared. -/
def YamlScalar.toFloat : YamlScalar → Float
  | .bool b => if b then 1 else 0
  | .int n => .ofInt n
  | .float x => x
  | _ => 0

/-- `a <= b`, for scalars of one kind; two integers are compared exactly. -/
def YamlScalar.le : YamlScalar → YamlScalar → Bool
  | .int a, .int b => a ≤ b
  | .str a, .str b => a ≤ b
  | .bytes a, .bytes b => a ≤ b
  | .date a, .date b => a ≤ b
  | .datetime _ a, .datetime _ b => a ≤ b
  | a, b => a.toFloat ≤ b.toFloat

/-! ## What validation returns -/

/-- `PolicyError` with its problems, or another exception by its class. -/
inductive PolicyFailure where
  | policyError (problems : List String)
  | other (exc : String)
  deriving DecidableEq

/-- `Policy` as `parse_policies` builds it, with the floats of the document. -/
structure ParsedPolicy where
  name : String
  strategy : PolicyStrategy
  costWeight : Float
  latencyWeight : Float
  latencyCeilingMs : Option Float
  hedgeAfterMs : Option Float
  fallbackChain : List String
  fallbackModel : Option String
  provider : Option String
  model : Option String
  allow : Option (List String)
  deny : List String
  deriving DecidableEq

/-- What a `PolicyStore` is built with, and how Python writes a value and a
scalar that is not text. -/
structure PolicySetting where
  path : String
  knownProviders : Option (List String)
  checkInterval : ℚ
  repr : YamlValue → String
  scalarText : YamlScalar → String

/-- A store for `routing.yml`, checked every two seconds. -/
def routingSetting : PolicySetting where
  path := "routing.yml"
  knownProviders := none
  checkInterval := 2
  repr := fun _ => ""
  scalarText := fun _ => ""

/-- `STRATEGIES`. -/
def strategies : List (String × PolicyStrategy) :=
  [("cost_aware", .balanced), ("balanced", .balanced), ("cheapest", .cheapest),
    ("latency_first", .fastest), ("fastest", .fastest), ("round_robin", .roundRobin),
    ("fallback", .fallback), ("explicit", .explicit)]

/-- `_POLICY_KEYS`. -/
def policyKeys : List String :=
  ["strategy", "weights", "latency_ceiling_ms", "hedge_after_ms", "fallback_chain", "fallback_model",
    "provider", "model", "allow", "deny"]

/-- `_DEFAULT_COST_AWARE_WEIGHTS`. -/
def defaultCostAwareWeights : Float × Float := (0.7, 0.3)

/-! ## The checks of one policy -/

variable (S : PolicySetting)

/-- `str(key)`. -/
def keyText : YamlScalar → Except PolicyFailure String
  | .str s => .ok s
  | k => if k.writable then .ok (S.scalarText k) else .error (.other "ValueError")

/-- `repr(value)`. -/
def reprOf (v : YamlValue) : Except PolicyFailure String :=
  if v.writable then .ok (S.repr v) else .error (.other "ValueError")

/-- The scalars can be sorted: at most one, or all of one kind. -/
def sortable : List YamlScalar → Bool
  | [] | [_] => true
  | k :: l => k.order.isSome && l.all fun k' => k'.order = k.order

/-- `sorted(keys)`. -/
def sortKeys (keys : List YamlScalar) : Except PolicyFailure (List YamlScalar) :=
  if sortable keys then .ok (keys.mergeSort YamlScalar.le) else .error (.other "TypeError")

/-- `set(body) - _POLICY_KEYS`. -/
def unknownKeys (body : YamlEntries) : List YamlScalar :=
  (body.map Prod.fst).filter fun k => !policyKeys.any fun name => k = .str name

/-- The problems with the keys of a body. -/
def checkKeys (place : String) (body : YamlEntries) : Except PolicyFailure (List String) := do
  let keys ← sortKeys (unknownKeys body)
  keys.mapM fun key => do
    let text ← reprOf S (.scalar key)
    return s!"{place}: unknown key {text}"

/-- `STRATEGIES.get(strategy_raw)`, of a string. -/
def strategyOf : YamlValue → Option PolicyStrategy
  | .scalar (.str s) => (strategies.find? fun e => e.1 = s).map Prod.snd
  | _ => none

/-- `_number`. -/
def number : YamlValue → Except PolicyFailure (Option Float)
  | .scalar (.int n) => if (Float.ofInt n).isInf then .error (.other "OverflowError") else .ok (some (.ofInt n))
  | .scalar (.float x) => .ok (some x)
  | _ => .ok none

/-- `_name_list`, with the problem. -/
def nameList (place : String) : YamlValue → List String × List String
  | .list items =>
    let names := items.filterMap fun v => match v with
      | .scalar (.str s) => some s
      | _ => none
    if names.length = items.length then (names, []) else ([], [s!"{place}: must be a list of provider names"])
  | _ => ([], [s!"{place}: must be a list of provider names"])

/-- `check_provider`, of several. -/
def checkProviders (known : Option (List String)) (place : String) (names : List String) : List String :=
  match known with
  | none => []
  | some known => (names.filter fun n => n ∉ known).map fun n =>
    s!"{place}: unknown provider {S.repr (.str n)}"

/-- The weights of a body that has a strategy. -/
def checkWeights (place : String) : YamlValue → Except PolicyFailure ((Float × Float) × List String)
  | .scalar .null => .ok (defaultCostAwareWeights, [])
  | .dict weights =>
    if weights.any fun e => e.1 ≠ .str "cost" && e.1 ≠ .str "latency" then
      .ok (defaultCostAwareWeights, [s!"{place}.weights: only `cost` and `latency` allowed"])
    else do
      let c ← number (lookupD weights "cost" (.scalar (.float 0)))
      let lat ← number (lookupD weights "latency" (.scalar (.float 0)))
      match c, lat with
      | some c, some lat =>
        if c < 0 || lat < 0 then
          return (defaultCostAwareWeights, [s!"{place}.weights: must be non-negative numbers"])
        else if c + lat == 0 then
          return (defaultCostAwareWeights, [s!"{place}.weights: cost and latency can't both be 0"])
        else return ((c / (c + lat), lat / (c + lat)), [])
      | _, _ => return (defaultCostAwareWeights, [s!"{place}.weights: must be non-negative numbers"])
  | _ => .ok (defaultCostAwareWeights, [s!"{place}.weights: only `cost` and `latency` allowed"])

/-- A field that is a positive number of milliseconds, or absent. -/
def checkPositive (place field : String) : YamlValue → Except PolicyFailure (Option Float × List String)
  | .scalar .null => .ok (none, [])
  | v => do
      match ← number v with
      | some x =>
        if x ≤ 0 then return (none, [s!"{place}.{field}: must be a positive number"])
        else return (some x, [])
      | none => return (none, [s!"{place}.{field}: must be a positive number"])

/-- `fallback_chain`. -/
def checkChain (known : Option (List String)) (place : String) (v : YamlValue) : List String × List String :=
  let (chain, problems) := nameList s!"{place}.fallback_chain" v
  (chain, problems ++
    (if chain.Nodup then [] else [s!"{place}.fallback_chain: duplicate providers"]) ++
    checkProviders S known s!"{place}.fallback_chain" chain)

/-- `allow`, or `deny`, as a set. -/
def checkSet (known : Option (List String)) (place : String) (v : YamlValue) : List String × List String :=
  let (names, problems) := nameList place v
  (names.dedup, problems ++ checkProviders S known place names.dedup)

/-- The names in both lists. -/
def checkDisjoint (place : String) (allow : Option (List String)) (deny : List String) : List String :=
  match allow with
  | none => []
  | some allow =>
    let both := allow.filter fun n => n ∈ deny
    if both = [] then []
    else
      let text := S.repr (.list ((both.mergeSort (· ≤ ·)).map YamlValue.str))
      [s!"{place}: {text} are in both allow and deny"]

/-- `provider`. -/
def checkProvider (known : Option (List String)) (place : String) : YamlValue → Option String × List String
  | .scalar .null => (none, [])
  | .scalar (.str s) => (some s, checkProviders S known s!"{place}.provider" [s])
  | _ => (none, [s!"{place}.provider: must be a string"])

/-- `model`, or `fallback_model`. -/
def checkModel (place field : String) : YamlValue → Option String × List String
  | .scalar .null => (none, [])
  | .scalar (.str s) => (some s, [])
  | _ => (none, [s!"{place}.{field}: must be a string"])

/-- The checks after those of the numbers, none of which raises: the policy,
and the problems. -/
def checkNames (known : Option (List String)) (place name : String) (body : YamlEntries)
    (strategy : PolicyStrategy) (weights : Float × Float) (ceiling hedge : Option Float) :
    ParsedPolicy × List String :=
  let chain := checkChain S known place (lookupD body "fallback_chain" (.list []))
  let allow := (Dict.find (.str "allow") body).map (checkSet S known s!"{place}.allow")
  let deny := checkSet S known s!"{place}.deny" (lookupD body "deny" (.list []))
  let provider := checkProvider S known place (lookupD body "provider" .null)
  let model := checkModel place "model" (lookupD body "model" .null)
  let fallbackModel := checkModel place "fallback_model" (lookupD body "fallback_model" .null)
  ({ name := name, strategy := strategy, costWeight := weights.1, latencyWeight := weights.2
     latencyCeilingMs := ceiling, hedgeAfterMs := hedge, fallbackChain := chain.1
     fallbackModel := fallbackModel.1, provider := provider.1, model := model.1
     allow := allow.map Prod.fst, deny := deny.1 },
    chain.2 ++ allow.elim [] Prod.snd ++ deny.2 ++ checkDisjoint S place (allow.map Prod.fst) deny.1 ++ provider.2 ++
      (if strategy = .explicit ∧ provider.1 = none then
        [s!"{place}: strategy `explicit` requires `provider`"] else []) ++
      (if strategy = .fallback ∧ chain.1 = [] then
        [s!"{place}: strategy `fallback` requires `fallback_chain`"] else []) ++
      model.2 ++ fallbackModel.2)

/-- The checks of one policy: its problems, and the policy if it got that far. -/
def parseBody (known : Option (List String)) (name : YamlScalar) (body : YamlValue) :
    Except PolicyFailure (List String × Option ParsedPolicy) := do
  let text ← keyText S name
  let place := s!"policies.{text}"
  match body with
  | .dict body => do
      let unknown ← checkKeys S place body
      let raw := lookupD body "strategy" (.str "cost_aware")
      match strategyOf raw with
      | none => do
          let given ← reprOf S raw
          let names := S.repr (.list (((strategies.map Prod.fst).mergeSort (· ≤ ·)).map YamlValue.str))
          return (unknown ++ [s!"{place}.strategy: {given} is not one of {names}"], none)
      | some strategy => do
          let weights ← checkWeights place (lookupD body "weights" .null)
          let ceiling ← checkPositive place "latency_ceiling_ms" (lookupD body "latency_ceiling_ms" .null)
          let hedge ← checkPositive place "hedge_after_ms" (lookupD body "hedge_after_ms" .null)
          let rest := checkNames S known place text body strategy weights.1 ceiling.1 hedge.1
          return (unknown ++ weights.2 ++ ceiling.2 ++ hedge.2 ++ rest.2, some rest.1)
  | _ => return ([s!"{place}: must be a mapping"], none)

/-! ## Documents and files -/

/-- The loop over the policies: all problems, and the policies in order. -/
def parseEntries (known : Option (List String)) :
    YamlEntries → Except PolicyFailure (List String × List ParsedPolicy)
  | [] => .ok ([], [])
  | e :: l => do
      let first ← parseBody S known e.1 e.2
      let rest ← parseEntries known l
      return (first.1 ++ rest.1, first.2.toList ++ rest.2)

/-- The policies by name, the last of two with one name. -/
def byName (policies : List ParsedPolicy) : Dict String ParsedPolicy :=
  .ofList (policies.map fun p => (p.name, p))

/-- `parse_policies`. -/
def parsePolicies (known : Option (List String)) (data : YamlValue) :
    Except PolicyFailure (Dict String ParsedPolicy) :=
  match data with
  | .dict document =>
    match lookupD document "policies" .null with
    | .dict (e :: raw) => do
        let parsed ← parseEntries S known (e :: raw)
        if parsed.1 = [] then return byName parsed.2 else .error (.policyError parsed.1)
    | _ => .error (.policyError ["`policies` must be a non-empty mapping"])
  | _ => .error (.policyError ["top level must be a mapping"])

/-- What is in the file: it cannot be opened, it is not YAML, reading it raises
something else (the bytes are not UTF-8, a timestamp is no date), or it is a
document. -/
inductive FileContent where
  | unreadable (strerror : String)
  | invalid (exc : String)
  | raises (exc : String)
  | document (data : YamlValue)

/-- `load_policies`. -/
def loadPolicies (known : Option (List String)) : FileContent → Except PolicyFailure (Dict String ParsedPolicy)
  | .unreadable strerror => .error (.policyError [s!"{S.path}: cannot read file ({strerror})"])
  | .invalid exc => .error (.policyError [s!"{S.path}: invalid YAML ({exc})"])
  | .raises exc => .error (.other exc)
  | .document data => parsePolicies S known data

end Caips.Coreai
