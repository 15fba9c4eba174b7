/-
Caips.Coreai.PolicyStore — the policy set that follows a file, after
`PolicyStore` of `coreai/policy.py`.

`PolicyWatch` runs a store beside its file: the file changes, the clock moves, and
the three public methods are called. Next to the store it keeps what the store
is for, an overlay of the last valid file under the edits made at run time.
-/
import Caips.Coreai.PolicyFile
import Caips.Logic.Machine
import Caips.Logic.Overlay

namespace Caips.Coreai

open Caips.Logic

/-- What `os.stat` and `open` find at the path. -/
inductive FileState where
  | missing
  | present (mtime : ℚ) (content : FileContent)

def FileState.content : FileState → Option FileContent
  | .missing => none
  | .present _ content => some content

/-- A call of `on_event`: the names that are active now, or the problems. -/
inductive PolicyNotice where
  | ok (policies : List String)
  | rejected (problems : List String)
  deriving DecidableEq

/-- The characters of a runtime name after the first. -/
def isNameChar (c : Char) : Bool := c.isAlphanum || c = '_' || c = '.' || c = '-'

/-- `RUNTIME_NAME.match(name)`; its `$` lets one line break at the end pass. -/
def runtimeName (name : String) : Bool :=
  let l := name.toList
  match (if l.getLast? = some '\n' then l.dropLast else l) with
  | [] => false
  | c :: r => c.isAlphanum && r.all isNameChar && decide (r.length ≤ 63)

/-- `PolicyStore`. -/
structure PolicyStore where
  mtime : Option ℚ := none
  nextCheck : ℚ := 0
  lastError : Option (List String) := none
  reloads : Nat := 0
  notices : List PolicyNotice := []
  set : Dict String ParsedPolicy := .empty
  edits : Dict String YamlEntries := .empty
  removed : List String := []
  effective : Dict String ParsedPolicy := .empty

/-- The document of one policy, as `set_policy` validates it. -/
def singleDocument (name : String) (body : YamlValue) : YamlValue :=
  .dict [(.str "policies", .dict [(.str name, body)])]

/-- The document of all edits. -/
def editsDocument (edits : Dict String YamlEntries) : YamlValue :=
  .dict [(.str "policies", .dict (edits.entries.map fun e => (.str e.1, .dict e.2)))]

namespace PolicyStore

variable (S : PolicySetting)

/-- `_merge`. -/
def merge (s : PolicyStore) : Except PolicyFailure PolicyStore :=
  let merged := s.removed.foldl (fun d name => d.pop name) s.set
  if s.edits.entries = [] then .ok { s with effective := merged }
  else do
    let edited ← parsePolicies S none (editsDocument s.edits)
    return { s with effective := merged.update edited }

/-- `_load`: the store it leaves, and what it raises. -/
def load (initial : Bool) (file : FileState) (s : PolicyStore) : PolicyStore × Option PolicyFailure :=
  match file with
  | .missing =>
    (if initial then { s with lastError := some [s!"{S.path}: file not found"] } else s, none)
  | .present mtime content =>
    if s.mtime = some mtime then (s, none)
    else
      let s := { s with mtime := some mtime }
      match loadPolicies S S.knownProviders content with
      | .error (.policyError problems) =>
        ({ s with lastError := some problems, notices := s.notices ++ [.rejected problems] }, none)
      | .error e => (s, some e)
      | .ok set =>
        let s := { s with set := set, lastError := none, reloads := s.reloads + 1 }
        match s.merge S with
        | .error e => (s, some e)
        | .ok s => ({ s with notices := s.notices ++ [.ok (s.effective.keys.mergeSort (· ≤ ·))] }, none)

/-- `__init__`: nothing if it raises. -/
def init (now : ℚ) (file : FileState) : Option PolicyStore :=
  match load S true file {} with
  | (_, some _) => none
  | (s, none) => match s.merge S with
    | .error _ => none
    | .ok s => some { s with nextCheck := now + S.checkInterval, notices := [] }

/-- `current`. -/
def current (now : ℚ) (file : FileState) (s : PolicyStore) :
    PolicyStore × Except PolicyFailure (Dict String ParsedPolicy) :=
  if s.nextCheck ≤ now then
    match load S false file { s with nextCheck := now + S.checkInterval } with
    | (s, some e) => (s, .error e)
    | (s, none) => (s, .ok s.effective)
  else (s, .ok s.effective)

/-- `set_policy`. -/
def setPolicy (name : String) (body : YamlValue) (s : PolicyStore) :
    PolicyStore × Except PolicyFailure ParsedPolicy :=
  if runtimeName name = false then
    (s, .error (.policyError
      [s!"policy name {S.repr (.str name)}: letters, digits, dot, dash, underscore only"]))
  else
    match body with
    | .dict entries =>
      match parsePolicies S S.knownProviders (singleDocument name body) with
      | .error e => (s, .error e)
      | .ok _ =>
        let s := { s with edits := s.edits.set name entries, removed := s.removed.filter (· ≠ name) }
        match s.merge S with
        | .error e => (s, .error e)
        | .ok s => match s.effective.get? name with
          | some policy => (s, .ok policy)
          | none => (s, .error (.other "KeyError"))
    | _ => (s, .error (.policyError ["policy body must be a mapping"]))

/-- `remove_policy`. -/
def removePolicy (name : String) (s : PolicyStore) : PolicyStore × Except PolicyFailure Bool :=
  let existed := s.effective.contains name || s.edits.contains name
  let s := { s with
    edits := s.edits.pop name
    removed := if s.set.contains name && decide (name ∉ s.removed) then s.removed ++ [name] else s.removed }
  match s.merge S with
  | .error e => (s, .error e)
  | .ok s => (s, .ok existed)

/-- The content `_load` reads: the file's, if its modification time is not the
last one seen. -/
def news (file : FileState) (s : PolicyStore) : Option FileContent :=
  match file with
  | .missing => none
  | .present mtime content => if s.mtime = some mtime then none else some content

/-- The content `current` reads: a check must be due. -/
def sees (now : ℚ) (file : FileState) (s : PolicyStore) : Option FileContent :=
  if s.nextCheck ≤ now then s.news file else none

end PolicyStore

/-! ## What the store is for -/

/-- The policies of a file content, if it is valid. -/
def validPolicies (S : PolicySetting) (content : FileContent) : Option (Dict String ParsedPolicy) :=
  match loadPolicies S S.knownProviders content with
  | .ok set => some set
  | .error _ => none

/-- The policy of an edit, if it is accepted. -/
def acceptedEdit (S : PolicySetting) (name : String) (body : YamlValue) : Option ParsedPolicy :=
  if runtimeName name then
    match body with
    | .dict _ => match parseBody S S.knownProviders (.str name) body with
      | .ok ([], policy) => policy
      | _ => none
    | _ => none
  else none

/-- A file content is seen: if it is valid, its policies are the base. -/
def lookAt (S : PolicySetting) (content : Option FileContent) (o : Overlay String ParsedPolicy) :
    Overlay String ParsedPolicy :=
  match content.bind (validPolicies S) with
  | some set => o.reload set.get?
  | none => o

/-! ## Runs -/

/-- A store beside its file, and the overlay it stands for. -/
structure PolicyWatch where
  store : PolicyStore
  now : ℚ
  file : FileState
  wanted : Overlay String ParsedPolicy

/-- What can happen. -/
inductive PolicyEvent where
  | file (f : FileState)
  | tick (now : ℚ)
  | current
  | setPolicy (name : String) (body : YamlValue)
  | removePolicy (name : String)

namespace PolicyWatch

variable (S : PolicySetting)

def step (r : PolicyWatch) : PolicyEvent → PolicyWatch
  | .file f => { r with file := f }
  | .tick now => { r with now := now }
  | .current =>
    { r with
      store := (r.store.current S r.now r.file).1
      wanted := lookAt S (r.store.sees r.now r.file) r.wanted }
  | .setPolicy name body =>
    { r with
      store := (r.store.setPolicy S name body).1
      wanted := match acceptedEdit S name body with
        | some policy => r.wanted.edit name policy
        | none => r.wanted }
  | .removePolicy name =>
    { r with store := (r.store.removePolicy S name).1, wanted := r.wanted.drop name }

/-- A store that was built, over the policies of the file it was built from. -/
def Start (r : PolicyWatch) : Prop :=
  PolicyStore.init S r.now r.file = some r.store ∧
    r.wanted = lookAt S r.file.content ⟨fun _ => none, ∅, fun _ => none⟩

def machine : Machine PolicyWatch PolicyEvent := .ofFun (Start S) fun r e => some (r.step S e)

end PolicyWatch

end Caips.Coreai
