/-
Caips.Api.Compat — what the two compatible endpoints share: the JSON values of
a request, the errors, and the request they pass on (`CompletionRequest` and
`Message` of `providers/base.py`, with whatever a client put in for an id, a
name or the data of an image).

A request is checked by pydantic before; `None` and a missing key are `null`.
What Python has for values that are no texts, `==` and `repr`, is a parameter.
-/
import Caips.Logic.Json
import Caips.Providers.Adapter
import Mathlib.Algebra.GroupWithZero.Nat

namespace Caips.Api

open Caips.Logic Caips.Providers

/-! ## Values -/

/-- `repr` of a value, and `==` of two. -/
structure Python where
  repr : Json → List Char
  eq : Json → Json → Bool

/-- A JSON object. -/
abbrev Members : Type := List (List Char × Json)

def null : Json := .atom .null

def text (s : String) : Json := .str s.toList

def field (key : String) (value : Json) : List Char × Json := (key.toList, value)

/-- `o[key]`. -/
def item? (o : Members) (key : String) : Option Json := (o.find? fun m => m.1 = key.toList).map Prod.snd

/-- `o.get(key, default)`. -/
def getD (o : Members) (key : String) (default : Json) : Json :=
  ((o.find? fun m => m.1 = key.toList).map Prod.snd).getD default

/-- `o.get(key)`. -/
def get (o : Members) (key : String) : Json := getD o key null

/-- `bool(value)`. -/
def truthy : Json → Bool
  | .atom .null => false
  | .atom (.bool b) => b
  | .atom (.int n) => n ≠ 0
  | .atom (.float x) => x.text ∉ ["0.0".toList, "-0.0".toList]
  | .str s => s ≠ []
  | .arr items => !items.isEmpty
  | .obj members => !members.isEmpty

/-- `value == s`. -/
def isText (s : String) : Json → Bool
  | .str t => t = s.toList
  | _ => false

def isNull : Json → Bool
  | .atom .null => true
  | _ => false

/-- The members of a value that is a `dict`. -/
def dict? : Json → Option Members
  | .obj members => some members
  | _ => none

def str? : Json → Option (List Char)
  | .str s => some s
  | _ => none

/-- `str(value)`. -/
def str (P : Python) : Json → List Char
  | .str s => s
  | v => P.repr v

def hashable : Json → Bool
  | .arr _ => false
  | .obj _ => false
  | _ => true

/-- `a == b`. -/
def same (P : Python) : Json → Json → Bool
  | .str a, .str b => a = b
  | a, b => P.eq a b

/-- `len(value)`; only numbers, booleans and `None` have none. -/
def length? : Json → Option ℕ
  | .atom _ => none
  | .str s => some s.length
  | .arr items => some items.length
  | .obj members => some members.length

@[simp] theorem getD_field (key : String) (value : Json) (o : Members) (default : Json) :
    getD (field key value :: o) key default = value := by
  simp [getD, field]

theorem getD_field_ne {key other : String} (h : other ≠ key) (value : Json) (o : Members) (default : Json) :
    getD (field other value :: o) key default = getD o key default := by
  simp [getD, field, String.toList_inj, h]

@[simp] theorem get_field (key : String) (value : Json) (o : Members) : get (field key value :: o) key = value :=
  getD_field key value o null

theorem get_field_ne {key other : String} (h : other ≠ key) (value : Json) (o : Members) :
    get (field other value :: o) key = get o key := getD_field_ne h value o null

@[simp] theorem get_nil (key : String) : get [] key = null := rfl

@[simp] theorem isText_text (s t : String) : isText s (text t) = decide (t = s) := by
  simp [isText, text, String.toList_inj]

@[simp] theorem truthy_text (s : String) : truthy (text s) = decide (s ≠ "") := by
  simp [truthy, text]

@[simp] theorem truthy_null : truthy null = false := rfl

@[simp] theorem truthy_arr (items : List Json) : truthy (.arr items) = !items.isEmpty := rfl

@[simp] theorem str_text (P : Python) (s : String) : str P (text s) = s.toList := rfl

@[simp] theorem dict?_obj (members : Members) : dict? (.obj members) = some members := rfl

/-! ## Errors -/

/-- `CompatError`. -/
structure CompatError where
  status : ℕ
  message : List Char
  type : String
  code : Option String
  param : Option (List Char)
  deriving DecidableEq

/-- What converting a request raises: its own error, or a `TypeError` or `AttributeError`. -/
inductive Raised where
  | compat (e : CompatError)
  | crash
  deriving DecidableEq

/-- `f"{name}[{i}]{rest}"`. -/
def indexed (name : String) (i : ℕ) (rest : String) : List Char :=
  name.toList ++ '[' :: Nat.toDigits 10 i ++ ']' :: rest.toList

/-- `x in {a, b, ...}`. -/
def memberOf (P : Python) (x : Json) (l : List Json) : Except Raised Bool :=
  if hashable x && l.all hashable then .ok (l.any (same P x)) else .error .crash

/-! ## Requests -/

/-- A call of an assistant message, as the client names it. -/
structure SentCall where
  id : Json
  name : Json
  arguments : List Char

inductive SentImage where
  | inline (mediaType : List Char) (data : Json)
  | url (url : List Char)

/-- `Message`. -/
structure SentMessage where
  role : String
  content : List Char
  toolCalls : Option (List SentCall) := none
  toolCallId : Option Json := none
  images : Option (List SentImage) := none

/-- `CompletionRequest`. -/
structure SentRequest where
  messages : List SentMessage
  model : Option String
  maxTokens : ℕ
  temperature : ℚ
  systemPrompt : Option (List Char)
  stream : Bool
  metadata : Members := []
  tools : Option (List Members)
  toolChoice : Json
  responseFormat : Option Members := none

/-- `x or None`, for a list. -/
def orNone {α : Type} (l : List α) : Option (List α) := if l.isEmpty then none else some l

/-- `MAX_IMAGE_BYTES`. -/
def maxImageBytes : ℕ := 20000000

/-- `IMAGE_TYPES`. -/
def imageTypes : List (List Char) :=
  ["image/jpeg".toList, "image/png".toList, "image/gif".toList, "image/webp".toList]

/-- `len(image.get("data", ""))`. -/
def SentImage.size : SentImage → Option ℕ
  | .inline _ data => length? data
  | .url _ => some 0

/-- The characters of the inline images of all messages. -/
def imageBytes (messages : List SentMessage) : Except Raised ℕ :=
  match (messages.flatMap fun m => m.images.getD []).mapM SentImage.size with
  | some sizes => .ok sizes.sum
  | none => .error .crash

/-- An assistant message of a client: the text alone. -/
def plainAssistant : Members := [field "role" (text "assistant"), field "content" (text "")]

end Caips.Api
