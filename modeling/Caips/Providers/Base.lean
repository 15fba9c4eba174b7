/-
Caips.Providers.Base — messages, requests, responses and provider objects,
after `providers/base.py` (and the attributes of `providers/local.py` that
the router reads).

A request's `metadata` is a mapping with values of any type; `Value` keeps of
such a value what some function of the program reads: its text, its number,
its list of names, and for everything else its truth value. A provider is an
object with attributes and methods that run without an await; `complete`,
`stream` and `embed` are awaited and are queries of the event loop
(`Caips.Coreai.Router`).
-/
import Caips.Logic.Dict
import Mathlib.Data.Rat.Defs

namespace Caips.Providers

open Caips.Logic

/-- A value of a metadata mapping. -/
inductive Value where
  | null
  | bool (b : Bool)
  | num (q : ℚ)
  | str (s : String)
  | names (l : List String)
  | other (truthy : Bool)
  deriving DecidableEq

/-- `bool(value)`. -/
def Value.truthy : Value → Bool
  | .null => false
  | .bool b => b
  | .num q => decide (q ≠ 0)
  | .str s => decide (s ≠ "")
  | .names l => !l.isEmpty
  | .other t => t

/-- One call of an assistant message: `{"id", "name", "arguments"}`, the
arguments as JSON text. -/
structure ToolCall where
  id : String
  name : String
  arguments : String
  deriving DecidableEq, Repr

/-- An image of a message: `{"media_type", "data"}` with the data in base64, or
`{"url"}`. -/
inductive Image where
  | inline (mediaType data : String)
  | url (url : String) (nonempty : url ≠ "")
  deriving DecidableEq, Repr

/-- `Message`. -/
structure Message where
  role : String
  content : String
  toolCalls : Option (List ToolCall) := none
  toolCallId : Option String := none
  images : Option (List Image) := none
  deriving DecidableEq, Repr

/-- `CompletionRequest`. `responseFormat` and `tools` are JSON texts; of the
tools only whether there are any is read here. `streamUsage` is the reference
of the usage object the router attaches to a streamed request. -/
structure CompletionRequest where
  messages : List Message
  model : Option String := none
  maxTokens : Nat := 1024
  temperature : ℚ := 7 / 10
  stream : Bool := false
  systemPrompt : Option String := none
  metadata : Dict String Value := Dict.empty
  tools : Option (List String) := none
  responseFormat : Option String := none
  streamUsage : Option Nat := none

/-- The truth value of an optional list: `None` and `[]` are both false. -/
def nonempty {α : Type} (l : Option (List α)) : Bool := !(l.getD []).isEmpty

/-- `CompletionRequest.cacheable`. -/
def CompletionRequest.cacheable (r : CompletionRequest) : Bool :=
  !nonempty r.tools &&
    !r.messages.any fun m => nonempty m.toolCalls || nonempty m.images || m.role == "tool"

/-- `metadata.get(key)`, `None` for a missing key. -/
def CompletionRequest.meta (r : CompletionRequest) (key : String) : Value :=
  (r.metadata.get? key).getD .null

/-- `CompletionResponse`. -/
structure CompletionResponse where
  content : String
  model : String
  provider : String
  inputTokens : Nat
  outputTokens : Nat
  costUsd : ℚ
  latencyMs : ℚ
  cached : Bool := false
  metadata : Dict String Value := Dict.empty
  deriving Inhabited

/-- `StreamUsage`. -/
structure StreamUsage where
  inputTokens : Nat := 0
  outputTokens : Nat := 0
  model : String := ""
  reported : Bool := false
  estimated : Bool := false
  completed : Bool := false
  costUsd : ℚ := 0
  provider : String := ""
  openedModel : String := ""
  finishReason : Option String := none
  deriving DecidableEq

/-- `StreamUsage.report`, with the counts `_count` accepted. -/
def StreamUsage.report (u : StreamUsage) (input output : Option Nat) (model : Option String) :
    StreamUsage :=
  match input, output with
  | none, none => u
  | _, _ =>
    { u with
      inputTokens := input.getD u.inputTokens
      outputTokens := output.getD u.outputTokens
      model := (model.filter (· ≠ "")).getD u.model
      reported := true }

/-- `VALID_ROLES`. -/
def validRoles : List String := ["system", "user", "assistant", "tool"]

/-- `validate_conversation`: the message of the `ValueError` it raises. -/
def validateConversation (messages : List Message) : Except String Unit := do
  if messages.isEmpty then throw "messages must not be empty"
  match messages.find? fun m => !validRoles.contains m.role with
  | some m =>
    throw s!"Invalid message role '{m.role}'; expected one of ('system', 'user', 'assistant', 'tool')"
  | none => pure ()
  let rest := messages.filter fun m => m.role ≠ "system"
  match rest.head?, rest.getLast? with
  | some first, some last =>
    if first.role ≠ "user" then
      throw "The first non-system message must have role 'user'"
    if last.role ≠ "user" ∧ last.role ≠ "tool" then
      throw "The last message must have role 'user' or 'tool'"
    if rest.any fun m => m.role == "tool" && (m.toolCallId.getD "").isEmpty then
      throw "A 'tool' message needs a tool_call_id"
  | _, _ => throw "messages must contain at least one non-system message"

/-- `request_images`. -/
def requestImages (r : CompletionRequest) : List Image :=
  r.messages.flatMap fun m => m.images.getD []

/-- A provider object: the attributes the router reads (with the defaults its
`getattr` calls give) and the methods it calls without awaiting. -/
structure Provider where
  name : String
  isLocal : Bool := false
  supportsVision : Bool := false
  supportsTools : Bool := false
  supportsEmbeddings : Bool := false
  defaultModel : String := ""
  models : List String := []
  capabilityProblem : CompletionRequest → Option String := fun _ => none
  estimateCost : Nat → Nat → String → ℚ := fun _ _ _ => 0
  bill : Nat → Nat → String → ℚ := fun _ _ _ => 0

end Caips.Providers
