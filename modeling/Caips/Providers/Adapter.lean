/-
Caips.Providers.Adapter — what the adapters share, after `providers/base.py`:
the reading of system texts, arguments and stop reasons, the fences around JSON,
the messages and the tool calls in OpenAI's format, and the account of a streamed
answer.

`json.loads` is a parameter. What a service sends is a structure with the fields the
adapters read; a count it leaves out is `none`.
-/
import Caips.Coreai.Keystore
import Caips.Coreai.Pricing
import Caips.Logic.Json
import Caips.Providers.Base

namespace Caips.Providers

open Caips.Logic
open Caips.Coreai (PriceTable)
open Caips.Coreai.Keystore (strip)

/-! ## Requests -/

/-- `value or default`, for a text. -/
def textOr (o : Option String) (d : String) : String := (o.filter (· ≠ "")).getD d

/-- `split_system`. -/
def splitSystem (r : CompletionRequest) : Option String × List Message :=
  let parts := (r.systemPrompt.filter (· ≠ "")).toList ++
    ((r.messages.filter fun m => m.role = "system").map Message.content).filter (· ≠ "")
  (if parts = [] then none else some ("\n\n".intercalate parts), r.messages.filter fun m => m.role ≠ "system")

/-- `parse_arguments`, of a text. -/
def parseArguments (loads : String → Except String Json) (raw : String) : List (List Char × Json) :=
  if raw = "" then []
  else
    match loads raw with
    | .ok (.obj members) => members
    | _ => []

/-! ## Answers -/

/-- The exceptions an adapter raises over what a service sent. -/
inductive AdapterError where
  | attributeError
  | indexError
  | typeError
  | binasciiError
  | pricingError (text : String)
  | valueError (text : String)
  deriving DecidableEq, Repr

/-- A value that must be there. -/
def orRaise {α : Type} (e : AdapterError) : Option α → Except AdapterError α
  | some a => .ok a
  | none => .error e

/-- A `CompletionResponse`, with the tool calls of its metadata. -/
structure Reply extends CompletionResponse where
  toolCalls : List ToolCall := []

/-- `normalize_finish_reason`, of the name of a reason. -/
def normalizeFinishReason (raw : Option String) : Option String :=
  raw.map fun raw =>
    let r := raw.toLower
    if r ∈ ["tool_calls", "tool_use", "function_call"] then "tool_calls"
    else if r ∈ ["length", "max_tokens", "max_output_tokens"] then "length"
    else if r ∈ ["content_filter", "safety", "refusal", "recitation", "blocklist"] then "content_filter"
    else "stop"

/-- A text or `None`, in a metadata mapping. -/
def Value.ofText : Option String → Value
  | some s => .str s
  | none => .null

/-- `_metadata`: the reason the answer ended, and its tool calls. -/
def answerMetadata (reason : Option String) (calls : List ToolCall) : Dict String Value :=
  if calls = [] then Dict.empty.set "finish_reason" (.ofText reason)
  else (Dict.empty.set "finish_reason" (.str "tool_calls")).set "tool_calls" (.other true)

/-- The text before the last `sep`. -/
def cutLast (sep : List Char) : List Char → Option (List Char)
  | [] => none
  | c :: l =>
    match cutLast sep l with
    | some before => some (c :: before)
    | none => if sep.isPrefixOf (c :: l) then some [] else none

/-- `strip_json_fences`. -/
def stripJsonFences (text : String) : String :=
  let t := (strip text).toList
  let fence := "```".toList
  if fence.isPrefixOf t then
    let body := (t.dropWhile (· ≠ '\n')).drop 1
    strip (String.ofList ((cutLast fence body).getD body))
  else strip (String.ofList t)

/-- `_bill`. -/
def bill (prices : PriceTable) (provider model : String) (inputTokens outputTokens : Option ℕ) :
    Except AdapterError ℚ :=
  match prices.cost provider model inputTokens outputTokens with
  | .ok cost => .ok cost
  | .error text => .error (.pricingError text)

/-- `_track`: the counts are added up, so an absent one is a `TypeError`. -/
def track (inputTokens outputTokens : Option ℕ) : Except AdapterError (ℕ × ℕ) :=
  match inputTokens, outputTokens with
  | some i, some o => .ok (i, o)
  | _, _ => .error .typeError

/-! ## OpenAI's format -/

/-- `image_url`. -/
def imageUrl : Image → String
  | .url url _ => url
  | .inline mediaType data => "data:" ++ mediaType ++ ";base64," ++ data

/-- A part of a message's content. -/
inductive OpenAIPart where
  | text (text : String)
  | imageUrl (url : String)
  deriving DecidableEq, Repr

/-- The content of a message: a text, `None`, or parts. -/
inductive OpenAIContent where
  | text (text : String)
  | null
  | parts (parts : List OpenAIPart)
  deriving DecidableEq, Repr

/-- A message on the wire. A call is its id and its function. -/
structure OpenAIMessage where
  role : String
  content : OpenAIContent
  toolCalls : List ToolCall := []
  toolCallId : Option String := none
  deriving DecidableEq, Repr

/-- One message that is no system message. -/
def openaiMessage (m : Message) : OpenAIMessage :=
  if m.role = "tool" then { role := "tool", toolCallId := m.toolCallId, content := .text m.content }
  else if m.role = "assistant" ∧ nonempty m.toolCalls then
    { role := "assistant"
      content := if m.content = "" then .null else .text m.content
      toolCalls := (m.toolCalls.getD []).map fun c => { c with arguments := textOr (some c.arguments) "{}" } }
  else if nonempty m.images then
    { role := m.role
      content := .parts ((if m.content = "" then [] else [.text m.content]) ++
        (m.images.getD []).map fun i => .imageUrl (imageUrl i)) }
  else { role := m.role, content := .text m.content }

/-- `openai_messages`. -/
def openaiMessages (r : CompletionRequest) (extraSystem : Option String) : List OpenAIMessage :=
  let (system, rest) := splitSystem r
  let parts := (system.filter (· ≠ "")).toList ++ (extraSystem.filter (· ≠ "")).toList
  (if parts = [] then [] else [{ role := "system", content := .text ("\n\n".intercalate parts) }]) ++
    rest.map openaiMessage

/-- The function of a call, as an SDK object. -/
structure SdkFunction where
  name : Option String := none
  arguments : Option String := none

/-- A tool call, as an SDK object. -/
structure SdkCall where
  id : Option String := none
  function : Option SdkFunction := none

/-- `openai_extract_tool_calls`. -/
def openaiExtractToolCalls (calls : List SdkCall) : List ToolCall :=
  calls.map fun c =>
    { id := textOr c.id ""
      name := textOr (c.function.bind (·.name)) ""
      arguments := textOr (c.function.bind (·.arguments)) "{}" }

/-! ## Streams -/

/-- A streamed answer: what each chunk does to the usage object, and the text it
yields, if any. -/
def runChunks {α : Type} (step : StreamUsage → α → StreamUsage × Option String) :
    StreamUsage → List α → StreamUsage × List String
  | u, [] => (u, [])
  | u, c :: rest =>
    let (u', text) := step u c
    let (final, texts) := runChunks step u' rest
    (final, text.toList ++ texts)

end Caips.Providers
