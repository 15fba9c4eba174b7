/-
Caips.Providers.Anthropic — the adapter of `providers/anthropic.py`.

The call of the service is not modelled: `complete` starts from the response it
gave, `stream` from the texts it sent and the final message.
-/
import Caips.Providers.Adapter

namespace Caips.Providers.Anthropic

open Caips.Logic
open Caips.Coreai (PriceTable)

def defaultModel : String := "claude-haiku-4-5"

/-- The provider object, with these prices. -/
def provider (prices : PriceTable) : Provider where
  name := "anthropic"
  supportsVision := true
  supportsTools := true
  defaultModel := defaultModel
  bill := fun i o model => ((prices.cost "anthropic" model (some i) (some o)).toOption).getD 0

structure Usage where
  inputTokens : Option ℕ
  outputTokens : Option ℕ

/-- A block of an answer. -/
inductive AnswerBlock where
  | text (text : String)
  | toolUse (id name : String) (input : List (List Char × Json))
  | other

/-- `Message` of the SDK. -/
structure Response where
  content : List AnswerBlock
  usage : Usage
  model : Option String := none
  stopReason : Option String := none

def AnswerBlock.text? : AnswerBlock → Option String
  | .text s => some s
  | _ => none

def AnswerBlock.call? : AnswerBlock → Option ToolCall
  | .toolUse id name input => some { id := id, name := name, arguments := String.ofList (write (.obj input)) }
  | _ => none

/-- The texts of a response. -/
def Response.texts (response : Response) : List String := response.content.filterMap AnswerBlock.text?

/-- The tool calls of a response. -/
def Response.calls (response : Response) : List ToolCall := response.content.filterMap AnswerBlock.call?

/-! ## `complete` -/

/-- `complete`, from the response on. -/
def complete (prices : PriceTable) (r : CompletionRequest) (response : Response) (latencyMs : ℚ) :
    Except AdapterError Reply := do
  let model := textOr r.model defaultModel
  let cost ← bill prices "anthropic" model response.usage.inputTokens response.usage.outputTokens
  let calls := response.calls
  let text := String.join response.texts
  let content := if r.responseFormat.isSome ∧ calls = [] then stripJsonFences text else text
  if content = "" ∧ calls = [] then
    throw (.valueError ("[anthropic] response had no text content (stop_reason=" ++
      response.stopReason.getD "None" ++ ")"))
  let (inputTokens, outputTokens) ← track response.usage.inputTokens response.usage.outputTokens
  return {
    content := content
    model := model
    provider := "anthropic"
    inputTokens := inputTokens
    outputTokens := outputTokens
    costUsd := cost
    latencyMs := latencyMs
    metadata := answerMetadata (normalizeFinishReason response.stopReason) calls
    toolCalls := calls }

/-! ## `stream` -/

/-- What follows the texts: the usage of the final message, unless it cannot be had. -/
def finishStream (u : StreamUsage) (final : Option Response) : StreamUsage :=
  match final with
  | some final =>
    { u.report final.usage.inputTokens final.usage.outputTokens final.model with
      finishReason := normalizeFinishReason final.stopReason }
  | none => u

/-- `stream`, over the texts of a stream that ends. -/
def stream (u : StreamUsage) (texts : List String) (final : Option Response) : StreamUsage × List String :=
  (finishStream u final, texts)

/-! ## `_build_messages` -/

/-- A block of a message. -/
inductive Block where
  | text (text : String)
  | imageUrl (url : String)
  | imageBase64 (mediaType data : String)
  | toolUse (id name : String) (input : List (List Char × Json))
  | toolResult (toolUseId : Option String) (content : String)

inductive Content where
  | text (text : String)
  | blocks (blocks : List Block)

/-- A message on the wire. -/
structure WireMessage where
  role : String
  content : Content

/-- `_image_block`. -/
def imageBlock : Image → Block
  | .url url _ => .imageUrl url
  | .inline mediaType data => .imageBase64 mediaType data

/-- The message a tool result is added to: the last one, when it is a user message with blocks. -/
def openResults (messages : List WireMessage) : Option (List Block) :=
  match messages.getLast? with
  | some ⟨"user", .blocks blocks⟩ => some blocks
  | _ => none

/-- The body of the loop of `_build_messages`. -/
def addMessage (loads : String → Except String Json) (messages : List WireMessage) (m : Message) :
    List WireMessage :=
  if m.role = "tool" then
    let block := Block.toolResult m.toolCallId m.content
    match openResults messages with
    | some blocks => messages.dropLast ++ [{ role := "user", content := .blocks (blocks ++ [block]) }]
    | none => messages ++ [{ role := "user", content := .blocks [block] }]
  else if m.role = "assistant" ∧ nonempty m.toolCalls then
    messages ++ [{
      role := "assistant"
      content := .blocks ((if m.content = "" then [] else [.text m.content]) ++
        (m.toolCalls.getD []).map fun c => .toolUse c.id c.name (parseArguments loads c.arguments)) }]
  else if nonempty m.images then
    messages ++ [{
      role := m.role
      content := .blocks ((m.images.getD []).map imageBlock ++
        if m.content = "" then [] else [.text m.content]) }]
  else messages ++ [{ role := m.role, content := .text m.content }]

/-- `_build_messages`. -/
def buildMessages (loads : String → Except String Json) (r : CompletionRequest) :
    Except String (List WireMessage) := do
  validateConversation r.messages
  return (splitSystem r).2.foldl (addMessage loads) []

end Caips.Providers.Anthropic
