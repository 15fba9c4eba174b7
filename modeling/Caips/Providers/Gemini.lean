/-
Caips.Providers.Gemini — the adapter of `providers/gemini.py`.

The call of the service is not modelled: `complete` starts from the response it
gave, `stream` from the chunks it sent. `base64.b64decode` is a parameter.
-/
import Caips.Providers.Adapter

namespace Caips.Providers.Gemini

open Caips.Logic
open Caips.Coreai (PriceTable)

def defaultModel : String := "gemini-2.0-flash"

/-- The provider object, with these prices. -/
def provider (prices : PriceTable) : Provider where
  name := "gemini"
  supportsVision := true
  supportsTools := true
  defaultModel := defaultModel
  bill := fun i o model => ((prices.cost "gemini" model (some i) (some o)).toOption).getD 0

/-- `usage_metadata`. The thinking tokens are no part of the candidates' tokens. -/
structure UsageMetadata where
  promptTokenCount : Option ℕ
  candidatesTokenCount : Option ℕ
  thoughtsTokenCount : Option ℕ := none

/-- A function call of a part. -/
structure SdkFunctionCall where
  name : Option String
  args : Option (List (List Char × Json)) := none

/-- A candidate: the function calls of its parts, if it has content, and the reason it ended. -/
structure Candidate where
  parts : Option (List (Option SdkFunctionCall)) := none
  finishReason : Option String := none

/-- `GenerateContentResponse`, also as a chunk of a stream; `text` is the property of the SDK. -/
structure Response where
  usageMetadata : Option UsageMetadata
  candidates : List Candidate := []
  text : Option String := none

/-- The loop of `_tool_calls`: a call is numbered by the calls before it. -/
def numberCalls : List ToolCall → List (Option SdkFunctionCall) → List ToolCall
  | calls, [] => calls
  | calls, part :: rest =>
    match part with
    | some fc =>
      if textOr fc.name "" = "" then numberCalls calls rest
      else
        numberCalls (calls ++ [{
          id := "call_" ++ toString calls.length
          name := textOr fc.name ""
          arguments := String.ofList (write (.obj (fc.args.getD []))) }]) rest
    | none => numberCalls calls rest

/-- `_tool_calls`. -/
def toolCalls (response : Response) : List ToolCall :=
  match response.candidates.head? with
  | some candidate => numberCalls [] (candidate.parts.getD [])
  | none => []

/-- `_finish`. -/
def finish (response : Response) : Option String :=
  response.candidates.head?.bind fun c => normalizeFinishReason c.finishReason

/-! ## `complete` -/

/-- `complete`, from the response on. -/
def complete (prices : PriceTable) (r : CompletionRequest) (response : Response) (latencyMs : ℚ) :
    Except AdapterError Reply := do
  let model := textOr r.model defaultModel
  let usage ← orRaise .attributeError response.usageMetadata
  let cost ← bill prices "gemini" model usage.promptTokenCount usage.candidatesTokenCount
  let calls := toolCalls response
  let (inputTokens, outputTokens) ← track usage.promptTokenCount usage.candidatesTokenCount
  return {
    content := if calls = [] then textOr response.text "" else ""
    model := model
    provider := "gemini"
    inputTokens := inputTokens
    outputTokens := outputTokens
    costUsd := cost
    latencyMs := latencyMs
    metadata := answerMetadata (finish response) calls
    toolCalls := calls }

/-! ## `stream` -/

/-- The output tokens a chunk reports: thinking tokens are billed as output. -/
def UsageMetadata.output (usage : UsageMetadata) : Option ℕ :=
  match usage.candidatesTokenCount, usage.thoughtsTokenCount with
  | some out, some thoughts => some (out + thoughts)
  | out, _ => out

/-- The usage a chunk reports. -/
def Response.report (chunk : Response) (u : StreamUsage) : StreamUsage :=
  match chunk.usageMetadata with
  | some usage => u.report usage.promptTokenCount usage.output none
  | none => u

/-- The body of the loop of `stream`. -/
def streamChunk (u : StreamUsage) (chunk : Response) : StreamUsage × Option String :=
  let u := chunk.report u
  let u := match finish chunk with
    | some reason => { u with finishReason := some reason }
    | none => u
  (u, chunk.text.filter (· ≠ ""))

/-- `stream`, over the chunks of a stream that ends. -/
def stream (u : StreamUsage) (chunks : List Response) : StreamUsage × List String :=
  runChunks streamChunk u chunks

/-! ## `_build_messages` -/

/-- A part of a content. -/
inductive Part where
  | text (text : String)
  | inlineData (mimeType : String) (data : List UInt8)
  | functionCall (name : String) (args : List (List Char × Json))
  | functionResponse (name result : String)

/-- A content on the wire. -/
structure Content where
  role : String
  parts : List Part

/-- `_blob`. -/
def blob (b64decode : String → Option (List UInt8)) : Image → Except AdapterError Part
  | .inline mediaType data =>
    if data = "" then
      .error (.valueError "Gemini accepts images as inline data only (send a data: URL, not a link).")
    else
      match b64decode data with
      | some bytes => .ok (.inlineData mediaType bytes)
      | none => .error .binasciiError
  | .url _ _ =>
    .error (.valueError "Gemini accepts images as inline data only (send a data: URL, not a link).")

/-- The content a function response is added to: the last one, when it is a user's and ends in a response. -/
def openResponses (contents : List Content) : Option (List Part) :=
  match contents.getLast? with
  | some ⟨"user", parts⟩ =>
    match parts.getLast? with
    | some (.functionResponse _ _) => some parts
    | _ => none
  | _ => none

/-- The function names by call id, and the contents so far. -/
structure Building where
  names : Dict String String := Dict.empty
  contents : List Content := []

/-- The body of the loop of `_build_messages`. -/
def addMessage (loads : String → Except String Json) (b64decode : String → Option (List UInt8))
    (b : Building) (m : Message) : Except AdapterError Building := do
  if m.role = "tool" then
    let part := Part.functionResponse ((b.names.get? (m.toolCallId.getD "")).getD "tool") m.content
    match openResponses b.contents with
    | some parts => return { b with contents := b.contents.dropLast ++ [⟨"user", parts ++ [part]⟩] }
    | none => return { b with contents := b.contents ++ [⟨"user", [part]⟩] }
  else if m.role = "assistant" ∧ nonempty m.toolCalls then
    let calls := m.toolCalls.getD []
    return {
      names := calls.foldl (fun names c => names.set c.id c.name) b.names
      contents := b.contents ++ [⟨"model", (if m.content = "" then [] else [.text m.content]) ++
        calls.map fun c => .functionCall c.name (parseArguments loads c.arguments)⟩] }
  else
    let images ← (m.images.getD []).mapM (blob b64decode)
    let text := if m.content ≠ "" ∨ images = [] then [Part.text m.content] else []
    return { b with
      contents := b.contents ++ [⟨if m.role = "assistant" then "model" else "user", images ++ text⟩] }

/-- `_build_messages`: the history, and the last message as a text or as parts. -/
def buildMessages (loads : String → Except String Json) (b64decode : String → Option (List UInt8))
    (r : CompletionRequest) : Except AdapterError (List Content × (String ⊕ List Part)) := do
  match validateConversation r.messages with
  | .error text => throw (.valueError text)
  | .ok _ => pure ()
  let b ← (splitSystem r).2.foldlM (addMessage loads b64decode) {}
  match b.contents.getLast? with
  | some ⟨_, [.text text]⟩ => return (b.contents.dropLast, .inl text)
  | some last => return (b.contents.dropLast, .inr last.parts)
  | none => throw .indexError

end Caips.Providers.Gemini
