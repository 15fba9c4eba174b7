/-
Caips.Providers.OpenAI — the adapter of `providers/openai.py`.

The call of the service is not modelled: `complete` starts from the response it
gave, `stream` from the chunks it sent.
-/
import Caips.Providers.Adapter

namespace Caips.Providers.OpenAI

open Caips.Logic
open Caips.Coreai (PriceTable)

def defaultModel : String := "gpt-4o-mini"

/-- The provider object, with these prices. -/
def provider (prices : PriceTable) : Provider where
  name := "openai"
  supportsVision := true
  supportsTools := true
  supportsEmbeddings := true
  defaultModel := defaultModel
  bill := fun i o model => ((prices.cost "openai" model (some i) (some o)).toOption).getD 0

structure Usage where
  promptTokens : Option ℕ
  completionTokens : Option ℕ

/-! ## `complete` -/

structure Choice where
  content : Option String := none
  toolCalls : List SdkCall := []
  finishReason : Option String := none

/-- `ChatCompletion`. Its `model` is not read. -/
structure Response where
  usage : Option Usage
  choices : List Choice

/-- `complete`, from the response on. -/
def complete (prices : PriceTable) (r : CompletionRequest) (response : Response) (latencyMs : ℚ) :
    Except AdapterError Reply := do
  let model := textOr r.model defaultModel
  let usage ← orRaise .attributeError response.usage
  let cost ← bill prices "openai" model usage.promptTokens usage.completionTokens
  let choice ← orRaise .indexError response.choices.head?
  let calls := openaiExtractToolCalls choice.toolCalls
  let (inputTokens, outputTokens) ← track usage.promptTokens usage.completionTokens
  return {
    content := textOr choice.content ""
    model := model
    provider := "openai"
    inputTokens := inputTokens
    outputTokens := outputTokens
    costUsd := cost
    latencyMs := latencyMs
    metadata := answerMetadata (normalizeFinishReason choice.finishReason) calls
    toolCalls := calls }

/-! ## `stream` -/

structure Delta where
  content : Option String := none
  finishReason : Option String := none

/-- `ChatCompletionChunk`. -/
structure Chunk where
  usage : Option Usage := none
  model : Option String := none
  choices : List Delta := []

/-- The usage a chunk reports. -/
def Chunk.report (c : Chunk) (u : StreamUsage) : StreamUsage :=
  match c.usage with
  | some usage => u.report usage.promptTokens usage.completionTokens c.model
  | none => u

/-- The body of the loop of `stream`. -/
def streamChunk (u : StreamUsage) (c : Chunk) : StreamUsage × Option String :=
  let u := c.report u
  match c.choices with
  | [] => (u, none)
  | choice :: _ =>
    let u :=
      if textOr choice.finishReason "" = "" then u
      else { u with finishReason := normalizeFinishReason choice.finishReason }
    (u, choice.content.filter (· ≠ ""))

/-- `stream`, over the chunks of a stream that ends. -/
def stream (u : StreamUsage) (chunks : List Chunk) : StreamUsage × List String :=
  runChunks streamChunk u chunks

/-! ## `_build_messages` -/

def buildMessages (r : CompletionRequest) : List OpenAIMessage := openaiMessages r none

end Caips.Providers.OpenAI
