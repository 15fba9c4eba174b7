/-
Caips.Providers.Wire — what a conversation says, and what the messages of the three
formats say.

Each format is read as a dialogue (`Caips.Logic.Dialogue`): OpenAI and Anthropic
attach a result to its call by id, Gemini by the name of the function. Arguments are
compared as JSON values and images by their bytes. `loads` is `json.loads`,
`b64decode` is `base64.b64decode`.
-/
import Caips.Logic.Dialogue
import Caips.Providers.Anthropic
import Caips.Providers.Gemini
import Caips.Providers.OpenAI

namespace Caips.Providers

open Caips.Logic Caips.Logic.Dialogue

/-- An image: its type and its bytes. -/
structure Picture where
  mediaType : String
  bytes : List UInt8
  deriving DecidableEq

/-- What a turn says, but for calls and results. -/
inductive Speech where
  | user (text : String) (pictures : List Picture)
  | assistant (text : String)
  deriving DecidableEq

/-- A call, but for its id. -/
structure FunctionCall where
  name : String
  arguments : List (List Char × Json)

/-- An entry of a conversation, with calls under a text. -/
abbrev WireEntry : Type := Entry String Speech FunctionCall String

/-- A turn of a conversation. -/
abbrev WireTurn : Type := Turn Speech FunctionCall String

variable (loads : String → Except String Json) (b64decode : String → Option (List UInt8))

/-! ## The conversation -/

/-- Arguments that are the text of a JSON object. -/
def argumentsOf (raw : String) : Option (List (List Char × Json)) :=
  match loads raw with
  | .ok (.obj members) => some members
  | _ => none

/-- A call, under its id. -/
def callOf (c : ToolCall) : Option (String × FunctionCall) := (argumentsOf loads c.arguments).map fun a => (c.id, ⟨c.name, a⟩)

/-- Image data of some type. -/
def pictureOf (mediaType data : String) : Option Picture := (b64decode data).map fun bytes => ⟨mediaType, bytes⟩

def Image.picture : Image → Option Picture
  | .inline mediaType data => pictureOf b64decode mediaType data
  | .url _ _ => none

/-- A message that is no system message. -/
def Message.entry (m : Message) : Option WireEntry :=
  if m.role = "tool" then some (.result (m.toolCallId.getD "") m.content)
  else if m.role = "assistant" then
    ((m.toolCalls.getD []).mapM (callOf loads)).map fun calls => .said (.assistant m.content) calls
  else ((m.images.getD []).mapM (Image.picture b64decode)).map fun pictures => .said (.user m.content pictures) []

/-- The turns of a request. -/
def conversation (r : CompletionRequest) : Option (List WireTurn) :=
  ((splitSystem r).2.mapM (Message.entry loads b64decode)).map read

/-! ## OpenAI's messages -/

namespace OpenAI

def Part.text? : OpenAIPart → Option String
  | .text text => some text
  | .imageUrl _ => none

def Part.url? : OpenAIPart → Option String
  | .text _ => none
  | .imageUrl url => some url

def Content.text : OpenAIContent → String
  | .text text => text
  | .null => ""
  | .parts parts => String.join (parts.filterMap Part.text?)

def Content.urls : OpenAIContent → List String
  | .parts parts => parts.filterMap Part.url?
  | _ => []

/-- The image of a data URL: type and data stand before and after the comma. -/
def urlPicture (url : String) : Option Picture :=
  let head := "data:".toList
  let mark := ";base64".toList
  if head.isPrefixOf url.toList then
    let body := url.toList.drop head.length
    let mediaType := body.takeWhile (· ≠ ',')
    if mark.isSuffixOf mediaType then
      pictureOf b64decode (String.ofList (mediaType.take (mediaType.length - mark.length)))
        (String.ofList ((body.dropWhile (· ≠ ',')).drop 1))
    else none
  else none

/-- What a message says. -/
def entry (w : OpenAIMessage) : Option WireEntry :=
  if w.role = "tool" then some (.result (w.toolCallId.getD "") (Content.text w.content))
  else if w.role = "assistant" then
    (w.toolCalls.mapM (callOf loads)).map fun calls => .said (.assistant (Content.text w.content)) calls
  else if w.role = "user" then
    ((Content.urls w.content).mapM (urlPicture b64decode)).map fun pictures =>
      .said (.user (Content.text w.content) pictures) []
  else none

/-- The system text, if the messages begin with one, and the turns. -/
def reading (messages : List OpenAIMessage) : Option (Option String × List WireTurn) :=
  match messages with
  | ⟨"system", .text system, _, _⟩ :: rest => (rest.mapM (entry loads b64decode)).map fun l => (some system, read l)
  | messages => (messages.mapM (entry loads b64decode)).map fun l => (none, read l)

end OpenAI

/-! ## Anthropic's messages -/

namespace Anthropic

def Block.text? : Block → Option String
  | .text s => some s
  | _ => none

def Block.call? : Block → Option (String × FunctionCall)
  | .toolUse id name input => some (id, ⟨name, input⟩)
  | _ => none

def Block.result? : Block → Option WireEntry
  | .toolResult id content => some (.result (id.getD "") content)
  | _ => none

/-- The image of a block that is one. -/
def Block.picture? : Block → Option (Option Picture)
  | .imageBase64 mediaType data => some (pictureOf b64decode mediaType data)
  | .imageUrl _ => some none
  | _ => none

/-- What the blocks of a user message say before its results. -/
def said (blocks : List Block) : Option (List WireEntry) :=
  if blocks.all fun b => b.result?.isSome then some []
  else
    ((blocks.filterMap (Block.picture? b64decode)).mapM id).map fun pictures =>
      [.said (.user (String.join (blocks.filterMap Block.text?)) pictures) []]

/-- What a message says. -/
def entries (w : WireMessage) : Option (List WireEntry) :=
  match w.role, w.content with
  | "user", .text text => some [.said (.user text []) []]
  | "user", .blocks blocks => (said b64decode blocks).map fun l => l ++ blocks.filterMap Block.result?
  | "assistant", .text text => some [.said (.assistant text) []]
  | "assistant", .blocks blocks =>
    some [.said (.assistant (String.join (blocks.filterMap Block.text?))) (blocks.filterMap Block.call?)]
  | _, _ => none

end Anthropic

/-! ## Gemini's contents -/

namespace Gemini

def Part.text? : Part → Option String
  | .text s => some s
  | _ => none

/-- A call, under the name of its function. -/
def Part.call? : Part → Option (String × FunctionCall)
  | .functionCall name args => some (name, ⟨name, args⟩)
  | _ => none

def Part.result? : Part → Option WireEntry
  | .functionResponse name result => some (.result name result)
  | _ => none

def Part.picture? : Part → Option Picture
  | .inlineData mimeType data => some ⟨mimeType, data⟩
  | _ => none

/-- What the parts of a user content say before its results. -/
def said (parts : List Part) : List WireEntry :=
  if parts.all fun p => p.result?.isSome then []
  else [.said (.user (String.join (parts.filterMap Part.text?)) (parts.filterMap Part.picture?)) []]

/-- What a content says. -/
def entries (c : Content) : Option (List WireEntry) :=
  if c.role = "user" then some (said c.parts ++ c.parts.filterMap Part.result?)
  else if c.role = "model" then
    some [.said (.assistant (String.join (c.parts.filterMap Part.text?))) (c.parts.filterMap Part.call?)]
  else none

/-- The contents a chat sends: its history, and the message as a user's. -/
def contentsOf (built : List Content × (String ⊕ List Part)) : List Content :=
  built.1 ++ [⟨"user", match built.2 with | .inl text => [.text text] | .inr parts => parts⟩]

end Gemini

/-! ## Conversations that can be kept -/

/-- From these open calls on, every message with calls is followed by the tool messages that
answer them, in order. -/
def Paired : List String → List Message → Prop
  | [], [] => True
  | _ :: _, [] => False
  | id :: ids, m :: rest => m.role = "tool" ∧ m.toolCallId = some id ∧ Paired ids rest
  | [], m :: rest =>
    if m.role = "assistant" then
      ((m.toolCalls.getD []).map ToolCall.id).Nodup ∧ Paired ((m.toolCalls.getD []).map ToolCall.id) rest
    else Paired [] rest

/-- Inline data of some type, in base64. -/
def Image.Inline (i : Image) : Prop :=
  ∃ mediaType data, i = .inline mediaType data ∧ ',' ∉ mediaType.toList ∧ data ≠ "" ∧ ∃ bytes, b64decode data = some bytes

/-- A request whose conversation is well formed: calls are answered at once, arguments are JSON
objects, and images are inline and the user's. -/
structure Regular (r : CompletionRequest) : Prop where
  valid : validateConversation r.messages = .ok ()
  paired : Paired [] (splitSystem r).2
  arguments : ∀ m ∈ (splitSystem r).2, m.role = "assistant" → ∀ c ∈ m.toolCalls.getD [],
    c.arguments ≠ "" ∧ ∃ members, loads c.arguments = .ok (.obj members)
  images : ∀ m ∈ (splitSystem r).2, nonempty m.images = true →
    m.role = "user" ∧ ∀ i ∈ m.images.getD [], i.Inline b64decode

end Caips.Providers
