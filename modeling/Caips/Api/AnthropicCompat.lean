/-
Caips.Api.AnthropicCompat — the Anthropic-compatible endpoint's messages: the
conversion of a request and the rendering of an answer, after
`api/anthropic_compat.py`.

A message may become several: the results of a user turn come first, each a
message of its own, then what the turn says. `Turn` is what the loop over the
blocks of one message collects.
-/
import Caips.Api.Compat

namespace Caips.Api.Anthropic

open Caips.Logic Caips.Providers

/-! ## Requests -/

/-- `MessagesRequest`, as far as it is converted. -/
structure MessagesRequest where
  messages : List Members
  maxTokens : ℕ
  model : Option String := none
  system : Json := null
  temperature : Option ℚ := none
  stream : Bool := false
  tools : Option (List Members) := none
  toolChoice : Option Members := none
  extra : Members := []

/-- A `CompatError` with status 400. -/
def refuse (message : List Char) (code : String) (param : List Char) : Raised :=
  .compat ⟨400, message, "invalid_request_error", some code, some param⟩

/-- `_bad`. -/
def bad (message param : List Char) : Raised := refuse message "invalid_value" param

/-- What the blocks of one message hold. -/
structure Turn where
  texts : List (List Char) := []
  images : List SentImage := []
  calls : List SentCall := []
  results : List SentMessage := []

/-- Two turns, the blocks of the second after those of the first. -/
def Turn.append (a b : Turn) : Turn where
  texts := a.texts ++ b.texts
  images := a.images ++ b.images
  calls := a.calls ++ b.calls
  results := a.results ++ b.results

section Convert

variable (P : Python)

/-- `b.get("type") == "text"`, of a block that is a `dict`. -/
def textBlock? (b : Json) : Option Members := (dict? b).filter fun m => isText "text" (get m "type")

/-- `_text`. -/
def textOf (content : Json) (place : List Char) : Except Raised (List Char) :=
  let wrong := bad (place ++ " must be a string or a list of text blocks.".toList) place
  match content with
  | .atom .null => .ok []
  | .str s => .ok s
  | .arr blocks =>
    match blocks.mapM textBlock? with
    | some blocks => .ok (blocks.flatMap fun b => str P (getD b "text" (text "")))
    | none => .error wrong
  | _ => .error wrong

/-- `_image`. -/
def image (block : Members) (place : List Char) : Except Raised SentImage :=
  match dict? (get block "source") with
  | none => .error (bad "An image block needs a source.".toList place)
  | some src =>
    if isText "base64" (get src "type") then
      let media := (str P (getD src "media_type" (text ""))).map Char.toLower
      if media ∉ imageTypes || !truthy (get src "data") then
        .error (bad "Images must be base64 of type image/jpeg, image/png, image/gif, image/webp.".toList place)
      else .ok (.inline media (get src "data"))
    else
      match isText "url" (get src "type"), get src "url" with
      | true, .str url =>
        if "http://".toList.isPrefixOf url || "https://".toList.isPrefixOf url then .ok (.url url)
        else .error (bad "Image source must be base64 or an http(s) url.".toList place)
      | _, _ => .error (bad "Image source must be base64 or an http(s) url.".toList place)

/-- One round of the loop over the blocks of a message. -/
def convertBlock (role : String) (place : List Char) (b : Json) : Except Raised Turn :=
  let block := (dict? b).getD []
  let kind := if (dict? b).isSome then get block "type" else null
  if isText "text" kind then .ok { texts := [str P (getD block "text" (text ""))] }
  else if isText "image" kind && role == "user" then (image P block place).map fun i => { images := [i] }
  else if isText "tool_use" kind && role == "assistant" then
    if truthy (get block "id") && truthy (get block "name") then
      let input := get block "input"
      .ok { calls := [{
        id := get block "id"
        name := get block "name"
        arguments := write (if truthy input then input else .obj []) }] }
    else .error (bad "A tool_use block needs id and name.".toList place)
  else if isText "tool_result" kind && role == "user" then
    if truthy (get block "tool_use_id") then
      (textOf P (get block "content") place).map fun t =>
        { results := [{ role := "tool", content := t, toolCallId := some (get block "tool_use_id") }] }
    else .error (bad "A tool_result block needs tool_use_id.".toList place)
  else
    .error (refuse ("Content block type '".toList ++ str P kind ++ "' is not supported for ".toList ++ role.toList ++
      " messages.".toList) "unsupported_parameter" place)

/-- The loop over the blocks of a message. -/
def convertBlocks (role : String) (place : List Char) : List Json → Except Raised Turn
  | [] => .ok {}
  | b :: rest => do
      let first ← convertBlock P role place b
      let others ← convertBlocks role place rest
      .ok (first.append others)

/-- The messages a turn becomes. -/
def Turn.messages (t : Turn) (role : String) : List SentMessage :=
  t.results ++
    if t.texts.isEmpty && t.images.isEmpty && t.calls.isEmpty then []
    else [{ role, content := t.texts.flatten, toolCalls := orNone t.calls, images := orNone t.images }]

/-- One message. -/
def convertMessage (i : ℕ) (m : Members) : Except Raised (List SentMessage) := do
  let place := indexed "messages" i ".content"
  let role ←
    if isText "user" (get m "role") then .ok "user"
    else if isText "assistant" (get m "role") then .ok "assistant"
    else .error (bad ("Unsupported message role '".toList ++ str P (get m "role") ++ "'.".toList)
      (indexed "messages" i ".role"))
  match get m "content" with
  | .str content => .ok [{ role, content }]
  | .arr blocks => (convertBlocks P role place blocks).map fun t => t.messages role
  | _ => .error (bad "Message content must be a string or a list of blocks.".toList place)

/-- The loop over the messages, from that index on. -/
def convertMessages : ℕ → List Members → Except Raised (List SentMessage)
  | _, [] => .ok []
  | i, m :: rest => do
      let first ← convertMessage P i m
      let others ← convertMessages (i + 1) rest
      .ok (first ++ others)

/-- `_tools`, of one tool. -/
def convertTool (i : ℕ) (t : Members) : Except Raised Members :=
  if truthy (get t "name") && isText "custom" (getD t "type" (text "custom")) then
    let schema := get t "input_schema"
    .ok [field "type" (text "function"),
      field "function" (.obj [field "name" (get t "name"), field "description" (getD t "description" (text "")),
        field "parameters" (if truthy schema then schema
          else .obj [field "type" (text "object"), field "properties" (.obj [])])])]
  else
    .error (bad "Each tool needs a name and an input_schema (server tools are not supported).".toList
      (indexed "tools" i ""))

/-- The loop of `_tools`. -/
def convertTools : ℕ → List Members → Except Raised (List Members)
  | _, [] => .ok []
  | i, t :: rest => do
      let first ← convertTool i t
      let others ← convertTools (i + 1) rest
      .ok (first :: others)

/-- `_tool_choice`. -/
def toolChoiceOf (choice : Option Members) (tools : List Members) : Except Raised Json :=
  match choice with
  | none => .ok null
  | some choice =>
    let kind := get choice "type"
    if tools.isEmpty then .error (bad "tool_choice needs tools.".toList "tool_choice".toList)
    else if isText "tool" kind then do
      let found ← memberOf P (get choice "name") (tools.map fun t => get t "name")
      if found then
        .ok (.obj [field "type" (text "function"), field "function" (.obj [field "name" (get choice "name")])])
      else .error (bad "tool_choice must name one of the given tools.".toList "tool_choice".toList)
    else if isText "auto" kind then .ok (text "auto")
    else if isText "any" kind then .ok (text "required")
    else if isText "none" kind then .ok (text "none")
    else if truthy kind && !hashable kind then .error .crash
    else .error (bad "tool_choice type must be auto, any, none or tool.".toList "tool_choice".toList)

/-- `_convert`, with the messages of the loop. -/
def requestOf (body : MessagesRequest) (messages : List SentMessage) : Except Raised SentRequest := do
  let bytes ← imageBytes messages
  if maxImageBytes < bytes then .error (bad "Inline images are too large for one request.".toList "messages".toList)
  else do
    let system ← textOf P body.system "system".toList
    let tools ← convertTools 0 (body.tools.getD [])
    let toolChoice ← toolChoiceOf P body.toolChoice (body.tools.getD [])
    .ok {
      messages
      model := body.model
      maxTokens := body.maxTokens
      temperature := body.temperature.getD (7 / 10)
      systemPrompt := if system = [] then none else some system
      stream := body.stream
      tools := orNone tools
      toolChoice }

/-- The checks before the loop. -/
def checkRefused (body : MessagesRequest) : Except Raised Unit :=
  if body.extra.any fun m => m.1 = "stop_sequences".toList then
    .error (refuse "Stop sequences are not supported yet.".toList "unsupported_parameter" "stop_sequences".toList)
  else if !(body.tools.getD []).isEmpty && body.stream then
    .error (refuse "Tool use with stream=true is not supported yet.".toList "unsupported_parameter" "tools".toList)
  else .ok ()

/-- `_convert`. -/
def convert (body : MessagesRequest) : Except Raised SentRequest := do
  checkRefused body
  let messages ← convertMessages P 0 body.messages
  requestOf P body messages

end Convert

/-! ## Answers -/

section Blocks

variable (loads : String → Except String Json)

/-- `json.loads(c["arguments"] or "{}")`, or nothing where that fails. -/
def inputOf (arguments : String) : Json :=
  match loads (if arguments = "" then "\x7b\x7d" else arguments) with
  | .ok value => value
  | .error _ => .obj []

/-- A call of `_blocks`. -/
def callBlock (c : ToolCall) : Json :=
  .obj [field "type" (text "tool_use"), field "id" (text c.id), field "name" (text c.name),
    field "input" (inputOf loads c.arguments)]

def textBlock (s : String) : Json := .obj [field "type" (text "text"), field "text" (text s)]

/-- `_blocks`. -/
def blocks (resp : Reply) : List Json :=
  let blocks := (if resp.content = "" then [] else [textBlock resp.content]) ++ resp.toolCalls.map (callBlock loads)
  if blocks.isEmpty then [textBlock ""] else blocks

/-- The answer as a message of the assistant. -/
def assistantMessage (resp : Reply) : Members :=
  [field "role" (text "assistant"), field "content" (.arr (blocks loads resp))]

end Blocks

end Caips.Api.Anthropic
