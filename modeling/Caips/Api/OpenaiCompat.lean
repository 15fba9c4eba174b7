/-
Caips.Api.OpenaiCompat — the OpenAI-compatible endpoint's messages: the
conversion of a request and the rendering of an answer, after
`api/openai_compat.py`.

The loop over the messages collects the texts for the system prompt and the
messages of the conversation; `convertMessage` is one round of it, so that a
request is converted message by message.
-/
import Caips.Api.Compat

namespace Caips.Api.Openai

open Caips.Logic Caips.Providers

/-! ## Requests -/

/-- `ChatRequest`, as far as it is converted. -/
structure ChatRequest where
  messages : List Members
  model : Option String := none
  maxTokens : Option ℕ := none
  maxCompletionTokens : Option ℕ := none
  temperature : Option ℚ := none
  stream : Bool := false
  n : Option ℤ := none
  responseFormat : Option Members := none
  tools : Option (List Members) := none
  toolChoice : Json := null
  metadata : Option Members := none
  policy : Option String := none
  extra : Members := []

/-- A `CompatError` with status 400. -/
def refuse (message : List Char) (code : String) (param : List Char) : Raised :=
  .compat ⟨400, message, "invalid_request_error", some code, some param⟩

/-- `_bad`. -/
def bad (message : String) (param : List Char) (code : String := "invalid_value") : Raised :=
  refuse message.toList code param

section Convert

variable (P : Python)

/-- `_text_of`, of one part. -/
def partText (index : ℕ) (part : Json) : Except Raised (List Char) :=
  let param := indexed "messages" index ".content"
  match dict? part with
  | some p =>
    if isText "text" (get p "type") then .ok (str P (getD p "text" (text "")))
    else .error (refuse ("Content part type '".toList ++ str P (get p "type") ++
      "' is not supported yet (text only).".toList) "unsupported_parameter" param)
  | none =>
    .error (refuse "Content part type 'unknown' is not supported yet (text only).".toList
      "unsupported_parameter" param)

/-- `_text_of`. -/
def textOf (content : Json) (index : ℕ) : Except Raised (List Char) :=
  match content with
  | .atom .null => .ok []
  | .str s => .ok s
  | .arr parts => (parts.mapM (partText P index)).map List.flatten
  | _ => .error (bad "Message content must be a string or a list of text parts." (indexed "messages" index ".content"))

/-- The characters of a media type; other word characters are in none of `IMAGE_TYPES`. -/
def isTypeChar (c : Char) : Bool := c.isAlphanum || c ∈ ['_', '.', '+', '-']

/-- `parse_data_url`, after `data:`. -/
def parseDataUrl (l : List Char) : Option (List Char × List Char) :=
  let first := l.takeWhile isTypeChar
  match l.dropWhile isTypeChar with
  | '/' :: l =>
    let second := l.takeWhile isTypeChar
    let rest := l.dropWhile isTypeChar
    if first ≠ [] ∧ second ≠ [] ∧ ";base64,".toList.isPrefixOf rest ∧ rest.drop 8 ≠ [] then
      some ((first ++ '/' :: second).map Char.toLower, rest.drop 8)
    else none
  | _ => none

/-- `_image`. -/
def image (obj : Json) (index : ℕ) : Except Raised SentImage :=
  let param := indexed "messages" index ".content"
  match (match dict? obj with | some o => get o "url" | none => obj) with
  | .str url =>
    if url = [] then .error (bad "image_url.url must be a string." param)
    else if "data:".toList.isPrefixOf url then
      match parseDataUrl (url.drop 5) with
      | some (mediaType, data) =>
        if mediaType ∈ imageTypes then .ok (.inline mediaType (.str data))
        else .error (bad "Images must be base64 data URLs of type image/jpeg, image/png, image/gif, image/webp." param)
      | none => .error (bad "Images must be base64 data URLs of type image/jpeg, image/png, image/gif, image/webp." param)
    else if "http://".toList.isPrefixOf url || "https://".toList.isPrefixOf url then .ok (.url url)
    else .error (bad "image_url.url must be an http(s) or data URL." param)
  | _ => .error (bad "image_url.url must be a string." param)

/-- `_content`, of one part. -/
def contentPart (index : ℕ) (part : Json) : Except Raised (List Char × List SentImage) :=
  match dict? part with
  | some p =>
    if isText "image_url" (get p "type") then (image (get p "image_url") index).map fun i => ([], [i])
    else (textOf P (.arr [part]) index).map fun t => (t, [])
  | none => (textOf P (.arr [part]) index).map fun t => (t, [])

/-- `_content`. -/
def contentOf (content : Json) (index : ℕ) (allowImages : Bool) : Except Raised (List Char × List SentImage) :=
  match content, allowImages with
  | .arr parts, true =>
    (parts.mapM (contentPart P index)).map fun l => (l.flatMap Prod.fst, l.flatMap Prod.snd)
  | _, _ => (textOf P content index).map fun t => (t, [])

/-- One call of `_request_calls`. -/
def requestCall (param : List Char) (c : Json) : Except Raised SentCall :=
  match (dict? c).bind fun m => (dict? (get m "function")).map fun fn => (m, fn) with
  | some (m, fn) =>
    if truthy (get m "id") && truthy (get fn "name") then
      .ok {
        id := .str (str P (get m "id"))
        name := get fn "name"
        arguments :=
          match get fn "arguments" with
          | .str s => s
          | args => write (if truthy args then args else .obj []) }
    else .error (bad "Each tool call needs an id and a function name." param)
  | none => .error (bad "Each tool call needs an id and a function name." param)

/-- `_request_calls`. -/
def requestCalls (raw : Json) (index : ℕ) : Except Raised (List SentCall) :=
  let param := indexed "messages" index ".tool_calls"
  match raw with
  | .arr items => items.mapM (requestCall P param)
  | _ => .error (bad "tool_calls must be a list." param)

/-- One message: a text for the system prompt, or a message of the conversation. -/
def convertMessage (i : ℕ) (m : Members) : Except Raised (List (List Char) × List SentMessage) := do
  let role := get m "role"
  let (content, images) ← contentOf P (get m "content") i (isText "user" role)
  if isText "system" role || isText "developer" role then .ok ([content], [])
  else if isText "tool" role then
    if truthy (get m "tool_call_id") then
      .ok ([], [{ role := "tool", content, toolCallId := some (.str (str P (get m "tool_call_id"))) }])
    else .error (bad "A tool message needs tool_call_id." (indexed "messages" i ".tool_call_id"))
  else if isText "assistant" role && truthy (get m "tool_calls") then do
    let calls ← requestCalls P (get m "tool_calls") i
    .ok ([], [{ role := "assistant", content, toolCalls := some calls }])
  else if isText "user" role then .ok ([], [{ role := "user", content, images := orNone images }])
  else if isText "assistant" role then .ok ([], [{ role := "assistant", content, images := orNone images }])
  else .error (refuse ("Unsupported message role '".toList ++ str P role ++ "'.".toList) "invalid_value"
    (indexed "messages" i ".role"))

/-- The loop over the messages, from that index on. -/
def convertMessages : ℕ → List Members → Except Raised (List (List Char) × List SentMessage)
  | _, [] => .ok ([], [])
  | i, m :: rest => do
      let first ← convertMessage P i m
      let others ← convertMessages (i + 1) rest
      .ok (first.1 ++ others.1, first.2 ++ others.2)

/-- `_REFUSED`. -/
def refused : List (String × String) :=
  [("functions", "function calling"), ("function_call", "function calling"), ("stop", "stop sequences"),
    ("logprobs", "logprobs"), ("top_logprobs", "logprobs"), ("modalities", "audio and other modalities"),
    ("audio", "audio"), ("prediction", "predicted outputs")]

/-- `what.capitalize()`. -/
def capitalize (what : String) : List Char :=
  match what.toList with
  | [] => []
  | c :: l => c.toUpper :: l.map Char.toLower

/-- The loop over `_REFUSED`, and the check of `n`. -/
def checkRefused (body : ChatRequest) : Except Raised Unit :=
  match refused.find? fun r => body.extra.any fun m => m.1 = r.1.toList with
  | some (key, what) =>
    .error (refuse (capitalize what ++ " is not supported yet.".toList) "unsupported_parameter" key.toList)
  | none =>
    if body.n = none ∨ body.n = some 1 then .ok ()
    else .error (refuse "Only n=1 is supported.".toList "unsupported_parameter" "n".toList)

/-- `_check_response_format`. -/
def checkResponseFormat (rf : Option Members) : Except Raised Unit :=
  let rf := rf.getD []
  let kind := get rf "type"
  if isNull kind || isText "text" kind || isText "json_object" kind then .ok ()
  else if isText "json_schema" kind then
    match (dict? (get rf "json_schema")).bind fun js => dict? (get js "schema") with
    | some _ => .ok ()
    | none => .error (bad "response_format.json_schema.schema must be an object." "response_format".toList)
  else .error (refuse ("response_format type '".toList ++ str P kind ++ "' is not supported.".toList)
    "unsupported_parameter" "response_format".toList)

/-- The name of the function of a tool, if the tool is well formed. -/
def toolName (t : Members) : Option Json :=
  match dict? (get t "function") with
  | some fn => if isText "function" (get t "type") && truthy (get fn "name") then some (get fn "name") else none
  | none => none

/-- `_check_tools`. -/
def checkTools (body : ChatRequest) : Except Raised Unit := do
  let tools := body.tools.getD []
  match tools.findIdx? fun t => (toolName t).isNone with
  | some i => .error (bad "Each tool must be \x7b'type': 'function', 'function': \x7b'name': ...\x7d\x7d." (indexed "tools" i ""))
  | none => pure ()
  if isNull body.toolChoice then .ok ()
  else if tools.isEmpty then .error (bad "tool_choice needs tools." "tool_choice".toList)
  else
    match body.toolChoice with
    | .str choice =>
      if choice ∈ ["auto".toList, "none".toList, "required".toList] then .ok ()
      else .error (bad "tool_choice must be auto, none, required or a function." "tool_choice".toList)
    | .obj choice =>
      let wrong := bad "tool_choice must name one of the given tools." "tool_choice".toList
      let fn := get choice "function"
      if truthy fn && (dict? fn).isNone then .error .crash
      else if !isText "function" (get choice "type") then .error wrong
      else do
        let found ← memberOf P (get ((dict? fn).getD []) "name") (tools.filterMap toolName)
        if found then .ok () else .error wrong
    | _ => .error (bad "tool_choice must be a string or an object." "tool_choice".toList)

/-- `_policy_metadata`. -/
def policyMetadata (body : ChatRequest) : Members :=
  let raw := body.metadata.getD []
  let name := if truthy (get raw "policy") then get raw "policy" else (body.policy.map text).getD null
  let difficulty := get raw "difficulty"
  (match name with
    | .str (c :: s) => [field "policy" (.str (c :: s))]
    | _ => []) ++
  (match get raw "private" with
    | .atom (.bool true) => [field "private" (.atom (.bool true))]
    | _ => []) ++
  if isText "easy" difficulty || isText "hard" difficulty then [field "difficulty" difficulty] else []

/-- `_convert`, with the messages of the loop. -/
def requestOf (body : ChatRequest) (converted : List (List Char) × List SentMessage) : Except Raised SentRequest := do
  let (system, messages) := converted
  if messages.isEmpty then
    .error (refuse "At least one user or assistant message is required.".toList "invalid_value" "messages".toList)
  else do
    let bytes ← imageBytes messages
    if maxImageBytes < bytes then
      .error (bad "Inline images are too large for one request." "messages".toList "request_too_large")
    else
      let prompt := "\n\n".toList.intercalate system
      .ok {
        messages
        model := body.model
        maxTokens := (body.maxCompletionTokens.or body.maxTokens).getD 1024
        temperature := body.temperature.getD (7 / 10)
        systemPrompt := if prompt = [] then none else some prompt
        stream := body.stream
        metadata := policyMetadata body
        tools := (body.tools.getD []) |> orNone
        toolChoice := body.toolChoice
        responseFormat := if isText "text" (get (body.responseFormat.getD []) "type") then none else body.responseFormat }

/-- `_convert`. -/
def convert (body : ChatRequest) : Except Raised SentRequest := do
  checkRefused body
  checkResponseFormat P body.responseFormat
  checkTools P body
  let converted ← convertMessages P 0 body.messages
  requestOf body converted

end Convert

/-! ## Answers -/

/-- A call of `_assistant_message`. -/
def callOf (c : ToolCall) : Json :=
  .obj [field "id" (text c.id), field "type" (text "function"),
    field "function" (.obj [field "name" (text c.name), field "arguments" (text c.arguments)])]

/-- `_assistant_message`. -/
def assistantMessage (resp : Reply) : Members :=
  if resp.toolCalls = [] then [field "role" (text "assistant"), field "content" (text resp.content)]
  else
    [field "role" (text "assistant"), field "content" (if resp.content = "" then null else text resp.content),
      field "tool_calls" (.arr (resp.toolCalls.map callOf))]

end Caips.Api.Openai
