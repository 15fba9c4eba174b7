/-
Caips.Api.CompatTheorems — an answer that is sent back is the answer.

A client puts an answer into the history of its next request. Both formats are
converted message by message, so what is shown is that one rendered message
becomes one message with the same text and calls (`Restores`), wherever it
stands, and that the request is accepted where the rest of it is (`ComesBack`).
The formats differ in the arguments: OpenAI's hands the text back as it
is, Anthropic's reads it as JSON and writes it again.
-/
import Caips.Api.AnthropicCompat
import Caips.Api.OpenaiCompat
import Caips.Logic.Numbered

namespace Caips.Api

open Caips.Logic Caips.Providers

/-- A reader of JSON: it does not read the empty text, and what it has read and is written it reads again. -/
structure JsonReader where
  loads : String → Except String Json
  loads_empty : ∃ e, loads "" = .error e
  loads_write : ∀ s v, loads s = .ok v → loads (String.ofList (write v)) = .ok v

/-- The message says what the answer says: its text, and its calls in their order, with arguments that are
the same as JSON. -/
structure Restores (loads : String → Except String Json) (resp : Reply) (m : SentMessage) : Prop where
  role : m.role = "assistant"
  content : m.content = resp.content.toList
  calls : List.Forall₂ (fun c s => s.id = text c.id ∧ s.name = text c.name ∧
    loads (String.ofList s.arguments) = loads c.arguments) resp.toolCalls (m.toolCalls.getD [])
  images : m.images = none

/-- Calls with ids and names, and JSON objects for arguments. -/
def WellFormed (loads : String → Except String Json) (resp : Reply) : Prop :=
  ∀ c ∈ resp.toolCalls, c.id ≠ "" ∧ c.name ≠ "" ∧ ∃ members, loads c.arguments = .ok (.obj members)

/-- A message of a client that is text alone. -/
structure Plain where
  fromUser : Bool
  said : String

namespace Plain

def role (p : Plain) : String := if p.fromUser then "user" else "assistant"

def members (p : Plain) : Members := [field "role" (text p.role), field "content" (text p.said)]

def sent (p : Plain) : SentMessage := { role := p.role, content := p.said.toList }

theorem imageBytes_sent (l : List Plain) : imageBytes (l.map sent) = .ok 0 := by
  have hnone : ((l.map sent).flatMap fun m => m.images.getD []) = [] := by simp [sent]
  rw [imageBytes, hnone]
  rfl

end Plain

theorem imageBytes_insert {m : SentMessage} (h : m.images = none) (before after : List SentMessage) :
    imageBytes (before ++ m :: after) = imageBytes (before ++ after) := by
  simp [imageBytes, h]

theorem mapM_map_ok {ε α β γ : Type} {f : β → Except ε γ} {render : α → β} {g : α → γ} {l : List α}
    (h : ∀ a ∈ l, f (render a) = .ok (g a)) : (l.map render).mapM f = .ok (l.map g) := by
  induction l with
  | nil => rfl
  | cons a l ih =>
    rw [List.map_cons, List.mapM_cons, h a List.mem_cons_self, ih fun b hb => h b (List.mem_cons_of_mem _ hb)]
    rfl

/-! ## OpenAI's messages -/

namespace Openai

variable (P : Python)

/-- What a call becomes. -/
def sentCall (c : ToolCall) : SentCall := ⟨text c.id, text c.name, c.arguments.toList⟩

/-- What an answer becomes. -/
def messageOf (resp : Reply) : SentMessage where
  role := "assistant"
  content := resp.content.toList
  toolCalls := orNone (resp.toolCalls.map sentCall)

theorem requestCall_callOf {c : ToolCall} (hid : c.id ≠ "") (hname : c.name ≠ "") (param : List Char) :
    requestCall P param (callOf c) = .ok (sentCall c) := by
  simp [requestCall, callOf, get_field_ne, hid, hname]
  rfl

theorem requestCalls_map {calls : List ToolCall} (h : ∀ c ∈ calls, c.id ≠ "" ∧ c.name ≠ "") (index : ℕ) :
    requestCalls P (.arr (calls.map callOf)) index = .ok (calls.map sentCall) :=
  mapM_map_ok fun c hc => requestCall_callOf P (h c hc).1 (h c hc).2 _

theorem contentOf_text (s : String) (i : ℕ) (allowImages : Bool) :
    contentOf P (text s) i allowImages = .ok (s.toList, []) := by
  cases allowImages <;> rfl

theorem contentOf_orNull (s : String) (i : ℕ) (allowImages : Bool) :
    contentOf P (if s = "" then null else text s) i allowImages = .ok (s.toList, []) := by
  by_cases h : s = ""
  · rw [if_pos h, h]
    cases allowImages <;> rfl
  · rw [if_neg h]
    exact contentOf_text P s i allowImages

theorem convertMessage_members (p : Plain) (i : ℕ) : convertMessage P i p.members = .ok ([], [p.sent]) := by
  obtain ⟨fromUser, said⟩ := p
  cases fromUser <;>
    simp [convertMessage, Plain.members, Plain.sent, Plain.role, get_field_ne, contentOf_text, Bind.bind, Except.bind,
      orNone]

theorem convertMessage_assistantMessage {resp : Reply} (h : ∀ c ∈ resp.toolCalls, c.id ≠ "" ∧ c.name ≠ "") (i : ℕ) :
    convertMessage P i (assistantMessage resp) = .ok ([], [messageOf resp]) := by
  cases hcalls : resp.toolCalls with
  | nil =>
    simp [assistantMessage, hcalls, convertMessage, get_field_ne, contentOf_text, Bind.bind, Except.bind,
      messageOf, orNone]
  | cons c calls =>
    have hrequest := requestCalls_map P h i
    rw [hcalls, List.map_cons, List.map_cons] at hrequest
    simp [assistantMessage, hcalls, convertMessage, get_field_ne, contentOf_orNull, Bind.bind, Except.bind,
      messageOf, orNone, hrequest]

theorem numbered_convertMessages :
    Numbered (([], []) : List (List Char) × List SentMessage) (fun a b => (a.1 ++ b.1, a.2 ++ b.2)) (convertMessage P)
      (convertMessages P) where
  nil _ := rfl
  cons _ _ _ := rfl
  unit_join _ := rfl
  join_assoc _ _ _ := Prod.ext (List.append_assoc ..) (List.append_assoc ..)

theorem convertMessages_plain (l : List Plain) (i : ℕ) :
    convertMessages P i (l.map Plain.members) = .ok ([], l.map Plain.sent) := by
  induction l generalizing i with
  | nil => rfl
  | cons p l ih =>
    rw [List.map_cons, convertMessages, convertMessage_members, ih]
    rfl

theorem requestOf_insert {m other : SentMessage} (hm : m.images = none) (hother : other.images = none)
    (body : ChatRequest) (system : List (List Char)) (before after : List SentMessage) :
    requestOf body (system, before ++ m :: after) =
      (requestOf body (system, before ++ other :: after)).map fun out => { out with messages := before ++ m :: after } := by
  simp only [requestOf, imageBytes_insert hm, imageBytes_insert hother]
  cases imageBytes (before ++ after) with
  | error e => simp [Bind.bind, Except.bind, Except.map]
  | ok bytes =>
    by_cases hbytes : maxImageBytes < bytes <;> simp [Bind.bind, Except.bind, Except.map, hbytes]

theorem convert_ok_iff {body : ChatRequest} {out : SentRequest} :
    convert P body = .ok out ↔
      (checkRefused body = .ok () ∧ checkResponseFormat P body.responseFormat = .ok () ∧ checkTools P body = .ok ()) ∧
        ∃ converted, convertMessages P 0 body.messages = .ok converted ∧ requestOf body converted = .ok out := by
  simp only [convert, bind_ok_iff, Unique.exists_iff]
  exact ⟨fun ⟨h₁, h₂, h₃, h⟩ => ⟨⟨h₁, h₂, h₃⟩, h⟩, fun ⟨⟨h₁, h₂, h₃⟩, h⟩ => ⟨h₁, h₂, h₃, h⟩⟩

/-- A request in order around a message: the checks that do not read the messages, the messages before it and
after it, which become `b` and `a`, and the size of their images. -/
structure InOrder (body : ChatRequest) (before after : List Members) (b a : List (List Char) × List SentMessage) :
    Prop where
  refused : checkRefused body = .ok ()
  responseFormat : checkResponseFormat P body.responseFormat = .ok ()
  tools : checkTools P body = .ok ()
  above : convertMessages P 0 before = .ok b
  below : convertMessages P (before.length + 1) after = .ok a
  images : ∃ bytes ≤ maxImageBytes, imageBytes (b.2 ++ a.2) = .ok bytes

/-- The rendered message comes back as `sent`, at any place of a request: among plain messages always, in
any request exactly where the rest is in order, and with the rest as it is for a plain message in its place. -/
structure ComesBack (rendered : Members) (sent : SentMessage) : Prop where
  plain : ∀ before after : List Plain, ∃ out,
    convert P { messages := before.map Plain.members ++ rendered :: after.map Plain.members } = .ok out ∧
      out.messages = before.map Plain.sent ++ sent :: after.map Plain.sent
  inOrder : ∀ (body : ChatRequest) (before after : List Members) (messages : List SentMessage),
    (∃ out, convert P { body with messages := before ++ rendered :: after } = .ok out ∧ out.messages = messages) ↔
      ∃ b a, InOrder P body before after b a ∧ messages = b.2 ++ sent :: a.2
  rest : ∀ (body : ChatRequest) (before after : List Members) (out : SentRequest),
    convert P { body with messages := before ++ rendered :: after } = .ok out ↔
      ∃ b a rest, convertMessages P 0 before = .ok b ∧ convertMessages P (before.length + 1) after = .ok a ∧
        out = { rest with messages := b.2 ++ sent :: a.2 } ∧
        convert P { body with messages := before ++ plainAssistant :: after } = .ok rest

/-- With a message without images, what is asked of the rest is the size of its images. -/
theorem requestOf_messages {m : SentMessage} (hm : m.images = none) (body : ChatRequest) (system : List (List Char))
    (before after messages : List SentMessage) :
    (∃ out, requestOf body (system, before ++ m :: after) = .ok out ∧ out.messages = messages) ↔
      (∃ bytes ≤ maxImageBytes, imageBytes (before ++ after) = .ok bytes) ∧ messages = before ++ m :: after := by
  simp only [requestOf, imageBytes_insert hm]
  cases imageBytes (before ++ after) with
  | error e => simp [Bind.bind, Except.bind]
  | ok bytes =>
    by_cases hbytes : maxImageBytes < bytes
    · simp [Bind.bind, Except.bind, hbytes]
    · have hfits := not_lt.mp hbytes
      simp [Bind.bind, Except.bind, hbytes, hfits, @eq_comm _ messages]

variable {sent : SentMessage}

theorem convert_messages {m : Members} (hm : ∀ i, convertMessage P i m = .ok ([], [sent]))
    (himages : sent.images = none) (body : ChatRequest) (before after : List Members) (messages : List SentMessage) :
    (∃ out, convert P { body with messages := before ++ m :: after } = .ok out ∧ out.messages = messages) ↔
      ∃ b a, InOrder P body before after b a ∧ messages = b.2 ++ sent :: a.2 := by
  have hread : ∀ c, convertMessages P 0 (before ++ m :: after) = .ok c ↔
      ∃ b a, convertMessages P 0 before = .ok b ∧ convertMessages P (before.length + 1) after = .ok a ∧
        (b.1 ++ a.1, b.2 ++ sent :: a.2) = c := by
    intro c
    rw [(numbered_convertMessages P).insert_ok_iff hm, Nat.zero_add]
    rfl
  have hbuilt := fun system b a => requestOf_messages himages body system b a messages
  simp only [convert_ok_iff, hread]
  constructor
  · rintro ⟨out, ⟨⟨hrefused, hformat, htools⟩, _, ⟨b, a, hb, ha, rfl⟩, hout⟩, hmessages⟩
    obtain ⟨hbytes, heq⟩ := (hbuilt _ _ _).mp ⟨out, hout, hmessages⟩
    exact ⟨b, a, ⟨hrefused, hformat, htools, hb, ha, hbytes⟩, heq⟩
  · rintro ⟨b, a, ⟨hrefused, hformat, htools, hb, ha, hbytes⟩, heq⟩
    obtain ⟨out, hout, hmessages⟩ := (hbuilt (b.1 ++ a.1) _ _).mpr ⟨hbytes, heq⟩
    exact ⟨out, ⟨⟨hrefused, hformat, htools⟩, _, ⟨b, a, hb, ha, rfl⟩, hout⟩, hmessages⟩

theorem inOrder_plain (before after : List Plain) :
    InOrder P { messages := [] } (before.map Plain.members) (after.map Plain.members) ([], before.map Plain.sent)
      ([], after.map Plain.sent) where
  refused := rfl
  responseFormat := rfl
  tools := rfl
  above := convertMessages_plain P before 0
  below := convertMessages_plain P after _
  images := ⟨0, Nat.zero_le _, by rw [← List.map_append]; exact Plain.imageBytes_sent _⟩

/-- The answer in a request, at any place: the request is accepted with it when it is with a plain message,
and the message is all that differs. -/
theorem convert_insert {m : Members} (hm : ∀ i, convertMessage P i m = .ok ([], [sent]))
    (himages : sent.images = none) (body : ChatRequest) (before after : List Members) {out : SentRequest} :
    convert P { body with messages := before ++ m :: after } = .ok out ↔
      ∃ b a rest, convertMessages P 0 before = .ok b ∧ convertMessages P (before.length + 1) after = .ok a ∧
        out = { rest with messages := b.2 ++ sent :: a.2 } ∧
        convert P { body with messages := before ++ plainAssistant :: after } = .ok rest := by
  have hrun : ∀ (l : List Members) out, convert P { body with messages := l } = .ok out ↔
      (checkRefused body = .ok () ∧ checkResponseFormat P body.responseFormat = .ok () ∧ checkTools P body = .ok ()) ∧
        ∃ converted, convertMessages P 0 l = .ok converted ∧ requestOf body converted = .ok out :=
    fun _ _ => convert_ok_iff P
  have hrequest := fun system b a => @requestOf_insert _ { role := "assistant", content := [] } himages rfl body system b a
  exact (numbered_convertMessages P).exchange_ok_iff (fun c out => { out with messages := c.2 }) hrun hm
    (convertMessage_members P ⟨false, ""⟩) fun b a => hrequest (b.1 ++ a.1) b.2 a.2

theorem comesBack {m : Members} (hm : ∀ i, convertMessage P i m = .ok ([], [sent]))
    (himages : sent.images = none) : ComesBack P m sent where
  plain before after :=
    (convert_messages P hm himages { messages := [] } _ _ _).mpr ⟨_, _, inOrder_plain P before after, rfl⟩
  inOrder := convert_messages P hm himages
  rest body before after _ := convert_insert P hm himages body before after

theorem restores_messageOf (loads : String → Except String Json) (resp : Reply) : Restores loads resp (messageOf resp) := by
  refine ⟨rfl, rfl, ?_, rfl⟩
  have hcalls : (messageOf resp).toolCalls.getD [] = resp.toolCalls.map sentCall := by
    unfold messageOf orNone
    cases resp.toolCalls <;> rfl
  rw [hcalls, List.forall₂_map_right_iff, List.forall₂_same]
  intro c _
  exact ⟨rfl, rfl, by rw [sentCall, String.ofList_toList]⟩

end Openai

/-! ## Anthropic's messages -/

namespace Anthropic

variable (P : Python)

section Blocks

variable (loads : String → Except String Json)

/-- What a call becomes. -/
def sentCall (c : ToolCall) : SentCall where
  id := text c.id
  name := text c.name
  arguments := write (if truthy (inputOf loads c.arguments) then inputOf loads c.arguments else .obj [])

/-- What an answer becomes. -/
def messageOf (resp : Reply) : SentMessage where
  role := "assistant"
  content := resp.content.toList
  toolCalls := orNone (resp.toolCalls.map (sentCall loads))

theorem convertBlock_textBlock (s : String) (place : List Char) :
    convertBlock P "assistant" place (textBlock s) = .ok { texts := [s.toList] } := by
  simp [convertBlock, textBlock, getD_field_ne]

theorem convertBlock_callBlock {c : ToolCall} (hid : c.id ≠ "") (hname : c.name ≠ "") (place : List Char) :
    convertBlock P "assistant" place (callBlock loads c) = .ok { calls := [sentCall loads c] } := by
  simp [convertBlock, callBlock, get_field_ne, hid, hname, sentCall]

theorem convertBlocks_calls {calls : List ToolCall} (h : ∀ c ∈ calls, c.id ≠ "" ∧ c.name ≠ "") (place : List Char) :
    convertBlocks P "assistant" place (calls.map (callBlock loads)) = .ok { calls := calls.map (sentCall loads) } := by
  induction calls with
  | nil => rfl
  | cons c calls ih =>
    obtain ⟨hid, hname⟩ := h c List.mem_cons_self
    rw [List.map_cons, convertBlocks, convertBlock_callBlock P loads hid hname,
      ih fun d hd => h d (List.mem_cons_of_mem _ hd)]
    rfl

/-- The blocks of an answer are a turn that says the text and the calls. -/
theorem convertBlocks_blocks {resp : Reply} (h : ∀ c ∈ resp.toolCalls, c.id ≠ "" ∧ c.name ≠ "") (place : List Char) :
    ∃ texts, convertBlocks P "assistant" place (blocks loads resp) =
        .ok { texts := texts, calls := resp.toolCalls.map (sentCall loads) } ∧
      texts.flatten = resp.content.toList ∧ (texts.isEmpty && resp.toolCalls.isEmpty) = false := by
  have hcalls := convertBlocks_calls P loads h place
  by_cases hcontent : resp.content = ""
  · cases htools : resp.toolCalls with
    | nil =>
      refine ⟨[[]], ?_, by simp [hcontent], by simp⟩
      simp [blocks, hcontent, htools, convertBlocks, convertBlock_textBlock, Bind.bind, Except.bind, Turn.append]
    | cons c calls =>
      refine ⟨[], ?_, by simp [hcontent], by simp⟩
      rw [← htools]
      simpa [blocks, hcontent, htools] using hcalls
  · refine ⟨[resp.content.toList], ?_, by simp, by simp⟩
    simp [blocks, hcontent, convertBlocks, convertBlock_textBlock, hcalls, Bind.bind, Except.bind, Turn.append]

theorem convertMessage_members (p : Plain) (i : ℕ) : convertMessage P i p.members = .ok [p.sent] := by
  obtain ⟨fromUser, said⟩ := p
  cases fromUser <;>
    simp [convertMessage, Plain.members, Plain.sent, Plain.role, get_field_ne, Bind.bind, Except.bind] <;> rfl

theorem convertMessage_assistantMessage {resp : Reply} (h : ∀ c ∈ resp.toolCalls, c.id ≠ "" ∧ c.name ≠ "") (i : ℕ) :
    convertMessage P i (assistantMessage loads resp) = .ok [messageOf loads resp] := by
  obtain ⟨texts, hblocks, htexts, hsaid⟩ := convertBlocks_blocks P loads h (indexed "messages" i ".content")
  have hnot : ¬ (texts = [] ∧ resp.toolCalls = []) := by simpa using hsaid
  simp [convertMessage, assistantMessage, get_field_ne, Bind.bind, Except.bind, hblocks, Except.map, Turn.messages,
    messageOf, htexts, hnot]
  rfl

end Blocks

theorem numbered_convertMessages : Numbered [] (· ++ ·) (convertMessage P) (convertMessages P) where
  nil _ := rfl
  cons _ _ _ := rfl
  unit_join _ := rfl
  join_assoc := List.append_assoc

theorem convertMessages_plain (l : List Plain) (i : ℕ) :
    convertMessages P i (l.map Plain.members) = .ok (l.map Plain.sent) := by
  induction l generalizing i with
  | nil => rfl
  | cons p l ih =>
    rw [List.map_cons, convertMessages, convertMessage_members, ih]
    rfl

/-- The rest of a request does not depend on a message without images. -/
theorem requestOf_insert {m other : SentMessage} (hm : m.images = none) (hother : other.images = none)
    (body : MessagesRequest) (before after : List SentMessage) :
    requestOf P body (before ++ m :: after) =
      (requestOf P body (before ++ other :: after)).map fun out => { out with messages := before ++ m :: after } := by
  simp only [requestOf, imageBytes_insert hm, imageBytes_insert hother]
  cases imageBytes (before ++ after) with
  | error e => rfl
  | ok bytes =>
    by_cases hbytes : maxImageBytes < bytes
    · simp [Bind.bind, Except.bind, Except.map, hbytes]
    · cases textOf P body.system "system".toList with
      | error e => simp [Bind.bind, Except.bind, Except.map, hbytes]
      | ok system =>
        cases convertTools 0 (body.tools.getD []) with
        | error e => simp [Bind.bind, Except.bind, Except.map, hbytes]
        | ok tools =>
          cases toolChoiceOf P body.toolChoice (body.tools.getD []) <;>
            simp [Bind.bind, Except.bind, Except.map, hbytes]

theorem convert_ok_iff {body : MessagesRequest} {out : SentRequest} :
    convert P body = .ok out ↔ checkRefused body = .ok () ∧
      ∃ messages, convertMessages P 0 body.messages = .ok messages ∧ requestOf P body messages = .ok out := by
  simp only [convert, bind_ok_iff, Unique.exists_iff]

/-- A request in order around a message: the checks that do not read the messages, the messages before it and
after it, which become `b` and `a`, the size of their images, and the fields beside the messages. -/
structure InOrder (body : MessagesRequest) (before after : List Members) (b a : List SentMessage) : Prop where
  refused : checkRefused body = .ok ()
  above : convertMessages P 0 before = .ok b
  below : convertMessages P (before.length + 1) after = .ok a
  images : ∃ bytes ≤ maxImageBytes, imageBytes (b ++ a) = .ok bytes
  system : ∃ system, textOf P body.system "system".toList = .ok system
  tools : ∃ tools, convertTools 0 (body.tools.getD []) = .ok tools
  toolChoice : ∃ choice, toolChoiceOf P body.toolChoice (body.tools.getD []) = .ok choice

/-- The rendered message comes back as `sent`, at any place of a request: among plain messages always, in
any request exactly where the rest is in order, and with the rest as it is for a plain message in its place. -/
structure ComesBack (rendered : Members) (sent : SentMessage) : Prop where
  plain : ∀ (maxTokens : ℕ) (before after : List Plain), ∃ out,
    convert P { maxTokens, messages := before.map Plain.members ++ rendered :: after.map Plain.members } = .ok out ∧
      out.messages = before.map Plain.sent ++ sent :: after.map Plain.sent
  inOrder : ∀ (body : MessagesRequest) (before after : List Members) (messages : List SentMessage),
    (∃ out, convert P { body with messages := before ++ rendered :: after } = .ok out ∧ out.messages = messages) ↔
      ∃ b a, InOrder P body before after b a ∧ messages = b ++ sent :: a
  rest : ∀ (body : MessagesRequest) (before after : List Members) (out : SentRequest),
    convert P { body with messages := before ++ rendered :: after } = .ok out ↔
      ∃ b a rest, convertMessages P 0 before = .ok b ∧ convertMessages P (before.length + 1) after = .ok a ∧
        out = { rest with messages := b ++ sent :: a } ∧
        convert P { body with messages := before ++ plainAssistant :: after } = .ok rest

/-- With a message without images, what is asked of the rest does not read it. -/
theorem requestOf_messages {m : SentMessage} (hm : m.images = none) (body : MessagesRequest)
    (before after messages : List SentMessage) :
    (∃ out, requestOf P body (before ++ m :: after) = .ok out ∧ out.messages = messages) ↔
      (∃ bytes ≤ maxImageBytes, imageBytes (before ++ after) = .ok bytes) ∧
        (∃ system, textOf P body.system "system".toList = .ok system) ∧
        (∃ tools, convertTools 0 (body.tools.getD []) = .ok tools) ∧
        (∃ choice, toolChoiceOf P body.toolChoice (body.tools.getD []) = .ok choice) ∧
        messages = before ++ m :: after := by
  simp only [requestOf, imageBytes_insert hm]
  cases imageBytes (before ++ after) with
  | error e => simp [Bind.bind, Except.bind]
  | ok bytes =>
    by_cases hbytes : maxImageBytes < bytes
    · simp [Bind.bind, Except.bind, hbytes]
    · cases textOf P body.system "system".toList with
      | error e => simp [Bind.bind, Except.bind, hbytes]
      | ok system =>
        cases convertTools 0 (body.tools.getD []) with
        | error e => simp [Bind.bind, Except.bind, hbytes]
        | ok tools =>
          have hfits := not_lt.mp hbytes
          cases toolChoiceOf P body.toolChoice (body.tools.getD []) <;>
            simp [Bind.bind, Except.bind, hbytes, hfits, @eq_comm _ messages]

variable {sent : SentMessage}

theorem convert_messages {m : Members} (hm : ∀ i, convertMessage P i m = .ok [sent])
    (himages : sent.images = none) (body : MessagesRequest) (before after : List Members)
    (messages : List SentMessage) :
    (∃ out, convert P { body with messages := before ++ m :: after } = .ok out ∧ out.messages = messages) ↔
      ∃ b a, InOrder P body before after b a ∧ messages = b ++ sent :: a := by
  have hread : ∀ c, convertMessages P 0 (before ++ m :: after) = .ok c ↔
      ∃ b a, convertMessages P 0 before = .ok b ∧ convertMessages P (before.length + 1) after = .ok a ∧
        b ++ sent :: a = c := by
    intro c
    rw [(numbered_convertMessages P).insert_ok_iff hm, Nat.zero_add]
    rfl
  have hbuilt := fun b a => requestOf_messages P himages body b a messages
  simp only [convert_ok_iff, hread]
  constructor
  · rintro ⟨out, ⟨hrefused, _, ⟨b, a, hb, ha, rfl⟩, hout⟩, hmessages⟩
    obtain ⟨hbytes, hsystem, htools, hchoice, heq⟩ := (hbuilt _ _).mp ⟨out, hout, hmessages⟩
    exact ⟨b, a, ⟨hrefused, hb, ha, hbytes, hsystem, htools, hchoice⟩, heq⟩
  · rintro ⟨b, a, ⟨hrefused, hb, ha, hbytes, hsystem, htools, hchoice⟩, heq⟩
    obtain ⟨out, hout, hmessages⟩ := (hbuilt _ _).mpr ⟨hbytes, hsystem, htools, hchoice, heq⟩
    exact ⟨out, ⟨hrefused, _, ⟨b, a, hb, ha, rfl⟩, hout⟩, hmessages⟩

theorem inOrder_plain (maxTokens : ℕ) (before after : List Plain) :
    InOrder P { maxTokens, messages := [] } (before.map Plain.members) (after.map Plain.members)
      (before.map Plain.sent) (after.map Plain.sent) where
  refused := rfl
  above := convertMessages_plain P before 0
  below := convertMessages_plain P after _
  images := ⟨0, Nat.zero_le _, by rw [← List.map_append]; exact Plain.imageBytes_sent _⟩
  system := ⟨_, rfl⟩
  tools := ⟨_, rfl⟩
  toolChoice := ⟨_, rfl⟩

/-- The answer in a request, at any place: the request is accepted with it when it is with a plain message,
and the message is all that differs. -/
theorem convert_insert {m : Members} (hm : ∀ i, convertMessage P i m = .ok [sent])
    (himages : sent.images = none) (body : MessagesRequest) (before after : List Members) {out : SentRequest} :
    convert P { body with messages := before ++ m :: after } = .ok out ↔
      ∃ b a rest, convertMessages P 0 before = .ok b ∧ convertMessages P (before.length + 1) after = .ok a ∧
        out = { rest with messages := b ++ sent :: a } ∧
        convert P { body with messages := before ++ plainAssistant :: after } = .ok rest := by
  have hrun : ∀ (l : List Members) out, convert P { body with messages := l } = .ok out ↔ checkRefused body = .ok () ∧
      ∃ messages, convertMessages P 0 l = .ok messages ∧ requestOf P body messages = .ok out :=
    fun _ _ => convert_ok_iff P
  have hrequest := fun b a => @requestOf_insert P _ { role := "assistant", content := [] } himages rfl body b a
  exact (numbered_convertMessages P).exchange_ok_iff (fun c (out : SentRequest) => { out with messages := c }) hrun hm
    (convertMessage_members P ⟨false, ""⟩) hrequest

theorem comesBack {m : Members} (hm : ∀ i, convertMessage P i m = .ok [sent])
    (himages : sent.images = none) : ComesBack P m sent where
  plain maxTokens before after :=
    (convert_messages P hm himages { maxTokens, messages := [] } _ _ _).mpr
      ⟨_, _, inOrder_plain P maxTokens before after, rfl⟩
  inOrder := convert_messages P hm himages
  rest body before after _ := convert_insert P hm himages body before after

/-- Arguments that are a JSON object come back as the same object. -/
theorem loads_sentCall (J : JsonReader) {c : ToolCall} {members : Members}
    (h : J.loads c.arguments = .ok (.obj members)) :
    J.loads (String.ofList (sentCall J.loads c).arguments) = J.loads c.arguments := by
  have hne : c.arguments ≠ "" := by
    intro hempty
    obtain ⟨e, he⟩ := J.loads_empty
    rw [hempty, he] at h
    cases h
  have hinput : inputOf J.loads c.arguments = .obj members := by
    rw [inputOf, if_neg hne, h]
  have hkeep : (if truthy (.obj members) then (.obj members) else .obj [] : Json) = .obj members := by
    cases members <;> rfl
  rw [sentCall, hinput, hkeep, h]
  exact J.loads_write _ _ h

theorem restores_messageOf (J : JsonReader) {resp : Reply} (h : WellFormed J.loads resp) :
    Restores J.loads resp (messageOf J.loads resp) := by
  refine ⟨rfl, rfl, ?_, rfl⟩
  have hcalls : (messageOf J.loads resp).toolCalls.getD [] = resp.toolCalls.map (sentCall J.loads) := by
    unfold messageOf orNone
    cases resp.toolCalls <;> rfl
  rw [hcalls, List.forall₂_map_right_iff, List.forall₂_same]
  intro c hc
  obtain ⟨-, -, members, hmembers⟩ := h c hc
  exact ⟨rfl, rfl, loads_sentCall J hmembers⟩

end Anthropic

/-! ## Both -/

/-- **A tool conversation comes back.** An answer whose calls have ids, names and JSON objects for arguments
becomes, in either format and at any place of a request, one message with its text and its calls. -/
theorem reply_restored (P : Python) (J : JsonReader) (resp : Reply) (h : WellFormed J.loads resp) :
    (∃ m, Restores J.loads resp m ∧ Openai.ComesBack P (Openai.assistantMessage resp) m) ∧
      ∃ m, Restores J.loads resp m ∧ Anthropic.ComesBack P (Anthropic.assistantMessage J.loads resp) m := by
  have hnames : ∀ c ∈ resp.toolCalls, c.id ≠ "" ∧ c.name ≠ "" := fun c hc => ⟨(h c hc).1, (h c hc).2.1⟩
  constructor
  · refine ⟨Openai.messageOf resp, Openai.restores_messageOf J.loads resp, ?_⟩
    exact Openai.comesBack P (Openai.convertMessage_assistantMessage P hnames) rfl
  · refine ⟨Anthropic.messageOf J.loads resp, Anthropic.restores_messageOf J h, ?_⟩
    exact Anthropic.comesBack P (Anthropic.convertMessage_assistantMessage P J.loads hnames) rfl

def quietPython : Python := ⟨fun _ => [], fun _ _ => false⟩

/-- The arguments `{"city": "Oslo"}`. -/
def oslo : Json := .obj [field "city" (text "Oslo")]

/-- A reader that knows the text of those arguments only. -/
def osloReader : JsonReader where
  loads s := if s = String.ofList (write oslo) then .ok oslo else .error "Expecting value"
  loads_empty := ⟨_, if_neg (by decide)⟩
  loads_write s v h := by
    split_ifs at h
    obtain rfl := Except.ok.inj h
    exact if_pos rfl

/-- An answer that says something and calls a tool. -/
def weather : Reply where
  content := "Let me look."
  model := "m"
  provider := "p"
  inputTokens := 1
  outputTokens := 1
  costUsd := 0
  latencyMs := 0
  toolCalls := [⟨"call_1", "forecast", String.ofList (write oslo)⟩]

/-- That answer between a greeting and thanks, in both formats. -/
theorem reply_restored_weather :
    (∃ m out, Restores osloReader.loads weather m ∧
      Openai.convert quietPython { messages := [Plain.members ⟨true, "Hi"⟩, Openai.assistantMessage weather,
        Plain.members ⟨true, "Thanks"⟩] } = .ok out ∧
      out.messages = [{ role := "user", content := "Hi".toList }, m,
        { role := "user", content := "Thanks".toList }]) ∧
    ∃ m out, Restores osloReader.loads weather m ∧
      Anthropic.convert quietPython { maxTokens := 64, messages := [Plain.members ⟨true, "Hi"⟩,
        Anthropic.assistantMessage osloReader.loads weather, Plain.members ⟨true, "Thanks"⟩] } = .ok out ∧
      out.messages = [{ role := "user", content := "Hi".toList }, m,
        { role := "user", content := "Thanks".toList }] := by
  have hwell : WellFormed osloReader.loads weather := by
    intro c hc
    obtain rfl := List.mem_singleton.mp hc
    have hread : osloReader.loads (String.ofList (write oslo)) = .ok oslo := by simp [osloReader]
    exact ⟨by decide, by decide, _, hread⟩
  obtain ⟨⟨m, hm, hback⟩, n, hn, hblocks⟩ := reply_restored quietPython osloReader weather hwell
  obtain ⟨out, hout, hmessages⟩ := hback.plain [⟨true, "Hi"⟩] [⟨true, "Thanks"⟩]
  obtain ⟨sent, hsent, hturns⟩ := hblocks.plain 64 [⟨true, "Hi"⟩] [⟨true, "Thanks"⟩]
  exact ⟨⟨m, out, hm, hout, hmessages⟩, n, sent, hn, hsent, hturns⟩

end Caips.Api
