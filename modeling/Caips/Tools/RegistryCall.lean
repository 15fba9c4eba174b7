/-
Caips.Tools.RegistryCall — a whole call of the registry: the checks, the
handler, and what becomes of its output; after `ToolRegistry.call` of
`tools/registry.py`.

What the handler does is the caller's to say (`HandlerEnd`), and so is the state
in which the call finds the registry, which other calls share (`CallTurn`).
-/
import Caips.Coreai.Errors
import Caips.Guardrails.Injection
import Caips.Tools.Registry

namespace Caips.Tools

open Caips.Logic Caips.Guardrails

/-- `MAX_OUTPUT_CHARS`. -/
def maxOutputChars : Nat := 20000

/-- `ToolResult`. -/
structure ToolResult where
  tool : String
  content : String
  durationMs : ℚ
  truncated : Bool := false

/-- `as_untrusted`. -/
def ToolResult.asUntrusted (r : ToolResult) (g : Engine) : String :=
  wrapUntrusted g r.content r.tool "tool_output"

/-- How a handler ends: with the text of its output, with a `ToolError` of its own
or an `ApprovalRequired`, by the time limit, with another exception, or with one
that is no `Exception`. -/
inductive HandlerEnd where
  | returned (text : String)
  | refused (e : ToolError)
  | asked (tool : String)
  | timedOut (limit : String)
  | failed (type detail : String)
  | escaped (e : Coreai.Exc)

/-- What a call raises: `ApprovalRequired`, another `ToolError`, or an exception
that passes every `except` clause here. -/
inductive CallFailure where
  | approval (tool : String)
  | tool (e : ToolError)
  | escaped (e : Coreai.Exc)

/-- What a call finds: the registry, the clock, and how handlers end. -/
structure CallTurn where
  registry : ToolRegistry
  now : ℚ
  handler : Tool → Json → HandlerEnd
  durationMs : ℚ

/-- How a call ends, and the tool whose handler it invoked. -/
structure CallEnd where
  result : Except CallFailure ToolResult
  ran : Option Tool

/-- The end of `_call`, from the end of the handler. -/
def HandlerEnd.result (name : String) (durationMs : ℚ) : HandlerEnd → Except CallFailure ToolResult
  | .returned text =>
    if maxOutputChars < text.length then
      .ok { tool := name, durationMs, truncated := true
            content := String.ofList (text.toList.take maxOutputChars) ++ "\n[output truncated]" }
    else .ok { tool := name, content := text, durationMs }
  | .refused e => .error (.tool e)
  | .asked tool => .error (.approval tool)
  | .timedOut limit =>
    .error (.tool { code := "timeout", message := s!"Tool '{name}' timed out after {limit}s." })
  | .failed type detail => .error (.tool { code := "tool_failed", message := s!"{type}: {detail}" })
  | .escaped e => .error (.escaped e)

/-- `ToolRegistry.call`. -/
def ToolCall.perform (c : ToolCall) (validate : Json → Json → Option String) (turn : CallTurn)
    (approved : Bool) : CallEnd :=
  match (turn.registry.check validate c approved turn.now).1 with
  | .error e =>
    { result := .error (if e.code = "approval_required" then .approval c.name else .tool e)
      ran := none }
  | .ok t => { result := (turn.handler t c.arguments).result c.name turn.durationMs, ran := some t }

end Caips.Tools
