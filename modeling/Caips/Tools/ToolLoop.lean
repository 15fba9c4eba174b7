/-
Caips.Tools.ToolLoop — `run_tool_loop` of `tools/executor.py`: model and tools
take turns until the model answers in text, a limit is hit, or a call needs an
approval.

What the loop awaits is not its own: how the route answers each request, and for
each call the state in which it finds the registry, what the handler does, and
what the approval store answers (`Peers`). The loop itself is then a function.
Beside its result it leaves the trace of what it did: which conversations it
routed and at what cost, on which replies it acted, and which calls invoked
handlers.
-/
import Caips.Providers.Base
import Caips.Tools.RegistryCall

namespace Caips.Tools

open Caips.Logic Caips.Providers Caips.Guardrails

/-- `DEFAULT_MAX_STEPS`. -/
def defaultMaxSteps : ℤ := 5

/-- `ToolStep`. -/
structure ToolStep where
  callId : String
  tool : String
  arguments : Json
  ok : Bool
  output : String
  durationMs : ℚ := 0
  errorCode : Option String := none

/-- A response of the model, with the tool calls of its metadata. -/
structure ToolReply extends CompletionResponse where
  toolCalls : List Providers.ToolCall := []

/-- `ToolLoopResult`. -/
structure ToolLoopResult where
  response : Option ToolReply := none
  steps : List ToolStep := []
  stopReason : String := "answered"
  pendingApproval : Option ToolStep := none
  toolsSkipped : Bool := false
  totalCostUsd : ℚ := 0
  inputTokens : Nat := 0
  outputTokens : Nat := 0

/-- `approved`: names, or a function that is asked. -/
inductive ApprovedBy where
  | names (l : List String)
  | function

/-- How `json.loads` fails: with a `ValueError` or with an exception that is
none. -/
inductive LoadFailure where
  | value (detail : String)
  | escaped (e : Coreai.Exc)

/-- The arguments of `run_tool_loop` but the request, and what it uses of the
language and its library. -/
structure ToolLoop where
  validate : Json → Json → Option String
  loads : String → Except LoadFailure Json
  engine : Engine
  spec : Tool → String
  allowed : Option (List String)
  caller : String := "gateway"
  maxSteps : ℤ := defaultMaxSteps
  maxCostUsd : Option ℚ := none
  approved : ApprovedBy := .names []
  maxPermission : Permission := .destructive
  toolsOk : Option (CompletionRequest → Bool) := none

/-- What one `_run_one` meets: the first call of the registry, the answer of the
function that approves, and the second call. -/
structure RunTurn where
  first : CallTurn
  approves : Bool
  second : CallTurn

/-- What the loop meets: the registry at its start, the answer to each request
it routes, and the turn of each call it runs. -/
structure Peers where
  registry : ToolRegistry
  route : ℕ → CompletionRequest → Except Coreai.Exc ToolReply
  turn : ℕ → RunTurn

/-- What the loop did: a conversation routed, with the cost so far; a reply acted
on, with how many calls have run; a call run, with the tools whose handlers it
invoked. -/
inductive LoopEvent where
  | routed (messages : List Message) (costSoFar : ℚ)
  | acted (calls : List Providers.ToolCall) (runSoFar : ℕ)
  | ran (call : Providers.ToolCall) (tools : List Tool)

/-- `visible`: the tools a caller may see, by name. -/
def ToolRegistry.visible (r : ToolRegistry) (allowed : List String) : List Tool :=
  ((r.tools.entries.filter fun e => allowed.contains "*" || allowed.contains e.1).insertionSort
    fun a b => a.1 ≤ b.1).map Prod.snd

namespace ToolLoop

/-! ## One call -/

/-- How a call ends, and the tools whose handlers it invoked. -/
structure StepEnd where
  step : Except Coreai.Exc ToolStep
  ran : List Tool

/-- The step of a call whose arguments are no JSON object. -/
def invalidStep (call : Providers.ToolCall) (detail : String) : ToolStep :=
  { callId := call.id, tool := call.name, arguments := .obj [], ok := false
    output := "Invalid arguments: " ++ detail, errorCode := some "invalid_arguments" }

/-- The step of a call that reached the registry. -/
def stepOf (L : ToolLoop) (call : Providers.ToolCall) (args : Json) :
    Except CallFailure ToolResult → Except Coreai.Exc ToolStep
  | .ok r =>
    .ok { callId := call.id, tool := call.name, arguments := args, ok := true
          output := r.asUntrusted L.engine, durationMs := r.durationMs }
  | .error (.approval tool) =>
    .ok { callId := call.id, tool := call.name, arguments := args, ok := false
          output := (approvalRequired tool).message, errorCode := some "approval_required" }
  | .error (.tool e) =>
    .ok { callId := call.id, tool := call.name, arguments := args, ok := false
          output := s!"Tool error ({e.code}): {e.message}", errorCode := some e.code }
  | .error (.escaped e) => .error e

/-- Whether `approved` says yes. -/
def approves (L : ToolLoop) (turn : RunTurn) (name : String) : Bool :=
  match L.approved with
  | .names l => l.contains name
  | .function => turn.approves

/-- `_run_one`. -/
def runOne (L : ToolLoop) (turn : RunTurn) (call : Providers.ToolCall) : StepEnd :=
  match L.loads (if call.arguments = "" then "{}" else call.arguments) with
  | .error (.value detail) => ⟨.ok (invalidStep call detail), []⟩
  | .error (.escaped e) => ⟨.error e, []⟩
  | .ok args =>
    if ToolRegistry.isDict args then
      let c : ToolCall :=
        { name := call.name, arguments := args, allowed := L.allowed.getD [], caller := L.caller
          maxPermission := L.maxPermission }
      let first := c.perform L.validate turn.first false
      match first.result with
      | .error (.approval tool) =>
        if L.approves turn call.name then
          let second := c.perform L.validate turn.second true
          ⟨L.stepOf call args second.result, first.ran.toList ++ second.ran.toList⟩
        else ⟨L.stepOf call args (.error (.approval tool)), first.ran.toList⟩
      | r => ⟨L.stepOf call args r, first.ran.toList⟩
    else ⟨.ok (invalidStep call "arguments must be an object"), []⟩

/-- Whether the loop goes on with the next call of the reply. -/
def StepEnd.goesOn (e : StepEnd) : Bool :=
  match e.step with
  | .ok step => !decide (step.errorCode = some "approval_required")
  | .error _ => false

/-! ## The loop -/

/-- Where the loop is: the conversation, the result so far, and what it has
done. -/
structure State where
  messages : List Message
  result : ToolLoopResult
  routes : ℕ := 0
  calls : ℕ := 0
  trace : List LoopEvent := []

/-- The end of the loop, with what it had done. -/
structure Outcome where
  result : Except Coreai.Exc ToolLoopResult
  trace : List LoopEvent

/-- The state after a call. -/
def State.ran (s : State) (call : Providers.ToolCall) (tools : List Tool) : State :=
  { s with
    calls := s.calls + 1
    trace := s.trace ++ [LoopEvent.ran call tools] }

/-- The calls of one reply, in order. The first answer is what the loop returns or
raises if it does not go on. -/
def runCalls (L : ToolLoop) (P : Peers) : List Providers.ToolCall → State →
    Option (Except Coreai.Exc ToolLoopResult) × State
  | [], s => (none, s)
  | call :: calls, s =>
    let e := L.runOne (P.turn s.calls) call
    let s := s.ran call e.ran
    match e.step with
    | .error exc => (some (.error exc), s)
    | .ok step =>
      let s := { s with result.steps := s.result.steps ++ [step] }
      if step.errorCode = some "approval_required" then
        (some (.ok { s.result with stopReason := "needs_approval", pendingApproval := some step }), s)
      else
        runCalls L P calls
          { s with
            messages := s.messages ++
              [{ role := "tool", content := step.output, toolCallId := some step.callId }] }

/-- The state after its conversation was routed. -/
def State.routed (s : State) : State :=
  { s with
    routes := s.routes + 1
    trace := s.trace ++ [LoopEvent.routed s.messages s.result.totalCostUsd] }

/-- The state after a reply was counted. -/
def State.received (s : State) (reply : ToolReply) : State :=
  { s with
    result.response := some reply
    result.totalCostUsd := s.result.totalCostUsd + reply.costUsd
    result.inputTokens := s.result.inputTokens + reply.inputTokens
    result.outputTokens := s.result.outputTokens + reply.outputTokens }

/-- The state before the calls of a reply run. -/
def State.acting (s : State) (reply : ToolReply) : State :=
  { s with
    messages := s.messages ++
      [{ role := "assistant", content := reply.content, toolCalls := some reply.toolCalls }]
    trace := s.trace ++ [LoopEvent.acted reply.toolCalls s.calls] }

/-- The rounds of the loop, at most as many as the first argument says. -/
def rounds (L : ToolLoop) (P : Peers) (request : CompletionRequest) : ℕ → State → Outcome
  | 0, s => ⟨.ok { s.result with stopReason := "max_steps" }, s.trace⟩
  | n + 1, s =>
    let answer := P.route s.routes { request with messages := s.messages }
    let s := s.routed
    match answer with
    | .error exc => ⟨.error exc, s.trace⟩
    | .ok reply =>
      let s := s.received reply
      if reply.toolCalls = [] then ⟨.ok s.result, s.trace⟩
      else if L.maxSteps ≤ s.result.steps.length then
        ⟨.ok { s.result with stopReason := "max_steps" }, s.trace⟩
      else if L.maxCostUsd.any fun m => decide (m ≤ s.result.totalCostUsd) then
        ⟨.ok { s.result with stopReason := "cost_limit" }, s.trace⟩
      else
        match L.runCalls P reply.toolCalls (s.acting reply) with
        | (some result, s) => ⟨result, s.trace⟩
        | (none, s) => rounds L P request n s

/-- The tools offered to the model; whether they were withheld. -/
def offered (L : ToolLoop) (P : Peers) (request : CompletionRequest) : List String × Bool :=
  let specs := (P.registry.visible (L.allowed.getD [])).map L.spec
  if specs ≠ [] ∧ L.toolsOk.any (fun ok => !ok request) then ([], true) else (specs, false)

/-- `run_tool_loop`. -/
def run (L : ToolLoop) (P : Peers) (request : CompletionRequest) : Outcome :=
  let specs := L.offered P request
  let req :=
    { request with
      tools := if specs.1 = [] then request.tools else some (request.tools.getD [] ++ specs.1)
      stream := false }
  L.rounds P req (L.maxSteps + 1).toNat
    { messages := request.messages, result := { toolsSkipped := specs.2 } }

end ToolLoop

end Caips.Tools
