/-
Caips.Harness.Runner — the tool-use loop, after `harness/runner.py`, with
`_run_one` of `tools/executor.py`, `_call` of `tools/registry.py` and the model
calls of `gateway_route` (`api/runs_api.py`).

An execution (`execute`) is a coroutine. It awaits two things: a model call and
the handler of a tool. Every write of the store and every event is an action of
its own, so a crash can fall between any two of them. What happens inside a model
call (the budget check that may refuse it, the router, the timeout) is its answer.

`execute` may be started at any time and more than once; `enter` counts the
executions that are under way. The loop is over what is left of the step limit.
-/
import Caips.Harness.Store
import Caips.Logic.Coro
import Caips.Logic.Sync
import Mathlib.Data.List.Infix

namespace Caips.Harness

open Caips.Logic Caips.Providers
open Caips.Tools (ToolRegistry ToolError Permission)
open Caips.Coreai.Keystore (strip)

/-- `REVIEW_TOOL`. -/
def reviewTool : String := "request_human_review"

/-- `PLAN_MARK`. -/
def planMark : String := "\n\n[Plan]\n"

/-- `PLAN_PROMPT`. -/
def planPrompt (n : ℤ) (task : String) : String :=
  s!"Before acting, write a short numbered plan (at most {n} steps) for the task below. Name the tools you expect to use. Do not carry out the task yet and do not call tools.\n\nTask:\n{task}"

/-- `HarnessRunner`, for one run, with what it uses of the language and its
library: `json.loads`, `jsonschema.validate`, the texts of tool specifications, and
the wrapping of recalled memories. -/
structure HarnessRunner where
  rid : String
  agents : Dict String AgentDef
  caller : String := "agent"
  maxPermission : Permission := .destructive
  hasMemory : Bool := false
  loads : String → Except String Json
  validate : Json → Json → Option String
  spec : String → String
  wrapUntrusted : String → String → String

/-- The exceptions of an execution. -/
inductive Exc where
  | cancelled
  | error (name detail : String)
  deriving DecidableEq

/-- A response of the model, with the tool calls of its metadata. -/
structure ModelResponse extends CompletionResponse where
  toolCalls : List ToolCall := []

/-- What an execution awaits. -/
inductive Query where
  | route (purpose : Purpose) (request : CompletionRequest) (timeout : Option ℚ)
  | handler (call : ToolCall) (arguments : Json)

/-- A handler answers with the text the model is shown, or a tool error. -/
def Query.Reply : Query → Type
  | .route _ _ _ => ModelResponse
  | .handler _ _ => Except ToolError String

/-- The task of an execution, with the decision it was given. -/
inductive Execution where
  | execute (decision : Option Bool)

abbrev Γ : Sig where
  State := HarnessState
  Exc := Exc
  interrupt := .cancelled
  Query := Query
  Reply := Query.Reply
  Child := Execution
  Out _ := Run

/-- A coroutine of the harness. -/
abbrev Async (α : Type) : Type := Coro Γ α

namespace HarnessRunner

/-! ## Actions -/

def read {α : Type} (f : HarnessState → α) : Async α := Coro.sync (Sync.reads fun s => .ok (f s))

def update (f : HarnessState → HarnessState) : Async Unit := Coro.sync (Sync.update f)

/-- Await a query. -/
def query (q : Query) : Async q.Reply := Coro.ask (.call q : Ask Γ)

/-- `store.event`, and every other entry of the journal. -/
def note (e : Entry) : Async Unit := update (·.note e)

def event (e : TraceEvent) : Async Unit := note (.trace e)

/-- `store.set`. -/
def write (f : Run → Run) : Async Unit := update (·.write f)

variable (R : HarnessRunner) (i : ℕ)

def getLocals : Async Locals := read (·.locals i)

/-- An assignment to local variables. -/
def assign (f : Locals → Locals) : Async Unit := update fun s => s.setFrame i (some (f (s.locals i)))

/-! ## Bookkeeping -/

/-- `_checkpoint`. -/
def checkpoint (f : Run → Run) : Async Unit := do
  update (·.save i f)
  event (.checkpoint (← getLocals i).step)

/-- `_end`, but for the status it returns. -/
def finishRun (reason : StopReason) (result : Option String) : Async Unit :=
  if reason = .paused then do
    checkpoint i fun r => { r with status := .paused, control := none, stopReason := some .paused }
    event (.paused (← getLocals i).step)
  else do
    checkpoint i fun r => { r with status := reason.status, stopReason := some reason, control := none, result := result }
    let l ← getLocals i
    event (.runFinished reason (some l.step) (some (round6 l.costUsd)))
    update (·.announce reason.status reason (some l.costUsd))

/-- `_wait`, with the calls that are left. -/
def wait (call : ToolCall) (rest : List ToolCall) : Async Unit := do
  checkpoint i fun r => { r with status := .waitingApproval, pending := some (call :: rest) }
  event (.approvalRequested call.name call.id)

/-- The answer of `_limit` to a reading. -/
def limitOf (agent : AgentDef) (run : Run) (r : Reading) : Option StopReason :=
  match run.control with
  | some c => some c.reason
  | none =>
    if run.deadline.any fun d => d ≠ 0 ∧ r.now ≥ d then some .deadline
    else if (r.step : ℤ) ≥ agent.maxSteps then some .maxSteps
    else if agent.maxCostUsd.any fun m => r.costUsd ≥ m then some .costLimit
    else if agent.maxTotalTokens.any fun m => m ≠ 0 ∧ (r.tokens : ℤ) ≥ m then some .tokenLimit
    else none

/-- What a check of the limits reads. -/
def reading (s : HarnessState) : Reading where
  now := s.now
  step := (s.locals i).step
  costUsd := (s.locals i).costUsd
  tokens := (s.locals i).inputTokens + (s.locals i).outputTokens

/-- `_limit`. -/
def limit (agent : AgentDef) : Async (Option StopReason) := do
  let (run, r) ← read fun s => (s.run, reading i s)
  note (.checked r)
  pure (limitOf agent run r)

/-- `_stalled`. -/
def stalled (msgs : List Message) (agent : AgentDef) : Bool :=
  let sigs := (msgs.filter fun m => m.role = "assistant" ∧ nonempty m.toolCalls).map fun m =>
    (m.toolCalls.getD []).map fun c => (c.name, c.arguments)
  let n := agent.stallRepeats.toNat
  decide (agent.stallRepeats > 1 ∧ sigs.length ≥ n ∧ (sigs.drop (sigs.length - n)).eraseDups.length = 1)

/-! ## Model calls -/

/-- The account of a request: `metadata.get("owner", "anonymous")`. -/
def account (req : CompletionRequest) : String :=
  match req.metadata.get? "owner" with
  | some (.str owner) => owner
  | some _ => ""
  | none => "anonymous"

/-- `gateway_route`: the account is checked before the call and charged after it. -/
def route (purpose : Purpose) (req : CompletionRequest) (timeout : Option ℚ) : Async ModelResponse := do
  note (.asked purpose (account req) req.messages)
  let resp : ModelResponse ← query (.route purpose req timeout)
  note (.called ⟨purpose, account req, resp.costUsd, resp.inputTokens, resp.outputTokens⟩)
  pure resp

/-- The time that is left until the deadline. -/
def timeLeft (s : HarnessState) : Option ℚ := (s.run.deadline.filter (· ≠ 0)).map fun d => max (1 / 10) (d - s.now)

/-- `_system`. -/
def system (agent : AgentDef) (s : HarnessState) : String :=
  match agent.memoryNs.filter (· ≠ "") with
  | some ns =>
    if R.hasMemory ∧ agent.memoryRecall > 0 ∧ s.recalled ≠ [] then
      let text := "\n".intercalate (s.recalled.map fun m => "- " ++ m.1 ++ ": " ++ m.2)
      agent.systemPrompt ++ "\n\nRelevant stored memories:\n" ++ R.wrapUntrusted text ("memory:" ++ ns)
    else agent.systemPrompt
  | none => agent.systemPrompt

/-- Cost and tokens of an answer. -/
def Locals.add (l : Locals) (resp : ModelResponse) : Locals :=
  { l with
    costUsd := l.costUsd + resp.costUsd
    inputTokens := l.inputTokens + resp.inputTokens
    outputTokens := l.outputTokens + resp.outputTokens }

/-- The metadata of a request. -/
def metadata (agent : AgentDef) (s : HarnessState) : Dict String Value :=
  ((Dict.empty.set "run_id" (.str R.rid)).set "agent" (.str agent.name)).set "owner" (.str s.run.owner)

/-- `_plan`. -/
def plan (agent : AgentDef) : Async Unit := do
  match (← getLocals i).msgs with
  | [] => Coro.fail (.error "IndexError" "list index out of range")
  | first :: rest =>
    if planMark.toList <:+: first.content.toList then pure ()
    else
      let (req, timeout) ← read fun s =>
        (({ messages := [{ role := "user", content := planPrompt agent.planMaxSteps first.content }]
            model := agent.model
            maxTokens := agent.maxTokens
            temperature := agent.temperature
            systemPrompt := some (R.system agent s)
            metadata := (R.metadata agent s).set "purpose" (.str "plan") } : CompletionRequest), timeLeft s)
      let resp ← route .plan req timeout
      assign i (Locals.add · resp)
      let text := strip resp.content
      event (.plan text.length resp.costUsd resp.inputTokens resp.outputTokens)
      Coro.when (text ≠ "") (assign i fun l => { l with
        msgs := { role := first.role
                  content := first.content ++ planMark ++ text ++ "\n\nFollow the plan; revise it if a step fails." } :: rest })
      checkpoint i id

/-- `_summarizer`. -/
def summarize (agent : AgentDef) (dropped : List Message) : Async String := do
  let text := "\n".intercalate (dropped.map fun m => m.role ++ ": " ++ slice 400 m.content)
  let resp ← route .summary
    { messages := [{ role := "user", content := "Summarize these earlier agent steps in under 120 words, keeping facts needed to finish the task:\n" ++ text }]
      model := agent.model
      maxTokens := 200
      temperature := 0 } none
  pure resp.content

/-- The note of a compaction: a summary that fails is replaced by the digest. -/
def noteOf (agent : AgentDef) (dropped : List Message) : Async String :=
  if agent.summarize then
    Coro.tryCatch (do return Context.summaryPrefix ++ strip (← summarize agent dropped)) fun
      | .cancelled => Coro.fail .cancelled
      | .error _ _ => pure (Context.digest dropped)
  else pure (Context.digest dropped)

/-- `compact`, and what `_model` does with it. -/
def compact (agent : AgentDef) (system : String) : Async Unit := do
  let changed (msgs : List Message) : Async Unit := do
    assign i fun l => { l with msgs := msgs }
    event (.contextCompacted msgs.length (Context.count estimateTokens msgs system))
  match Context.compact estimateTokens (← getLocals i).msgs system agent.contextTokens agent.keepRecent with
  | .error text => Coro.fail (.error "IndexError" text)
  | .ok .unchanged => pure ()
  | .ok (.shrunk msgs) => changed msgs
  | .ok (.condensed pinned dropped rest) =>
    let text ← noteOf agent dropped
    changed (pinned ++ Context.noteMessage text :: rest)

/-- The tools offered to the model. -/
def offered (agent : AgentDef) (s : HarnessState) : List String :=
  let names := s.registry.tools.keys.mergeSort (fun a b => decide (a ≤ b))
  (names.filter fun n => agent.allowedTools.contains "*" || agent.allowedTools.contains n).map R.spec ++
    if agent.askWhenUncertain then [R.spec reviewTool] else []

/-- The request of a step. -/
def stepRequest (agent : AgentDef) (system : String) (s : HarnessState) : CompletionRequest where
  messages := (s.locals i).msgs
  model := agent.model
  maxTokens := agent.maxTokens
  temperature := agent.temperature
  systemPrompt := some system
  tools := if (R.offered agent s).isEmpty then none else some (R.offered agent s)
  metadata := match agent.maxCostUsd with
    | some m => (R.metadata agent s).set "budget_remaining_usd" (.num (max 0 (m - (s.locals i).costUsd)))
    | none => R.metadata agent s

/-- `_model`. -/
def model (agent : AgentDef) : Async ModelResponse := do
  let system ← read (R.system agent)
  compact i agent system
  let (req, timeout) ← read fun s => (R.stepRequest i agent system s, timeLeft s)
  let resp ← route .step req timeout
  assign i (Locals.add · resp)
  event (.modelCall ((← getLocals i).step + 1) resp.model resp.provider resp.inputTokens resp.outputTokens
    resp.costUsd resp.toolCalls.length)
  pure resp

/-! ## Tools -/

/-- `ToolStep`, without its times; the call is known. -/
structure ToolStep where
  arguments : List String := []
  ok : Bool
  output : String
  errorCode : Option String := none

/-- `registry.call`: the checks, and the handler if they pass. -/
def callTool (agent : AgentDef) (call : ToolCall) (args : Json) (decision : Option Bool) (approved : Bool) :
    Async (Except ToolError String) := do
  let answer ← Coro.sync (Sync.yields fun s : HarnessState =>
    let checked := s.registry.check R.validate
      { name := call.name, arguments := args, allowed := agent.allowedTools, caller := R.caller, maxPermission := R.maxPermission }
      approved s.now
    (checked.1, { s with registry := checked.2 }))
  match answer with
  | .error e => pure (.error e)
  | .ok _ => do
      note (.handled call decision)
      query (.handler call args)

def argumentNames : Json → List String
  | .obj members => (members.map fun m => String.ofList m.1).mergeSort fun a b => decide (a ≤ b)
  | _ => []

/-- What the model is told of a call. -/
def toolStep (args : Json) : Except ToolError String → ToolStep
  | .ok text => { arguments := argumentNames args, ok := true, output := text }
  | .error e =>
    { arguments := argumentNames args
      ok := false
      output := if e.code = "approval_required" then e.message else s!"Tool error ({e.code}): {e.message}"
      errorCode := some e.code }

/-- `_run_one`; `decision` is that of the call, if it was one a human was asked about. -/
def runOne (agent : AgentDef) (call : ToolCall) (decision : Option Bool) : Async ToolStep := do
  match R.loads (if call.arguments = "" then "\x7b\x7d" else call.arguments) with
  | .error text => pure { ok := false, output := "Invalid arguments: " ++ text, errorCode := some "invalid_arguments" }
  | .ok args =>
    if !ToolRegistry.isDict args then
      pure { ok := false, output := "Invalid arguments: arguments must be an object", errorCode := some "invalid_arguments" }
    else
      match ← R.callTool agent call args decision false with
      | .ok text => pure (toolStep args (.ok text))
      | .error e =>
        if e.code = "approval_required" ∧ decision.isSome then
          let answer ← R.callTool agent call args decision true
          pure (toolStep args answer)
        else pure (toolStep args (.error e))

/-- The tool message that answers a call. -/
def answerMessage (call : ToolCall) (text : String) : Message := { role := "tool", content := text, toolCallId := some call.id }

/-- A message more. -/
def append (m : Message) : Async Unit := assign i fun l => { l with msgs := l.msgs ++ [m] }

/-- `_tools`: whether the run stopped waiting for a human. The decision is that of the
first call. -/
def tools (agent : AgentDef) : List ToolCall → Option Bool → Async Bool
  | [], _ => pure false
  | call :: rest, decision => do
      if call.name = reviewTool ∧ agent.askWhenUncertain then
        match decision with
        | none =>
          wait i call rest
          pure true
        | some approved =>
          event (.approval call.name approved)
          append i (answerMessage call
            (if approved then "Human reviewer approved: proceed." else "Human reviewer declined; choose another approach."))
          tools agent rest none
      else if call.name ∈ agent.approvalTools ∧ decision = none then
        wait i call rest
        pure true
      else if decision = some false then
        event (.approval call.name false)
        event (.toolCall (← getLocals i).step call.name false [] 0 (some "denied"))
        append i (answerMessage call "Denied by human reviewer; do not retry this call.")
        tools agent rest none
      else
        let step ← R.runOne agent call decision
        if step.errorCode = some "approval_required" then
          wait i call rest
          pure true
        else
          Coro.when decision.isSome (event (.approval call.name true))
          event (.toolCall (← getLocals i).step call.name step.ok step.arguments step.output.length step.errorCode)
          append i (answerMessage call step.output)
          tools agent rest none

/-! ## The loop -/

/-- The loop of `_execute`. Its first argument is one more than what is left of the
step limit, and the check of the limits ends it before that is used up. -/
def loop (agent : AgentDef) : ℕ → Async Unit
  | 0 => Coro.fail (.error "RecursionError" "")
  | n + 1 => do
      match ← limit i agent with
      | some reason => finishRun i reason none
      | none =>
        let resp ← R.model i agent
        assign i fun l => { l with step := l.step + 1 }
        if resp.toolCalls.isEmpty then
          append i { role := "assistant", content := resp.content }
          checkpoint i fun r => { r with result := some resp.content }
          finishRun i .completed (some resp.content)
        else
          append i { role := "assistant", content := resp.content, toolCalls := some resp.toolCalls }
          if ← R.tools i agent resp.toolCalls none then pure ()
          else
            checkpoint i id
            if stalled (← getLocals i).msgs agent then finishRun i .stalled none
            else loop agent n

/-- The plan, before the first step, and the loop. -/
def goOn (agent : AgentDef) (pending : Option (List ToolCall)) : Async Unit := do
  let left ← read fun s => (agent.maxSteps - (s.locals i).step).toNat + 1
  if agent.plan ∧ (← getLocals i).step = 0 ∧ pending = none then
    match ← limit i agent with
    | some reason => finishRun i reason none
    | none =>
      R.plan i agent
      R.loop i agent left
  else R.loop i agent left

/-- The `try` block of `_execute`. -/
def attempt (agent : AgentDef) (pending : Option (List ToolCall)) (decision : Option Bool) : Async Unit :=
  match pending with
  | some calls => do
      if ← R.tools i agent calls decision then pure () else R.goOn i agent pending
  | none => R.goOn i agent pending

/-- The handlers of `_execute`. -/
def rescue : Exc → Async Unit
  | .cancelled => do
      checkpoint i fun r => { r with status := .paused, stopReason := some .shutdown }
      Coro.fail .cancelled
  | .error name detail => do
      event (.error name (slice 300 detail))
      checkpoint i id
      write fun r => { r with status := .failed, stopReason := some .error }
      event (.runFinished .error (some (← getLocals i).step) none)

/-- `_execute`: the row as it is then. -/
def execute (decision : Option Bool) : Async Run := do
  let run ← read (·.run)
  note (.entered run.status run.pending decision)
  if run.finished then pure run
  else
    match R.agents.get? run.agent with
    | none => Coro.fail (.error "KeyError" ("unknown agent: " ++ run.agent))
    | some agent =>
      update (·.setFrame i (some run.locals))
      write fun r => { r with status := .running, pending := none }
      event (if run.step ≠ 0 ∨ run.pending ≠ none then .resumed run.step else .started run.step)
      Coro.tryCatch (R.attempt i agent.effective run.pending decision) (rescue i)
      read (·.run)

/-! ## The program -/

/-- The end of an execution, whatever its outcome. -/
def leave : Async Unit := update fun s => { s.setFrame i none with live := s.live - 1 }

def body (i : ℕ) : Execution → Async Run
  | .execute decision => (R.execute i decision).tryFinally (leave i)

/-- What the outside world does. -/
inductive Op where
  | pause
  | cancel
  | kill (owner : Option String)
  | clock (now : ℚ)
  | registry (r : ToolRegistry)
  | memory (found : List (String × String))

def op : Op → HarnessState → HarnessState
  | .pause, s => s.request .pause
  | .cancel, s => s.cancel
  | .kill owner, s => s.kill owner
  | .clock now, s => { s with now := now }
  | .registry r, s => { s with registry := r }
  | .memory found, s => { s with recalled := found }

/-- A handler's own exceptions are tool errors: it can only be interrupted. -/
def answers : (q : Query) → HarnessState → Except Exc q.Reply → Prop
  | .route _ _ _, _, _ => True
  | .handler _ _, _, .ok _ => True
  | .handler _ _, _, .error e => e = .cancelled

/-- What a crash leaves: the store. -/
def reboot (s : HarnessState) : HarnessState := { s with frames := fun _ => none, live := 0 }

/-- The executions of the run; a process may crash, or is one that does not. -/
abbrev program (crashes : Bool) : Program Γ where
  body := R.body
  enter _ s := some { s with live := s.live + 1 }
  answers := answers
  Op := Op
  op o s := some (op o s)
  reboot s := if crashes then some (reboot s) else none

/-- `create`: the row of a new run. -/
def newRun (name : String) (agent : AgentDef) (task owner : String) (now : ℚ) : Run where
  agent := name
  owner := owner
  messages := [{ role := "user", content := task }]
  deadline := (agent.deadlineS.filter (· ≠ 0)).map (now + ·)

/-- The states after `create`. -/
def Created (s : HarnessState) : Prop :=
  (∃ name agent task owner, R.agents.get? name = some agent ∧ s.run = newRun name agent task owner s.now) ∧
    s.journal = [.trace (.runStarted s.run.agent s.run.owner)] ∧ s.live = 0 ∧ ∀ i, s.frames i = none

/-- The runs of the event loop from a new run on. -/
def machine (crashes : Bool) : Machine (Pool Γ) (Move Γ Op) := (R.program crashes).machine R.Created

end HarnessRunner

end Caips.Harness
