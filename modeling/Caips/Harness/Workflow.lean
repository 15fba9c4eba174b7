/-
Caips.Harness.Workflow — fixed-step workflows, after `harness/workflow.py`.

A workflow is a list of steps, each the call of a tool or one call of a model,
with templates that name the input and the outputs of earlier steps. What the
registry finds at each call, what handlers do and how the route answers are the
environment's (`Peers`); the run is then a function. Beside its result it leaves
the trace of the steps it executed, each with what it sent and what came back.
-/
import Caips.Logic.Rounding
import Caips.Logic.Template
import Caips.Providers.Base
import Caips.Tools.RegistryCall

namespace Caips.Harness.Workflow

open Caips.Logic Caips.Guardrails Caips.Providers Caips.Tools

/-! ## Definitions -/

/-- A step as a definition writes it: the fields that are there. -/
structure RawStep where
  id : Option String := none
  tool : Option String := none
  args : Option Json := none
  prompt : Option Json := none
  model : Option String := none

/-- `Step.kind`. -/
inductive StepKind where
  | tool
  | model
  deriving DecidableEq

/-- `Step`. -/
structure Step where
  id : String
  kind : StepKind
  tool : String := ""
  args : Json := .obj []
  prompt : Json := .str []
  model : Option String := none

/-- `bool(value)`. -/
def truthy : Json → Bool
  | .atom .null => false
  | .atom (.bool b) => b
  | .atom (.int n) => decide (n ≠ 0)
  | .atom (.float x) => !(x.text = "0.0".toList || x.text = "-0.0".toList)
  | .str s => !s.isEmpty
  | .arr items => !items.isEmpty
  | .obj members => !members.isEmpty

/-- The step of a definition, if it is one of a tool or of a model. -/
def RawStep.step? (d : RawStep) : Option Step :=
  let step (kind : StepKind) : Step :=
    { id := d.id.getD "", kind
      tool := d.tool.getD ""
      args := (d.args.filter truthy).getD (.obj [])
      prompt := d.prompt.getD (.str [])
      model := d.model }
  if d.tool.isSome then some (step .tool) else if d.prompt.isSome then some (step .model) else none

/-- What `parse_steps` has read. -/
structure Parsed where
  steps : List Step := []
  seen : List String := []
  problems : List String := []

/-- One definition. -/
def Parsed.read (p : Parsed) (i : ℕ) (d : RawStep) : Parsed :=
  let sid := d.id.getD ""
  let named :=
    if sid = "" ∨ sid ∈ p.seen ∨ sid = "input" then [s!"step {i}: id missing, duplicate or reserved"]
    else []
  let label := if sid = "" then toString i else sid
  match d.step? with
  | none =>
    { p with
      seen := p.seen ++ [sid]
      problems := p.problems ++ named ++
        [s!"step {label}: needs 'tool' or 'prompt'"] }
  | some step =>
    { steps := p.steps ++ [step], seen := p.seen ++ [sid], problems := p.problems ++ named }

/-- The values of a dictionary, for a template. -/
def valuesOf (d : Dict String String) (name : List Char) : Option (List Char) :=
  (d.get? (String.ofList name)).map String.toList

mutual

/-- `_fill`. -/
def fill (values : List Char → Option (List Char)) : Json → Json
  | .atom a => .atom a
  | .str s => .str (Template.substitute values s)
  | .arr items => .arr (fillItems values items)
  | .obj members => .obj (fillMembers values members)

def fillItems (values : List Char → Option (List Char)) : List Json → List Json
  | [] => []
  | x :: items => fill values x :: fillItems values items

def fillMembers (values : List Char → Option (List Char)) :
    List (List Char × Json) → List (List Char × Json)
  | [] => []
  | m :: members => (m.1, fill values m.2) :: fillMembers values members

end

/-! ## The steps of a run -/

/-- The request of a model step: one user message with this content. -/
structure ModelRequest where
  content : Json
  model : Option String
  maxTokens : ℕ := 1024
  temperature : ℚ := 0
  workflowStep : String

/-- How a step fails: `ApprovalRequired`, another `ToolError` by its code, another
`Exception` by its type, or an exception that no clause catches. -/
inductive StepFailure where
  | approval
  | tool (code : String)
  | exception (type : String)
  | escaped (e : Coreai.Exc)

/-- The arguments of `run_workflow` but the steps, and what it uses of the
libraries. -/
structure Options where
  validate : Json → Json → Option String
  engine : Engine
  input : String := ""
  allowed : Option (List String) := none
  caller : String := "workflow"
  approved : List String := []
  maxPermission : Permission := .destructive
  maxCostUsd : Option ℚ := none

/-- What a run meets at the step of each number: the registry, with the end of the
handler, and the answer of the route. -/
structure Peers where
  tool : ℕ → CallTurn
  route : ℕ → ModelRequest → Except StepFailure CompletionResponse

/-- What an executed step did: a tool was called, or a model asked. -/
inductive Deed where
  | called (args : Json) (turn : CallEnd)
  | asked (request : ModelRequest) (answer : Except StepFailure CompletionResponse)

/-- An executed step. -/
structure StepEvent where
  step : Step
  deed : Deed

namespace StepEvent

/-- The tool whose handler the step invoked. -/
def ran (e : StepEvent) : Option Tool :=
  match e.deed with
  | .called _ turn => turn.ran
  | .asked _ _ => none

/-- The request the step sent to a model. -/
def request (e : StepEvent) : Option ModelRequest :=
  match e.deed with
  | .called _ _ => none
  | .asked request _ => some request

/-- What the call of a tool returned. -/
def toolResult (e : StepEvent) : Option ToolResult :=
  match e.deed with
  | .called _ { result := .ok r, .. } => some r
  | _ => none

/-- What the model replied. -/
def reply (e : StepEvent) : Option CompletionResponse :=
  match e.deed with
  | .asked _ (.ok reply) => some reply
  | _ => none

/-- What the step cost. -/
def cost (e : StepEvent) : ℚ := (e.reply.map fun reply => reply.costUsd).getD 0

/-- The output of the step: as tools see it, and as model prompts do. -/
def outcome (g : Engine) (e : StepEvent) : Except StepFailure (String × String) :=
  match e.deed with
  | .called _ turn =>
    match turn.result with
    | .ok r => .ok (r.content, r.asUntrusted g)
    | .error (.approval _) => .error .approval
    | .error (.tool e) => .error (.tool e.code)
    | .error (.escaped e) => .error (.escaped e)
  | .asked _ (.ok reply) => .ok (reply.content, reply.content)
  | .asked _ (.error e) => .error e

end StepEvent

/-! ## The run -/

/-- `rec`: what the result says of a step. -/
structure Record where
  id : String
  kind : StepKind
  ok : Bool := true
  error : Option String := none
  output : Option String := none

/-- `status`. -/
inductive Status where
  | completed
  | failed
  | needsApproval
  | costLimit
  deriving DecidableEq

/-- `out`. -/
structure Output where
  status : Status
  steps : List Record
  failedStep : Option String := none
  costUsd : ℚ
  result : Option String := none

/-- What leaves `run_workflow` otherwise: a failed look-up of its own, or an exception that
no clause catches. -/
inductive Escape where
  | lookup
  | raised (e : Coreai.Exc)

/-- The end of a run, with the steps it executed. -/
structure Outcome where
  result : Except Escape Output
  trace : List StepEvent

/-- Where a run is. -/
structure State where
  raw : Dict String String
  safe : Dict String String
  records : List Record := []
  cost : ℚ := 0
  trace : List StepEvent := []

/-- The run stops with this status at this step. -/
def State.stop (s : State) (status : Status) (id : String) : Outcome :=
  { result := .ok { status, steps := s.records, failedStep := some id, costUsd := s.cost }
    trace := s.trace }

/-- The state after a step, with its record. -/
def State.executed (s : State) (e : StepEvent) (record : Record) : State :=
  { s with
    records := s.records ++ [record]
    cost := s.cost + e.cost
    trace := s.trace ++ [e] }

/-- What a step does. -/
def execute (W : Options) (P : Peers) (s : State) (st : Step) : StepEvent :=
  match st.kind with
  | .tool =>
    let args := fill (valuesOf s.raw) st.args
    let call : Tools.ToolCall :=
      { name := st.tool, arguments := args, allowed := W.allowed.getD [], caller := W.caller
        maxPermission := W.maxPermission }
    ⟨st, .called args (call.perform W.validate (P.tool s.trace.length) (decide (st.id ∈ W.approved)))⟩
  | .model =>
    let request : ModelRequest :=
      { content := fill (valuesOf s.safe) st.prompt, model := st.model, workflowStep := st.id }
    ⟨st, .asked request (P.route s.trace.length request)⟩

/-- The record of a step that ended so. -/
def recordOf (st : Step) : Except StepFailure (String × String) → Record
  | .ok (text, _) =>
    { id := st.id, kind := st.kind, output := some (String.ofList (text.toList.take 2000)) }
  | .error .approval => { id := st.id, kind := st.kind, ok := false, error := some "approval_required" }
  | .error (.tool code) => { id := st.id, kind := st.kind, ok := false, error := some code }
  | .error (.exception type) => { id := st.id, kind := st.kind, ok := false, error := some type }
  | .error (.escaped _) => { id := st.id, kind := st.kind, ok := false }

/-- The end of a run that came through all its steps. -/
def finish (steps : List Step) (s : State) : Outcome :=
  match steps.getLast?.bind fun st => s.raw.get? st.id with
  | none => ⟨.error .lookup, s.trace⟩
  | some result =>
    { result := .ok
        { status := .completed, steps := s.records, costUsd := roundTo 6 s.cost, result := some result }
      trace := s.trace }

/-- The steps that are left, and then the end of the run of all. -/
def loop (W : Options) (P : Peers) (all : List Step) : List Step → State → Outcome
  | [], s => finish all s
  | st :: steps, s =>
    if W.maxCostUsd.any fun m => decide (m ≤ s.cost) then s.stop .costLimit st.id
    else
      let e := execute W P s st
      let outcome := e.outcome W.engine
      let s := s.executed e (recordOf st outcome)
      match outcome with
      | .ok (text, shown) =>
        loop W P all steps { s with raw := s.raw.set st.id text, safe := s.safe.set st.id shown }
      | .error .approval => s.stop .needsApproval st.id
      | .error (.tool _) => s.stop .failed st.id
      | .error (.exception _) => s.stop .failed st.id
      | .error (.escaped e) => ⟨.error (.raised e), s.trace⟩

/-- `run_workflow`. -/
def run (W : Options) (P : Peers) (steps : List Step) : Outcome :=
  loop W P steps steps
    { raw := .ofList [("input", W.input)], safe := .ofList [("input", W.input)] }

end Caips.Harness.Workflow
