/-
Caips.Harness.RunnerSteps — the actions an execution is made of.

Whatever part of `Caips.Harness.Runner` one looks at, its actions are of five
kinds: an entry of the journal, a change of local variables, a write of the row, a
checkpoint, and a change of the rate windows of the registry (`Step`). Which of them
occur in a part is a lemma about that part, in the order of the
runner (`Does`). A property that the entries and writes of a part respect then holds
of its whole code.
-/
import Caips.Harness.Runner
import Caips.Logic.CoroFrame
import Caips.Tools.RateTheorems

namespace Caips.Harness

open Caips.Logic Caips.Providers
open Caips.Tools (ToolRegistry ToolError)

def Entry.ends : Entry → Bool
  | .trace (.runFinished _ _ _) => true
  | _ => false

namespace HarnessRunner

/-- The entries, the writes of the row and the changes of local variables that are allowed. -/
structure Scope where
  entry : Entry → Prop
  row : (Run → Run) → Prop
  locals : (Locals → Locals) → Prop

/-- One action. -/
inductive Step (S : Scope) (s : HarnessState) : HarnessState → Prop where
  | none : Step S s s
  | note (e : Entry) : S.entry e → Step S s (s.note e)
  | assign (i : ℕ) (f : Locals → Locals) : S.locals f → Step S s (s.setFrame i (some (f (s.locals i))))
  | write (f : Run → Run) : S.row f → Step S s (s.write f)
  | save (i : ℕ) (f : Run → Run) : S.row f → Step S s (s.save i f)
  | rates (r : ToolRegistry) : r.tools = s.registry.tools → Step S s { s with registry := r }

/-- All actions of the code are steps. -/
def Does (S : Scope) {α : Type} (c : Async α) : Prop := c.Within Ask.isCall (Step S)

/-- What every part may do: an event that is no ending, a summary, a checkpoint that changes no
column of its own, the account of an answer. -/
structure Scope.Open (S : Scope) : Prop where
  trace : ∀ e, (Entry.trace e).ends = false → S.entry (.trace e)
  called : ∀ c, S.entry (.called c)
  summary : ∀ account content, S.entry (.asked .summary account [{ role := "user", content := content }])
  id : S.row fun r => r
  add : ∀ resp, S.locals (Locals.add · resp)

theorem tools_check (validate : Json → Json → Option String) (r : ToolRegistry) (c : Tools.ToolCall) (approved : Bool) (now : ℚ) :
    (r.check validate c approved now).2.tools = r.tools := by
  obtain ⟨e, h⟩ | ⟨t, -, h⟩ := ToolRegistry.check_cases validate r c approved now
  · rw [h]
  · rw [h]
    exact ToolRegistry.tools_checkRate r t c.caller now

namespace Does

variable {R : HarnessRunner} {S : Scope} {i : ℕ} {agent : AgentDef} {α β : Type}

/-! ## Rules -/

theorem update {f : HarnessState → HarnessState} (hf : ∀ s, Step S s (f s)) : Does S (update f) := .sync hf

theorem read (f : HarnessState → α) : Does S (read f) := .sync fun _ => .none

theorem ret {a : α} : Does S (pure a : Async α) := trivial

theorem fail {e : Exc} : Does S (Coro.fail e : Async α) := trivial

theorem bind {c : Async α} {k : α → Async β} (hc : Does S c) (hk : ∀ a, Does S (k a)) : Does S (c >>= k) :=
  Coro.Within.bind hc hk

theorem when {b : Bool} {c : Async Unit} (hc : Does S c) : Does S (Coro.when b c) := Coro.Within.when fun _ => hc

theorem query (q : Query) : Does S (query q) := .ask trivial

theorem note {e : Entry} (he : S.entry e) : Does S (note e) := update fun _ => .note e he

theorem write {f : Run → Run} (hf : S.row f) : Does S (write f) := update fun _ => .write f hf

theorem assign {f : Locals → Locals} (hf : S.locals f) : Does S (assign i f) := update fun _ => .assign i f hf

theorem append (hfree : ∀ f, S.locals f) (m : Message) : Does S (append i m) := assign (hfree _)

theorem event (hS : S.Open) {e : TraceEvent} (he : (Entry.trace e).ends = false) : Does S (event e) := note (hS.trace e he)

/-! ## Bookkeeping -/

theorem checkpoint (hS : S.Open) {f : Run → Run} (hf : S.row f) : Does S (checkpoint i f) :=
  (update fun _ => .save i f hf).bind fun _ => (read _).bind fun _ => event hS rfl

theorem finishRun (hS : S.Open) {reason : StopReason} {result : Option String}
    (hpaused : reason = .paused → S.row fun r => { r with status := .paused, control := none, stopReason := some .paused })
    (hended : reason ≠ .paused → S.row fun r => { r with status := reason.status, stopReason := some reason, control := none, result := result })
    (htraced : ∀ step cost, S.entry (.trace (.runFinished reason step cost)))
    (hfinished : ∀ agent owner cost, S.entry (.finished agent owner reason.status reason cost)) : Does S (finishRun i reason result) := by
  unfold HarnessRunner.finishRun
  split
  · rename_i h
    exact (checkpoint hS (hpaused h)).bind fun _ => (read _).bind fun _ => event hS rfl
  · rename_i h
    refine (checkpoint hS (hended h)).bind fun _ => (read _).bind fun l => (note (htraced _ _)).bind fun _ => update fun s => ?_
    exact .note _ (hfinished _ _ _)

variable {call : ToolCall}

theorem wait (hS : S.Open) {rest : List ToolCall}
    (hrow : S.row fun r => { r with status := .waitingApproval, pending := some (call :: rest) }) : Does S (wait i call rest) :=
  (checkpoint hS hrow).bind fun _ => event hS rfl

theorem limit (hchecked : ∀ r, S.entry (.checked r)) : Does S (limit i agent) :=
  (read _).bind fun _ => (note (hchecked _)).bind fun _ => ret

/-! ## Model calls -/

theorem route (hS : S.Open) {purpose : Purpose} {req : CompletionRequest} {timeout : Option ℚ}
    (hasked : S.entry (.asked purpose (account req) req.messages)) : Does S (route purpose req timeout) :=
  (note hasked).bind fun _ => (query _).bind fun _ => (note (hS.called _)).bind fun _ => ret

theorem plan (hS : S.Open) (hfree : ∀ f, S.locals f) (hasked : ∀ account messages, S.entry (.asked .plan account messages)) :
    Does S (R.plan i agent) := by
  refine (read _).bind fun l => ?_
  cases l.msgs with
  | nil => exact fail
  | cons first rest =>
    dsimp only
    split
    · exact ret
    · refine (read _).bind fun ⟨req, timeout⟩ => (route hS (hasked _ _)).bind fun resp => ?_
      -- the test is a computation on strings, which would be run to compare programs
      generalize decide (Coreai.Keystore.strip resp.content ≠ "") = b
      exact (assign (hS.add _)).bind fun _ => (event hS rfl).bind fun _ => (when (assign (hfree _))).bind fun _ => checkpoint hS hS.id

theorem noteOf (hS : S.Open) (dropped : List Message) : Does S (noteOf agent dropped) := by
  unfold HarnessRunner.noteOf
  split
  · refine Coro.Within.tryCatch (bind (bind (route hS (hS.summary _ _)) fun _ => ret) fun _ => ret) fun e => ?_
    cases e with
    | cancelled => exact fail (S := S)
    | error name detail => exact ret (S := S)
  · exact ret

theorem compact (hS : S.Open) (hfree : ∀ f, S.locals f) (system : String) : Does S (compact i agent system) := by
  have hchanged (msgs : List Message) (n : ℕ) :
      Does S (HarnessRunner.assign i (fun l => { l with msgs := msgs }) >>= fun _ =>
        HarnessRunner.event (.contextCompacted msgs.length n)) :=
    (assign (hfree _)).bind fun _ => event hS rfl
  refine (read _).bind fun l => ?_
  cases Context.compact estimateTokens l.msgs system agent.contextTokens agent.keepRecent with
  | error text => exact fail
  | ok c =>
    cases c with
    | unchanged => exact ret
    | shrunk msgs => exact hchanged _ _
    | condensed pinned dropped rest => exact (noteOf hS dropped).bind fun _ => hchanged _ _

theorem model (hS : S.Open) (hfree : ∀ f, S.locals f) (hasked : ∀ account messages, S.entry (.asked .step account messages)) :
    Does S (R.model i agent) := by
  refine (read _).bind fun _ => (compact hS hfree _).bind fun _ => (read _).bind fun _ => ?_
  refine (route hS (hasked _ _)).bind fun _ => (assign (hS.add _)).bind fun _ => ?_
  exact (read _).bind fun _ => (event hS rfl).bind fun _ => ret

/-! ## Tools -/

theorem check {f : HarnessState → Except ToolError Tools.Tool × HarnessState}
    (hf : ∀ s, ∃ r, r.tools = s.registry.tools ∧ (f s).2 = { s with registry := r }) : Does S (Coro.sync (Sync.yields f)) := by
  refine Coro.Within.sync fun s => ?_
  obtain ⟨r, hr, heq⟩ := hf s
  rw [Sync.yields_run, heq]
  exact .rates r hr

theorem callTool {decision : Option Bool} (hhandled : S.entry (.handled call decision)) (args : Json) (approved : Bool) :
    Does S (R.callTool agent call args decision approved) := by
  refine (check fun s => ⟨_, tools_check R.validate s.registry _ approved s.now, rfl⟩).bind fun answer => ?_
  cases answer with
  | error e => exact ret
  | ok t => exact (note hhandled).bind fun _ => query _

theorem runOne {decision : Option Bool} (hhandled : S.entry (.handled call decision)) :
    Does S (R.runOne agent call decision) := by
  unfold HarnessRunner.runOne
  split
  · exact ret
  · split
    · exact ret
    · refine (callTool hhandled _ _).bind fun answer => ?_
      cases answer with
      | ok text => exact ret
      | error e =>
        dsimp only
        split
        · exact (callTool hhandled _ _).bind fun _ => ret
        · exact ret

/-- `_tools`, where any handler may be invoked. -/
theorem tools (hS : S.Open) (hfree : ∀ f, S.locals f) (hhandled : ∀ call decision, S.entry (.handled call decision))
    (hwait : ∀ call rest, S.row fun r => { r with status := .waitingApproval, pending := some (call :: rest) }) (calls : List ToolCall) :
    ∀ decision : Option Bool, Does S (R.tools i agent calls decision) := by
  induction calls with
  | nil => exact fun _ => ret
  | cons call rest ih =>
    intro decision
    have hanswer (m : Message) : Does S (HarnessRunner.append i m >>= fun _ => R.tools i agent rest none) :=
      (append hfree m).bind fun _ => ih none
    have hstop : Does S (HarnessRunner.wait i call rest >>= fun _ => (pure true : Async Bool)) :=
      (wait hS (hwait call rest)).bind fun _ => ret
    unfold HarnessRunner.tools
    split
    · cases decision with
      | none => exact hstop
      | some approved => exact (event hS rfl).bind fun _ => hanswer _
    · split
      · exact hstop
      · split
        · exact (event hS rfl).bind fun _ => (read _).bind fun _ => (event hS rfl).bind fun _ => hanswer _
        · refine (runOne (hhandled call decision)).bind fun step => ?_
          split
          · exact hstop
          · exact (when (event hS rfl)).bind fun _ => (read _).bind fun _ => (event hS rfl).bind fun _ => hanswer _

/-! ## The end of an execution -/

theorem rescue (hS : S.Open) (hpaused : S.row fun r => { r with status := .paused, stopReason := some .shutdown })
    (hfailed : S.row fun r => { r with status := .failed, stopReason := some .error })
    (htraced : ∀ step, S.entry (.trace (.runFinished .error step none))) (e : Exc) : Does S (rescue i e) := by
  cases e with
  | cancelled => exact (checkpoint hS hpaused).bind fun _ => fail
  | error name detail =>
    refine (event hS rfl).bind fun _ => (checkpoint hS hS.id).bind fun _ => ?_
    exact (write hfailed).bind fun _ => (read _).bind fun _ => note (htraced _)

end Does

end HarnessRunner

end Caips.Harness
