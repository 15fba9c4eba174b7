/-
Caips.Harness.RunnerApprovals — which tools are run with a human's approval.

An agent names tools that need an approval, and the registry refuses a destructive
tool without one. The executions of a run are started at any time, also several at
once, and a process may crash anywhere; each is given the decision of a human on
the call the run waits for. Over all of this:

* a tool that needs an approval is run for a call a human was asked about, and none
  for a call that was refused (`Approvals.asked`);
* an approval is used once, for the call it was given for (`Approvals.covered`). Only
  a handler that asks for an approval itself is invoked a second time on the same one
  (`approval_twice`).
-/
import Caips.Harness.RunnerSteps
import Caips.Harness.RunnerTheorems
import Caips.Logic.CoroPermits

namespace Caips.Harness

open Caips.Logic Caips.Providers
open Caips.Tools (ToolRegistry ToolError)

/-! ## Approvals and uses -/

/-- An execution starts with the approval of this call. -/
def Entry.approves (call : ToolCall) : Entry → Bool
  | .entered _ (some (c :: _)) (some true) => c = call
  | _ => false

/-- The handler is invoked for this call, on which a human was asked. -/
def Entry.uses (call : ToolCall) : Entry → Bool
  | .handled c (some _) => c = call
  | _ => false

/-- No handler is invoked, and no execution starts. -/
def Entry.idle : Entry → Bool
  | .handled _ _ => false
  | .entered _ _ _ => false
  | _ => true

theorem Entry.approves_of_idle {e : Entry} (h : e.idle) (call : ToolCall) : e.approves call = false := by
  cases e with
  | entered status pending decision => exact nomatch h
  | _ => rfl

theorem Entry.uses_of_idle {e : Entry} (h : e.idle) (call : ToolCall) : e.uses call = false := by
  cases e with
  | handled c decision => exact nomatch h
  | _ => rfl

namespace HarnessRunner

/-- The tools of an agent that need an approval, and whether all handlers are `silent`:
none asks for an approval itself. -/
structure Gate where
  name : String
  approvalTools : List String
  risky : List String
  silent : Bool

/-- The call needs an approval. -/
def Gate.needs (A : Gate) (call : ToolCall) : Prop := call.name ∈ A.approvalTools ∨ call.name ∈ A.risky

/-- How often a handler is invoked on one approval. -/
def Gate.each (A : Gate) : ℕ := if A.silent then 1 else 2

/-- The tools that are risky are destructive. -/
def Risks (A : Gate) (r : ToolRegistry) : Prop := ∀ n ∈ A.risky, (r.tools.get? n).all fun t =>
    t.permission = .destructive

/-- A run that waits for a human says for which calls. -/
def Waiting (run : Run) : Prop := run.status = .waitingApproval → ∃ call rest, run.pending = some (call :: rest)

/-- What holds of the run and its journal. -/
structure Safe (A : Gate) (s : HarnessState) : Prop where
  name : s.run.agent = A.name
  tools : Risks A s.registry
  handled : ∀ call d, Entry.handled call d ∈ s.journal → d ≠ some false ∧ (A.needs call → d = some true)
  waiting : Waiting s.run

/-- The answer of a handler that asks for no approval. -/
def Silent : (q : Ask Γ) → Except Exc q.Reply → Prop
  | .call (.handler _ _), .ok (.error e) => e.code ≠ "approval_required"
  | _, _ => True

variable (R : HarnessRunner) (crashes : Bool) (A : Gate)

/-- Approvals, and the handlers they are used for. -/
abbrev approvals : Permits (R.program crashes) where
  Kind := ToolCall
  granted s call := A.each * s.journal.countP (Entry.approves call)
  spent s call := s.journal.countP (Entry.uses call)
  keeps := Safe A
  rely q r := A.silent → Silent q r

/-- No handler is invoked and no execution starts; a run that waits says for what. -/
def calm : Scope where
  entry e := e.idle
  row f := ∀ r, (f r).agent = r.agent ∧ (Waiting r → Waiting (f r))
  locals _ := True

section

variable {R : HarnessRunner} {crashes : Bool} {A : Gate} {α β : Type} {i : ℕ} {agent : AgentDef} {me : Γ.Handle}

variable (R crashes A me) in
/-- The code keeps to the gate, from states like this. -/
abbrev Gating (pre : (approvals R crashes A).contract.Assn) (c : Async α) : Prop :=
  (approvals R crashes A).contract.Holds me pre c fun _ _ _ _ => True

/-! ## Steps that run no tool -/

theorem quiet_of_eq {s u : HarnessState} (hrun : u.run = s.run) (hjournal : u.journal = s.journal)
    (htools : u.registry.tools = s.registry.tools) : (approvals R crashes A).Quiet s u := by
  refine ⟨fun hs => ⟨hrun ▸ hs.name, fun n hn =>
    htools ▸ hs.tools n hn, hjournal ▸ hs.handled, hrun ▸ hs.waiting⟩, ?_, ?_⟩
  · simp [hjournal]
  · simp [hjournal]

theorem quiet_note {e : Entry} (he : e.idle) (s : HarnessState) : (approvals R crashes A).Quiet s (s.note e) := by
  refine ⟨fun hs => ⟨hs.name, hs.tools, fun call d hmem => ?_, hs.waiting⟩, fun call => ?_, fun call => ?_⟩
  · obtain rfl | hmem := List.mem_cons.mp hmem
    · exact nomatch he
    · exact hs.handled call d hmem
  · simp [HarnessState.note, Entry.approves_of_idle he]
  · simp [HarnessState.note, Entry.uses_of_idle he]

variable {f : Run → Run} {c : Async α} {pre : (approvals R crashes A).contract.Assn} {call : ToolCall}

theorem quiet_write (hname : ∀ r, (f r).agent = r.agent)
    (hwaiting : ∀ r, Waiting r → Waiting (f r)) (s : HarnessState) :
    (approvals R crashes A).Quiet s (s.write f) := by
  have hrow : (approvals R crashes A).Quiet s { s with run := f s.run } :=
    ⟨fun hs => ⟨(hname _).trans hs.name, hs.tools, hs.handled, hwaiting _ hs.waiting⟩, fun _ => rfl, fun _ => rfl⟩
  unfold HarnessState.write
  split
  · exact hrow
  · exact hrow.trans (quiet_note (e := .became _) rfl _)

theorem quiet_save (hname : ∀ r, (f r).agent = r.agent)
    (hwaiting : ∀ r, Waiting r → Waiting (f r)) (s : HarnessState) :
    (approvals R crashes A).Quiet s (s.save i f) :=
  (quiet_write (f := fun r => f (r.save (s.locals i))) (fun _ => hname _)
    (fun _ hr => hwaiting _ hr) s).trans (quiet_note rfl _)

theorem waiting_of_ne {r : Run} (h : r.status ≠ .waitingApproval) : Waiting r := fun hstatus => absurd hstatus h

theorem quiet_finish {status : RunStatus} (hstatus : status ≠ .waitingApproval)
    (reason : StopReason) (s : HarnessState) :
    (approvals R crashes A).Quiet s (s.finish status reason) := by
  have hwrite : (approvals R crashes A).Quiet s
      (s.write fun r =>
        { r with status := status, stopReason := some reason, control := none }) := by
    refine quiet_write ?_ ?_ s
    · exact fun _ => rfl
    · exact fun _ _ => waiting_of_ne hstatus
  exact (hwrite.trans (quiet_note rfl _)).trans (quiet_note rfl _)

theorem quiet_request (c : Control) (s : HarnessState) : (approvals R crashes A).Quiet s (s.request c) := by
  unfold HarnessState.request
  split
  · have hwrite : (approvals R crashes A).Quiet s (s.write fun r => { r with control := some c }) := by
      refine quiet_write ?_ ?_ s
      · exact fun _ => rfl
      · exact fun _ hr => hr
    exact hwrite.trans (quiet_note rfl _)
  · exact Permits.Quiet.refl _

/-- The outside world, but for the registry. -/
theorem quiet_op {o : Op} (ho : ∀ r, o = .registry r → Risks A r) (s : HarnessState) :
    (approvals R crashes A).Quiet s (op o s) := by
  cases o with
  | pause => exact quiet_request _ s
  | cancel =>
    show (approvals R crashes A).Quiet s s.cancel
    unfold HarnessState.cancel
    split
    · exact (quiet_note (e := .requested .cancel) rfl s).trans (quiet_finish (by decide) _ _)
    · exact quiet_request _ s
  | kill owner =>
    show (approvals R crashes A).Quiet s (s.kill owner)
    unfold HarnessState.kill
    split
    · dsimp only
      split
      · exact (quiet_request .kill s).trans (quiet_finish (by decide) _ _)
      · exact quiet_request _ s
    · exact Permits.Quiet.refl _
  | clock now => exact quiet_of_eq rfl rfl rfl
  | registry r => exact ⟨fun hs => ⟨hs.name, ho r rfl, hs.handled, hs.waiting⟩, fun _ => rfl, fun _ => rfl⟩
  | memory found => exact quiet_of_eq rfl rfl rfl

theorem quiet_step {s u : HarnessState} (h : Step calm s u) : (approvals R crashes A).Quiet s u := by
  cases h with
  | none => exact Permits.Quiet.refl _
  | note e he => exact quiet_note he s
  | assign i f _ => exact quiet_of_eq rfl rfl rfl
  | write f hf => exact quiet_write (fun r => (hf r).1) (fun r => (hf r).2) s
  | save i f hf => exact quiet_save (fun r => (hf r).1) (fun r => (hf r).2) s
  | rates r hr => exact quiet_of_eq rfl rfl hr

theorem open_calm : calm.Open where
  trace _ _ := rfl
  called _ := rfl
  summary _ _ := rfl
  id _ := ⟨rfl, fun hr => hr⟩
  add _ := trivial

theorem free_calm (f : Locals → Locals) : calm.locals f := trivial

theorem calm_row (hname : ∀ r, (f r).agent = r.agent)
    (hstatus : ∀ r, (f r).status ≠ .waitingApproval) : calm.row f :=
  fun r => ⟨hname r, fun _ => waiting_of_ne (hstatus r)⟩

theorem calm_wait (call : ToolCall) (rest : List ToolCall) :
    Does calm (wait i call rest) := .wait open_calm fun _ => ⟨rfl, fun _ _ => ⟨call, rest, rfl⟩⟩

theorem calm_finishRun (reason : StopReason) (result : Option String) :
    Does calm (finishRun i reason result) := by
  refine .finishRun open_calm (fun _ => calm_row ?_ ?_) (fun _ => calm_row ?_ ?_) (fun _ _ => rfl)
    fun _ _ _ => rfl
  · exact fun _ => rfl
  · exact fun _ => nofun
  · exact fun _ => rfl
  · cases reason <;> simp [StopReason.status]

theorem calm_rescue (e : Exc) : Does calm (rescue i e) := by
  refine .rescue open_calm (calm_row ?_ ?_) (calm_row ?_ ?_) (fun _ => rfl) e
  · exact fun _ => rfl
  · exact fun _ => nofun
  · exact fun _ => rfl
  · exact fun _ => nofun

theorem calm_seq {k : α → Async β} {pre : Multiset ToolCall → Prop} (hc : Does calm c)
    (hk : ∀ a, Gating R crashes A me (fun _ h _ => pre h) (k a)) :
    Gating R crashes A me (fun _ h _ => pre h) (c >>= k) :=
  (Permits.holds_quiet (hc.mono (fun _ h => h) fun _ _ => quiet_step)).bind hk fun _ _ _ _ _ _ _ => trivial

theorem calm_holds (hc : Does calm c) :
    Gating R crashes A me pre c :=
  (Permits.holds_quiet (φ := fun _ => True) (hc.mono (fun _ h => h) fun _ _ =>
    quiet_step)).weaken_pre fun _ _ _ _ _ _ => trivial

theorem then_gating {k : α → Async β}
    {N : Except Exc α → (approvals R crashes A).contract.Assn}
    (hc : (approvals R crashes A).contract.Holds me pre c N)
    (hk : ∀ a, Gating R crashes A me (N (.ok a)) (k a)) : Gating R crashes A me pre (c >>= k) :=
  hc.bind hk fun _ _ _ _ _ _ _ => trivial

theorem holds_quiet_update {f : HarnessState → HarnessState}
    (hf : ∀ s, (approvals R crashes A).Quiet s (f s)) : Gating R crashes A me pre (update f) :=
  (Permits.holds_quiet (M := approvals R crashes A) (φ := fun _ => True)
    (Coro.Within.sync hf)).weaken_pre fun _ _ _ _ _ _ => trivial

/-! ## The handler of a call -/

/-- A call that passes without an approval is of a tool that is not destructive. -/
theorem permission_of_unapproved {validate : Json → Json → Option String} {r : ToolRegistry}
    {c : Tools.ToolCall} {now : ℚ}
    {t : Tools.Tool} (h : (r.check validate c false now).1 = .ok t) :
    r.tools.get? c.name = some t ∧ t.permission ≠ .destructive := by
  obtain ⟨u, -, -, hcheck⟩ | ⟨hnot, -⟩ := ToolRegistry.check_unapproved_cases validate r c now
  · rw [hcheck] at h
    exact nomatch h
  · have hpre : ToolRegistry.precheck validate r c = .ok t := by
      unfold ToolRegistry.check at h
      cases hprecheck : ToolRegistry.precheck validate r c with
      | error e =>
        rw [hprecheck] at h
        exact nomatch h
      | ok u =>
        rw [hprecheck] at h
        dsimp only at h
        rw [if_neg fun hboth => hnot u hprecheck hboth.1] at h
        split at h
        · exact nomatch h
        · exact congrArg _ (Except.ok.inj h)
    exact ⟨ToolRegistry.tool_of_precheck validate hpre, hnot t hpre⟩

theorem quiet_check (c : Tools.ToolCall) (approved : Bool) (s : HarnessState) :
    (approvals R crashes A).Quiet s { s with registry := (s.registry.check R.validate c approved s.now).2 } :=
  quiet_of_eq rfl rfl (tools_check R.validate s.registry c approved s.now)

theorem quiet_handled (hcall : ¬A.needs call) (s : HarnessState) :
    (approvals R crashes A).Quiet s (s.note (.handled call none)) := by
  refine ⟨fun hs => ⟨hs.name, hs.tools, fun c d hmem => ?_, hs.waiting⟩, fun c => ?_, fun c => ?_⟩
  · obtain heq | hmem := List.mem_cons.mp hmem
    · obtain ⟨rfl, rfl⟩ := Entry.handled.inj heq
      exact ⟨nofun, fun hneeds => absurd hneeds hcall⟩
    · exact hs.handled c d hmem
  · simp [HarnessState.note, Entry.approves]
  · simp [HarnessState.note, Entry.uses]

/-- A call no human was asked about. -/
theorem holds_callTool_unasked {args : Json} (hcall : call.name ∉ A.approvalTools) :
    Gating R crashes A me (fun _ _ _ => True) (R.callTool agent call args none false) := by
  refine then_gating (N := fun r _ _ _ => ∀ t, r = .ok (.ok t) → call.name ∉ A.risky) (Contract.Holds.sync ?_)
    fun answer => ?_
  · intro s h F l hinv _
    refine ⟨fun _ _ => rfl, h, (quiet_check _ false s).paid hinv, fun t ht hrisky => ?_⟩
    obtain ⟨htool, hpermission⟩ := permission_of_unapproved (Except.ok.inj ht)
    have hdestructive := hinv.keeps.tools call.name hrisky
    rw [htool] at hdestructive
    exact hpermission (of_decide_eq_true hdestructive)
  · cases answer with
    | error e => exact Contract.Holds.ret fun _ _ _ _ _ _ => trivial
    | ok t =>
      refine Contract.Holds.assume (φ := call.name ∉ A.risky) (fun _ _ _ _ _ hp => hp t rfl) fun hrisky => ?_
      have hneeds : ¬A.needs call := fun h => h.elim hcall hrisky
      exact then_gating (holds_quiet_update (quiet_handled hneeds)) fun _ => calm_holds (.query _)

theorem holds_use (call : ToolCall) (n : ℕ) :
    (approvals R crashes A).contract.Holds me ((approvals R crashes A).Has (n + 1) call)
    (note (.handled call (some true)))
      fun _ => (approvals R crashes A).Has n call := by
  refine Permits.holds_spend (fun s hs => ⟨hs.name, hs.tools, fun c d hmem => ?_, hs.waiting⟩)
    (fun s c => ?_) fun s c => ?_
  · obtain heq | hmem := List.mem_cons.mp hmem
    · obtain ⟨rfl, rfl⟩ := Entry.handled.inj heq
      exact ⟨nofun, fun _ => rfl⟩
    · exact hs.handled c d hmem
  · simp [HarnessState.note, Entry.approves]
  · simp [HarnessState.note, Entry.uses, List.countP_cons, eq_comm]

/-- What is left of an approval after a call: a token less, or as many if there is no need for another. -/
def Unused (n : ℕ) (call : ToolCall) : Except Exc (Except ToolError String) →
    (approvals R crashes A).contract.Assn :=
  fun r s h l => (approvals R crashes A).Has n call s h l ∧
    ((approvals R crashes A).Has (n + 1) call s h l ∨ ∀ e, r = .ok (.error e) → A.silent → e.code ≠ "approval_required")

/-- A call a human has approved. -/
theorem holds_callTool_asked (call : ToolCall) (args : Json) (approved : Bool) (n : ℕ) :
    (approvals R crashes A).contract.Holds me ((approvals R crashes A).Has (n + 1) call)
      (R.callTool agent call args (some true) approved) (Unused n call) := by
  have hmore {r : Except Exc (Except ToolError String)} :
    (approvals R crashes A).contract.Entails ((approvals R crashes A).Has (n + 1) call)
      (Unused n call r) := by
    intro s h F l _ hhas
    exact ⟨Nat.le_of_succ_le hhas, .inl hhas⟩
  refine Contract.Holds.bind (N := fun _ => (approvals R crashes A).Has (n + 1) call)
    (Contract.Holds.sync ?_) (fun answer => ?_)
    fun _ => hmore
  · intro s h F l hinv hhas
    exact ⟨fun _ _ => rfl, h, (quiet_check _ approved s).paid hinv, hhas⟩
  · cases answer with
    | error e => exact Contract.Holds.ret hmore
    | ok t =>
      refine Contract.Holds.bind (holds_use call n) (fun _ => ?_) fun _ _ _ _ _ _ hhas => ⟨hhas, .inr nofun⟩
      refine Contract.Holds.ask (fun _ _ _ _ _ _ => ⟨trivial, trivial⟩) fun r s h F l _
        ⟨_, _, ⟨_, _, hhas⟩, _, hrely⟩ => ⟨hhas, .inr ?_⟩
      rintro e rfl hsilent
      exact hrely hsilent

theorem each_cases (A : Gate) : ∃ n, A.each = n + 1 ∧ (A.silent = false → n = 1) := by
  unfold Gate.each
  split
  · rename_i hsilent
    exact ⟨0, rfl, fun h => nomatch hsilent.symm.trans h⟩
  · exact ⟨1, rfl, fun _ => rfl⟩

/-- `_run_one`, for a call a human has approved: if the handler is invoked again, it has asked for it. -/
theorem holds_runOne_asked (call : ToolCall) :
    Gating R crashes A me ((approvals R crashes A).Has A.each call) (R.runOne agent call (some true)) := by
  obtain ⟨n, heach, htwo⟩ := each_cases A
  rw [heach]
  unfold runOne
  split
  · exact calm_holds .ret
  · split
    · exact calm_holds .ret
    · rename_i args _ _
      refine then_gating (holds_callTool_asked call args false n) fun answer => ?_
      cases answer with
      | ok text => exact calm_holds .ret
      | error e =>
        dsimp only
        split
        · rename_i hcode
          refine then_gating ((holds_callTool_asked call args true 0).weaken_pre ?_) fun _ => calm_holds .ret
          intro s h F l _ ⟨hhas, hcases⟩
          obtain hmore | hsilent := hcases
          · have hle : 0 + 1 ≤ n + 1 := by omega
            exact hle.trans hmore
          · have hnot : A.silent = false := by
              cases hA : A.silent with
              | false => rfl
              | true => exact absurd hcode.1 (hsilent e rfl hA)
            rw [htwo hnot] at hhas
            exact hhas
        · exact calm_holds .ret

/-- `_run_one`, for any other call that may pass. -/
theorem holds_runOne_unasked (hcall : call.name ∉ A.approvalTools) :
    Gating R crashes A me (fun _ _ _ => True) (R.runOne agent call none) := by
  unfold runOne
  split
  · exact calm_holds .ret
  · split
    · exact calm_holds .ret
    · refine then_gating (holds_callTool_unasked hcall) fun answer => ?_
      cases answer with
      | ok text => exact calm_holds .ret
      | error e =>
        dsimp only
        rw [if_neg (by simp)]
        exact calm_holds .ret

/-! ## Executions -/

/-- The first of the calls, if it was approved, has its tokens. -/
def Approved (calls : List ToolCall) (decision : Option Bool) (held : Multiset ToolCall) : Prop :=
  ∀ call rest, calls = call :: rest → decision = some true → A.each ≤ held.count call

/-- `_tools`. -/
theorem holds_tools_gate (hagent : agent.approvalTools = A.approvalTools) (calls : List ToolCall) :
    ∀ decision : Option Bool, Gating R crashes A me
      (fun _ h _ => Approved (A := A) calls decision h) (R.tools i agent calls decision) := by
  induction calls with
  | nil => exact fun _ => calm_holds .ret
  | cons call rest ih =>
    intro decision
    have hrest : Gating R crashes A me (fun _ _ _ => True) (R.tools i agent rest none) :=
      (ih none).weaken_pre fun _ _ _ _ _ _ _ _ _ h => nomatch h
    have hanswer (m : Message) : Gating R crashes A me (fun _ _ _ => True)
        (append i m >>= fun _ => R.tools i agent rest none) :=
      calm_seq (.append free_calm m) fun _ => hrest
    have hwait {pre : (approvals R crashes A).contract.Assn} :
        Gating R crashes A me pre (wait i call rest >>= fun _ => (pure true : Async Bool)) :=
      calm_holds ((calm_wait call rest).bind fun _ => .ret)
    unfold tools
    split
    · cases decision with
      | none => exact hwait
      | some approved =>
        refine Contract.Holds.weaken_pre ?_ fun _ _ _ _ _ _ => trivial
        exact calm_seq (.event open_calm rfl) fun _ => hanswer _
    · split
      · exact hwait
      · rename_i hasked
        split
        · refine Contract.Holds.weaken_pre ?_ fun _ _ _ _ _ _ => trivial
          exact calm_seq (.event open_calm rfl) fun _ => calm_seq (.read _) fun _ =>
            calm_seq (.event open_calm rfl) fun _ => hanswer _
        · rename_i hdenied
          refine then_gating (N := fun _ _ _ _ => True) ?_ fun step => ?_
          · cases decision with
            | none =>
              have hcall : call.name ∉ A.approvalTools := by
                rw [← hagent]
                exact fun h => hasked ⟨h, rfl⟩
              exact (holds_runOne_unasked hcall).weaken_pre fun _ _ _ _ _ _ => trivial
            | some approved =>
              cases approved with
              | true => exact (holds_runOne_asked call).weaken_pre fun _ _ _ _ _ h => h call rest rfl rfl
              | false => exact absurd rfl hdenied
          · split
            · exact hwait
            · refine calm_seq (.when (.event open_calm rfl)) fun _ => calm_seq (.read _) fun _ => ?_
              exact calm_seq (.event open_calm rfl) fun _ => hanswer _

/-- The loop takes no decision with it. -/
theorem holds_loop_gate (hagent : agent.approvalTools = A.approvalTools) (n : ℕ) :
    Gating R crashes A me (fun _ _ _ => True) (R.loop i agent n) := by
  induction n with
  | zero => exact calm_holds .fail
  | succ n ih =>
    refine calm_seq (.limit fun _ => rfl) fun o => ?_
    cases o with
    | some reason => exact calm_holds (calm_finishRun _ _)
    | none =>
      refine calm_seq (.model open_calm free_calm fun _ _ => rfl) fun resp =>
        calm_seq (.assign trivial) fun _ => ?_
      split
      · refine calm_seq (.append free_calm _) fun _ =>
          calm_seq (.checkpoint open_calm ?_) fun _ => calm_holds (calm_finishRun _ _)
        exact fun _ => ⟨rfl, fun hr => hr⟩
      · refine calm_seq (.append free_calm _) fun _ => ?_
        refine then_gating (N := fun _ _ _ _ => True)
          ((holds_tools_gate hagent resp.toolCalls none).weaken_pre ?_) fun waits => ?_
        · exact fun _ _ _ _ _ _ _ _ _ h => nomatch h
        cases waits with
        | true => exact calm_holds .ret
        | false =>
          refine calm_seq (.checkpoint open_calm open_calm.id) fun _ => calm_seq (.read _) fun l => ?_
          split
          · exact calm_holds (calm_finishRun _ _)
          · exact ih

theorem holds_goOn_gate (hagent : agent.approvalTools = A.approvalTools) (pending : Option (List ToolCall)) :
    Gating R crashes A me (fun _ _ _ => True) (R.goOn i agent pending) := by
  refine calm_seq (.read _) fun left => calm_seq (.read _) fun l => ?_
  split
  · refine calm_seq (.limit fun _ => rfl) fun o => ?_
    cases o with
    | some reason => exact calm_holds (calm_finishRun _ _)
    | none => exact calm_seq (.plan open_calm free_calm fun _ _ => rfl) fun _ => holds_loop_gate hagent _
  · exact holds_loop_gate hagent _

/-- The calls a run waits for. -/
def Pending (pending : Option (List ToolCall)) (decision : Option Bool) (held : Multiset ToolCall) : Prop :=
  ∀ calls, pending = some calls → Approved (A := A) calls decision held

theorem holds_attempt_gate (hagent : agent.approvalTools = A.approvalTools)
    (pending : Option (List ToolCall)) (decision : Option Bool) :
    Gating R crashes A me (fun _ h _ => Pending (A := A) pending decision h)
      (R.attempt i agent pending decision) := by
  cases pending with
  | none => exact (holds_goOn_gate hagent none).weaken_pre fun _ _ _ _ _ _ => trivial
  | some calls =>
    refine then_gating (N := fun _ _ _ _ => True)
      ((holds_tools_gate hagent calls decision).weaken_pre ?_) fun waits => ?_
    · exact fun _ _ _ _ _ h => h calls rfl
    · cases waits with
      | true => exact calm_holds .ret
      | false => exact holds_goOn_gate hagent _

/-- An execution takes the approval of the call the run waits for. -/
theorem holds_entered (status : RunStatus) (pending : Option (List ToolCall)) (decision : Option Bool) :
    (approvals R crashes A).contract.Holds me (fun _ _ _ => True) (note (.entered status pending decision))
      fun _ _ h _ => Pending (A := A) pending decision h := by
  have hkeeps (s : HarnessState) (hs : Safe A s) : Safe A (s.note (.entered status pending decision)) := by
    refine ⟨hs.name, hs.tools, fun c d hmem => ?_, hs.waiting⟩
    obtain heq | hmem := List.mem_cons.mp hmem
    · exact nomatch heq
    · exact hs.handled c d hmem
  have huses (s : HarnessState) (call : ToolCall) :
      (s.note (.entered status pending decision)).journal.countP (Entry.uses call) =
        s.journal.countP (Entry.uses call) := by
    simp [HarnessState.note, Entry.uses]
  by_cases htokens : ∃ call rest, pending = some (call :: rest) ∧ decision = some true
  · obtain ⟨call, rest, rfl, rfl⟩ := htokens
    refine (Permits.holds_grant (M := approvals R crashes A) (n := A.each) (k := call) hkeeps huses
      fun s c => ?_).weaken_post ?_
    · by_cases hc : c = call
      · subst hc
        simp [HarnessState.note, Entry.approves, Nat.mul_succ]
      · simp [HarnessState.note, Entry.approves, hc, Ne.symm hc]
    · rintro r s h F l _ hhas calls hcalls c rest' rfl -
      obtain ⟨rfl, -⟩ := List.cons.inj (Option.some.inj hcalls)
      exact hhas
  · have happroves (s : HarnessState) (c : ToolCall) :
        (s.note (.entered status pending decision)).journal.countP (Entry.approves c) =
          s.journal.countP (Entry.approves c) := by
      have hno : (Entry.entered status pending decision).approves c = false := by
        unfold Entry.approves
        split
        · rename_i heq
          obtain ⟨-, rfl, rfl⟩ := Entry.entered.inj heq
          exact absurd ⟨_, _, rfl, rfl⟩ htokens
        · rfl
      simp [HarnessState.note, hno]
    refine Contract.Holds.weaken_post (holds_quiet_update fun s =>
      ⟨hkeeps s, fun c => congrArg (A.each * ·) (happroves s c), huses s⟩) ?_
    intro r s h F l _ _ calls hcalls call rest hcons hdecision
    exact absurd ⟨call, rest, hcons ▸ hcalls, hdecision⟩ htokens

/-- `_execute`. -/
theorem holds_execute_gate (hagent : ∀ agent, R.agents.get? A.name = some agent →
    agent.approvalTools = A.approvalTools) (decision : Option Bool) :
    Gating R crashes A me (fun _ _ _ => True) (R.execute i decision) := by
  refine then_gating (N := fun r s _ _ => ∀ run, r = .ok run → run.agent = A.name)
    (Contract.Holds.sync ?_) fun run => ?_
  · intro s h F l hinv _
    exact ⟨fun _ _ => rfl, h, hinv, fun run hrun => Except.ok.inj hrun ▸ hinv.keeps.name⟩
  refine Contract.Holds.assume (φ := run.agent = A.name) (fun _ _ _ _ _ hp => hp run rfl) fun hname => ?_
  refine then_gating ((holds_entered run.status run.pending decision).weaken_pre fun _ _ _ _ _ _ =>
    trivial) fun _ => ?_
  split
  · exact calm_holds .ret
  · rw [hname]
    split
    · exact calm_holds .fail
    · rename_i agent hget
      have heffective : agent.effective.approvalTools = A.approvalTools := by
        rw [← hagent agent hget]
        unfold AgentDef.effective
        split <;> rfl
      refine calm_seq (.assign (f := fun _ => run.locals) trivial) fun _ =>
        calm_seq (.write (calm_row ?_ ?_)) fun _ => ?_
      · exact fun _ => rfl
      · intro _ h
        cases h
      refine calm_seq (.note rfl) fun _ => ?_
      refine then_gating (N := fun _ _ _ _ => True) ?_ fun _ => calm_holds (.read _)
      exact Contract.Holds.tryCatch (holds_attempt_gate heffective run.pending decision)
        (fun _ _ _ _ _ _ _ => trivial)
        fun e => calm_holds (calm_rescue e)

/-! ## Every run -/

variable (A) in
def Risky : Move Γ Op → Prop
  | .op (.registry r) => Risks A r
  | _ => True

variable (A) in
/-- The risky tools stay destructive, and silent handlers are silent. -/
def Gated (p : Pool Γ) (m : Move Γ Op) : Prop := Risky A m ∧ (A.silent → Answered Silent p m)

variable (R A) in
/-- The states after `create`, of a run of the agent. -/
def Opens (s : HarnessState) : Prop := R.Created s ∧ s.run.agent = A.name ∧ Risks A s.registry

theorem kept (hagent : ∀ agent, R.agents.get? A.name = some agent → agent.approvalTools = A.approvalTools) :
    (approvals R crashes A).Kept (Opens R A) (Gated A) where
  start s hs := by
    obtain ⟨⟨⟨name, agent, task, owner, -, hrun⟩, hjournal, -⟩, hname, htools⟩ := hs
    refine ⟨⟨hname, htools, fun call d hmem => ?_, fun hstatus => ?_⟩, fun call => ?_⟩
    · simp [hjournal] at hmem
    · simp [hrun, newRun] at hstatus
    · simp [hjournal, Entry.uses]
  body i c := by
    obtain ⟨decision⟩ := c
    refine Contract.Holds.tryFinally (N := fun _ _ _ _ => True) (V := fun _ _ _ _ _ => True)
      (holds_execute_gate hagent decision) (fun _ => ?_)
      (fun _ _ _ _ _ _ _ => trivial) fun _ _ _ _ _ _ _ _ => trivial
    exact holds_quiet_update fun _ => quiet_of_eq rfl rfl rfl
  enter p c s _ hs := by
    obtain rfl := Option.some.inj hs
    exact quiet_of_eq rfl rfl rfl
  op p o s hG hs := by
    obtain rfl := Option.some.inj hs
    refine quiet_op (fun r hr => ?_) p.state
    subst hr
    exact hG.1
  reboot s s' hs := by
    dsimp only at hs
    split at hs
    · obtain rfl := Option.some.inj hs
      exact quiet_of_eq rfl rfl rfl
    · exact nomatch hs
  rely p i a t q k ht hq _ hG hsilent := by
    have hat : p.AtResume i a fun _ q r => Silent q r := by
      obtain ⟨-, hG⟩ | ⟨n, -, hG⟩ := hG
      · exact hG hsilent
      · exact hG hsilent
    exact hat.of ht hq

/-- A journal without a tool that was run in spite of its gate. -/
structure Approvals (A : Gate) (s : HarnessState) : Prop where
  /-- A tool that needs an approval has it, and none is run that was refused. -/
  asked : ∀ call d, Entry.handled call d ∈ s.journal → d ≠ some false ∧ (A.needs call → d = some true)
  /-- An approval is used for the call it was given for, and once. -/
  covered : ∀ call, s.journal.countP (Entry.uses call) ≤ A.each * s.journal.countP (Entry.approves call)
  /-- A run that waits says for what. -/
  waiting : s.run.status = .waitingApproval → ∃ call rest, s.run.pending = some (call :: rest)

/-- **No tool is run without its approval**, whatever executions of the run overlap and wherever
the process crashes. -/
theorem approved_only (hagent : ∀ agent, R.agents.get? A.name = some agent →
    agent.approvalTools = A.approvalTools) {p : Pool Γ}
    (h : ((R.program crashes).machine (Opens R A)).Reach (Gated A) p) : Approvals A p.state := by
  obtain ⟨hsafe, hpaid⟩ := (kept hagent).reach h
  exact ⟨hsafe.handled, hpaid, hsafe.waiting⟩

instance (q : Ask Γ) (r : Except Exc q.Reply) : Decidable (Silent q r) := by
  unfold Silent
  split <;> infer_instance

instance (r : ToolRegistry) : Decidable (Risks A r) := by
  unfold Risks
  infer_instance

instance (m : Move Γ Op) : Decidable (Risky A m) := by
  unfold Risky
  split <;> infer_instance

instance (p : Pool Γ) (m : Move Γ Op) : Decidable (Gated A p m) :=
  inferInstanceAs (Decidable (Risky A m ∧ (A.silent → Answered Silent p m)))

/-- An agent that may use every tool, and needs an approval for one. -/
def wipingAgent : AgentDef := { plainAgent with allowedTools := ["*"], approvalTools := ["wipe"] }

/-- A registry with one tool. -/
def wiping (permission : Tools.Permission) : ToolRegistry :=
  { tools := Dict.empty.set "wipe" { name := "wipe", parameters := .obj [], permission := permission } }

/-- Any handler is answered so, and the model calls the tool. -/
def handlerSays (text : Except ToolError String) : Oracle Γ
  | .call (.handler _ _) => .ok text
  | .call (.route purpose req timeout) => reply [⟨"1", "wipe", ""⟩] (.call (.route purpose req timeout))
  | _ => .error .cancelled

/-- The model calls the tool, and a human approves. -/
def approvedWipe (permission : Tools.Permission) (text : Except ToolError String) : List (Move Γ Op) :=
  [.op (.registry (wiping permission)), .spawn (.execute none), .start 0,
    .resume 0 (handlerSays text), .spawn (.execute (some true)), .start 1,
    .resume 1 (handlerSays text)]

/-- The gate of the agent. -/
def wipeGate (risky : List String) (silent : Bool) : Gate := { name := "a", approvalTools := ["wipe"], risky := risky, silent := silent }

theorem opened_wipe (risky : List String) (silent : Bool) : (((harnessOf wipingAgent).program false).machine
    (Opens (harnessOf wipingAgent) (wipeGate risky silent))).start (opened wipingAgent) :=
  ⟨⟨(opened_start wipingAgent).1, rfl, fun _ _ => rfl⟩, rfl⟩

theorem agents_wipe (risky : List String) (silent : Bool) (agent : AgentDef)
    (h : (harnessOf wipingAgent).agents.get? (wipeGate risky silent).name = some agent) :
    agent.approvalTools = (wipeGate risky silent).approvalTools := by
  obtain rfl := Option.some.inj ((Dict.get?_set_self _ _ _).symm.trans h)
  rfl

theorem approved_only_wipe : ∃ p : Pool Γ, p.state.journal.countP (Entry.uses ⟨"1", "wipe", ""⟩) = 1 ∧
    Approvals (wipeGate ["wipe"] true) p.state := by
  have htest : (((harnessOf wipingAgent).program false).replay (Gated (wipeGate ["wipe"] true)) (opened wipingAgent)
      (approvedWipe .destructive (.ok "done"))).any (fun p => p.state.journal.countP (Entry.uses ⟨"1", "wipe", ""⟩) = 1) = true := by
    decide +kernel
  obtain ⟨p, hp, huses⟩ := Machine.exists_of_any htest
  exact ⟨p, of_decide_eq_true huses, approved_only (agents_wipe _ _)
    (Program.replay_reach (.start (opened_wipe _ _)) hp)⟩

theorem approval_twice : ∃ p : Pool Γ, (((harnessOf wipingAgent).program false).machine
      (Opens (harnessOf wipingAgent) (wipeGate [] false))).Reach (Gated (wipeGate [] false)) p ∧
    p.state.journal.countP (Entry.uses ⟨"1", "wipe", ""⟩) = 2 ∧ p.state.journal.countP (Entry.approves ⟨"1", "wipe", ""⟩) = 1 := by
  have htest : (((harnessOf wipingAgent).program false).replay (Gated (wipeGate [] false)) (opened wipingAgent)
      (approvedWipe .readOnly (.error (Tools.approvalRequired "wipe")) ++ [.resume 1 (handlerSays (.ok "done"))])).any (fun p =>
        p.state.journal.countP (Entry.uses ⟨"1", "wipe", ""⟩) = 2 ∧ p.state.journal.countP (Entry.approves ⟨"1", "wipe", ""⟩) = 1) = true := by
    decide +kernel
  obtain ⟨p, hp, hcounts⟩ := Machine.exists_of_any htest
  exact ⟨p, Program.replay_reach (.start (opened_wipe _ _)) hp, of_decide_eq_true hcounts⟩

end

end HarnessRunner

end Caips.Harness
