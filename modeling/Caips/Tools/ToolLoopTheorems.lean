/-
Caips.Tools.ToolLoopTheorems — which of its limits `run_tool_loop` keeps.

A run is cut into its rounds once (`Rounds`, `rounds_spec`); what is routed, at
which cost and how many calls run are then inductions on the rounds. The cost
limit and the form of the conversations hold on every run. The step limit is
looked at before a reply is acted on, not before each of its calls: it holds
exactly when no such reply asks for more than the limit leaves.
-/
import Caips.Providers.BaseTheorems
import Caips.Tools.ToolLoop

namespace Caips.Tools

open Caips.Logic Caips.Providers Caips.Guardrails

/-- A call that counts, by the tools whose handlers it invoked. -/
def LoopEvent.counted (counts : List Tool → Bool) : LoopEvent → Bool
  | .ran _ tools => counts tools
  | _ => false

/-- How many calls of a trace count. -/
def executed (counts : List Tool → Bool) (t : List LoopEvent) : ℕ := t.countP (·.counted counts)

/-- The conversations a trace routed, each with the cost before it. -/
def routed (t : List LoopEvent) : List (List Message × ℚ) :=
  t.filterMap fun e => match e with
    | .routed messages cost => some (messages, cost)
    | _ => none

@[simp] theorem executed_nil (counts : List Tool → Bool) : executed counts [] = 0 := rfl

@[simp] theorem executed_cons (counts : List Tool → Bool) (e : LoopEvent) (t : List LoopEvent) :
    executed counts (e :: t) = executed counts t + if e.counted counts then 1 else 0 :=
  List.countP_cons

@[simp] theorem executed_append (counts : List Tool → Bool) (t u : List LoopEvent) :
    executed counts (t ++ u) = executed counts t + executed counts u :=
  List.countP_append

@[simp] theorem routed_nil : routed [] = [] := rfl

@[simp] theorem routed_routed (messages : List Message) (cost : ℚ) (t : List LoopEvent) :
    routed (.routed messages cost :: t) = (messages, cost) :: routed t := rfl

@[simp] theorem routed_acted (calls : List Providers.ToolCall) (k : ℕ) (t : List LoopEvent) :
    routed (.acted calls k :: t) = routed t := rfl

@[simp] theorem routed_append (t u : List LoopEvent) : routed (t ++ u) = routed t ++ routed u :=
  List.filterMap_append

namespace ToolLoop

/-! ## What is asked of a run -/

/-- The limits of the loop on what it did: at most `max_steps` calls that count (none
where the limit is negative), no conversation after the first routed at a cost that has reached
the limit, and only conversations that `validate_conversation` accepts. -/
structure Respects (L : ToolLoop) (counts : List Tool → Bool) (t : List LoopEvent) : Prop where
  steps : (executed counts t : ℤ) ≤ max 0 L.maxSteps
  cost : ∀ r ∈ (routed t).tail, ∀ m ∈ L.maxCostUsd, r.2 < m
  valid : ∀ r ∈ routed t, validateConversation r.1 = .ok ()

/-- The calls of a reply that run, from a turn on: all up to the first after which
the loop does not go on. -/
def planned (L : ToolLoop) (P : Peers) : ℕ → List Providers.ToolCall → List LoopEvent
  | _, [] => []
  | k, call :: calls =>
    .ran call (L.runOne (P.turn k) call).ran ::
      if (L.runOne (P.turn k) call).goesOn then planned L P (k + 1) calls else []

/-- No reply acted on asks for more calls that count than the limit leaves, where `n` have counted
before. -/
def Fits (L : ToolLoop) (P : Peers) (counts : List Tool → Bool) (n : ℕ) (t : List LoopEvent) : Prop :=
  ∀ before calls k after, t = before ++ .acted calls k :: after →
    ((n + executed counts before + executed counts (L.planned P k calls) : ℕ) : ℤ) ≤ max 0 L.maxSteps

section Fits

variable {L : ToolLoop} {P : Peers} {counts : List Tool → Bool}

theorem fits_nil {n : ℕ} : L.Fits P counts n [] := by
  intro before calls k after h
  simp at h

theorem fits_cons {n : ℕ} {e : LoopEvent} {t : List LoopEvent} :
    L.Fits P counts n (e :: t) ↔
      (∀ calls k, e = .acted calls k →
        ((n + executed counts (L.planned P k calls) : ℕ) : ℤ) ≤ max 0 L.maxSteps) ∧
      L.Fits P counts (n + executed counts [e]) t := by
  constructor
  · intro h
    constructor
    · intro calls k he
      simpa using h [] calls k t (by rw [he]; rfl)
    · intro before calls k after ht
      have hle := h (e :: before) calls k after (by rw [ht]; rfl)
      simp only [executed_cons, executed_nil] at hle ⊢
      omega
  · rintro ⟨hhead, htail⟩ before calls k after ht
    cases before with
    | nil =>
      obtain ⟨rfl, rfl⟩ := List.cons.inj ht
      simpa using hhead calls k rfl
    | cons b before =>
      obtain ⟨rfl, hrest⟩ := List.cons.inj ht
      have hle := htail before calls k after hrest
      simp only [executed_cons, executed_nil] at hle ⊢
      omega

theorem fits_append {n : ℕ} {t u : List LoopEvent} :
    L.Fits P counts n (t ++ u) ↔ L.Fits P counts n t ∧ L.Fits P counts (n + executed counts t) u := by
  induction t generalizing n with
  | nil => simp [fits_nil]
  | cons e t ih =>
    rw [List.cons_append, fits_cons, fits_cons, ih, and_assoc]
    simp only [executed_cons, executed_nil]
    rw [show n + (0 + if e.counted counts then 1 else 0) + executed counts t =
      n + (executed counts t + if e.counted counts then 1 else 0) by omega]

/-- The calls of a reply hold no further reply. -/
theorem fits_planned {n k : ℕ} {calls : List Providers.ToolCall} :
    L.Fits P counts n (L.planned P k calls) := by
  induction calls generalizing n k with
  | nil => exact fits_nil
  | cons call calls ih =>
    unfold planned
    rw [fits_cons]
    constructor
    · intro _ _ h
      cases h
    · split
      · exact ih
      · exact fits_nil

/-- A whole round and what follows it. -/
theorem fits_round {n k : ℕ} {messages : List Message} {cost : ℚ} {calls : List Providers.ToolCall}
    {t : List LoopEvent} :
    L.Fits P counts n (.routed messages cost :: .acted calls k :: (L.planned P k calls ++ t)) ↔
      ((n + executed counts (L.planned P k calls) : ℕ) : ℤ) ≤ max 0 L.maxSteps ∧
        L.Fits P counts (n + executed counts (L.planned P k calls)) t := by
  rw [fits_cons, fits_cons, fits_append]
  constructor
  · rintro ⟨-, hacted, -, ht⟩
    exact ⟨hacted calls k rfl, ht⟩
  · rintro ⟨hacted, ht⟩
    refine ⟨nofun, ?_, fits_planned, ht⟩
    intro calls' k' h
    cases h
    exact hacted

end Fits

theorem executed_round {counts : List Tool → Bool} {messages : List Message} {cost : ℚ}
    {calls : List Providers.ToolCall} {k : ℕ} {t : List LoopEvent} :
    executed counts (.routed messages cost :: .acted calls k :: t) = executed counts t := by
  simp [LoopEvent.counted]

@[simp] theorem routed_planned (L : ToolLoop) (P : Peers) (k : ℕ) (calls : List Providers.ToolCall) :
    routed (L.planned P k calls) = [] := by
  induction calls generalizing k with
  | nil => rfl
  | cons call calls ih =>
    unfold planned
    split
    · exact ih (k + 1)
    · rfl

variable {L : ToolLoop}

theorem planned_length_le {P : Peers} (k : ℕ) (calls : List Providers.ToolCall) :
    (L.planned P k calls).length ≤ calls.length := by
  induction calls generalizing k with
  | nil => simp [planned]
  | cons call calls ih =>
    unfold planned
    split
    · simpa using ih (k + 1)
    · simp

/-! ## The rounds of a run -/

/-- The messages that answer some calls: at least one, each a `tool` message with the id of a call. -/
structure Answers (calls : List Providers.ToolCall) (answers : List Message) : Prop where
  nonempty : answers ≠ []
  tool : ∀ a ∈ answers, a.role = "tool" ∧ ∃ call ∈ calls, a.toolCallId = some call.id

/-- The trace of the rounds from a conversation, a cost and a turn on. A round routes, and may act on
the reply where fewer calls than the limit have run; after all its calls were answered, and below the
cost limit, a next round may follow. -/
inductive Rounds (L : ToolLoop) (P : Peers) : List Message → ℚ → ℕ → List LoopEvent → Prop
  | ended {messages : List Message} {cost : ℚ} {k : ℕ} : Rounds L P messages cost k []
  | last {messages : List Message} {cost : ℚ} {k : ℕ} :
      Rounds L P messages cost k [.routed messages cost]
  | stopped {messages : List Message} {cost : ℚ} {k : ℕ} {reply : ToolReply} {i : ℕ}
      {request : CompletionRequest} (replied : P.route i request = .ok reply)
      (left : (k : ℤ) < L.maxSteps) :
      Rounds L P messages cost k
        (.routed messages cost :: .acted reply.toolCalls k :: L.planned P k reply.toolCalls)
  | next {messages answers : List Message} {cost cost' : ℚ} {k : ℕ} {t : List LoopEvent}
      {reply : ToolReply} {i : ℕ} {request : CompletionRequest}
      (replied : P.route i request = .ok reply) (left : (k : ℤ) < L.maxSteps)
      (below : ∀ m ∈ L.maxCostUsd, cost' < m) (answered : Answers reply.toolCalls answers)
      (rest : Rounds L P (messages ++
        { role := "assistant", content := reply.content, toolCalls := some reply.toolCalls } :: answers)
        cost' (k + (L.planned P k reply.toolCalls).length) t) :
      Rounds L P messages cost k
        (.routed messages cost :: .acted reply.toolCalls k :: (L.planned P k reply.toolCalls ++ t))

/-- A step answers the call it was made for. -/
theorem runOne_callId {turn : RunTurn} {call : Providers.ToolCall} {step : ToolStep}
    (h : (L.runOne turn call).step = .ok step) : step.callId = call.id := by
  have hstepOf : ∀ args r, L.stepOf call args r = .ok step → step.callId = call.id := by
    intro args r hr
    unfold stepOf at hr
    split at hr <;> first | cases hr; rfl | cases hr
  unfold runOne at h
  split at h
  · cases h; rfl
  · cases h
  · next args _ =>
      split at h
      · dsimp only at h
        split at h
        · split at h
          · exact hstepOf args _ h
          · exact hstepOf args (.error (.approval _)) h
        · exact hstepOf args _ h
      · cases h; rfl

/-- What the calls of a reply do to the state. If the loop goes on, each was answered. -/
theorem runCalls_spec {P : Peers} (calls : List Providers.ToolCall) (s : State) :
    (L.runCalls P calls s).2.trace = s.trace ++ L.planned P s.calls calls ∧
      (L.runCalls P calls s).2.result.totalCostUsd = s.result.totalCostUsd ∧
      (L.runCalls P calls s).2.calls = s.calls + (L.planned P s.calls calls).length ∧
      (s.result.steps.length = s.calls → (L.runCalls P calls s).1 = none →
        (L.runCalls P calls s).2.result.steps.length = (L.runCalls P calls s).2.calls) ∧
      ((L.runCalls P calls s).1 = none → ∃ answers,
        (L.runCalls P calls s).2.messages = s.messages ++ answers ∧ answers.length = calls.length ∧
          ∀ a ∈ answers, a.role = "tool" ∧ ∃ call ∈ calls, a.toolCallId = some call.id) := by
  induction calls generalizing s with
  | nil =>
    exact ⟨by simp [runCalls, planned], rfl, rfl, fun h _ => h, fun _ => ⟨[], by simp [runCalls], rfl, by simp⟩⟩
  | cons call calls ih =>
    unfold runCalls planned
    dsimp only
    cases hstep : (L.runOne (P.turn s.calls) call).step with
    | error exc => exact ⟨by simp [State.ran, StepEnd.goesOn, hstep], rfl,
        by simp [State.ran, StepEnd.goesOn, hstep], by simp, by simp⟩
    | ok step =>
      dsimp only
      by_cases happroval : step.errorCode = some "approval_required"
      · rw [if_pos happroval]
        exact ⟨by simp [State.ran, StepEnd.goesOn, hstep, happroval], rfl,
          by simp [State.ran, StepEnd.goesOn, hstep, happroval], by simp, by simp⟩
      · rw [if_neg happroval]
        obtain ⟨htrace, hcost, hcalls, hsteps, hnone⟩ := ih
          { s.ran call (L.runOne (P.turn s.calls) call).ran with
            result.steps := s.result.steps ++ [step]
            messages := s.messages ++
              [{ role := "tool", content := step.output, toolCallId := some step.callId }] }
        have hgoes : (L.runOne (P.turn s.calls) call).goesOn = true := by
          simp [StepEnd.goesOn, hstep, happroval]
        rw [hgoes, if_pos rfl]
        refine ⟨?_, hcost, ?_, ?_, ?_⟩
        · exact htrace.trans (by simp [State.ran])
        · exact hcalls.trans (by simp [State.ran]; omega)
        · intro hsame
          exact hsteps (by simp [State.ran, hsame])
        · intro hgone
          obtain ⟨answers, hmessages, hlength, hall⟩ := hnone hgone
          refine ⟨{ role := "tool", content := step.output, toolCallId := some step.callId } :: answers,
            hmessages.trans (by simp), by simp [hlength], ?_⟩
          intro a ha
          rcases List.mem_cons.mp ha with rfl | ha
          · exact ⟨rfl, call, List.mem_cons_self, congrArg some (runOne_callId hstep)⟩
          · obtain ⟨hrole, c, hc, hid⟩ := hall a ha
            exact ⟨hrole, c, List.mem_cons_of_mem _ hc, hid⟩

/-- The rounds of the loop are rounds. -/
theorem rounds_spec {P : Peers} {request : CompletionRequest} (n : ℕ) (s : State)
    (hs : s.result.steps.length = s.calls) :
    ∃ t, (L.rounds P request n s).trace = s.trace ++ t ∧
      Rounds L P s.messages s.result.totalCostUsd s.calls t := by
  induction n generalizing s with
  | zero => exact ⟨[], by simp [rounds], .ended⟩
  | succ n ih =>
    unfold rounds
    dsimp only
    cases hreply : P.route s.routes { request with messages := s.messages } with
    | error exc => exact ⟨_, rfl, .last⟩
    | ok reply =>
      dsimp only
      generalize hreceived : s.routed.received reply = s'
      have htrace : s'.trace = s.trace ++ [.routed s.messages s.result.totalCostUsd] := by
        rw [← hreceived]; rfl
      have hcalls : s'.calls = s.calls := by rw [← hreceived]; rfl
      have hsame : s'.result.steps.length = s.calls := by rw [← hreceived]; exact hs
      have hmessages : s'.messages = s.messages := by rw [← hreceived]; rfl
      by_cases hanswered : reply.toolCalls = []
      · rw [if_pos hanswered]
        exact ⟨_, htrace, .last⟩
      rw [if_neg hanswered]
      by_cases hsteps : L.maxSteps ≤ (s'.result.steps.length : ℤ)
      · rw [if_pos hsteps]
        exact ⟨_, htrace, .last⟩
      rw [if_neg hsteps]
      by_cases hcost : (L.maxCostUsd.any fun m => decide (m ≤ s'.result.totalCostUsd)) = true
      · rw [if_pos hcost]
        exact ⟨_, htrace, .last⟩
      rw [if_neg hcost]
      have hleft : (s.calls : ℤ) < L.maxSteps := by rw [← hsame]; exact not_le.mp hsteps
      obtain ⟨htraceRun, hcostRun, hcallsRun, hstepsRun, hnone⟩ :=
        runCalls_spec (L := L) (P := P) reply.toolCalls (s'.acting reply)
      have htraceActed : (L.runCalls P reply.toolCalls (s'.acting reply)).2.trace = s.trace ++
          (.routed s.messages s.result.totalCostUsd :: .acted reply.toolCalls s.calls ::
            L.planned P s.calls reply.toolCalls) := by
        rw [htraceRun]
        simp [State.acting, htrace, hcalls]
      cases hrun : L.runCalls P reply.toolCalls (s'.acting reply) with
      | mk stop s'' =>
        rw [hrun] at htraceActed hcostRun hcallsRun hstepsRun hnone
        cases stop with
        | some result => exact ⟨_, htraceActed, .stopped hreply hleft⟩
        | none =>
          obtain ⟨answers, hmessagesRun, hlength, hall⟩ := hnone rfl
          obtain ⟨t, ht, hrounds⟩ := ih s'' (hstepsRun (hsame.trans hcalls.symm) rfl)
          refine ⟨_, ht.trans (by rw [htraceActed, List.append_assoc]), ?_⟩
          have hcallsActed : s''.calls = s.calls + (L.planned P s.calls reply.toolCalls).length := by
            rw [hcallsRun, ← hcalls]; rfl
          rw [hmessagesRun, hcallsActed, State.acting, List.append_assoc, hmessages] at hrounds
          refine .next hreply hleft ?_ ⟨?_, hall⟩ hrounds
          · intro m hm
            rw [Option.mem_def.mp hm] at hcost
            rw [hcostRun]
            simpa [State.acting] using hcost
          · intro hempty
            rw [hempty] at hlength
            exact hanswered (List.eq_nil_of_length_eq_zero hlength.symm)

/-! ## What holds of all rounds -/

/-- A conversation that is continued by a reply and the answers to its calls stays one that
`validate_conversation` accepts. -/
theorem valid_answered {messages answers : List Message} {reply : ToolReply} (hvalid : Valid messages)
    (hids : ∀ call ∈ reply.toolCalls, call.id ≠ "") (ha : Answers reply.toolCalls answers) :
    Valid (messages ++
      { role := "assistant", content := reply.content, toolCalls := some reply.toolCalls } :: answers) := by
  have hturns : turnsOf answers = answers := by
    rw [turnsOf, List.filter_eq_self]
    intro a h
    simp [(ha.tool a h).1]
  have hsplit : turnsOf (messages ++
      { role := "assistant", content := reply.content, toolCalls := some reply.toolCalls } :: answers) =
      turnsOf messages ++
        ({ role := "assistant", content := reply.content, toolCalls := some reply.toolCalls } :: answers) := by
    conv_rhs => rw [← hturns]
    simp [turnsOf]
  constructor
  · intro m hm
    rcases List.mem_append.mp hm with h | h
    · exact hvalid.roles m h
    · rcases List.mem_cons.mp h with rfl | h
      · simp [validRoles]
      · simp [(ha.tool m h).1, validRoles]
  · obtain ⟨m, hm, huser⟩ := hvalid.first
    exact ⟨m, by rw [hsplit, List.head?_append, hm]; rfl, huser⟩
  · refine ⟨answers.getLast ha.nonempty, ?_, .inr (ha.tool _ (List.getLast_mem ha.nonempty)).1⟩
    rw [hsplit, List.getLast?_append_of_ne_nil _ (by simp), List.getLast?_eq_some_getLast (by simp),
      List.getLast_cons ha.nonempty]
  · intro m hm htool
    rcases List.mem_append.mp hm with h | h
    · exact hvalid.ids m h htool
    · rcases List.mem_cons.mp h with rfl | h
      · simp at htool
      · obtain ⟨call, hcall, hid⟩ := (ha.tool m h).2
        rw [hid]
        exact hids call hcall

section Rounds

variable {L : ToolLoop} {P : Peers} {messages : List Message} {cost : ℚ} {k : ℕ} {t : List LoopEvent}

theorem Rounds.valid (hids : ∀ i r reply, P.route i r = .ok reply → ∀ call ∈ reply.toolCalls, call.id ≠ "")
    (h : Rounds L P messages cost k t) (hvalid : Valid messages) : ∀ r ∈ routed t, Valid r.1 := by
  induction h with
  | ended => simp
  | last => simpa using hvalid
  | stopped replied left => simpa using hvalid
  | next replied left below answered rest ih =>
    intro r hr
    simp only [routed_routed, routed_acted, routed_append, routed_planned, List.nil_append,
      List.mem_cons] at hr
    rcases hr with rfl | hr
    · exact hvalid
    · exact ih (valid_answered hvalid (hids _ _ _ replied) answered) r hr

theorem Rounds.below_limit (h : Rounds L P messages cost k t) (hcost : ∀ m ∈ L.maxCostUsd, cost < m) :
    ∀ r ∈ routed t, ∀ m ∈ L.maxCostUsd, r.2 < m := by
  induction h with
  | ended => simp
  | last => simpa using hcost
  | stopped replied left => simpa using hcost
  | next replied left below answered rest ih =>
    intro r hr
    simp only [routed_routed, routed_acted, routed_append, routed_planned, List.nil_append,
      List.mem_cons] at hr
    rcases hr with rfl | hr
    · exact hcost
    · exact ih below r hr

theorem Rounds.tail_below_limit (h : Rounds L P messages cost k t) :
    ∀ r ∈ (routed t).tail, ∀ m ∈ L.maxCostUsd, r.2 < m := by
  cases h with
  | ended => simp
  | last => simp
  | stopped replied left => simp
  | next replied left below answered rest => simpa using rest.below_limit below

/-- The calls that count stay below the limit exactly if every reply fits. -/
theorem Rounds.executed_le_iff (counts : List Tool → Bool) {n : ℕ} (h : Rounds L P messages cost k t)
    (hn : (n : ℤ) ≤ max 0 L.maxSteps) :
    ((n + executed counts t : ℕ) : ℤ) ≤ max 0 L.maxSteps ↔ L.Fits P counts n t := by
  induction h generalizing n with
  | ended => simpa [fits_nil] using hn
  | last => simpa [fits_cons, fits_nil, LoopEvent.counted] using hn
  | @stopped _ _ k reply _ _ replied left =>
    rw [← List.append_nil (L.planned P k reply.toolCalls), fits_round, executed_round, executed_append]
    simp [fits_nil]
  | @next _ _ _ _ k t reply _ _ replied left below answered rest ih =>
    rw [fits_round, executed_round, executed_append, ← add_assoc]
    constructor
    · intro hle
      have hfirst : ((n + executed counts (L.planned P k reply.toolCalls) : ℕ) : ℤ) ≤ max 0 L.maxSteps := by
        omega
      exact ⟨hfirst, (ih hfirst).mp hle⟩
    · rintro ⟨hfirst, hfits⟩
      exact (ih hfirst).mpr hfits

/-- The check before a reply is acted on holds back the next reply: one that asks for a single call at
most always fits. -/
theorem Rounds.fits_of_single (counts : List Tool → Bool) {n : ℕ}
    (hsingle : ∀ i r reply, P.route i r = .ok reply → reply.toolCalls.length ≤ 1)
    (h : Rounds L P messages cost k t) (hn : n ≤ k) : L.Fits P counts n t := by
  have hone : ∀ {i r reply} (k : ℕ), P.route i r = .ok reply →
      executed counts (L.planned P k reply.toolCalls) ≤ (L.planned P k reply.toolCalls).length ∧
        (L.planned P k reply.toolCalls).length ≤ 1 := by
    intro i r reply k hreply
    exact ⟨List.countP_le_length, (planned_length_le k _).trans (hsingle i r reply hreply)⟩
  induction h generalizing n with
  | ended => exact fits_nil
  | last => simp [fits_cons, fits_nil]
  | @stopped _ _ k reply _ _ replied left =>
    have hle := hone k replied
    rw [← List.append_nil (L.planned P k reply.toolCalls), fits_round]
    exact ⟨by omega, fits_nil⟩
  | @next _ _ _ _ k t reply _ _ replied left below answered rest ih =>
    have hle := hone k replied
    rw [fits_round]
    exact ⟨by omega, ih (by omega)⟩

end Rounds

/-! ## Every run -/

theorem rounds_run (L : ToolLoop) (P : Peers) (request : CompletionRequest) :
    Rounds L P request.messages 0 0 (L.run P request).trace := by
  unfold run
  obtain ⟨t, htrace, hrounds⟩ := rounds_spec (L := L) (P := P) (L.maxSteps + 1).toNat
    { messages := request.messages, result := { toolsSkipped := (L.offered P request).2 } } rfl
  rw [htrace]
  exact hrounds

/-- A run of the loop keeps its limits, however calls are counted, exactly if every reply acted on asks
for no more calls than the limit leaves. -/
theorem respects_iff_fits (L : ToolLoop) (P : Peers) (request : CompletionRequest)
    (counts : List Tool → Bool) (hvalid : validateConversation request.messages = .ok ())
    (hids : ∀ i r reply, P.route i r = .ok reply → ∀ call ∈ reply.toolCalls, call.id ≠ "") :
    L.Respects counts (L.run P request).trace ↔ L.Fits P counts 0 (L.run P request).trace := by
  have hrounds := L.rounds_run P request
  have hsteps := hrounds.executed_le_iff counts (n := 0) (le_max_left 0 L.maxSteps)
  rw [Nat.zero_add] at hsteps
  constructor
  · intro h
    exact hsteps.mp h.steps
  · intro h
    refine ⟨hsteps.mpr h, hrounds.tail_below_limit, ?_⟩
    intro r hr
    exact validateConversation_ok_iff.mpr
      (hrounds.valid hids (validateConversation_ok_iff.mp hvalid) r hr)

theorem executed_le_of_single (L : ToolLoop) (P : Peers) (request : CompletionRequest)
    (counts : List Tool → Bool)
    (hsingle : ∀ i r reply, P.route i r = .ok reply → reply.toolCalls.length ≤ 1) :
    (executed counts (L.run P request).trace : ℤ) ≤ max 0 L.maxSteps := by
  have hrounds := L.rounds_run P request
  have hle := (hrounds.executed_le_iff counts (n := 0) (le_max_left 0 L.maxSteps)).mpr
    (hrounds.fits_of_single counts hsingle (Nat.le_refl 0))
  simpa using hle

/-! ## Two calls for one step -/

def oneStep : ToolLoop where
  validate := fun _ _ => none
  loads := fun _ => .ok (.obj [])
  engine := { wordChar := Char.isAlphanum, scan := fun _ => [] }
  spec := fun t => t.name
  allowed := some ["*"]
  maxSteps := 1

def oneTool : ToolRegistry where
  tools := Dict.ofList [("calculator", { name := "calculator", parameters := .obj [] })]

/-- A model that asks for the given calls first and answers in text then. -/
def asksFor (calls : List Providers.ToolCall) : Peers where
  registry := oneTool
  route := fun i _ =>
    .ok
      { content := "done", model := "m", provider := "p", inputTokens := 1, outputTokens := 1
        costUsd := 0, latencyMs := 0, toolCalls := if i = 0 then calls else [] }
  turn := fun _ =>
    { first := { registry := oneTool, now := 0, handler := fun _ _ => .returned "2", durationMs := 0 }
      approves := false
      second := { registry := oneTool, now := 0, handler := fun _ _ => .returned "2", durationMs := 0 } }

def twoCalls : List Providers.ToolCall :=
  [{ id := "c1", name := "calculator", arguments := "{}" },
    { id := "c2", name := "calculator", arguments := "{}" }]

/-- One step is allowed and two calls of one reply run, each with its handler. -/
theorem oneStep_exceeded :
    let t := (oneStep.run (asksFor twoCalls) { messages := [{ role := "user", content := "1+1?" }] }).trace
    executed (fun tools => decide (tools.length = 1)) t = 2 ∧
      ¬ oneStep.Respects (fun tools => decide (tools.length = 1)) t ∧
      ¬ oneStep.Respects (fun _ => true) t := by
  intro t
  have hhandlers : executed (fun tools => decide (tools.length = 1)) t = 2 := by decide +kernel
  have hcalls : executed (fun _ => true) t = 2 := by decide +kernel
  refine ⟨hhandlers, ?_, ?_⟩
  · intro h
    have hsteps := h.steps
    rw [hhandlers] at hsteps
    revert hsteps
    decide
  · intro h
    have hsteps := h.steps
    rw [hcalls] at hsteps
    revert hsteps
    decide

theorem respects_iff_fits_single :
    let request : CompletionRequest := { messages := [{ role := "user", content := "1+1?" }] }
    validateConversation request.messages = .ok () ∧
      (oneStep.Respects (fun _ => true) (oneStep.run (asksFor (twoCalls.take 1)) request).trace ↔
        oneStep.Fits (asksFor (twoCalls.take 1)) (fun _ => true) 0
          (oneStep.run (asksFor (twoCalls.take 1)) request).trace) := by
  intro request
  have hvalid : validateConversation request.messages = .ok () := by decide +kernel
  refine ⟨hvalid, oneStep.respects_iff_fits _ request _ hvalid ?_⟩
  intro i r reply hreply call hcall
  obtain rfl := Except.ok.inj hreply
  dsimp only at hcall
  split at hcall
  · simp only [twoCalls, List.take_succ_cons, List.take_zero, List.mem_singleton] at hcall
    simp [hcall]
  · cases hcall

end ToolLoop

end Caips.Tools
