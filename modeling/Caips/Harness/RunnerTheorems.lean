/-
Caips.Harness.RunnerTheorems — the books of a run: costs, limits, endings.

Three laws of a run, over all its executions and everything that is asked of it
meanwhile, as long as no execution is started while another is under way. The
books of a run leave out the summaries of its context (`accounted`). The limits
hold but for those that are the number 0, which the code takes for no limit
(`limited`). And an ending by a failed model call is not announced
(`announced`).
-/
import Caips.Harness.RunnerSpecs
import Mathlib.Algebra.Order.BigOperators.Group.List
import Mathlib.Data.Multiset.OrderedMonoid

namespace Caips.Harness.HarnessRunner

open Caips.Logic Caips.Providers

variable {R : HarnessRunner} {T : Terms}

/-! ## The outside world -/

theorem Keeps.trans {s t u : HarnessState} (h : Keeps T s t) (h' : Keeps T t u) : Keeps T s u where
  fixed hs := h'.fixed (h.fixed hs)
  frames := h'.frames.trans h.frames
  live := h'.live.trans h.live
  known := h'.known.trans h.known
  idle hs := h'.idle (h.idle hs)
  settled l hs := h'.settled l (h.settled l hs)

theorem keeps_request (s : HarnessState) (c : Control) : Keeps T s (s.request c) := by
  unfold HarnessState.request
  split
  · have hwrite : Keeps T s (s.write fun r => { r with control := some c }) := by
      have hjournal : (s.write fun r => { r with control := some c }).journal = s.journal := if_pos rfl
      refine ⟨fun h => ⟨h.name, h.owner, h.deadline⟩, rfl, rfl, by rw [hjournal], fun h => ?_, fun l h => ⟨?_, h.running⟩⟩
      · rw [hjournal]
        exact h
      · rw [hjournal]
        exact h.booked
    exact hwrite.trans (keeps_note rfl)
  · exact keeps_of_eq rfl rfl rfl rfl

variable {s : HarnessState} {agent : AgentDef}

/-- A run that nothing executes is ended. -/
theorem keeps_finish (hidle : s.run.status.idle) {status : RunStatus} (hfinal : status.active = false)
    (reason : StopReason) : Keeps T s (s.finish status reason) := by
  have hne : status ≠ s.run.status := by
    rintro rfl
    cases hstatus : s.run.status <;> simp [hstatus, RunStatus.idle, RunStatus.active] at hidle hfinal
  have hjournal : (s.finish status reason).journal =
      .finished s.run.agent s.run.owner status reason (round6 s.run.costUsd) :: .trace (.runFinished reason none none) ::
        .became status :: s.journal := by
    have hwrite : (s.write fun r => { r with status := status, stopReason := some reason, control := none }).journal =
        .became status :: s.journal := if_neg hne
    show _ :: _ :: (s.write fun r => { r with status := status, stopReason := some reason, control := none }).journal = _
    rw [hwrite]
    rfl
  refine ⟨fun h => ⟨h.name, h.owner, h.deadline⟩, rfl, rfl, by rw [hjournal]; rfl, fun h => ?_, fun l h => ?_⟩
  · rw [hjournal]
    exact ((h.became hfinal).traced _ _ _).complete _ _ _ _
  · rw [h.running] at hidle
    exact nomatch hidle

/-- What the outside world does is no business of an execution. -/
theorem keeps_op (o : Op) (s : HarnessState) : Keeps T s (op o s) := by
  cases o with
  | pause => exact keeps_request s .pause
  | cancel =>
    show Keeps T s s.cancel
    unfold HarnessState.cancel
    split
    · rename_i hidle
      have hnote : Keeps T s (s.note (.requested .cancel)) := keeps_note rfl
      exact hnote.trans (keeps_finish (s := s.note (.requested .cancel)) hidle rfl _)
    · exact keeps_request s .cancel
  | kill owner =>
    show Keeps T s (s.kill owner)
    unfold HarnessState.kill
    split
    · dsimp only
      split
      · rename_i hidle
        exact (keeps_request s .kill).trans (keeps_finish hidle rfl _)
      · exact keeps_request s .kill
    · exact keeps_of_eq rfl rfl rfl rfl
  | clock now => exact keeps_of_eq rfl rfl rfl rfl
  | registry r => exact keeps_of_eq rfl rfl rfl rfl
  | memory found => exact keeps_of_eq rfl rfl rfl rfl

/-! ## Every run -/

/-- No execution is started while another is under way. -/
def Alone (p : Pool Γ) : Move Γ Op → Prop
  | .spawn _ => p.state.live = 0
  | _ => True

/-- The answers of a move are ones that `φ` allows. -/
def Answered (φ : (q : Ask Γ) → Except Exc q.Reply → Prop) (p : Pool Γ) : Move Γ Op → Prop
  | .resume i a => p.AtResume i a fun _ q r => φ q r
  | .crash i a _ => p.AtResume i a fun _ q r => φ q r
  | _ => True

theorem answered_any (p : Pool Γ) (m : Move Γ Op) : Answered (fun _ _ => True) p m := by
  have hany (i : ℕ) (a : Oracle Γ) : p.AtResume i a fun _ _ _ => True := .intro fun _ _ _ => trivial
  cases m with
  | resume i a => exact hany i a
  | crash i a n => exact hany i a
  | _ => trivial

/-- What the answers of a run need to be for its terms: `φ` of all of them is enough. -/
def Meets (T : Terms) (φ : (q : Ask Γ) → Except Exc q.Reply → Prop) : Prop :=
  ∀ q s r, answers q s r → φ (.call q) r → Allowed T (.call q) r

/-- The contract is kept. -/
theorem sound (hkeep : T.calm → 0 ≤ T.agent.keepRecent) (hagent : R.agents.get? T.name = some agent)
    (heffective : T.agent = agent.effective) {φ : (q : Ask Γ) → Except Exc q.Reply → Prop} (hφ : Meets T φ) :
    (contract R false T).Sound (fun s => Inv T s 0) fun p m => Alone p m ∧ Answered φ p m where
  start _ h := h
  body i e _ := (@holds_body R false T (i, e) agent hkeep hagent heffective e).weaken_pre fun _ _ _ _ _ hp => hp.1
  enter p c s hgood hguard hs := by
    obtain rfl := Option.some.inj hs
    refine ⟨trivial, fun _ => rfl, fun held hinv => ?_⟩
    have hzero : p.state.live = 0 := hguard.1
    obtain ⟨rfl, -, hidle⟩ | ⟨_, -, hlive, -⟩ := hinv.phase
    · exact ⟨⟨hinv.fixed.name, hinv.fixed.owner, hinv.fixed.deadline⟩,
        .inr ⟨.ready, Multiset.add_zero _, congrArg (· + 1) hzero, ⟨hidle.frames, hidle.booked⟩⟩⟩
    · exact absurd (hzero.symm.trans hlive) (by decide)
  op p o s hgood _ hs := by
    obtain rfl := Option.some.inj hs
    have hkeeps : Keeps T p.state (op o p.state) := keeps_op o p.state
    exact ⟨hkeeps.own, fun held hinv => hkeeps.inv hinv⟩
  reboot _ _ _ _ hs := nomatch hs
  begins _ _ _ _ _ _ _ := trivial
  rely p i a t q k _ ht hq hanswers hguard := by
    have hanswer : φ q (a q) := by
      have hat : p.AtResume i a fun _ q r => φ q r := by
        obtain hguard | ⟨n, hguard⟩ := hguard
        · exact hguard.2
        · exact hguard.2
      exact hat.of ht hq
    cases q with
    | call q => exact hφ q p.state (a (.call q)) hanswers hanswer
    | wait m hs => trivial
    | join h => trivial

theorem sum_ne_moving {held : List (Multiset Phase)} (h : ∀ x ∈ held, x ≠ {.moving}) : held.sum ≠ {.moving} := by
  intro hsum
  have hzero : ∀ x ∈ held, x = 0 := by
    intro x hx
    have hle : x ≤ {Phase.moving} := hsum ▸ List.le_sum_of_mem hx
    exact (Multiset.le_singleton.mp hle).resolve_right (h x hx)
  exact Multiset.singleton_ne_zero _ (hsum.symm.trans (List.sum_eq_zero hzero))

/-- The books between two moves: those of the execution that is under way, or of the row. -/
structure Books (T : Terms) (s : HarnessState) : Prop where
  fixed : Fixed T s
  stored : (∀ i, s.frames i = none) → Booked T [] s.journal s.run.locals
  live : ∀ i l, s.frames i = some l → Booked T [] s.journal l

theorem Books.booked (h : Books T s) : ∃ l, Booked T [] s.journal l := by
  by_cases hnone : ∀ i, s.frames i = none
  · exact ⟨_, h.stored hnone⟩
  · push Not at hnone
    obtain ⟨i, hi⟩ := hnone
    obtain ⟨l, hl⟩ := Option.ne_none_iff_exists'.mp hi
    exact ⟨l, h.live i l hl⟩

/-- A good pool has its books in order. -/
theorem books_of_good {p : Pool Γ} (hp : (contract R false T).Good p) : Books T p.state := by
  obtain ⟨held, hinv, hheld⟩ := hp.held
  -- no task keeps the token of one that is between two actions
  have hmoving : ∀ x ∈ held, x ≠ ({.moving} : Multiset Phase) := by
    intro x hx
    obtain ⟨_, hx⟩ | hrests | ⟨_, _, _, _, hx⟩ := hheld x hx
    · rw [hx]
      exact fun h => nomatch Multiset.singleton_inj.mp h
    · exact hrests
    · rw [hx]
      exact (Multiset.singleton_ne_zero _).symm
  have hidle : Idle T p.state → Books T p.state := fun h =>
    ⟨hinv.fixed, fun _ => h.booked, fun i l hl => nomatch (h.frames i).symm.trans hl⟩
  obtain ⟨-, -, h⟩ | ⟨phase, hsum, -, hholding⟩ := hinv.phase
  · exact hidle h
  · cases phase with
    | ready => exact hidle hholding
    | settled =>
      obtain ⟨i, l, honly, hsettled⟩ := hholding
      refine ⟨hinv.fixed, fun hnone => (nomatch (hnone i).symm.trans honly.1), fun j x hx => ?_⟩
      by_cases hj : j = i
      · subst hj
        obtain rfl := Option.some.inj (honly.1.symm.trans hx)
        exact hsettled.booked
      · exact nomatch (honly.2 j hj).symm.trans hx
    | moving => exact absurd hsum (sum_ne_moving hmoving)

/-! ## From a new run on -/

section Runs

variable {φ : (q : Ask Γ) → Except Exc q.Reply → Prop} {p₀ p : Pool Γ} {l : List (Machine.Step (Pool Γ) (Move Γ Op))}
  {agent : AgentDef}

/-- The terms of a run that starts here. -/
def termsOf (s : HarnessState) (agent : AgentDef) (unsummarized calm : Prop) : Terms :=
  ⟨s.run.agent, agent.effective, s.run.owner, s.run.deadline, unsummarized, calm⟩

theorem inv_created {s : HarnessState} (hs : R.Created s) (agent : AgentDef) (unsummarized calm : Prop) :
    Inv (termsOf s agent unsummarized calm) s 0 := by
  obtain ⟨⟨name, a, task, owner, -, hrun⟩, hjournal, hlive, hframes⟩ := hs
  refine ⟨⟨rfl, rfl, rfl⟩, .inl ⟨rfl, hlive, hframes, ?_⟩⟩
  rw [hjournal]
  have hlocals : s.run.locals = ⟨[{ role := "user", content := task }], 0, 0, 0, 0⟩ := by rw [hrun]; rfl
  rw [hlocals]
  exact ⟨⟨rfl, rfl, rfl⟩, rfl, le_max_right _ _, List.cons_ne_nil _ _, ⟨trivial, trivial⟩, fun _ => ⟨[], rfl⟩⟩

/-- The books of a run, at its end. -/
theorem books_of_run {unsummarized calm : Prop} (hrun : (R.machine false).Run p₀ l p) (hstart : (R.machine false).start p₀)
    (hagent : R.agents.get? p₀.state.run.agent = some agent) (hkeep : calm → 0 ≤ agent.keepRecent)
    (hmeets : Meets (termsOf p₀.state agent unsummarized calm) φ)
    (hguard : ∀ e ∈ l, Alone e.source e.label ∧ Answered φ e.source e.label) :
    Books (termsOf p₀.state agent unsummarized calm) p.state := by
  have hkeep' : calm → 0 ≤ agent.effective.keepRecent := fun h => by
    have heq : agent.effective.keepRecent = agent.keepRecent := by
      unfold AgentDef.effective
      split <;> rfl
    exact heq ▸ hkeep h
  have hsound := sound (T := termsOf p₀.state agent unsummarized calm) hkeep' hagent rfl hmeets
  have hsame : ∀ p m q, (R.machine false).step p m q →
      ((R.program false).machine fun s => Inv (termsOf p₀.state agent unsummarized calm) s 0).step p m q := fun _ _ _ h => h
  exact books_of_good (hsound.good ((hrun.mono hsame).reach ⟨inv_created hstart.1 agent unsummarized calm, hstart.2⟩ hguard))

end Runs

/-! ## A harness to try them on -/

instance : (q : Query) → (s : HarnessState) → (r : Except Exc q.Reply) → Decidable (answers q s r)
  | .route _ _ _, _, _ | .handler _ _, _, .ok _ => inferInstanceAs (Decidable True)
  | .handler _ _, _, .error e => inferInstanceAs (Decidable (e = .cancelled))

instance (p : Pool Γ) : (m : Move Γ Op) → Decidable (Alone p m)
  | .spawn _ => inferInstanceAs (Decidable (p.state.live = 0))
  | .start _ | .resume _ _ | .op _ | .crash _ _ _ => inferInstanceAs (Decidable True)

instance {φ : (q : Ask Γ) → Except Exc q.Reply → Prop} [∀ q r, Decidable (φ q r)] (p : Pool Γ) :
    (m : Move Γ Op) → Decidable (Answered φ p m)
  | .resume i a => inferInstanceAs (Decidable (p.AtResume i a fun _ q r => φ q r))
  | .crash i a _ => inferInstanceAs (Decidable (p.AtResume i a fun _ q r => φ q r))
  | .spawn _ | .start _ | .op _ => inferInstanceAs (Decidable True)

/-- A harness with one agent. -/
def harnessOf (agent : AgentDef) : HarnessRunner where
  rid := "r"
  agents := Dict.empty.set "a" agent
  loads _ := .ok (.obj [])
  validate _ _ := none
  spec := id
  wrapUntrusted text _ := text

instance (agent : AgentDef) (q : Γ.Query) (s : Γ.State) (r : Except Γ.Exc (Γ.Reply q)) :
    Decidable (((harnessOf agent).program false).answers q s r) := inferInstanceAs (Decidable (answers q s r))

/-- A new run of it. -/
def opened (agent : AgentDef) : Pool Γ :=
  ⟨{ run := newRun "a" agent "task" "alice" 0, journal := [.trace (.runStarted "a" "alice")], now := 0 }, []⟩

theorem opened_start (agent : AgentDef) : ((harnessOf agent).machine false).start (opened agent) :=
  ⟨⟨⟨"a", agent, "task", "alice", Dict.get?_set_self _ _ _, rfl⟩, rfl, rfl, fun _ => rfl⟩, rfl⟩

theorem exists_run {G : Pool Γ → Move Γ Op → Prop} [∀ p m, Decidable (G p m)] {ms : List (Move Γ Op)} {p : Pool Γ}
    (h : ((harnessOf agent).program false).replay G (opened agent) ms = some p) :
    ∃ l, ((harnessOf agent).machine false).Run (opened agent) l p ∧ ∀ e ∈ l, G e.source e.label := Program.exists_run_of_replay h

def plainAgent : AgentDef := { name := "a", systemPrompt := "" }

/-- A model call costs 1, and is answered with these tool calls. -/
def reply (toolCalls : List ToolCall) : Oracle Γ
  | .call (.route _ _ _) =>
    .ok { content := "done", model := "m", provider := "p", inputTokens := 1, outputTokens := 1, costUsd := 1, latencyMs := 0,
          toolCalls := toolCalls }
  | _ => .error .cancelled

/-- An execution whose first model call gives the answer. -/
def oneStep : List (Move Γ Op) := [.spawn (.execute none), .start 0, .resume 0 (reply [])]

/-! ## Costs -/

def Unsummarized : (q : Ask Γ) → Except Exc q.Reply → Prop
  | .call (.route .summary _ _), .ok _ => False
  | _, _ => True

instance : (q : Ask Γ) → (r : Except Exc q.Reply) → Decidable (Unsummarized q r)
  | .call (.route .summary _ _), .ok _ => inferInstanceAs (Decidable False)
  | .call (.route .summary _ _), .error _ | .call (.route .plan _ _), _ | .call (.route .step _ _), _
  | .call (.handler _ _), _ | .wait _ _, _ | .join _, _ => inferInstanceAs (Decidable True)

theorem meets_unsummarized : Meets (termsOf s agent True False) Unsummarized := by
  intro q u r hanswers hr
  cases q with
  | route purpose req timeout =>
    cases purpose <;> cases r with
    | ok resp => first | exact trivial | exact hr.elim
    | error e => cases e <;> first | exact trivial | exact not_false
  | handler call args =>
    cases r with
    | ok answer => trivial
    | error e => exact hanswers

/-- The books of a run are complete: a checkpoint, and the row while nothing executes
the run, hold the sums over all answered model calls, and each call was checked against
the owner's account and charged to it. -/
structure Accounted (s : HarnessState) : Prop where
  saved : ∀ l₁ x l₂, s.journal = l₁ ++ .saved x :: l₂ → Sums (calls l₂) x
  stored : (∀ i, s.frames i = none) → Sums (calls s.journal) s.run.locals
  charged : ∀ l₁ c l₂, s.journal = l₁ ++ .called c :: l₂ →
    lastAsked l₂ = some (c.purpose, s.run.owner) ∧ c.account = s.run.owner

/-- **The books of a run.** Where no summary of the context is answered, the costs of a run
are complete, and charged to its owner. -/
theorem accounted {p : Pool Γ} (h : (R.machine false).Reach (fun p m => Alone p m ∧ Answered Unsummarized p m) p) :
    Accounted p.state := by
  obtain ⟨p₀, l, hstart, hrun, hguard⟩ := h.exists_run
  obtain ⟨name, agent, task, owner, hagent, hnew⟩ := hstart.1.1
  have hname : R.agents.get? p₀.state.run.agent = some agent := by
    rw [hnew]
    exact hagent
  have hbooks := books_of_run hrun hstart hname (fun h : False => h.elim) meets_unsummarized hguard
  obtain ⟨x, hbooked⟩ := hbooks.booked
  refine ⟨fun l₁ x l₂ hJ => ?_, fun hnone => ?_, fun l₁ c l₂ hJ => ?_⟩
  · have hfine := hbooked.fine
    rw [hJ] at hfine
    have hsums := (Each.of_append hfine).1.1
    rwa [counted_eq_calls (Each.of_append hfine).2 trivial] at hsums
  · have hsums := (hbooks.stored hnone).sums
    rwa [counted_eq_calls hbooked.fine trivial] at hsums
  · obtain ⟨hasked, haccount, hpurpose⟩ := each_iff.mp hbooked.fine l₁ _ l₂ hJ
    have howner : c.account = p.state.run.owner := (haccount (hpurpose trivial)).trans hbooks.fixed.owner.symm
    exact ⟨howner ▸ hasked, howner⟩

theorem accounted_once : ∃ p : Pool Γ, p.state.run.costUsd = 1 ∧ Accounted p.state := by
  have htest : (((harnessOf plainAgent).program false).replay (fun p m => Alone p m ∧ Answered Unsummarized p m) (opened plainAgent)
      oneStep).any (fun p => decide (p.state.run.costUsd = 1)) = true := by decide +kernel
  obtain ⟨p, hp, hcost⟩ := Machine.exists_of_any htest
  exact ⟨p, of_decide_eq_true hcost, accounted (Program.replay_reach (.start (opened_start plainAgent)) hp)⟩

def forgetful : AgentDef := { plainAgent with summarize := true, contextTokens := 0, keepRecent := 0 }

/-- The third step has to drop the first, and a summary takes its place. -/
def threeSteps : List (Move Γ Op) :=
  [.spawn (.execute none), .start 0, .resume 0 (reply [⟨"1", "tool", "1"⟩]), .resume 0 (reply [⟨"2", "tool", "2"⟩]),
    .resume 0 (reply []), .resume 0 (reply [])]

/-- The summary is charged to nobody, and counted nowhere. -/
theorem summary_unaccounted : ∃ p : Pool Γ, ((harnessOf forgetful).machine false).Reach Alone p ∧ ¬Accounted p.state ∧
    p.state.run.costUsd = 3 ∧ ((calls p.state.journal).map (·.costUsd)).sum = 4 ∧
    ∃ c ∈ calls p.state.journal, c.account = "anonymous" ∧ p.state.run.owner = "alice" := by
  have htest : (((harnessOf forgetful).program false).replay Alone (opened forgetful) threeSteps).any (fun p =>
      decide (p.state.run.costUsd = 3) && decide (((calls p.state.journal).map (·.costUsd)).sum = 4) &&
        (calls p.state.journal).any (·.account = "anonymous") && decide (p.state.run.owner = "alice")) = true := by decide +kernel
  obtain ⟨p, hp, hp'⟩ := Machine.exists_of_any htest
  simp only [Bool.and_eq_true, decide_eq_true_eq, List.any_eq_true] at hp'
  obtain ⟨⟨⟨hcost, hsum⟩, c, hc, haccount⟩, howner⟩ := hp'
  refine ⟨p, Program.replay_reach (.start (opened_start forgetful)) hp, fun hacc => ?_, hcost, hsum, c, hc, haccount, howner⟩
  obtain ⟨e, he, heq⟩ := List.mem_filterMap.mp hc
  obtain ⟨l₁, l₂, hJ⟩ := List.append_of_mem he
  cases e with
  | called c' =>
    obtain rfl := Option.some.inj heq
    have hcharged := (hacc.charged l₁ _ l₂ hJ).2
    rw [haccount, howner] at hcharged
    exact absurd hcharged (by decide)
  | _ => exact nomatch heq

/-! ## Limits -/

/-- What a check has read leaves room below the limits of a run created then. -/
structure Within (agent : AgentDef) (created : ℚ) (r : Reading) : Prop where
  cost : ∀ m ∈ agent.maxCostUsd, r.costUsd < m
  tokens : ∀ m ∈ agent.maxTotalTokens, (r.tokens : ℤ) < m
  deadline : ∀ d ∈ agent.deadlineS, r.now < created + d

/-- The limits of a run hold: its step counter is the number of completed steps and never
passes the limit, and a planning or step call follows a check that has read the sums of
the calls and found room. -/
structure Limited (agent : AgentDef) (created : ℚ) (s : HarnessState) : Prop where
  live : ∀ i l, s.frames i = some l → l.step = steps s.journal
  stored : (∀ i, s.frames i = none) → s.run.step = steps s.journal
  saved : ∀ l₁ l l₂, s.journal = l₁ ++ .saved l :: l₂ → l.step = steps l₂ ∧ (l.step : ℤ) ≤ agent.effective.maxSteps
  bound : (steps s.journal : ℤ) ≤ agent.effective.maxSteps
  agrees : ∀ l₁ r l₂, s.journal = l₁ ++ .checked r :: l₂ → r.Agrees (counted l₂)
  room : ∀ l₁ purpose account messages l₂, s.journal = l₁ ++ .asked purpose account messages :: l₂ → purpose ≠ .summary →
    ∃ r, lastReading l₂ = some r ∧ Within agent created r

/-- No limit is one the code takes for none, or one that is passed from the start. -/
structure Limits (agent : AgentDef) (created : ℚ) : Prop where
  steps : 0 ≤ agent.maxSteps
  tokens : agent.maxTotalTokens ≠ some 0
  seconds : agent.deadlineS ≠ some 0
  deadline : ∀ d ∈ agent.deadlineS, created + d ≠ 0

theorem meets_any : Meets (termsOf s agent False False) fun _ _ => True := by
  intro q u r hanswers _
  cases q with
  | route purpose req timeout =>
    cases purpose <;> cases r with
    | ok resp => first | exact trivial | exact not_false
    | error e => cases e <;> first | exact trivial | exact not_false
  | handler call args =>
    cases r with
    | ok answer => trivial
    | error e => exact hanswers

theorem effective_limits (agent : AgentDef) : agent.effective.maxCostUsd = agent.maxCostUsd ∧
    agent.effective.maxTotalTokens = agent.maxTotalTokens ∧ (0 ≤ agent.maxSteps → 0 ≤ agent.effective.maxSteps) := by
  unfold AgentDef.effective
  split
  · exact ⟨rfl, rfl, fun h => le_min h (by decide)⟩
  · exact ⟨rfl, rfl, id⟩

/-- The code takes some limits for none: the others are met. -/
theorem within_of_below {created : ℚ} {r : Reading} (hlimits : Limits agent created)
    (h : Below agent.effective ((agent.deadlineS.filter (· ≠ 0)).map (created + ·)) r) : Within agent created r := by
  obtain ⟨hcost, htokens, -⟩ := effective_limits agent
  refine ⟨fun m hm => h.cost m (hcost ▸ hm), fun m hm => h.tokens m (htokens ▸ hm) ?_, fun d hd => ?_⟩
  · rintro rfl
    exact hlimits.tokens hm
  · refine h.deadline (created + d) ?_ (hlimits.deadline d hd)
    have hne : d ≠ 0 := by
      rintro rfl
      exact hlimits.seconds hd
    rw [Option.mem_def] at hd
    simp [hd, hne]

/-- **The limits of a run.** Where no limit is the number 0, which the code takes for none,
the limits of an agent hold. -/
theorem limited {p₀ p : Pool Γ} {l : List (Machine.Step (Pool Γ) (Move Γ Op))} {agent : AgentDef} (hrun : (R.machine false).Run p₀ l p)
    (hstart : (R.machine false).start p₀) (halone : ∀ e ∈ l, Alone e.source e.label)
    (hagent : R.agents.get? p₀.state.run.agent = some agent) (hlimits : Limits agent p₀.state.now) :
    Limited agent p₀.state.now p.state := by
  have hdeadline : p₀.state.run.deadline = (agent.deadlineS.filter (· ≠ 0)).map (p₀.state.now + ·) := by
    obtain ⟨name, agent', task, owner, hagent', hnew⟩ := hstart.1.1
    rw [hnew] at hagent ⊢
    obtain rfl := Option.some.inj (hagent'.symm.trans hagent)
    rfl
  have hguard : ∀ e ∈ l, Alone e.source e.label ∧ Answered (fun _ _ => True) e.source e.label :=
    fun e he => ⟨halone e he, answered_any _ _⟩
  have hbooks := books_of_run hrun hstart hagent (fun h : False => h.elim) meets_any hguard
  obtain ⟨x, hbooked⟩ := hbooks.booked
  have hfine := each_iff.mp hbooked.fine
  have hmax : max agent.effective.maxSteps 0 = agent.effective.maxSteps :=
    max_eq_left ((effective_limits agent).2.2 hlimits.steps)
  refine ⟨fun i l hl => (hbooks.live i l hl).steps, fun hnone => (hbooks.stored hnone).steps, fun l₁ l l₂ hJ => ?_, ?_,
    fun l₁ r l₂ hJ => hfine l₁ _ l₂ hJ, fun l₁ purpose account messages l₂ hJ hne => ?_⟩
  · obtain ⟨-, hsteps, hbound⟩ := hfine l₁ _ l₂ hJ
    exact ⟨hsteps, hbound.trans_eq hmax⟩
  · rw [← hbooked.steps]
    exact hbooked.bound.trans_eq hmax
  · obtain ⟨-, r, hr, hbelow⟩ := hfine l₁ _ l₂ hJ hne
    have hbelow' : Below agent.effective ((agent.deadlineS.filter (· ≠ 0)).map (p₀.state.now + ·)) r := hdeadline ▸ hbelow
    exact ⟨r, hr, within_of_below hlimits hbelow'⟩

/-- An agent whose runs may cost 1.5. -/
def thrifty : AgentDef :=
  { plainAgent with maxSteps := 9, maxCostUsd := some (3 / 2), maxTotalTokens := some 100, deadlineS := some 60 }

theorem thrifty_limits : Limits thrifty 0 where
  steps := by decide
  tokens := by decide
  seconds := by decide +kernel
  deadline := by decide +kernel

/-- Two steps that both call a tool. -/
def twoSteps : List (Move Γ Op) :=
  [.spawn (.execute none), .start 0, .resume 0 (reply [⟨"1", "tool", "1"⟩]), .resume 0 (reply [⟨"2", "tool", "2"⟩])]

/-- `limited` for a run that its cost ends. -/
theorem limited_once : ∃ p : Pool Γ, p.state.run.step = 2 ∧ p.state.run.costUsd = 2 ∧
    p.state.run.stopReason = some .costLimit ∧ Limited thrifty 0 p.state := by
  have htest : (((harnessOf thrifty).program false).replay Alone (opened thrifty) twoSteps).any (fun p =>
      decide (p.state.run.step = 2 ∧ p.state.run.costUsd = 2 ∧ p.state.run.stopReason = some .costLimit)) = true := by
    decide +kernel
  obtain ⟨p, hp, htest⟩ := Machine.exists_of_any htest
  obtain ⟨hstep, hcost, hreason⟩ := of_decide_eq_true htest
  obtain ⟨l, hrun, halone⟩ := exists_run hp
  exact ⟨p, hstep, hcost, hreason, limited (R := harnessOf thrifty) hrun (opened_start thrifty) halone
    (Dict.get?_set_self _ _ _) thrifty_limits⟩

def tokenless : AgentDef := { plainAgent with maxTotalTokens := some 0 }

/-- The newest entry is the model being asked for a step. -/
def asksStep : List Entry → Bool
  | .asked .step _ _ :: _ => true
  | _ => false

/-- A limit of 0 tokens is no limit: the first step is started. -/
theorem tokenless_started : ∃ (p : Pool Γ) (l : List (Machine.Step (Pool Γ) (Move Γ Op))),
    ((harnessOf tokenless).machine false).Run (opened tokenless) l p ∧ (∀ e ∈ l, Alone e.source e.label) ∧
      ¬Limited tokenless 0 p.state := by
  have htest : (((harnessOf tokenless).program false).replay Alone (opened tokenless) [.spawn (.execute none), .start 0]).any
      (fun p => asksStep p.state.journal) = true := by decide +kernel
  obtain ⟨p, hp, hp'⟩ := Machine.exists_of_any htest
  obtain ⟨l, hrun, halone⟩ := exists_run hp
  refine ⟨p, l, hrun, halone, fun hlimited => ?_⟩
  unfold asksStep at hp'
  split at hp'
  · rename_i account messages J hJ
    obtain ⟨r, -, hr⟩ := hlimited.room [] .step account messages J hJ (by decide)
    have hzero := hr.tokens 0 rfl
    omega
  · cases hp'

/-! ## Endings -/

def Calm : (q : Ask Γ) → Except Exc q.Reply → Prop
  | .call (.route .plan _ _), .error (.error _ _) => False
  | .call (.route .step _ _), .error (.error _ _) => False
  | _, _ => True

instance : (q : Ask Γ) → (r : Except Exc q.Reply) → Decidable (Calm q r)
  | .call (.route .plan _ _), .error (.error _ _) | .call (.route .step _ _), .error (.error _ _) =>
    inferInstanceAs (Decidable False)
  | .call (.route .plan _ _), .error .cancelled | .call (.route .step _ _), .error .cancelled
  | .call (.route .plan _ _), .ok _ | .call (.route .step _ _), .ok _ | .call (.route .summary _ _), _
  | .call (.handler _ _), _ | .wait _ _, _ | .join _, _ => inferInstanceAs (Decidable True)

theorem meets_calm {calm : Prop} : Meets (termsOf s agent False calm) Calm := by
  intro q u r hanswers hr
  cases q with
  | route purpose req timeout =>
    cases purpose <;> cases r with
    | ok resp => first | exact trivial | exact not_false
    | error e => cases e <;> first | exact trivial | exact hr.elim
  | handler call args =>
    cases r with
    | ok answer => trivial
    | error e => exact hanswers

/-- **The endings of a run.** Where no planning or step call fails, each time the status
becomes a final one, one event of the trace and one on the bus say so. -/
theorem announced {p : Pool Γ} (h : (R.machine false).Reach (fun p m => Alone p m ∧ Answered Calm p m) p)
    (hkeep : ∀ agent ∈ R.agents.get? p.state.run.agent, 0 ≤ agent.keepRecent) : Announced [] p.state.journal := by
  obtain ⟨p₀, l, hstart, hrun, hguard⟩ := h.exists_run
  obtain ⟨name, agent, task, owner, hagent, hnew⟩ := hstart.1.1
  have hname : R.agents.get? p₀.state.run.agent = some agent := by
    rw [hnew]
    exact hagent
  have hbooks : Books (termsOf p₀.state agent False (0 ≤ agent.keepRecent)) p.state :=
    books_of_run hrun hstart hname id meets_calm hguard
  obtain ⟨x, hbooked⟩ := hbooks.booked
  have hsame : p.state.run.agent = p₀.state.run.agent := hbooks.fixed.name
  exact hbooked.announced (hkeep agent (hsame ▸ hname))

theorem announced_once : ∃ p : Pool Γ, p.state.run.status = .completed ∧ Announced [] p.state.journal := by
  have htest : (((harnessOf plainAgent).program false).replay (fun p m => Alone p m ∧ Answered Calm p m) (opened plainAgent)
      oneStep).any (fun p => decide (p.state.run.status = .completed) && decide (p.state.run.agent = "a")) = true := by decide +kernel
  obtain ⟨p, hp, hp'⟩ := Machine.exists_of_any htest
  simp only [Bool.and_eq_true, decide_eq_true_eq] at hp'
  refine ⟨p, hp'.1, announced (R := harnessOf plainAgent) (Program.replay_reach (.start (opened_start plainAgent)) hp) ?_⟩
  rw [hp'.2]
  intro agent hagent
  obtain rfl := Option.some.inj ((Dict.get?_set_self _ _ _).symm.trans hagent)
  decide

def outage : Oracle Γ
  | .call (.route _ _ _) => .error (.error "ProviderError" "unavailable")
  | _ => .error .cancelled

theorem length_complete (l : List RunStatus) : (l.flatMap complete).length = 3 * l.length := by
  induction l with
  | nil => rfl
  | cons status l ih =>
    rw [List.flatMap_cons, List.length_append, ih, List.length_cons, complete]
    simp only [List.length_cons, List.length_nil]
    omega

/-- A model call fails, and with it the run: nothing on the bus says so. -/
theorem outage_unannounced : ∃ p : Pool Γ, ((harnessOf plainAgent).machine false).Reach Alone p ∧ p.state.run.status = .failed ∧
    ¬Announced [] p.state.journal := by
  have htest : (((harnessOf plainAgent).program false).replay Alone (opened plainAgent)
      [.spawn (.execute none), .start 0, .resume 0 outage]).any (fun p =>
        decide (p.state.run.status = .failed) && decide ((endings p.state.journal).length = 2)) = true := by decide +kernel
  obtain ⟨p, hp, hp'⟩ := Machine.exists_of_any htest
  simp only [Bool.and_eq_true, decide_eq_true_eq] at hp'
  refine ⟨p, Program.replay_reach (.start (opened_start plainAgent)) hp, hp'.1, fun ⟨l, hl⟩ => ?_⟩
  have hlength := congrArg List.length hl
  rw [hp'.2, List.nil_append, length_complete] at hlength
  omega

end Caips.Harness.HarnessRunner
