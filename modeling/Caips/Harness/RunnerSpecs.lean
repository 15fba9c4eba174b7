/-
Caips.Harness.RunnerSpecs — what each part of an execution does to the books.

One lemma for each function of `Caips.Harness.Runner`, in its order. A
function that may end the run leaves it `Stopped`; one that awaits ends with a
result or an exception on its way (`orRaised`).
-/
import Caips.Harness.RunnerContract

namespace Caips.Harness.HarnessRunner

open Caips.Logic Caips.Providers

section

variable {R : HarnessRunner} {crashes : Bool} {T : Terms} {me : Γ.Handle} {α β : Type} {P : ℕ → Prop} {c : Prop}

/-! ## Sequences -/

variable {N : α → (contract R crashes T).Assn} {pre : (contract R crashes T).Assn} {x : Async α} {e : Entry}
  {f : Run → Run} {s : HarnessState} {agent : AgentDef} {msgs : List Message}

theorem then_returns {k : α → Async β}
    {post : Except Exc β → (contract R crashes T).Assn} (hx : (contract R crashes T).Holds me pre x ((contract R crashes T).returns N))
    (hk : ∀ a, (contract R crashes T).Holds me (N a) (k a) post) : (contract R crashes T).Holds me pre (x >>= k) post :=
  hx.bind_returns hk

theorem then_orRaised {k : α → Async β}
    {M : β → (contract R crashes T).Assn} (hx : (contract R crashes T).Holds me pre x (orRaised R crashes T me N))
    (hk : ∀ a, (contract R crashes T).Holds me (N a) (k a) (orRaised R crashes T me M)) :
    (contract R crashes T).Holds me pre (x >>= k) (orRaised R crashes T me M) :=
  hx.bind hk fun _ => .rfl

theorem orRaised_of_returns (hx : (contract R crashes T).Holds me pre x ((contract R crashes T).returns N)) :
    (contract R crashes T).Holds me pre x (orRaised R crashes T me N) := by
  refine hx.weaken_post ?_
  rintro r s h F l - ⟨a, rfl, hN⟩
  exact hN

theorem holds_getLocals {φ : HarnessState → Locals → Prop} :
    (contract R crashes T).Holds me (At R crashes T me φ) (getLocals me.1)
      ((contract R crashes T).returns fun a => At R crashes T me fun s l => φ s l ∧ a = l) := by
  refine (holds_read _).weaken_post ?_
  rintro r s h F l - ⟨a, rfl, ⟨hh, x, hx, hφ⟩, rfl⟩
  exact ⟨_, rfl, hh, x, hx, hφ, hx.locals⟩

/-! ## Bookkeeping -/

theorem holds_plain (he : e.plain) :
    (contract R crashes T).Holds me (Going R crashes T me P c) (note e) ((contract R crashes T).returns fun _ => Going R crashes T me P c) := by
  refine (holds_note e).weaken_pre ?_
  rintro s h F t - ⟨hh, x, hx, hsettled, hP, hc⟩
  refine ⟨hh, x, hx, ⟨hsettled.booked.plain he, hsettled.running⟩, hP, fun hyes => ?_⟩
  rw [HarnessState.note, lastReading_plain he]
  exact hc hyes

theorem acts_save (hf : ∀ r, (f r).agent = r.agent ∧ (f r).owner = r.owner ∧ (f r).deadline = r.deadline) (i : ℕ) :
    Acts (·.save i f) i id := ⟨fun _ => hf _, fun _ => rfl, fun _ _ h => h⟩

theorem acts_announce (status : RunStatus) (reason : StopReason) (costUsd : Option ℚ) (i : ℕ) :
    Acts (·.announce status reason costUsd) i id := ⟨fun _ => ⟨rfl, rfl, rfl⟩, fun _ => rfl, fun _ _ h => h⟩

theorem holds_checkpoint {φ : HarnessState → Locals → Prop}
    (hf : ∀ r, (f r).agent = r.agent ∧ (f r).owner = r.owner ∧ (f r).deadline = r.deadline) :
    (contract R crashes T).Holds me (At R crashes T me fun s l => φ ((s.save me.1 f).note (.trace (.checkpoint l.step))) l)
      (checkpoint me.1 f) ((contract R crashes T).returns fun _ => At R crashes T me φ) := by
  refine then_returns (holds_moving (φ := fun s l => φ (s.note (.trace (.checkpoint l.step))) l) (acts_save hf me.1)) fun _ => ?_
  refine then_returns holds_getLocals fun l => ?_
  refine (holds_note _).weaken_pre ?_
  rintro s h F t - ⟨hh, x, hx, hφ, rfl⟩
  exact ⟨hh, l, hx, hφ⟩

theorem journal_save (s : HarnessState) (i : ℕ) (f : Run → Run) (step : ℕ) :
    ((s.save i f).note (.trace (.checkpoint step))).journal = .trace (.checkpoint step) :: .saved (s.locals i) ::
      if (f (s.run.save (s.locals i))).status = s.run.status then s.journal
      else .became (f (s.run.save (s.locals i))).status :: s.journal := rfl

theorem locals_save {i : ℕ} (e : Entry) (hf : ∀ r, (f r).locals = r.locals) :
    ((s.save i f).note e).run.locals = s.locals i := hf _

theorem holds_checkpoint_going
    (hf : ∀ r, (f r).agent = r.agent ∧ (f r).owner = r.owner ∧ (f r).deadline = r.deadline ∧ (f r).status = r.status) :
    (contract R crashes T).Holds me (Going R crashes T me P c) (checkpoint me.1 f)
      ((contract R crashes T).returns fun _ => Going R crashes T me P c) := by
  refine (holds_checkpoint fun r => ⟨(hf r).1, (hf r).2.1, (hf r).2.2.1⟩).weaken_pre ?_
  rintro s h F t - ⟨hh, x, hx, hsettled, hP, hc⟩
  have hstatus : (f (s.run.save (s.locals me.1))).status = s.run.status := (hf _).2.2.2
  refine ⟨hh, x, hx, ⟨?_, hstatus.trans hsettled.running⟩, hP, ?_⟩
  · rw [journal_save, if_pos hstatus, hx.locals]
    exact hsettled.booked.saved.plain rfl
  · rw [journal_save, if_pos hstatus]
    exact hc

theorem holds_checkpoint_stop (hf : ∀ r, (f r).agent = r.agent ∧ (f r).owner = r.owner ∧ (f r).deadline = r.deadline)
    (hlocals : ∀ r, (f r).locals = r.locals) (hactive : ∀ r, (f r).status.active) :
    (contract R crashes T).Holds me (Going R crashes T me P c) (checkpoint me.1 f)
      ((contract R crashes T).returns fun _ => Stopped R crashes T me) := by
  refine (holds_checkpoint hf).weaken_pre ?_
  rintro s h F t - ⟨hh, x, hx, hsettled, -⟩
  refine ⟨hh, x, hx, ?_⟩
  beta_reduce
  rw [locals_save _ hlocals, journal_save, hx.locals]
  split
  · exact hsettled.booked.saved.plain rfl
  · exact ((hsettled.booked.plain (e := .became _) (hactive _)).saved).plain rfl

theorem holds_plain_stopped (he : e.plain) :
    (contract R crashes T).Holds me (Stopped R crashes T me) (note e) ((contract R crashes T).returns fun _ => Stopped R crashes T me) := by
  refine (holds_note e).weaken_pre ?_
  rintro s h F t - ⟨hh, x, hx, hbooked⟩
  exact ⟨hh, x, hx, hbooked.plain he⟩

/-- `_end`. -/
theorem holds_finishRun (reason : StopReason) (result : Option String) :
    (contract R crashes T).Holds me (Going R crashes T me P c) (finishRun me.1 reason result)
      ((contract R crashes T).returns fun _ => Stopped R crashes T me) := by
  unfold finishRun
  split
  · refine then_returns (holds_checkpoint_stop (fun _ => ⟨rfl, rfl, rfl⟩) (fun _ => rfl) fun _ => rfl) fun _ => ?_
    exact then_returns holds_getLocals fun l => (holds_plain_stopped (e := .trace (.paused l.step)) rfl).weaken_pre
      fun _ _ _ _ _ ⟨hh, x, hx, hbooked, _⟩ => ⟨hh, x, hx, hbooked⟩
  · have hfinal : reason.status.active = false := by cases reason <;> rfl
    let booked (due : List Ending) (s : HarnessState) : Prop := Booked T due s.journal s.run.locals
    refine then_returns (N := fun _ => At R crashes T me fun s _ => booked [.became reason.status] s)
      ((holds_checkpoint ?_).weaken_pre ?_) fun _ => ?_
    · exact fun _ => ⟨rfl, rfl, rfl⟩
    · rintro s h F t - ⟨hh, x, hx, hsettled, -⟩
      refine ⟨hh, x, hx, ?_⟩
      have hne : reason.status ≠ s.run.status := by
        rw [hsettled.running]
        intro heq
        exact nomatch hfinal.symm.trans (congrArg RunStatus.active heq)
      show Booked T _ (HarnessState.journal _) (Run.locals (HarnessState.run _))
      rw [locals_save, journal_save, if_neg hne, hx.locals]
      · exact ((hsettled.booked.became hfinal).saved).plain rfl
      · exact fun _ => rfl
    refine then_returns holds_getLocals fun l => ?_
    refine then_returns (N := fun _ => At R crashes T me fun s _ => booked [.traced, .became reason.status] s)
      ((holds_note _).weaken_pre ?_) fun _ => ?_
    · rintro s h F t - ⟨hh, x, hx, hbooked, -⟩
      exact ⟨hh, x, hx, hbooked.traced _ _ _⟩
    · refine (holds_moving (acts_announce _ _ _ _)).weaken_pre ?_
      rintro s h F t - ⟨hh, x, hx, hbooked⟩
      exact ⟨hh, x, hx, hbooked.complete _ _ _ _⟩

theorem holds_wait (call : ToolCall) (rest : List ToolCall) :
    (contract R crashes T).Holds me (Going R crashes T me P c) (wait me.1 call rest)
      ((contract R crashes T).returns fun _ => Stopped R crashes T me) :=
  then_returns (holds_checkpoint_stop (fun _ => ⟨rfl, rfl, rfl⟩) (fun _ => rfl) fun _ => rfl) fun _ => holds_plain_stopped rfl

/-- What a check of the limits that finds room has read. -/
theorem below_of_limitOf {run : Run} {r : Reading} (h : limitOf agent run r = none) :
    Below agent run.deadline r ∧ (r.step : ℤ) < agent.maxSteps := by
  unfold limitOf at h
  split at h
  · exact nomatch h
  · split_ifs at h with hdeadline hsteps hcost htokens
    refine ⟨⟨fun m hm => ?_, fun m hm hne => ?_, fun d hd hne => ?_⟩, not_le.mp hsteps⟩
    · rw [hm] at hcost
      simpa using hcost
    · rw [hm] at htokens
      simpa [hne] using htokens
    · rw [hd] at hdeadline
      simpa [hne] using hdeadline

/-- `_limit`. -/
theorem holds_limit :
    (contract R crashes T).Holds me (Going R crashes T me P c) (limit me.1 T.agent)
      ((contract R crashes T).returns fun v => Going R crashes T me (fun n => P n ∧ (v = none → (n : ℤ) < T.agent.maxSteps)) (v = none)) := by
  refine then_returns (holds_read _) fun ⟨run, r⟩ => ?_
  refine then_returns (N := fun _ => Going R crashes T me
    (fun n => P n ∧ (limitOf T.agent run r = none → (n : ℤ) < T.agent.maxSteps)) (limitOf T.agent run r = none))
    ((holds_note _).weaken_pre ?_) fun _ => .ret fun s h F l _ hp => ⟨_, rfl, hp⟩
  rintro s h F t hinv ⟨⟨hh, x, hx, hsettled, hP, -⟩, heq⟩
  obtain ⟨rfl, rfl⟩ := Prod.mk.inj heq
  refine ⟨hh, x, hx, ⟨hsettled.booked.checked ?_ ?_, hsettled.running⟩, ⟨hP, fun hnone => ?_⟩, fun hnone => ?_⟩
  · simp only [reading, hx.locals]
  · simp only [reading, hx.locals]
  · simpa only [reading, hx.locals] using (below_of_limitOf hnone).2
  · have hdeadline := hinv.fixed.deadline
    exact ⟨_, rfl, hdeadline ▸ (below_of_limitOf hnone).1⟩

/-! ## Model calls -/

/-- An answered model call, as the journal has it. -/
def callOf (purpose : Purpose) (req : CompletionRequest) (resp : ModelResponse) : ModelCall :=
  ⟨purpose, account req, resp.costUsd, resp.inputTokens, resp.outputTokens⟩

/-- What a model call of a purpose needs: a check that found room, the owner's account,
and room for one more step. -/
structure Ready (T : Terms) (P : ℕ → Prop) (c : Prop) (purpose : Purpose) (req : CompletionRequest) : Prop where
  checked : purpose ≠ .summary → c
  account : purpose ≠ .summary → account req = T.owner
  step : purpose = .step → ∀ n, P n → (n : ℤ) < T.agent.maxSteps

/-- A model call: it is booked, or an exception leaves the books as they were. -/
theorem holds_route {purpose : Purpose} {req : CompletionRequest} {timeout : Option ℚ} (hready : Ready T P c purpose req) :
    (contract R crashes T).Holds me (Going R crashes T me P c) (route purpose req timeout) fun
      | .ok resp => At R crashes T me fun s l => s.run.status = .running ∧
          Booked T [] s.journal ((callOf purpose req resp).addTo l) ∧ P l.step ∧ (c → Room T (lastReading s.journal))
      | .error e => fun s h t => (purpose ≠ .summary → e ≠ .cancelled → ¬T.calm) ∧ Going R crashes T me P c s h t := by
  refine then_returns (N := fun _ => Rest R crashes T me fun l k => P l.step ∧ (c → Room T k.reading) ∧ k.asked = some (purpose, account req))
    (holds_note_rest.weaken_pre ?_) fun _ => ?_
  · rintro s h F t - ⟨hh, x, hx, hsettled, hP, hc⟩
    have hasked : Booked T [] (.asked purpose (account req) req.messages :: s.journal) x := hsettled.booked.asked fun hne => ⟨hready.account hne, hc (hready.checked hne)⟩
    exact ⟨hh, x, hx, ⟨hasked, hsettled.running⟩, hP, hc, rfl⟩
  · refine Contract.Holds.bind holds_query (fun resp => ?_) fun e => ?_
    · refine then_returns (N := fun _ => At R crashes T me fun s l => s.run.status = .running ∧
          Booked T [] s.journal ((callOf purpose req resp).addTo l) ∧ P l.step ∧ (c → Room T (lastReading s.journal)))
        ((holds_note _).weaken_pre ?_) fun _ => .ret .rfl
      rintro s h F t hinv ⟨hrest, hallowed⟩
      obtain ⟨hh, x, hx, hsettled, hP, hc, hasked⟩ := rest_booked s h F t hinv hrest
      refine ⟨hh, x, hx, hsettled.running, hsettled.booked.called hasked hready.account ?_ fun hs => hready.step hs _ hP, hP, hc⟩
      intro hun hs
      obtain rfl : purpose = .summary := hs
      exact hallowed hun
    · rintro s h F t hinv ⟨hrest, hallowed⟩
      obtain ⟨hh, x, hx, hsettled, hP, hc, -⟩ := rest_booked s h F t hinv hrest
      refine ⟨fun hne hcancelled => ?_, hh, x, hx, hsettled, hP, hc⟩
      cases e with
      | cancelled => exact absurd rfl hcancelled
      | error name detail =>
        cases purpose with
        | plan => exact hallowed
        | step => exact hallowed
        | summary => exact absurd rfl hne

theorem account_metadata (agent : AgentDef) (s : HarnessState) (hs : Fixed T s) (req : CompletionRequest) (v : Value)
    (hreq : req.metadata = R.metadata agent s ∨ req.metadata = (R.metadata agent s).set "purpose" v ∨
      req.metadata = (R.metadata agent s).set "budget_remaining_usd" v) : account req = T.owner := by
  have howner : req.metadata.get? "owner" = some (.str s.run.owner) := by
    obtain h | h | h := hreq
    · rw [h, metadata, Dict.get?_set_self]
    · rw [h, Dict.get?_set_ne _ _ (by decide), metadata, Dict.get?_set_self]
    · rw [h, Dict.get?_set_ne _ _ (by decide), metadata, Dict.get?_set_self]
  rw [account, howner]
  exact hs.owner

theorem holds_assign_going {f : Locals → Locals} (hstep : ∀ l, (f l).step = l.step)
    (hbooked : ∀ J l, Booked T [] J l → Booked T [] J (f l)) :
    (contract R crashes T).Holds me (Going R crashes T me P c) (assign me.1 f) ((contract R crashes T).returns fun _ => Going R crashes T me P c) := by
  refine (holds_assign f).weaken_pre ?_
  rintro s h F t - ⟨hh, x, hx, hsettled, hP, hc⟩
  exact ⟨hh, x, hx, ⟨hbooked _ _ hsettled.booked, hsettled.running⟩, (hstep x).symm ▸ hP, hc⟩

theorem holds_messages (hmsgs : msgs ≠ []) :
    (contract R crashes T).Holds me (Going R crashes T me P c) (assign me.1 fun l => { l with msgs := msgs })
      ((contract R crashes T).returns fun _ => Going R crashes T me P c) :=
  holds_assign_going (fun _ => rfl) fun _ _ h => h.messages hmsgs

theorem holds_append (m : Message) :
    (contract R crashes T).Holds me (Going R crashes T me P c) (append me.1 m) ((contract R crashes T).returns fun _ => Going R crashes T me P c) :=
  holds_assign_going (fun _ => rfl) fun _ _ h => h.messages (by simp)

theorem holds_getLocals_going :
    (contract R crashes T).Holds me (Going R crashes T me P c) (getLocals me.1)
      ((contract R crashes T).returns fun a s h t => Going R crashes T me P c s h t ∧ a.msgs ≠ [] ∧ P a.step) := by
  refine holds_getLocals.weaken_post ?_
  rintro r s h F t - ⟨a, rfl, hh, x, hx, ⟨hsettled, hP, hc⟩, rfl⟩
  exact ⟨_, rfl, ⟨hh, _, hx, hsettled, hP, hc⟩, hsettled.booked.msgs, hP⟩

/-- `_plan`. -/
theorem holds_plan :
    (contract R crashes T).Holds me (Going R crashes T me P True) (R.plan me.1 T.agent)
      (orRaised R crashes T me fun _ => Going R crashes T me P False) := by
  have hweak : (contract R crashes T).Entails (Going R crashes T me P True) (Going R crashes T me P False) :=
    fun _ _ _ _ _ ⟨hh, x, hx, hsettled, hP, _⟩ => ⟨hh, x, hx, hsettled, hP, nofun⟩
  refine then_returns holds_getLocals_going fun l => ?_
  cases l.msgs with
  | nil => exact .fail fun s h F t _ hp => absurd rfl hp.2.1
  | cons first rest =>
    dsimp only
    split
    · exact .ret fun s h F t hinv hp => hweak s h F t hinv hp.1
    · refine then_returns ((holds_read (Going R crashes T me P True)).weaken_pre fun _ _ _ _ _ hp => hp.1) fun ⟨req, timeout⟩ => ?_
      refine Contract.Holds.assume (φ := account req = T.owner) ?_ fun haccount => ?_
      · rintro s h F t hinv ⟨-, heq⟩
        obtain ⟨rfl, -⟩ := Prod.mk.inj heq
        exact account_metadata T.agent s hinv.fixed _ _ (.inr (.inl rfl))
      refine Contract.Holds.bind ((holds_route ⟨fun _ => trivial, fun _ => haccount, nofun⟩).weaken_pre fun _ _ _ _ _ hp => hp.1)
        (fun resp => ?_) fun e => ?_
      · refine then_returns (N := fun _ => Going R crashes T me P False) ((holds_assign _).weaken_pre ?_) fun _ => ?_
        · rintro s h F t - ⟨hh, x, hx, hrunning, hbooked, hP, -⟩
          exact ⟨hh, x, hx, ⟨hbooked, hrunning⟩, hP, nofun⟩
        refine then_returns (holds_plain rfl) fun _ => ?_
        generalize decide (Coreai.Keystore.strip resp.content ≠ "") = b
        refine then_returns (N := fun _ => Going R crashes T me P False) ?_ fun _ => ?_
        · apply Contract.Holds.when
          · exact fun _ => holds_messages (List.cons_ne_nil _ _)
          · exact fun _ s h F t _ hp => ⟨_, rfl, hp⟩
        · refine orRaised_of_returns (holds_checkpoint_going ?_)
          exact fun _ => ⟨rfl, rfl, rfl, rfl⟩
      · rintro s h F t - ⟨hcalm, hh, x, hx, hsettled, -⟩
        exact ⟨hcalm nofun, hh, x, hx, hsettled, trivial, nofun⟩

theorem holds_summarize (dropped : List Message) :
    (contract R crashes T).Holds me (Going R crashes T me P c) (summarize T.agent dropped) fun _ => Going R crashes T me P c := by
  refine Contract.Holds.bind (holds_route ⟨fun h => absurd rfl h, fun h => absurd rfl h, nofun⟩) (fun resp => .ret ?_) fun e => ?_
  · rintro s h F t - ⟨hh, x, hx, hrunning, hbooked, hP, hc⟩
    exact ⟨hh, x, hx, ⟨hbooked, hrunning⟩, hP, hc⟩
  · exact fun s h F t _ hp => hp.2

/-- The note of a compaction can only be interrupted. -/
theorem holds_noteOf (dropped : List Message) :
    (contract R crashes T).Holds me (Going R crashes T me P c) (noteOf T.agent dropped)
      (orRaised R crashes T me fun _ => Going R crashes T me P c) := by
  unfold noteOf
  split
  · refine Contract.Holds.tryCatch (N := fun _ => Going R crashes T me P c) ?_ (fun _ => .rfl) fun e => ?_
    · exact Contract.Holds.bind (holds_summarize dropped) (fun _ => .ret .rfl) fun _ => .rfl
    · cases e with
      | cancelled =>
        refine .fail ?_
        rintro s h F t - ⟨hh, x, hx, hsettled, -⟩
        exact ⟨fun hne => absurd rfl hne, hh, x, hx, hsettled, trivial, nofun⟩
      | error name detail => exact .ret .rfl
  · exact .ret .rfl

/-- Compaction keeps the first message. -/
theorem compact_msgs {system : String} {maxTokens keepRecent : ℤ} {o : Context.Outcome}
    (h : Context.compact estimateTokens msgs system maxTokens keepRecent = .ok o) (hmsgs : msgs ≠ []) :
    match o with
    | .unchanged => True
    | .shrunk ms => ms ≠ []
    | .condensed pinned _ _ => pinned ≠ [] := by
  obtain ⟨first, rest, rfl⟩ := List.exists_cons_of_ne_nil hmsgs
  unfold Context.compact at h
  split_ifs at h with hfits hkeep
  · obtain rfl := Except.ok.inj h
    trivial
  · dsimp only at h
    split_ifs at h
    · obtain rfl := Except.ok.inj h
      simp
    · obtain rfl := Except.ok.inj h
      simp
    · obtain rfl := Except.ok.inj h
      simp

theorem compact_error {system : String} {maxTokens keepRecent : ℤ} {text : String}
    (h : Context.compact estimateTokens msgs system maxTokens keepRecent = .error text) : keepRecent < 0 := by
  unfold Context.compact at h
  split_ifs at h with hfits hkeep
  · exact hkeep
  · dsimp only at h
    split_ifs at h

/-- `compact`, and what `_model` does with it. -/
theorem holds_compact (hkeep : T.calm → 0 ≤ T.agent.keepRecent) (system : String) :
    (contract R crashes T).Holds me (Going R crashes T me P c) (compact me.1 T.agent system)
      (orRaised R crashes T me fun _ => Going R crashes T me P c) := by
  have hchanged : ∀ msgs : List Message, msgs ≠ [] → (contract R crashes T).Holds me (Going R crashes T me P c)
      (do
        assign me.1 fun l => { l with msgs := msgs }
        event (.contextCompacted msgs.length (Context.count estimateTokens msgs system)))
      (orRaised R crashes T me fun _ => Going R crashes T me P c) :=
    fun msgs hmsgs => then_returns (holds_messages hmsgs) fun _ => orRaised_of_returns (holds_plain rfl)
  refine then_returns holds_getLocals_going fun l => ?_
  refine Contract.Holds.assume (φ := l.msgs ≠ []) (fun _ _ _ _ _ hp => hp.2.1) fun hmsgs => ?_
  refine Contract.Holds.weaken_pre ?_ fun _ _ _ _ _ hp => hp.1
  dsimp only
  split
  · rename_i text htext
    refine .fail ?_
    rintro s h F t - ⟨hh, x, hx, hsettled, -⟩
    refine ⟨fun _ hcalm => ?_, hh, x, hx, hsettled, trivial, nofun⟩
    exact absurd (compact_error htext) (not_lt.mpr (hkeep hcalm))
  · exact .ret .rfl
  · rename_i msgs hout
    exact hchanged msgs (compact_msgs hout hmsgs)
  · rename_i pinned dropped rest hout
    refine then_orRaised (holds_noteOf dropped) fun text => hchanged _ ?_
    have hpinned := compact_msgs hout hmsgs
    simp [hpinned]

theorem account_stepRequest (hs : Fixed T s) (i : ℕ) (agent : AgentDef) (system : String) :
    account (R.stepRequest i agent system s) = T.owner := by
  cases hcost : agent.maxCostUsd with
  | none => exact account_metadata (R := R) agent s hs _ .null (.inl (by simp [stepRequest, hcost]))
  | some m =>
    refine account_metadata (R := R) agent s hs _ (.num (max 0 (m - (s.locals i).costUsd))) (.inr (.inr ?_))
    simp [stepRequest, hcost]

/-- The books after a step, before it is counted. -/
def Uncounted (R : HarnessRunner) (crashes : Bool) (T : Terms) (me : Γ.Handle) (P : ℕ → Prop) : (contract R crashes T).Assn :=
  At R crashes T me fun s l => s.run.status = .running ∧ Booked T [] s.journal { l with step := l.step + 1 } ∧ P l.step

/-- `_model`. -/
theorem holds_model (hkeep : T.calm → 0 ≤ T.agent.keepRecent) (hP : ∀ n, P n → (n : ℤ) < T.agent.maxSteps) :
    (contract R crashes T).Holds me (Going R crashes T me P True) (R.model me.1 T.agent)
      (orRaised R crashes T me fun _ => Uncounted R crashes T me P) := by
  refine then_returns (holds_read (Going R crashes T me P True)) fun system => ?_
  refine then_orRaised ((holds_compact hkeep system).weaken_pre fun _ _ _ _ _ hp => hp.1) fun _ => ?_
  refine then_returns (holds_read (Going R crashes T me P True)) fun ⟨req, timeout⟩ => ?_
  refine Contract.Holds.assume (φ := account req = T.owner) ?_ fun haccount => ?_
  · rintro s h F t hinv ⟨-, heq⟩
    obtain ⟨rfl, -⟩ := Prod.mk.inj heq
    exact account_stepRequest hinv.fixed me.1 T.agent system
  refine Contract.Holds.bind ((holds_route ⟨fun _ => trivial, fun _ => haccount, fun _ => hP⟩).weaken_pre fun _ _ _ _ _ hp => hp.1)
    (fun resp => ?_) fun e => ?_
  · refine then_returns (N := fun _ => Uncounted R crashes T me P) ((holds_assign _).weaken_pre ?_) fun _ => ?_
    · rintro s h F t - ⟨hh, x, hx, hrunning, hbooked, hP, -⟩
      exact ⟨hh, x, hx, hrunning, hbooked, hP⟩
    refine then_returns (holds_getLocals (φ := fun s l => s.run.status = .running ∧ Booked T [] s.journal { l with step := l.step + 1 } ∧ P l.step))
      fun l => ?_
    refine then_returns (N := fun _ => Uncounted R crashes T me P) ((holds_note _).weaken_pre ?_) fun _ => .ret .rfl
    rintro s h F t - ⟨hh, x, hx, ⟨hrunning, hbooked, hP⟩, -⟩
    exact ⟨hh, x, hx, hrunning, hbooked.plain rfl, hP⟩
  · rintro s h F t - ⟨hcalm, hh, x, hx, hsettled, -⟩
    exact ⟨hcalm nofun, hh, x, hx, hsettled, trivial, nofun⟩

/-! ## Tools -/

theorem holds_yields {f : HarnessState → α × HarnessState} (hf : ∀ s, Keeps T s (f s).2) :
    (contract R crashes T).Holds me (Going R crashes T me P c) (Coro.sync (Sync.yields f))
      ((contract R crashes T).returns fun _ => Going R crashes T me P c) := by
  refine Contract.Holds.sync fun s h F t hinv ⟨hh, x, hx, hsettled, hP, hc⟩ => ?_
  have hkeeps := hf s
  refine ⟨fun j _ => hkeeps.own j, h, hkeeps.inv hinv, _, rfl, hh, x, hkeeps.only hx, hkeeps.settled x hsettled, hP, fun hyes => ?_⟩
  have hreading : lastReading (f s).2.journal = lastReading s.journal := congrArg Known.reading hkeeps.known
  rw [Sync.yields_run, hreading]
  exact hc hyes

/-- `registry.call`. -/
theorem holds_callTool (call : ToolCall) (args : Json) (decision : Option Bool) (approved : Bool) :
    (contract R crashes T).Holds me (Going R crashes T me P c) (R.callTool T.agent call args decision approved)
      (orRaised R crashes T me fun _ => Going R crashes T me P c) := by
  refine then_returns (N := fun _ => Going R crashes T me P c) ?_ fun answer => ?_
  · exact holds_yields fun s => keeps_of_eq rfl rfl rfl rfl
  · cases answer with
    | error e => exact .ret .rfl
    | ok tool =>
      refine then_returns (N := fun _ => Rest R crashes T me fun l k => P l.step ∧ (c → Room T k.reading)) (holds_note_rest.weaken_pre ?_) fun _ => ?_
      · rintro s h F t - ⟨hh, x, hx, hsettled, hP, hc⟩
        exact ⟨hh, x, hx, ⟨hsettled.booked.plain rfl, hsettled.running⟩, hP, hc⟩
      · refine holds_query.weaken_post fun r => ?_
        rintro s h F t hinv ⟨hrest, hallowed⟩
        obtain ⟨hh, x, hx, hsettled, hP, hc⟩ := rest_booked s h F t hinv hrest
        cases r with
        | ok answer => exact ⟨hh, x, hx, hsettled, hP, hc⟩
        | error e =>
          obtain rfl : e = .cancelled := hallowed
          exact ⟨fun hne => absurd rfl hne, hh, x, hx, hsettled, trivial, nofun⟩

/-- `_run_one`. -/
theorem holds_runOne (call : ToolCall) (decision : Option Bool) :
    (contract R crashes T).Holds me (Going R crashes T me P c) (R.runOne T.agent call decision)
      (orRaised R crashes T me fun _ => Going R crashes T me P c) := by
  unfold runOne
  split
  · exact .ret .rfl
  · split
    · exact .ret .rfl
    · refine then_orRaised (holds_callTool call _ decision false) fun answer => ?_
      split
      · exact .ret .rfl
      · split
        · exact then_orRaised (holds_callTool call _ decision true) fun _ => .ret .rfl
        · exact .ret .rfl

/-- Where the tools leave the run. -/
def AfterTools (R : HarnessRunner) (crashes : Bool) (T : Terms) (me : Γ.Handle) (P : ℕ → Prop) (stopped : Bool) : (contract R crashes T).Assn :=
  if stopped then Stopped R crashes T me else Going R crashes T me P False

theorem holds_wait_true (call : ToolCall) (rest : List ToolCall) :
    (contract R crashes T).Holds me (Going R crashes T me P False) (do wait me.1 call rest; pure true)
      (orRaised R crashes T me fun b => AfterTools R crashes T me P b) :=
  then_returns (holds_wait call rest) fun _ => .ret .rfl

/-- `_tools`. -/
theorem holds_tools (cs : List ToolCall) (decision : Option Bool) :
    (contract R crashes T).Holds me (Going R crashes T me P False) (R.tools me.1 T.agent cs decision)
      (orRaised R crashes T me fun b => AfterTools R crashes T me P b) := by
  induction cs generalizing decision with
  | nil => exact .ret .rfl
  | cons call rest ih =>
    unfold tools
    split
    · cases decision with
      | none => exact holds_wait_true call rest
      | some approved => exact then_returns (holds_plain rfl) fun _ => then_returns (holds_append _) fun _ => ih none
    · split
      · exact holds_wait_true call rest
      · split
        · refine then_returns (holds_plain rfl) fun _ => ?_
          refine then_returns (holds_getLocals_going) fun l => ?_
          refine then_returns ((holds_plain rfl).weaken_pre fun _ _ _ _ _ hp => hp.1) fun _ => ?_
          exact then_returns (holds_append _) fun _ => ih none
        · refine then_orRaised (holds_runOne call decision) fun step => ?_
          split
          · exact holds_wait_true call rest
          · refine then_returns (N := fun _ => Going R crashes T me P False) ?_ fun _ => ?_
            · apply Contract.Holds.when
              · exact fun _ => holds_plain rfl
              · exact fun _ s h F t _ hp => ⟨_, rfl, hp⟩
            refine then_returns (holds_getLocals_going) fun l => ?_
            refine then_returns ((holds_plain rfl).weaken_pre fun _ _ _ _ _ hp => hp.1) fun _ => ?_
            exact then_returns (holds_append _) fun _ => ih none

/-! ## The loop -/

theorem going_mono {Q : ℕ → Prop} {d : Prop} (hPQ : ∀ n, P n → Q n) (hcd : d → c) :
    (contract R crashes T).Entails (Going R crashes T me P c) (Going R crashes T me Q d) :=
  fun _ _ _ _ _ ⟨hh, x, hx, hsettled, hP, hc⟩ => ⟨hh, x, hx, hsettled, hPQ _ hP, fun hd => hc (hcd hd)⟩

/-- The argument of the loop: more than is left of the step limit. -/
def Left (agent : AgentDef) (n k : ℕ) : Prop := agent.maxSteps < k + n ∧ (n = 0 → (k : ℤ) ≤ agent.maxSteps)

theorem Left.not_zero {k : ℕ} (h : Left agent 0 k) : False := by
  have hlt := h.1
  have hle := h.2 rfl
  omega

theorem Left.next {n k : ℕ} (h : Left agent (n + 1) k) (hroom : (k : ℤ) < agent.maxSteps) : Left agent n (k + 1) := by
  have hlt := h.1
  constructor <;> push_cast at * <;> omega

/-- The loop of `_execute` stops the run. -/
theorem holds_loop (hkeep : T.calm → 0 ≤ T.agent.keepRecent) (n : ℕ) :
    (contract R crashes T).Holds me (Going R crashes T me (Left T.agent n) False) (R.loop me.1 T.agent n)
      (orRaised R crashes T me fun _ => Stopped R crashes T me) := by
  induction n with
  | zero => exact .fail fun s h F t _ ⟨_, _, _, _, hleft, _⟩ => hleft.not_zero.elim
  | succ n ih =>
    refine then_returns holds_limit fun v => ?_
    cases v with
    | some reason => exact orRaised_of_returns (holds_finishRun reason none)
    | none =>
      let room (k : ℕ) : Prop := Left T.agent (n + 1) k ∧ (k : ℤ) < T.agent.maxSteps
      refine then_orRaised ((holds_model (P := room) hkeep fun _ h => h.2).weaken_pre ?_) fun resp => ?_
      · exact going_mono (fun _ h => ⟨h.1, h.2 rfl⟩) fun _ => rfl
      refine then_returns (N := fun _ => Going R crashes T me (Left T.agent n) False) ((holds_assign _).weaken_pre ?_) fun _ => ?_
      · rintro s h F t - ⟨hh, x, hx, hrunning, hbooked, hleft, hroom⟩
        exact ⟨hh, x, hx, ⟨hbooked, hrunning⟩, hleft.next hroom, nofun⟩
      split
      · refine then_returns (holds_append _) fun _ => ?_
        refine then_returns (N := fun _ => Going R crashes T me (Left T.agent n) False) (holds_checkpoint_going ?_) fun _ => ?_
        · exact fun _ => ⟨rfl, rfl, rfl, rfl⟩
        · exact orRaised_of_returns (holds_finishRun .completed _)
      · refine then_returns (holds_append _) fun _ => ?_
        refine then_orRaised (holds_tools resp.toolCalls none) fun stopped => ?_
        cases stopped with
        | true => exact .ret .rfl
        | false =>
          refine then_returns (N := fun _ => Going R crashes T me (Left T.agent n) False) (holds_checkpoint_going ?_) fun _ => ?_
          · exact fun _ => ⟨rfl, rfl, rfl, rfl⟩
          refine then_returns holds_getLocals_going fun l => ?_
          refine Contract.Holds.weaken_pre ?_ fun _ _ _ _ _ hp => hp.1
          split
          · exact orRaised_of_returns (holds_finishRun .stalled none)
          · exact ih

/-- The plan, and the loop. -/
theorem holds_goOn (hkeep : T.calm → 0 ≤ T.agent.keepRecent) (pending : Option (List ToolCall)) :
    (contract R crashes T).Holds me (Going R crashes T me (fun _ => True) False) (R.goOn me.1 T.agent pending)
      (orRaised R crashes T me fun _ => Stopped R crashes T me) := by
  refine then_returns (holds_read (Going R crashes T me (fun _ => True) False)) fun left => ?_
  refine Contract.Holds.weaken_pre (?_ : (contract R crashes T).Holds me (Going R crashes T me (Left T.agent left) False) _ _) ?_
  · refine then_returns holds_getLocals_going fun l => ?_
    refine Contract.Holds.weaken_pre ?_ fun _ _ _ _ _ hp => hp.1
    split
    · refine then_returns holds_limit fun v => ?_
      cases v with
      | some reason => exact orRaised_of_returns (holds_finishRun reason none)
      | none =>
        refine then_orRaised (holds_plan.weaken_pre ?_) fun _ => holds_loop hkeep left
        exact going_mono (fun _ h => h.1) fun _ => rfl
    · exact holds_loop hkeep left
  · rintro s h F t - ⟨⟨hh, x, hx, hsettled, -, hc⟩, rfl⟩
    refine ⟨hh, x, hx, hsettled, ?_, hc⟩
    rw [hx.locals]
    exact ⟨by push_cast; omega, fun hzero => by omega⟩

theorem holds_attempt (hkeep : T.calm → 0 ≤ T.agent.keepRecent) (pending : Option (List ToolCall)) (decision : Option Bool) :
    (contract R crashes T).Holds me (Going R crashes T me (fun _ => True) False) (R.attempt me.1 T.agent pending decision)
      (orRaised R crashes T me fun _ => Stopped R crashes T me) := by
  cases pending with
  | none => exact holds_goOn hkeep none
  | some cs =>
    refine then_orRaised (holds_tools cs decision) fun stopped => ?_
    cases stopped with
    | true => exact .ret .rfl
    | false => exact holds_goOn hkeep (some cs)

/-- The handlers of `_execute`. -/
theorem holds_rescue (e : Exc) :
    (contract R crashes T).Holds me (Raised R crashes T me e) (rescue me.1 e) fun _ => Stopped R crashes T me := by
  cases e with
  | cancelled =>
    refine then_returns (N := fun _ => Stopped R crashes T me) ((holds_checkpoint_stop ?_ ?_ ?_).weaken_pre fun _ _ _ _ _ hp => hp.2)
      fun _ => .fail .rfl
    · exact fun _ => ⟨rfl, rfl, rfl⟩
    · exact fun _ => rfl
    · exact fun _ => rfl
  | error name detail =>
    refine Contract.Holds.assume (φ := ¬T.calm) (fun _ _ _ _ _ hp => hp.1 nofun) fun hcalm => ?_
    refine then_returns ((holds_plain rfl).weaken_pre fun _ _ _ _ _ hp => hp.2) fun _ => ?_
    refine then_returns (N := fun _ => Stopped R crashes T me) ((holds_checkpoint ?_).weaken_pre ?_) fun _ => ?_
    · exact fun _ => ⟨rfl, rfl, rfl⟩
    · rintro s h F t - ⟨hh, x, hx, hsettled, -⟩
      refine ⟨hh, x, hx, ?_⟩
      beta_reduce
      have hstatus : (id (s.run.save (s.locals me.1))).status = s.run.status := rfl
      rw [locals_save, journal_save, if_pos hstatus, hx.locals]
      · exact hsettled.booked.saved.plain rfl
      · exact fun _ => rfl
    refine then_returns (N := fun _ => Stopped R crashes T me) ((holds_write ?_).weaken_pre ?_) fun _ => ?_
    · exact fun _ => ⟨rfl, rfl, rfl⟩
    · rintro s h F t - ⟨hh, x, hx, hbooked⟩
      refine ⟨hh, x, hx, ?_⟩
      show Booked T [] (if _ then _ else _) _
      split
      · exact hbooked
      · exact (hbooked.became rfl).restless hcalm []
    refine then_returns holds_getLocals fun l => ?_
    have htraced : (contract R crashes T).Holds me (At R crashes T me fun s x => Booked T [] s.journal s.run.locals ∧ l = x)
        (event (.runFinished .error (some l.step) none)) ((contract R crashes T).returns fun _ => Stopped R crashes T me) := by
      refine (holds_note _).weaken_pre ?_
      rintro s h F t - ⟨hh, x, hx, hbooked, -⟩
      exact ⟨hh, x, hx, (hbooked.traced _ _ _).restless hcalm []⟩
    exact htraced.weaken_post fun _ s h F t _ ⟨_, _, hp⟩ => hp

/-! ## Executions -/

/-- An execution before its first change. -/
def Starting (R : HarnessRunner) (crashes : Bool) (T : Terms) (run : Run) : (contract R crashes T).Assn :=
  fun s h _ => h = ({.ready} : Multiset Phase) ∧ s.run = run

/-- An execution at its end. -/
def Over (R : HarnessRunner) (crashes : Bool) (T : Terms) (me : Γ.Handle) : (contract R crashes T).Assn :=
  fun s h t => h = ({.ready} : Multiset Phase) ∨ Stopped R crashes T me s h t

theorem keeps_note (he : e.plain) : Keeps T s (s.note e) where
  fixed h := ⟨h.name, h.owner, h.deadline⟩
  frames := rfl
  live := rfl
  known := congrArg₂ Known.mk (lastReading_plain he) (lastAsked_plain he)
  idle h := h.plain he
  settled _ h := ⟨h.booked.plain he, h.running⟩

theorem holds_starting_plain {run : Run} (he : e.plain) :
    (contract R crashes T).Holds me (Starting R crashes T run) (note e) ((contract R crashes T).returns fun _ => Starting R crashes T run) := by
  refine Contract.Holds.sync fun s h F t hinv hp => ?_
  have hkeeps : Keeps T s (s.note e) := keeps_note he
  exact ⟨fun j _ => hkeeps.own j, h, hkeeps.inv hinv, (), rfl, hp⟩

/-- The local variables are set up. -/
theorem holds_enter (run : Run) :
    (contract R crashes T).Holds me (Starting R crashes T run) (update (·.setFrame me.1 (some run.locals)))
      ((contract R crashes T).returns fun _ => At R crashes T me fun s l => s.run.locals = l ∧ Booked T [] s.journal l) := by
  refine Contract.Holds.sync fun s h F t hinv ⟨hh, hrun⟩ => ?_
  subst hh hrun
  obtain ⟨rfl, hlive, hidle⟩ := hinv.holding
  have honly : Only (s.setFrame me.1 (some s.run.locals)) me.1 s.run.locals := by
    refine ⟨if_pos rfl, fun j hj => ?_⟩
    rw [HarnessState.setFrame, ← hidle.frames j]
    exact if_neg hj
  refine ⟨fun j hj => ?_, ({.moving} : Multiset Phase), ⟨⟨hinv.fixed.name, hinv.fixed.owner, hinv.fixed.deadline⟩, ?_⟩,
    (), rfl, .inr rfl, _, honly, rfl, hidle.booked⟩
  · show ownOf j _ = ownOf j s
    rw [ownOf, ownOf, hidle.frames j]
    exact congrArg _ (honly.2 j hj)
  · exact .inr ⟨.moving, Multiset.add_zero _, hlive, trivial⟩

theorem holds_running :
    (contract R crashes T).Holds me (At R crashes T me fun s l => s.run.locals = l ∧ Booked T [] s.journal l)
      (write fun r => { r with status := .running, pending := none })
      ((contract R crashes T).returns fun _ => Going R crashes T me (fun _ => True) False) := by
  refine (holds_write ?_).weaken_pre ?_
  · exact fun _ => ⟨rfl, rfl, rfl⟩
  · rintro s h F t - ⟨hh, x, hx, -, hbooked⟩
    refine ⟨hh, x, hx, ⟨?_, rfl⟩, trivial, nofun⟩
    show Booked T [] (if _ then _ else _) x
    split
    · exact hbooked
    · exact hbooked.plain rfl

/-- `_execute`. -/
theorem holds_execute (hkeep : T.calm → 0 ≤ T.agent.keepRecent) (hagent : R.agents.get? T.name = some agent)
    (heffective : T.agent = agent.effective) (decision : Option Bool) :
    (contract R crashes T).Holds me (fun _ h _ => h = ({.ready} : Multiset Phase)) (R.execute me.1 decision) fun _ => Over R crashes T me := by
  refine then_returns (holds_read fun _ h _ => h = ({.ready} : Multiset Phase)) fun run => ?_
  refine then_returns (N := fun _ => Starting R crashes T run) ((holds_starting_plain rfl).weaken_pre ?_) fun _ => ?_
  · exact fun s h F t _ ⟨hh, heq⟩ => ⟨hh, heq.symm⟩
  split
  · exact .ret fun s h F t _ hp => .inl hp.1
  · refine Contract.Holds.assume (φ := run.agent = T.name) ?_ fun hname => ?_
    · rintro s h F t hinv ⟨-, rfl⟩
      exact hinv.fixed.name
    rw [hname, hagent]
    dsimp only
    rw [← heffective]
    refine then_returns (holds_enter run) fun _ => ?_
    refine then_returns holds_running fun _ => ?_
    refine then_returns (holds_plain ?_) fun _ => ?_
    · split <;> rfl
    refine Contract.Holds.bind (N := fun _ => Stopped R crashes T me) ?_ (fun _ => ?_) fun _ s h F t _ hp => .inr hp
    · exact Contract.Holds.tryCatch (holds_attempt hkeep run.pending decision) (fun _ => .rfl) holds_rescue
    · refine (holds_read (Stopped R crashes T me)).weaken_post ?_
      rintro r s h F t - ⟨_, -, hp, -⟩
      exact .inr hp

/-- An execution ends without a token. -/
theorem holds_leave : (contract R crashes T).Holds me (Over R crashes T me) (leave me.1) fun r _ h _ => r = .ok () ∧ h = 0 := by
  refine Contract.Holds.sync fun s h F t hinv hp => ?_
  have hend : F = 0 ∧ s.live = 1 ∧ (∀ j ≠ me.1, s.frames j = none) ∧ Booked T [] s.journal s.run.locals := by
    obtain rfl | ⟨hh, x, hx, hbooked⟩ := hp
    · obtain ⟨hF, hlive, hidle⟩ := hinv.holding
      exact ⟨hF, hlive, fun j _ => hidle.frames j, hidle.booked⟩
    · obtain ⟨hF, hlive⟩ := hinv.alone hh
      exact ⟨hF, hlive, hx.2, hbooked⟩
  obtain ⟨rfl, hlive, hothers, hbooked⟩ := hend
  refine ⟨fun j hj => ?_, (0 : Multiset Phase), ⟨⟨hinv.fixed.name, hinv.fixed.owner, hinv.fixed.deadline⟩, .inl ⟨rfl, ?_, ?_, hbooked⟩⟩, rfl, rfl⟩
  · show ownOf j _ = ownOf j s
    rw [ownOf, ownOf, hothers j hj]
    exact congrArg _ ((if_neg hj).trans (hothers j hj))
  · show s.live - 1 = 0
    omega
  · intro j
    by_cases hj : j = me.1
    · exact if_pos hj
    · exact (if_neg hj).trans (hothers j hj)

theorem holds_body (hkeep : T.calm → 0 ≤ T.agent.keepRecent) (hagent : R.agents.get? T.name = some agent)
    (heffective : T.agent = agent.effective) (e : Execution) :
    (contract R crashes T).Holds me (fun _ h _ => h = ({.ready} : Multiset Phase)) (R.body me.1 e) fun _ _ h _ => h = 0 := by
  obtain ⟨decision⟩ := e
  refine Contract.Holds.tryFinally (holds_execute hkeep hagent heffective decision) (fun _ => holds_leave) ?_ ?_
  · exact fun _ s h F t _ hp => hp.2
  · exact fun _ e s h F t _ hp => hp.2

end

end Caips.Harness.HarnessRunner
