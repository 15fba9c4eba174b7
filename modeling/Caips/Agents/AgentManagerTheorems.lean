/-
Caips.Agents.AgentManagerTheorems — the status of an agent and what it does.

Only `pause_agent` and `resume_agent` set and clear the event of an agent
(`step_isSet`), but five places write its status, and none of them looks at what is
there. What a step writes agrees with the agent exactly if it is `Timely`
(`step_agrees_iff`): an agent becomes idle when its last task ends while it is not
paused, and so on. Hence the status agrees all along a run if and only if every step
of the run is timely (`agrees_iff_timely`).
-/
import Caips.Agents.AgentManager

namespace Caips.Agents.AgentManager

open Caips.Logic

variable {x y : AgentManager} {a b : ℕ} {e : Event}

/-- The status of an agent agrees with what it does: it is idle only while no task
executes on it, and as long as it is paused its status is that and no task is
dispatched to it. -/
structure AgreesAt (x : AgentManager) (a : ℕ) (r : AgentRecord) : Prop where
  idle : r.status = .idle → .executing a ∉ x.calls
  paused : r.isSet = false → r.status = .paused ∧ x.dispatchTask a = none

/-- The status of every agent agrees. -/
def Agrees (x : AgentManager) : Prop := ∀ a r, x.agents.get? a = some r → AgreesAt x a r

/-- The agent is not paused, if it is there. -/
def Awake (x : AgentManager) (a : ℕ) : Prop := ∀ r, x.agents.get? a = some r → r.isSet = true

/-- No task but those of these calls executes on the agent, if it is there. -/
def Unused (x : AgentManager) (a : ℕ) (calls : List Call) : Prop :=
  ∀ r, x.agents.get? a = some r → .executing a ∉ calls

/-- The step comes at a time when what it writes agrees with the agent. -/
def Timely (x : AgentManager) : Event → Prop
  | .spawned a .success => Unused x a x.calls ∧ Awake x a
  | .spawned a .error => Awake x a
  | .dispatched a _ => Unused x a (x.calls.erase (.executing a)) ∧ Awake x a
  | .resumeAgent a => Unused x a x.calls
  | .stopped a .success | .stopped a .error => Awake x a
  | .restarted a .success => Unused x a x.calls ∧ Awake x a
  | _ => True

/-! ## What one step writes -/

theorem get?_update_self (f : AgentRecord → AgentRecord) : (x.update a f).get? a = (x.agents.get? a).map f := by
  unfold update
  cases hget : x.agents.get? a with
  | none => simpa using hget
  | some r => simp

theorem get?_update_ne (f : AgentRecord → AgentRecord) (h : b ≠ a) : (x.update a f).get? b = x.agents.get? b := by
  unfold update
  cases x.agents.get? a with
  | none => rfl
  | some r => exact Dict.get?_set_ne _ _ (Ne.symm h)

variable {f : AgentRecord → AgentRecord} {next : List Call}

theorem enter_eq_some {available : AgentRecord → Bool} :
    x.enter a available f next = some y ↔
      (∃ r, x.agents.get? a = some r ∧ available r = true) ∧ y = ⟨x.update a f, next ++ x.calls⟩ := by
  unfold enter
  cases x.agents.get? a with
  | none => simp
  | some r =>
    by_cases h : available r = true
    · simp only [Option.any_some, h, if_true, Option.some.injEq, exists_eq_left', true_and]
      exact eq_comm
    · simp [h]

theorem proceed_eq_some {c : Call} :
    x.proceed c f next = some y ↔ c ∈ x.calls ∧ y = ⟨x.update c.agentId f, next ++ x.calls.erase c⟩ := by
  unfold proceed
  split
  · next h => simp [h, eq_comm]
  · next h => simp [h]

theorem dispatchTask_of_paused {r : AgentRecord} (hget : x.agents.get? a = some r) (h : r.status = .paused) :
    x.dispatchTask a = none := by
  simp [dispatchTask, enter, hget, h]

theorem agreesAt_iff {r : AgentRecord} (hget : x.agents.get? a = some r) :
    AgreesAt x a r ↔ (r.status = .idle → .executing a ∉ x.calls) ∧ (r.isSet = false → r.status = .paused) := by
  constructor
  · intro h
    exact ⟨h.idle, fun hclear => (h.paused hclear).1⟩
  · intro h
    exact ⟨h.1, fun hclear => ⟨h.2 hclear, dispatchTask_of_paused hget (h.2 hclear)⟩⟩

/-- What is written to one record has to agree with that agent. -/
theorem agrees_write_iff (hx : Agrees x) {calls : List Call}
    (hcalls : ∀ b, b ≠ a → (.executing b ∈ calls ↔ .executing b ∈ x.calls)) :
    Agrees ⟨x.update a f, calls⟩ ↔ ∀ r, x.agents.get? a = some r →
      ((f r).status = .idle → .executing a ∉ calls) ∧ ((f r).isSet = false → (f r).status = .paused) := by
  constructor
  · intro h r hr
    have hget : (x.update a f).get? a = some (f r) := by simp [get?_update_self, hr]
    exact (agreesAt_iff hget).mp (h a (f r) hget)
  · intro h b r hget
    refine (agreesAt_iff hget).mpr ?_
    by_cases hb : b = a
    · subst hb
      obtain ⟨r, hr, rfl⟩ := Option.map_eq_some_iff.mp ((get?_update_self f).symm.trans hget)
      exact h r hr
    · have hr := (get?_update_ne f hb).symm.trans hget
      obtain ⟨hidle, hpaused⟩ := (agreesAt_iff hr).mp (hx b r hr)
      exact ⟨fun hstatus => mt (hcalls b hb).mp (hidle hstatus), hpaused⟩

theorem executing_append (hnext : ∀ c ∈ next, c.agentId = a) (h : b ≠ a) (calls : List Call) :
    .executing b ∈ next ++ calls ↔ .executing b ∈ calls := by
  have hmem : .executing b ∉ next := fun hmem => h (hnext _ hmem)
  simp [hmem]

theorem agrees_enter_iff (hx : Agrees x) {available : AgentRecord → Bool}
    (hnext : ∀ c ∈ next, c.agentId = a) (h : x.enter a available f next = some y) :
    Agrees y ↔ ∀ r, x.agents.get? a = some r → ((f r).status = .idle → .executing a ∉ next ++ x.calls) ∧
      ((f r).isSet = false → (f r).status = .paused) := by
  obtain ⟨-, rfl⟩ := enter_eq_some.mp h
  exact agrees_write_iff hx fun b hb => executing_append hnext hb _

theorem agrees_proceed_iff (hx : Agrees x) {c : Call}
    (hnext : ∀ d ∈ next, d.agentId = c.agentId) (h : x.proceed c f next = some y) :
    Agrees y ↔ ∀ r, x.agents.get? c.agentId = some r →
      ((f r).status = .idle → .executing c.agentId ∉ next ++ x.calls.erase c) ∧
        ((f r).isSet = false → (f r).status = .paused) := by
  obtain ⟨-, rfl⟩ := proceed_eq_some.mp h
  refine agrees_write_iff hx fun b hb => ?_
  have hne : Call.executing b ≠ c := fun heq => hb (congrArg Call.agentId heq)
  rw [executing_append hnext hb, List.mem_erase_of_ne hne]

theorem agrees_unchanged (hx : Agrees x) {calls : List Call} (hcalls : .executing a ∈ calls → .executing a ∈ x.calls) :
    ∀ r, x.agents.get? a = some r → (r.status = .idle → .executing a ∉ calls) ∧ (r.isSet = false → r.status = .paused) := by
  intro r hr
  obtain ⟨hidle, hpaused⟩ := (agreesAt_iff hr).mp (hx a r hr)
  exact ⟨fun hstatus => mt hcalls (hidle hstatus), hpaused⟩

theorem spawnAgent_agrees (hx : Agrees x) (h : x.spawnAgent a = some y) : Agrees y := by
  unfold spawnAgent at h
  split at h
  · obtain rfl := Option.some.inj h
    intro b r hget
    refine (agreesAt_iff hget).mpr ?_
    by_cases hb : b = a
    · subst hb
      obtain rfl := Option.some.inj ((Dict.get?_set_self _ _ _).symm.trans hget)
      simp
    · have hr := (Dict.get?_set_ne _ _ (Ne.symm hb)).symm.trans hget
      obtain ⟨hidle, hpaused⟩ := (agreesAt_iff hr).mp (hx b r hr)
      exact ⟨fun hstatus => by simpa using hidle hstatus, hpaused⟩
  · cases h

theorem terminated_agrees (hx : Agrees x) (h : x.terminated a = some y) : Agrees y := by
  obtain ⟨z, hz, rfl⟩ := Option.map_eq_some_iff.mp h
  obtain ⟨-, rfl⟩ := proceed_eq_some.mp hz
  intro b r hget
  refine (agreesAt_iff hget).mpr ?_
  by_cases hb : b = a
  · subst hb
    exact nomatch (Dict.get?_pop_self _ _).symm.trans hget
  · have hr := ((get?_update_ne _ hb).symm.trans (Dict.get?_pop_ne _ (Ne.symm hb)).symm).trans hget
    obtain ⟨hidle, hpaused⟩ := (agreesAt_iff hr).mp (hx b r hr)
    exact ⟨fun hstatus hmem => hidle hstatus (List.mem_of_mem_erase hmem), hpaused⟩

/-! ## One step -/

/-- A step from a state in which the statuses agree leads to one in which they do,
exactly if it is timely. -/
theorem step_agrees_iff (hx : Agrees x) (h : x.step e = some y) : Agrees y ↔ Timely x e := by
  cases e with
  | spawnAgent a => exact iff_of_true (spawnAgent_agrees hx h) trivial
  | spawned a ending =>
    rw [agrees_proceed_iff hx (by simp) h]
    cases ending with
    | success => simp [Timely, Awake, Unused, Call.agentId, forall_and]
    | error => simp [Timely, Awake, Call.agentId]
    | cancelled => exact iff_of_true (agrees_unchanged hx List.mem_of_mem_erase) trivial
  | dispatchTask a =>
    rw [agrees_enter_iff hx (by simp [Call.agentId]) h]
    refine iff_of_true (fun r hr => ⟨by simp, fun hclear => ?_⟩) trivial
    have hnone := ((hx a r hr).paused hclear).2
    cases hnone.symm.trans h
  | dispatched a ending =>
    rw [agrees_proceed_iff hx (by simp) h]
    cases ending <;> simp [Timely, Awake, Unused, Call.agentId, forall_and]
  | pauseAgent a =>
    rw [agrees_enter_iff hx (by simp) h]
    simp [Timely]
  | resumeAgent a =>
    rw [agrees_enter_iff hx (by simp) h]
    simp [Timely, Unused]
  | terminateAgent a =>
    rw [agrees_enter_iff hx (by simp [Call.agentId]) h]
    exact iff_of_true (agrees_unchanged hx (by simp)) trivial
  | terminated a => exact iff_of_true (terminated_agrees hx h) trivial
  | restartAgent a =>
    rw [agrees_enter_iff hx (by simp [Call.agentId]) h]
    exact iff_of_true (agrees_unchanged hx (by simp)) trivial
  | stopped a ending =>
    cases ending with
    | cancelled =>
      rw [agrees_proceed_iff hx (by simp) h]
      exact iff_of_true (agrees_unchanged hx List.mem_of_mem_erase) trivial
    | _ =>
      rw [agrees_proceed_iff hx (by simp [Call.agentId]) h]
      simp [Timely, Awake, Call.agentId]
  | restarted a ending =>
    rw [agrees_proceed_iff hx (by simp) h]
    cases ending with
    | success => simp [Timely, Awake, Unused, Call.agentId, forall_and]
    | _ => exact iff_of_true (agrees_unchanged hx List.mem_of_mem_erase) trivial

/-- The event of an agent is cleared by `pause_agent`, set by `resume_agent`, and
left as it is by every other step. -/
theorem step_isSet (h : x.step e = some y) {r r' : AgentRecord} (hr : x.agents.get? a = some r)
    (hr' : y.agents.get? a = some r') :
    r'.isSet = if e = .pauseAgent a then false else if e = .resumeAgent a then true else r.isSet := by
  have hwrite {b : ℕ} {f : AgentRecord → AgentRecord} (hget : (x.update b f).get? a = some r') :
      (b = a ∧ r' = f r) ∨ (b ≠ a ∧ r' = r) := by
    by_cases hb : a = b
    · subst hb
      rw [get?_update_self, hr] at hget
      exact .inl ⟨rfl, (Option.some.inj hget).symm⟩
    · rw [get?_update_ne f hb, hr] at hget
      exact .inr ⟨Ne.symm hb, (Option.some.inj hget).symm⟩
  cases e with
  | spawnAgent b =>
    change x.spawnAgent b = some y at h
    unfold spawnAgent at h
    split at h
    · next hfree =>
        obtain rfl := Option.some.inj h
        have hne : b ≠ a := fun hba => by cases (hba ▸ hfree.2.1).symm.trans hr
        have hsame := (Dict.get?_set_ne _ _ hne).symm.trans hr'
        simp [Option.some.inj (hr.symm.trans hsame)]
    · cases h
  | pauseAgent b =>
    obtain ⟨-, rfl⟩ := enter_eq_some.mp h
    obtain ⟨rfl, rfl⟩ | ⟨hne, rfl⟩ := hwrite hr'
    · simp
    · simp [hne]
  | resumeAgent b =>
    obtain ⟨-, rfl⟩ := enter_eq_some.mp h
    obtain ⟨rfl, rfl⟩ | ⟨hne, rfl⟩ := hwrite hr'
    · simp
    · simp [hne]
  | dispatchTask b | terminateAgent b | restartAgent b =>
    obtain ⟨-, rfl⟩ := enter_eq_some.mp h
    obtain ⟨-, rfl⟩ | ⟨-, rfl⟩ := hwrite hr' <;> simp
  | spawned b ending | dispatched b ending | restarted b ending =>
    obtain ⟨-, rfl⟩ := proceed_eq_some.mp h
    obtain ⟨-, rfl⟩ | ⟨-, rfl⟩ := hwrite hr' <;> cases ending <;> simp
  | stopped b ending =>
    cases ending <;>
    · obtain ⟨-, rfl⟩ := proceed_eq_some.mp h
      obtain ⟨-, rfl⟩ | ⟨-, rfl⟩ := hwrite hr' <;> simp
  | terminated b =>
    obtain ⟨z, hz, rfl⟩ := Option.map_eq_some_iff.mp h
    obtain ⟨-, rfl⟩ := proceed_eq_some.mp hz
    by_cases hb : b = a
    · subst hb
      cases (Dict.get?_pop_self _ _).symm.trans hr'
    · obtain ⟨hba, -⟩ | ⟨-, rfl⟩ := hwrite ((Dict.get?_pop_ne _ hb).symm.trans hr')
      · exact absurd hba hb
      · simp

/-! ## Whole runs -/

theorem start_agrees : Agrees {} := by
  intro a r hr
  simp at hr

/-- In a run the status of every agent agrees in every state, exactly if every step is timely. -/
theorem agrees_iff_timely {l : List (Machine.Step AgentManager Event)} (h : machine.Run {} l x) :
    (∀ e ∈ l, Agrees e.target) ↔ ∀ e ∈ l, Timely e.source e.label := by
  have hstart : ∀ s, machine.start s → Agrees s := by
    intro s hs
    obtain rfl : s = {} := hs
    exact start_agrees
  have hstep : ∀ s i t, Agrees s → machine.step s i t → (Agrees t ↔ Timely s i) ∧ (Agrees t → Agrees t) :=
    fun s i t hs ht => ⟨step_agrees_iff hs ht, id⟩
  exact Machine.Run.steps_iff_of_invariant hstart hstep h rfl

instance (a : ℕ) (calls : List Call) : Decidable (Unused x a calls) :=
  inferInstanceAs (Decidable (∀ r ∈ x.agents.get? a, .executing a ∉ calls))

instance (a : ℕ) : Decidable (Awake x a) := inferInstanceAs (Decidable (∀ r ∈ x.agents.get? a, _))

instance : (i : Event) → Decidable (Timely x i)
  | .spawned _ .success | .dispatched _ _ | .restarted _ .success => inferInstanceAs (Decidable (Unused _ _ _ ∧ Awake _ _))
  | .spawned _ .error | .stopped _ .success | .stopped _ .error => inferInstanceAs (Decidable (Awake _ _))
  | .resumeAgent _ => inferInstanceAs (Decidable (Unused _ _ _))
  | .spawnAgent _ | .dispatchTask _ | .pauseAgent _ | .terminateAgent _ | .terminated _ | .restartAgent _
  | .spawned _ .cancelled | .stopped _ .cancelled | .restarted _ .error | .restarted _ .cancelled => .isTrue trivial

/-- Two agents with a task each; the first is paused when its task has ended, and resumed. -/
def twoAgents : List Event :=
  [.spawnAgent 0, .spawned 0 .success, .spawnAgent 1, .spawned 1 .success, .dispatchTask 0, .dispatchTask 1,
    .dispatched 0 .success, .pauseAgent 0, .dispatched 1 .error, .resumeAgent 0]

theorem task_on_time : ∃ l x, machine.Run {} l x ∧ l.map Machine.Step.label = twoAgents ∧
    (∀ e ∈ l, Timely e.source e.label) ∧ ∀ e ∈ l, Agrees e.target := by
  obtain ⟨x, hexec, -⟩ := Machine.exists_of_any (o := Machine.exec step {} twoAgents) (p := fun _ => true) (by decide)
  have hrun : machine.Run {} (Machine.steps step {} twoAgents) x := Machine.run_steps hexec
  have htimely : ∀ e ∈ Machine.steps step {} twoAgents, Timely e.source e.label := by decide +kernel
  exact ⟨_, x, hrun, Machine.labels_steps hexec, htimely, (agrees_iff_timely hrun).mpr htimely⟩

/-- The first of two tasks on an agent ends. -/
theorem idle_with_task : ∃ l x, machine.Run {} l x ∧ l.map Machine.Step.label = [.spawnAgent 0, .spawned 0 .success,
    .dispatchTask 0, .dispatchTask 0, .dispatched 0 .success] ∧ .executing 0 ∈ x.calls ∧ ¬Agrees x := by
  obtain ⟨x, hexec, hx⟩ := Machine.exists_of_any (o := Machine.exec step {} [.spawnAgent 0, .spawned 0 .success,
    .dispatchTask 0, .dispatchTask 0, .dispatched 0 .success])
    (p := fun x => (x.agents.get? 0).any (fun r => r.status = .idle) ∧ .executing 0 ∈ x.calls) (by decide)
  obtain ⟨l, hrun, hlabels⟩ := Machine.exec_run_labels (P := (· = {})) hexec
  obtain ⟨hidle, hcalls⟩ := of_decide_eq_true hx
  obtain ⟨r, hr, hstatus⟩ := (Option.any_eq_true _ _).mp hidle
  refine ⟨l, x, hrun, hlabels, hcalls, fun hagrees => ?_⟩
  exact (hagrees 0 r hr).idle (of_decide_eq_true hstatus) hcalls

end Caips.Agents.AgentManager
