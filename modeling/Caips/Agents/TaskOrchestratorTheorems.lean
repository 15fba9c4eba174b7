/-
Caips.Agents.TaskOrchestratorTheorems — attempts, cancellations and futures of tasks.

A task waits to be dispatched, has one live attempt, or neither (`TaskOk`), and each
step of the orchestrator moves one task from one of these to another. Two steps can
go wrong. The done-callback of an attempt takes the entry of its task out of the
running table, whose ever it is; and an attempt that is cancelled from within leaves
the future of its task pending. With these apart the orchestrator runs each task
safely (`runs_safely_iff`).
-/
import Caips.Agents.TaskOrchestrator
import Mathlib.Data.List.Basic

namespace Caips.Agents

open Caips.Logic

/-! ## What is to hold of a task -/

namespace TaskItem

/-- An attempt that is not done. -/
def HasLive (t : TaskItem) (k : ℕ) (a : Attempt) : Prop := t.attempts[k]? = some a ∧ a.live = true

/-- The future agrees with a final status, or is about to. -/
def Agrees (stopping : Prop) (t : TaskItem) : Prop :=
  match t.status with
  | .completed => t.future = .result t.result
  | .failed => ∃ error, t.error = some error ∧
      t.future = .exception s!"Task failed after {t.retries} attempts: {error}"
  | .cancelled => t.future = .cancelled ∨ stopping
  | _ => True

/-- A task is run safely, as far as a state shows it; `stopping` holds while a `stop` is
under way, which cancels the futures at its end. -/
structure Safe (stopping : Prop) (t : TaskItem) : Prop where
  one : ∀ j k a b, t.HasLive j a → t.HasLive k b → j = k
  bounded : (t.attempts.length : ℤ) ≤ max 1 t.maxRetries
  reached : ∀ k a, t.HasLive k a → t.runningTask = some k
  agrees : t.Agrees stopping

/-- An attempt of the task starts: it is made, or its first step goes ahead. -/
def Starts (t u : TaskItem) : Prop :=
  t.attempts.length < u.attempts.length ∨
    ∃ (k : ℕ) (a b : Attempt), t.attempts[k]? = some a ∧ u.attempts[k]? = some b ∧ a.stage = .created ∧ b.stage = .running

/-- What holds of a task before and after a step. -/
structure Keeps (t u : TaskItem) : Prop where
  told : t.Starts u → t.told = false
  resolved : t.future ≠ .pending → u.future = t.future

end TaskItem

namespace TaskOrchestrator

/-- Every task is run safely, as far as a state shows it. -/
def Safe (x : TaskOrchestrator) : Prop := ∀ t ∈ x.tasks, t.Safe (x.stops ≠ [])

/-- A step is safe for every task. -/
structure SafeStep (x y : TaskOrchestrator) : Prop where
  safe : Safe y
  keeps : ∀ (id : ℕ) (t u : TaskItem), x.tasks[id]? = some t → y.tasks[id]? = some u → t.Keeps u

/-- A done-callback runs while no attempt of its task is live, and an attempt is
cancelled only with its task, or by a `stop`. -/
def OrderlyAt (x : TaskOrchestrator) (t : TaskItem) : TaskEvent → Prop
  | .forget _ => ∀ a ∈ t.attempts, a.live = false
  | .finish _ .cancelled => t.status = .cancelled ∨ x.stops ≠ []
  | _ => True

def Orderly (x : TaskOrchestrator) : Event → Prop
  | .task id event => ∀ t, x.tasks[id]? = some t → x.OrderlyAt t event
  | _ => True

end TaskOrchestrator

/-! ## What holds in between -/

namespace TaskItem

/-- The task is neither completed nor failed. -/
def Open (t : TaskItem) : Prop := t.status ≠ .completed ∧ t.status ≠ .failed

/-- A task that waits to be dispatched. -/
structure Waits (running : Prop) (t : TaskItem) : Prop where
  once : t.entries + t.submitting.toNat = 1
  idle : ∀ k a, ¬t.HasLive k a
  tries : t.attempts.length = t.retries
  more : t.retries = 0 ∨ (t.retries : ℤ) < t.maxRetries
  isOpen : t.Open
  unresolved : running → t.status ≠ .cancelled → t.future = .pending

/-- A task with a live attempt. -/
structure Runs (t : TaskItem) (k : ℕ) (a : Attempt) : Prop where
  last : k + 1 = t.attempts.length
  reached : t.runningTask = some k
  out : t.entries = 0 ∧ t.submitting = false
  tries : t.attempts.length = t.retries + if a.stage = .putting then 0 else 1
  more : t.retries = 0 ∨ (t.retries : ℤ) < t.maxRetries
  isOpen : t.Open
  unresolved : t.status ≠ .cancelled → t.future = .pending
  cancelling : a.stage ≠ .running → t.status = .cancelled → a.cancelling = true

structure TaskOk (running stopping : Prop) (t : TaskItem) : Prop where
  waits : 0 < t.entries ∨ t.submitting = true → t.Waits running
  runs : ∀ k a, t.HasLive k a → t.Runs k a
  bounded : (t.attempts.length : ℤ) ≤ max 1 t.maxRetries
  agrees : t.Agrees stopping
  undone : t.Open → t.future = .pending ∨ t.future = .cancelled
  told : t.told = true → t.status = .cancelled

variable {running stopping : Prop} {t u : TaskItem} {j k : ℕ} {a b : Attempt}

theorem TaskOk.safe (h : TaskOk running stopping t) : t.Safe stopping where
  one j k a b ha hb := by
    have hj := (h.runs j a ha).last
    have hk := (h.runs k b hb).last
    omega
  bounded := h.bounded
  reached k a ha := (h.runs k a ha).reached
  agrees := h.agrees

/-! ## The attempts after a step -/

theorem getElem?_setStage (t : TaskItem) (k : ℕ) (stage : Stage) (j : ℕ) : (t.setStage k stage).attempts[j]? =
    if k = j then t.attempts[j]?.map fun a => { a with stage := stage, cancelling := false } else t.attempts[j]? := by
  simp only [setStage, List.getElem?_modify]
  split <;> simp

@[simp] theorem length_setStage (t : TaskItem) (k : ℕ) (stage : Stage) :
    (t.setStage k stage).attempts.length = t.attempts.length := by simp [setStage]

@[simp] theorem retries_setStage (t : TaskItem) (k : ℕ) (stage : Stage) : (t.setStage k stage).retries = t.retries := rfl

@[simp] theorem maxRetries_setStage (t : TaskItem) (k : ℕ) (stage : Stage) :
    (t.setStage k stage).maxRetries = t.maxRetries := rfl

variable {stage : Stage}

theorem TaskOk.not_live (h : TaskOk running stopping t) (ha : t.HasLive k a)
    (hstage : stage = .ended ∨ stage = .forgotten) (hu : u.attempts = (t.setStage k stage).attempts) (j : ℕ) (b : Attempt) :
    ¬u.HasLive j b := by
  intro hb
  obtain ⟨hget, hlive⟩ := hb
  rw [hu, getElem?_setStage] at hget
  split at hget
  · obtain ⟨c, -, rfl⟩ := Option.map_eq_some_iff.mp hget
    obtain rfl | rfl := hstage <;> simp [Attempt.live] at hlive
  · next hne => exact hne (h.safe.one k j a b ha ⟨hget, hlive⟩)

/-! ## The three places of a task -/

/-- What does not depend on where the task is. -/
structure Sound (stopping : Prop) (t : TaskItem) : Prop where
  bounded : (t.attempts.length : ℤ) ≤ max 1 t.maxRetries
  agrees : t.Agrees stopping
  undone : t.Open → t.future = .pending ∨ t.future = .cancelled
  told : t.told = true → t.status = .cancelled

theorem TaskOk.sound (h : TaskOk running stopping t) : t.Sound stopping := ⟨h.bounded, h.agrees, h.undone, h.told⟩

theorem Sound.setStage (h : t.Sound stopping) (k : ℕ) (stage : Stage) : (t.setStage k stage).Sound stopping :=
  ⟨by simpa using h.bounded, h.agrees, h.undone, h.told⟩

theorem Sound.put (h : t.Sound stopping) : t.put.Sound stopping := ⟨h.bounded, h.agrees, h.undone, h.told⟩

theorem ok_of_not_live (hidle : ∀ k a, ¬t.HasLive k a) (hwaits : 0 < t.entries ∨ t.submitting = true → t.Waits running)
    (hs : t.Sound stopping) : TaskOk running stopping t where
  waits := hwaits
  runs k a ha := absurd ha (hidle k a)
  bounded := hs.bounded
  agrees := hs.agrees
  undone := hs.undone
  told := hs.told

theorem Waits.ok (h : t.Waits running) (hs : t.Sound stopping) : TaskOk running stopping t :=
  ok_of_not_live h.idle (fun _ => h) hs

theorem ok_of_idle (hidle : ∀ k a, ¬t.HasLive k a) (hout : t.entries = 0 ∧ t.submitting = false)
    (hs : t.Sound stopping) : TaskOk running stopping t :=
  ok_of_not_live hidle (fun hwait => by simp [hout] at hwait) hs

theorem Runs.ok (h : t.Runs k a) (hone : ∀ j b, t.HasLive j b → j = k ∧ b = a) (hs : t.Sound stopping) :
    TaskOk running stopping t where
  waits hwait := by simp [h.out] at hwait
  runs j b hb := by
    obtain ⟨rfl, rfl⟩ := hone j b hb
    exact h
  bounded := hs.bounded
  agrees := hs.agrees
  undone := hs.undone
  told := hs.told

theorem TaskOk.only_setStage (h : TaskOk running stopping t) (ha : t.HasLive k a)
    (hu : u.attempts = (t.setStage k stage).attempts) (hb : u.HasLive j b) :
    j = k ∧ b = { a with stage := stage, cancelling := false } := by
  obtain ⟨hget, hlive⟩ := hb
  rw [hu, getElem?_setStage] at hget
  split at hget
  · next hk =>
      subst hk
      rw [ha.1] at hget
      exact ⟨rfl, (Option.some.inj hget).symm⟩
  · next hne => exact absurd (h.safe.one k j a b ha ⟨hget, hlive⟩) hne

/-! ## One task moves -/

theorem TaskOk.submitted (h : TaskOk running stopping t) {full : Bool} (hu : t.submitted full = some u) :
    TaskOk running stopping u := by
  unfold TaskItem.submitted at hu
  split at hu
  · next hsub =>
      obtain rfl := Option.some.inj hu
      have hw := h.waits (.inr hsub.1)
      have honce := hw.once
      rw [hsub.1] at honce
      have hwaits : Waits running { t with submitting := false, entries := t.entries + 1 } :=
        ⟨by simpa using honce, hw.idle, hw.tries, hw.more, hw.isOpen, hw.unresolved⟩
      exact hwaits.ok ⟨h.bounded, h.agrees, h.undone, h.told⟩
  · exact nomatch hu

theorem TaskOk.dropped (h : TaskOk running stopping t) (hu : t.dropped = some u) : TaskOk running stopping u := by
  unfold TaskItem.dropped at hu
  split at hu
  · next hsub =>
      obtain rfl := Option.some.inj hu
      have hw := h.waits (.inr hsub)
      have honce := hw.once
      rw [hsub] at honce
      exact ok_of_idle hw.idle ⟨by simpa using honce, rfl⟩ ⟨h.bounded, h.agrees, h.undone, h.told⟩
  · exact nomatch hu

theorem TaskOk.dispatch (h : TaskOk running stopping t) (hrunning : running) (hentries : 0 < t.entries) (agentId : ℕ) :
    TaskOk running stopping (t.dispatch agentId) := by
  have hw := h.waits (.inl hentries)
  have hout : t.entries - 1 = 0 ∧ t.submitting = false := by
    have honce := hw.once
    cases hsub : t.submitting with
    | false => exact ⟨by simp [hsub] at honce; omega, rfl⟩
    | true => simp [hsub] at honce; omega
  unfold TaskItem.dispatch
  split
  · exact ok_of_idle hw.idle hout ⟨h.bounded, h.agrees, h.undone, h.told⟩
  · next hstatus =>
      have htries := hw.tries
      have hmore := hw.more
      have hruns : Runs { t with
          entries := t.entries - 1
          attempts := t.attempts ++ [{ agentId := agentId }]
          runningTask := some t.attempts.length } t.attempts.length { agentId := agentId } := by
        refine ⟨by simp, rfl, hout, ?_, hw.more, hw.isOpen, hw.unresolved hrunning, fun _ hc => absurd hc hstatus⟩
        simpa using htries
      refine hruns.ok ?_ ⟨?_, h.agrees, h.undone, h.told⟩
      · intro j b hb
        obtain ⟨hget, hlive⟩ := hb
        rw [List.getElem?_append] at hget
        split at hget
        · exact absurd ⟨hget, hlive⟩ (hw.idle j b)
        · have hj : j - t.attempts.length = 0 := by
            by_contra hne
            rw [List.getElem?_eq_none (by simp; omega)] at hget
            exact nomatch hget
          rw [hj] at hget
          exact ⟨by omega, (Option.some.inj hget).symm⟩
      · simp only [List.length_append, List.length_singleton]
        omega

theorem TaskOk.begin (h : TaskOk running stopping t) (hget : t.attempts[k]? = some a) (hstage : a.stage = .created) :
    TaskOk running stopping (t.begin k a) := by
  have ha : t.HasLive k a := ⟨hget, by simp [Attempt.live, hstage]⟩
  have hr := h.runs k a ha
  unfold TaskItem.begin
  split
  · exact ok_of_idle (h.not_live ha (.inl rfl) rfl) hr.out (h.sound.setStage k .ended)
  · next hc =>
      have hstatus : t.status ≠ .cancelled := fun hs => hc (hr.cancelling (by simp [hstage]) hs)
      have htries := hr.tries
      have hruns : Runs ({ t with assignedTo := some a.agentId, status := .running }.setStage k .running) k
          { a with stage := .running, cancelling := false } := by
        refine ⟨by simpa using hr.last, hr.reached, hr.out, ?_, hr.more, by simp [Open, TaskItem.setStage], ?_, by simp⟩
        · simpa [hstage] using htries
        · exact fun _ => hr.unresolved hstatus
      have hsound : Sound stopping { t with assignedTo := some a.agentId, status := .running } :=
        ⟨h.bounded, trivial, fun _ => h.undone hr.isOpen, fun htold => absurd (h.told htold) hstatus⟩
      exact hruns.ok (fun j b => h.only_setStage ha rfl) (hsound.setStage k .running)

theorem TaskOk.handleFailure (h : TaskOk running stopping t) (hget : t.attempts[k]? = some a) (hstage : a.stage = .running)
    (hstatus : t.status ≠ .cancelled) (full : Bool) (error : String) :
    TaskOk running stopping (t.handleFailure k full error) := by
  have ha : t.HasLive k a := ⟨hget, by simp [Attempt.live, hstage]⟩
  have hr := h.runs k a ha
  have hpending := hr.unresolved hstatus
  have htries : t.attempts.length = t.retries + 1 := by simpa [hstage] using hr.tries
  have htold : t.told = true → False := fun htold => hstatus (h.told htold)
  unfold TaskItem.handleFailure
  simp only
  split
  · next hmore =>
      have hsound : Sound stopping { t with
          error := some error, retries := t.retries + 1, status := .queued, assignedTo := none } :=
        ⟨h.bounded, trivial, fun _ => .inl hpending, fun ht => (htold ht).elim⟩
      split
      · have hruns : Runs ({ t with error := some error, retries := t.retries + 1, status := .queued, assignedTo := none
            }.setStage k .putting) k { a with stage := .putting, cancelling := false } := by
          refine ⟨by simpa using hr.last, hr.reached, hr.out, ?_, .inr hmore, by simp [Open, TaskItem.setStage],
            fun _ => hpending, nofun⟩
          simpa using htries
        exact hruns.ok (fun j b => h.only_setStage ha rfl) (hsound.setStage k .putting)
      · have hwaits : Waits running ({ t with
            error := some error, retries := t.retries + 1, status := .queued, assignedTo := none
            }.put.setStage k .ended) := by
          refine ⟨?_, h.not_live ha (.inl rfl) rfl, ?_, .inr hmore, by simp [Open, TaskItem.setStage, TaskItem.put],
            fun _ _ => hpending⟩
          · simp [TaskItem.setStage, TaskItem.put, hr.out]
          · simpa [TaskItem.put] using htries
        exact hwaits.ok (hsound.put.setStage k .ended)
  · have hsound : Sound stopping { t with
        error := some error, retries := t.retries + 1, status := .failed
        future := .exception s!"Task failed after {t.retries + 1} attempts: {error}" } :=
      ⟨h.bounded, ⟨error, rfl, rfl⟩, fun hopen => absurd rfl hopen.2, fun ht => (htold ht).elim⟩
    simp only [resolve, hpending, if_true]
    exact ok_of_idle (h.not_live ha (.inl rfl) rfl) hr.out (hsound.setStage k .ended)

theorem TaskOk.finish (h : TaskOk running stopping t) (hget : t.attempts[k]? = some a) (hstage : a.stage = .running)
    (full : Bool) {outcome : Outcome} (ho : outcome = .cancelled → t.status = .cancelled ∨ stopping) :
    TaskOk running stopping (t.finish k full outcome) := by
  have ha : t.HasLive k a := ⟨hget, by simp [Attempt.live, hstage]⟩
  have hr := h.runs k a ha
  have hended : TaskOk running stopping (t.setStage k .ended) :=
    ok_of_idle (h.not_live ha (.inl rfl) rfl) hr.out (h.sound.setStage k .ended)
  cases outcome with
  | success result =>
    simp only [TaskItem.finish]
    split
    · exact hended
    · next hstatus =>
        have hpending := hr.unresolved hstatus
        have hsound : Sound stopping { t with status := .completed, result := result, future := .result result } :=
          ⟨h.bounded, rfl, fun hopen => absurd rfl hopen.1, fun htold => absurd (h.told htold) hstatus⟩
        simp only [resolve, hpending, if_true]
        exact ok_of_idle (h.not_live ha (.inl rfl) rfl) hr.out (hsound.setStage k .ended)
  | timeout =>
    simp only [TaskItem.finish]
    split
    · exact hended
    · next hstatus => exact h.handleFailure hget hstage hstatus full _
  | error text =>
    simp only [TaskItem.finish]
    split
    · exact hended
    · next hstatus => exact h.handleFailure hget hstage hstatus full _
  | cancelled =>
    have hagrees : Agrees stopping { t with status := .cancelled } := by
      obtain hstatus | hstopping := ho rfl
      · have hold := h.agrees
        unfold Agrees at hold ⊢
        rwa [hstatus] at hold
      · exact .inr hstopping
    have hsound : Sound stopping { t with status := .cancelled } :=
      ⟨h.bounded, hagrees, fun _ => h.undone hr.isOpen, fun _ => rfl⟩
    exact ok_of_idle (h.not_live ha (.inl rfl) rfl) hr.out (hsound.setStage k .ended)

theorem TaskOk.putBack (h : TaskOk running stopping t) (hget : t.attempts[k]? = some a) (hstage : a.stage = .putting)
    {full : Bool} (hu : t.putBack k a full = some u) : TaskOk running stopping u := by
  have ha : t.HasLive k a := ⟨hget, by simp [Attempt.live, hstage]⟩
  have hr := h.runs k a ha
  unfold TaskItem.putBack at hu
  split at hu
  · obtain rfl := Option.some.inj hu
    exact ok_of_idle (h.not_live ha (.inl rfl) rfl) hr.out (h.sound.setStage k .ended)
  · split at hu
    · exact nomatch hu
    · obtain rfl := Option.some.inj hu
      have htries : t.attempts.length = t.retries := by simpa [hstage] using hr.tries
      have hwaits : Waits running (t.put.setStage k .ended) := by
        refine ⟨?_, h.not_live ha (.inl rfl) rfl, ?_, hr.more, hr.isOpen, fun _ => hr.unresolved⟩
        · simp [TaskItem.setStage, TaskItem.put, hr.out]
        · simpa [TaskItem.put] using htries
      exact hwaits.ok (h.sound.put.setStage k .ended)

theorem TaskOk.forget (h : TaskOk running stopping t) (k : ℕ) (hidle : ∀ a ∈ t.attempts, a.live = false) :
    TaskOk running stopping (t.forget k) := by
  have hnone : ∀ j b, ¬(t.forget k).HasLive j b := by
    intro j b hb
    obtain ⟨hget, hlive⟩ := hb
    rw [TaskItem.forget, getElem?_setStage] at hget
    split at hget
    · obtain ⟨c, -, rfl⟩ := Option.map_eq_some_iff.mp hget
      simp [Attempt.live] at hlive
    · exact Bool.false_ne_true ((hidle b (List.mem_of_getElem? hget)).symm.trans hlive)
  have hsound : (t.forget k).Sound stopping :=
    Sound.setStage (t := { t with runningTask := none }) ⟨h.bounded, h.agrees, h.undone, h.told⟩ k .forgotten
  refine ok_of_not_live hnone (fun hwait => ?_) hsound
  have hw := h.waits hwait
  refine ⟨hw.once, hnone, ?_, hw.more, hw.isOpen, hw.unresolved⟩
  simpa [TaskItem.forget] using hw.tries

theorem live_cancel (a : Attempt) : a.cancel.live = a.live := by
  unfold Attempt.cancel
  split
  · rfl
  · rfl

theorem stage_cancel (a : Attempt) : a.cancel.stage = a.stage := by
  unfold Attempt.cancel
  split
  · rfl
  · rfl

theorem attempts_cancelRunning (t : TaskItem) (j : ℕ) : t.cancelRunning.attempts[j]? =
    if t.runningTask = some j then t.attempts[j]?.map Attempt.cancel else t.attempts[j]? := by
  unfold cancelRunning
  cases t.runningTask with
  | none => simp
  | some k =>
    simp only [List.getElem?_modify, Option.some.injEq]
    split <;> simp

@[simp] theorem length_cancelRunning (t : TaskItem) : t.cancelRunning.attempts.length = t.attempts.length := by
  unfold cancelRunning
  split <;> simp

theorem cancelRunning_eq (t : TaskItem) : t.cancelRunning = { t with attempts := t.cancelRunning.attempts } := by
  unfold cancelRunning
  split <;> rfl

theorem hasLive_cancelRunning {b : Attempt} (hb : t.cancelRunning.HasLive j b) :
    ∃ a, t.HasLive j a ∧ b.stage = a.stage ∧ (t.runningTask = some j → b.cancelling = true) := by
  obtain ⟨hget, hlive⟩ := hb
  rw [attempts_cancelRunning] at hget
  split at hget
  · obtain ⟨a, ha, rfl⟩ := Option.map_eq_some_iff.mp hget
    rw [live_cancel] at hlive
    exact ⟨a, ⟨ha, hlive⟩, stage_cancel a, fun _ => by simp [Attempt.cancel, hlive]⟩
  · next hne => exact ⟨b, ⟨hget, hlive⟩, rfl, fun heq => absurd heq hne⟩

/-- The attempt in the running table is cancelled, and the task stays where it is. -/
structure Cancels (t u : TaskItem) : Prop where
  attempts : u.attempts = t.cancelRunning.attempts
  runningTask : u.runningTask = t.runningTask
  entries : u.entries = t.entries
  submitting : u.submitting = t.submitting
  retries : u.retries = t.retries
  maxRetries : u.maxRetries = t.maxRetries

variable {running' stopping' : Prop}

theorem TaskOk.cancels (h : TaskOk running stopping t) (hc : t.Cancels u)
    (hopen : t.Open → u.Open)
    (hfuture : u.status ≠ .cancelled → (running' → running) ∧ t.status ≠ .cancelled ∧ u.future = t.future)
    (hs : u.Sound stopping') : TaskOk running' stopping' u where
  waits hwait := by
    rw [hc.entries, hc.submitting] at hwait
    have hw := h.waits hwait
    refine ⟨by rw [hc.entries, hc.submitting, hw.once], ?_, ?_, ?_, hopen hw.isOpen, ?_⟩
    · intro k b hb
      obtain ⟨a, ha, -⟩ := hasLive_cancelRunning (t := t) ⟨hc.attempts ▸ hb.1, hb.2⟩
      exact hw.idle k a ha
    · rw [hc.attempts, length_cancelRunning, hc.retries, hw.tries]
    · rw [hc.retries, hc.maxRetries]
      exact hw.more
    · intro hr hstatus
      obtain ⟨hrunning, hold, heq⟩ := hfuture hstatus
      exact heq.trans (hw.unresolved (hrunning hr) hold)
  runs k b hb := by
    obtain ⟨a, ha, hstage, hcancel⟩ := hasLive_cancelRunning (t := t) ⟨hc.attempts ▸ hb.1, hb.2⟩
    have hr := h.runs k a ha
    refine ⟨?_, hc.runningTask.trans hr.reached, ?_, ?_, ?_, hopen hr.isOpen, ?_, fun _ _ => hcancel hr.reached⟩
    · rw [hc.attempts, length_cancelRunning, hr.last]
    · rw [hc.entries, hc.submitting]
      exact hr.out
    · rw [hc.attempts, length_cancelRunning, hc.retries, hstage, hr.tries]
    · rw [hc.retries, hc.maxRetries]
      exact hr.more
    · intro hstatus
      obtain ⟨-, hold, heq⟩ := hfuture hstatus
      exact heq.trans (hr.unresolved hold)
  bounded := hs.bounded
  agrees := hs.agrees
  undone := hs.undone
  told := hs.told

theorem TaskOk.cancel (h : TaskOk running stopping t) (hu : t.cancel = some u) : TaskOk running stopping u := by
  unfold TaskItem.cancel at hu
  split at hu
  · exact nomatch hu
  · next hfinal =>
      have hopen : t.Open := not_or.mp hfinal
      have heq : u = { t with
          status := .cancelled, told := true, future := .cancelled, attempts := t.cancelRunning.attempts } := by
        have hattempts : ({ t with status := .cancelled, told := true } : TaskItem).cancelRunning =
            { t with status := .cancelled, told := true, attempts := t.cancelRunning.attempts } := by
          simp only [TaskItem.cancelRunning]
          cases t.runningTask <;> rfl
        rw [hattempts] at hu
        obtain rfl := Option.some.inj hu
        obtain hfuture | hfuture := h.undone hopen
        · simp [resolve, hfuture]
        · simp [resolve, hfuture]
      subst heq
      refine h.cancels ⟨rfl, rfl, rfl, rfl, rfl, rfl⟩ (fun _ => ⟨nofun, nofun⟩) (fun hne => absurd rfl hne) ?_
      exact ⟨by simpa using h.bounded, .inl rfl, fun _ => .inr rfl, fun _ => rfl⟩

theorem TaskOk.stop (h : TaskOk running stopping t) (hrunning : running' → running)
    (hstopping : stopping') : TaskOk running' stopping' t.cancelRunning := by
  rw [cancelRunning_eq]
  refine h.cancels ⟨rfl, rfl, rfl, rfl, rfl, rfl⟩ id (fun hne => ⟨hrunning, hne, rfl⟩) ?_
  refine ⟨by simpa using h.bounded, ?_, h.undone, h.told⟩
  have hagrees := h.agrees
  unfold Agrees at hagrees ⊢
  cases hstatus : t.status with
  | queued => trivial
  | running => trivial
  | completed => simpa only [hstatus] using hagrees
  | failed => simpa only [hstatus] using hagrees
  | cancelled => exact .inr hstopping

/-- The end of a `stop`, when no attempt is live. -/
theorem TaskOk.stopped (h : TaskOk running stopping t) (hidle : ∀ k a, ¬t.HasLive k a)
    (hrunning : ¬running') :
    TaskOk running' stopping' ({ t with runningTask := none }.resolve .cancelled) := by
  have hsound (future : Future) (hfuture : t.future = .pending ∧ future = .cancelled ∨ t.future ≠ .pending ∧ future = t.future) :
      Sound stopping' { t with runningTask := none, future := future } := by
    have hagrees := h.agrees
    have hundone : t.Open → future = .cancelled := by
      intro hopen
      obtain ⟨-, rfl⟩ | ⟨hdone, rfl⟩ := hfuture
      · rfl
      · exact (h.undone hopen).resolve_left hdone
    refine ⟨h.bounded, ?_, fun hopen => .inr (hundone hopen), h.told⟩
    unfold Agrees at hagrees ⊢
    cases hstatus : t.status with
    | queued => trivial
    | running => trivial
    | completed =>
      simp only [hstatus] at hagrees ⊢
      obtain ⟨hpending, -⟩ | ⟨-, rfl⟩ := hfuture
      · exact nomatch hpending.symm.trans hagrees
      · exact hagrees
    | failed =>
      simp only [hstatus] at hagrees ⊢
      obtain ⟨error, herror, hexception⟩ := hagrees
      obtain ⟨hpending, -⟩ | ⟨-, rfl⟩ := hfuture
      · exact nomatch hpending.symm.trans hexception
      · exact ⟨error, herror, hexception⟩
    | cancelled => exact .inl (hundone ⟨by simp [hstatus], by simp [hstatus]⟩)
  have hok (future : Future) (hfuture : t.future = .pending ∧ future = .cancelled ∨ t.future ≠ .pending ∧ future = t.future) :
      TaskOk running' stopping' { t with runningTask := none, future := future } := by
    refine ok_of_not_live hidle (fun hwait => ?_) (hsound future hfuture)
    have hw := h.waits hwait
    exact ⟨hw.once, hidle, hw.tries, hw.more, hw.isOpen, fun hr => absurd hr hrunning⟩
  by_cases hpending : t.future = .pending
  · simpa only [resolve, hpending, if_true] using hok .cancelled (.inl ⟨hpending, rfl⟩)
  · simpa only [resolve, hpending, if_false] using hok t.future (.inr ⟨hpending, rfl⟩)

/-! ## What a step keeps -/

/-- Attempt `k` moves to a stage, and the future stays if it is done. -/
structure Moved (t : TaskItem) (k : ℕ) (stage : Stage) (u : TaskItem) : Prop where
  attempts : u.attempts = (t.setStage k stage).attempts
  future : t.future ≠ .pending → u.future = t.future

theorem Moved.of_setStage {v : TaskItem} (k : ℕ) (stage : Stage) (hattempts : v.attempts = t.attempts)
    (hfuture : t.future ≠ .pending → v.future = t.future) : t.Moved k stage (v.setStage k stage) :=
  ⟨by simp [TaskItem.setStage, hattempts], hfuture⟩

theorem Moved.live (h : t.Moved k stage u) (ha : t.HasLive k a) (hb : u.HasLive j b) :
    ∃ c, t.HasLive j c := by
  obtain ⟨hget, hlive⟩ := hb
  rw [h.attempts, getElem?_setStage] at hget
  split at hget
  · next hk => exact ⟨a, hk ▸ ha⟩
  · exact ⟨b, hget, hlive⟩

theorem not_starts (hlen : u.attempts.length = t.attempts.length)
    (hstage : ∀ (k : ℕ) (a b : Attempt), t.attempts[k]? = some a → u.attempts[k]? = some b → b.stage = .running →
      a.stage = .running) : ¬t.Starts u := by
  intro h
  obtain hlt | ⟨k, a, b, ha, hb, hcreated, hrunning⟩ := h
  · omega
  · exact nomatch hcreated.symm.trans (hstage k a b ha hb hrunning)

theorem Moved.keeps (h : t.Moved k stage u) (hstage : stage ≠ .running) : t.Keeps u where
  resolved := h.future
  told hstarts := by
    refine absurd hstarts (not_starts (by rw [h.attempts, length_setStage]) fun j a b ha hb hrunning => ?_)
    rw [h.attempts, getElem?_setStage, ha] at hb
    split at hb
    · obtain rfl := Option.some.inj hb
      exact absurd hrunning hstage
    · obtain rfl := Option.some.inj hb
      exact hrunning

theorem keeps_of_same (hattempts : u.attempts = t.attempts) (hfuture : t.future ≠ .pending → u.future = t.future) :
    t.Keeps u where
  resolved := hfuture
  told hstarts := by
    refine absurd hstarts (not_starts (by rw [hattempts]) fun j a b ha hb hrunning => ?_)
    rw [hattempts, ha] at hb
    obtain rfl := Option.some.inj hb
    exact hrunning

theorem keeps_of_cancels (hattempts : u.attempts = t.cancelRunning.attempts)
    (hfuture : t.future ≠ .pending → u.future = t.future) : t.Keeps u where
  resolved := hfuture
  told hstarts := by
    refine absurd hstarts (not_starts (by rw [hattempts, length_cancelRunning]) fun j a b ha hb hrunning => ?_)
    rw [hattempts, attempts_cancelRunning, ha] at hb
    split at hb
    · obtain rfl := Option.some.inj hb
      exact (stage_cancel a).symm.trans hrunning
    · obtain rfl := Option.some.inj hb
      exact hrunning

@[simp] theorem attempts_resolve (t : TaskItem) (f : Future) : (t.resolve f).attempts = t.attempts := by
  unfold resolve
  split <;> rfl

theorem future_resolve (t : TaskItem) (f : Future) (h : t.future ≠ .pending) : (t.resolve f).future = t.future := by
  rw [resolve, if_neg h]

theorem finish_moved (t : TaskItem) (k : ℕ) (full : Bool) (outcome : Outcome) :
    ∃ stage, (stage = .ended ∨ stage = .putting) ∧ t.Moved k stage (t.finish k full outcome) := by
  have hfailure (error : String) : ∃ stage, (stage = .ended ∨ stage = .putting) ∧
      t.Moved k stage (t.handleFailure k full error) := by
    unfold TaskItem.handleFailure
    simp only
    split
    · split
      · exact ⟨.putting, .inr rfl, .of_setStage k _ rfl fun _ => rfl⟩
      · exact ⟨.ended, .inl rfl, .of_setStage k _ rfl fun _ => rfl⟩
    · exact ⟨.ended, .inl rfl, .of_setStage k _ (attempts_resolve _ _) fun h => future_resolve _ _ h⟩
  have hended : t.Moved k .ended (t.setStage k .ended) := .of_setStage k _ rfl fun _ => rfl
  cases outcome with
  | success result =>
    simp only [TaskItem.finish]
    split
    · exact ⟨.ended, .inl rfl, hended⟩
    · exact ⟨.ended, .inl rfl, .of_setStage k _ (attempts_resolve _ _) fun h => future_resolve _ _ h⟩
  | cancelled => exact ⟨.ended, .inl rfl, .of_setStage k _ rfl fun _ => rfl⟩
  | _ =>
    simp only [TaskItem.finish]
    split
    · exact ⟨.ended, .inl rfl, hended⟩
    · exact hfailure _

end TaskItem

namespace TaskOrchestrator

variable {x y : TaskOrchestrator} {e : Event} {t u : TaskItem} {event : TaskEvent}

theorem attemptIn_eq_some {k : ℕ} {stage : Stage} {a : Attempt} (h : attemptIn t k stage = some a) :
    t.attempts[k]? = some a ∧ a.stage = stage := by
  obtain ⟨hget, hstage⟩ := Option.filter_eq_some_iff.mp h
  exact ⟨hget, of_decide_eq_true hstage⟩

/-- A task stays in order, if what happens to it is orderly. -/
theorem taskStep_ok (h : t.TaskOk (x.running = true) (x.stops ≠ [])) (hstep : x.taskStep t event = some u)
    (horderly : x.OrderlyAt t event) : u.TaskOk (x.running = true) (x.stops ≠ []) := by
  cases event with
  | submitted => exact h.submitted hstep
  | dropped => exact h.dropped hstep
  | dispatch agentId =>
    simp only [taskStep] at hstep
    split at hstep
    · next hnext =>
        obtain rfl := Option.some.inj hstep
        exact h.dispatch hnext.1 hnext.2.1 agentId
    · exact nomatch hstep
  | begin k =>
    obtain ⟨a, ha, rfl⟩ := Option.map_eq_some_iff.mp hstep
    obtain ⟨hget, hstage⟩ := attemptIn_eq_some ha
    exact h.begin hget hstage
  | finish k outcome =>
    obtain ⟨a, ha, rfl⟩ := Option.map_eq_some_iff.mp hstep
    obtain ⟨hget, hstage⟩ := attemptIn_eq_some ha
    exact h.finish hget hstage x.full fun ho => by subst ho; exact horderly
  | putBack k =>
    obtain ⟨a, ha, hu⟩ := Option.bind_eq_some_iff.mp hstep
    obtain ⟨hget, hstage⟩ := attemptIn_eq_some ha
    exact h.putBack hget hstage hu
  | forget k =>
    obtain ⟨a, ha, rfl⟩ := Option.map_eq_some_iff.mp hstep
    exact h.forget k horderly
  | cancel => exact h.cancel hstep

/-- What happens to a task, to its attempts and its future. -/
theorem taskStep_keeps (h : t.TaskOk (x.running = true) (x.stops ≠ [])) (hstep : x.taskStep t event = some u) :
    t.Keeps u ∧ (∀ k b, u.HasLive k b → (∃ a, t.HasLive k a) ∨ x.running = true) := by
  cases event with
  | submitted =>
    simp only [taskStep, TaskItem.submitted] at hstep
    split at hstep
    · obtain rfl := Option.some.inj hstep
      exact ⟨TaskItem.keeps_of_same rfl fun _ => rfl, fun k b hb => .inl ⟨b, hb⟩⟩
    · exact nomatch hstep
  | dropped =>
    simp only [taskStep, TaskItem.dropped] at hstep
    split at hstep
    · obtain rfl := Option.some.inj hstep
      exact ⟨TaskItem.keeps_of_same rfl fun _ => rfl, fun k b hb => .inl ⟨b, hb⟩⟩
    · exact nomatch hstep
  | dispatch agentId =>
    simp only [taskStep] at hstep
    split at hstep
    · next hnext =>
        obtain rfl := Option.some.inj hstep
        refine ⟨?_, fun _ _ _ => .inr hnext.1⟩
        unfold TaskItem.dispatch
        split
        · exact TaskItem.keeps_of_same rfl fun _ => rfl
        · next hstatus =>
            exact ⟨fun _ => Bool.eq_false_iff.mpr fun htold => hstatus (h.told htold), fun _ => rfl⟩
    · exact nomatch hstep
  | begin k =>
    obtain ⟨a, ha, rfl⟩ := Option.map_eq_some_iff.mp hstep
    obtain ⟨hget, hstage⟩ := attemptIn_eq_some ha
    have hlive : t.HasLive k a := ⟨hget, by simp [Attempt.live, hstage]⟩
    unfold TaskItem.begin
    split
    · have hmoved : t.Moved k .ended (t.setStage k .ended) := .of_setStage k _ rfl fun _ => rfl
      exact ⟨hmoved.keeps nofun, fun j b hb => .inl (hmoved.live hlive hb)⟩
    · next hcancelling =>
        have hmoved : t.Moved k .running ({ t with assignedTo := some a.agentId, status := .running }.setStage k .running) :=
          .of_setStage k _ rfl fun _ => rfl
        have htold : t.told = false := by
          refine Bool.eq_false_iff.mpr fun htold => hcancelling ?_
          exact (h.runs k a hlive).cancelling (by simp [hstage]) (h.told htold)
        exact ⟨⟨fun _ => htold, hmoved.future⟩, fun j b hb => .inl (hmoved.live hlive hb)⟩
  | finish k outcome =>
    obtain ⟨a, ha, rfl⟩ := Option.map_eq_some_iff.mp hstep
    obtain ⟨hget, hstage⟩ := attemptIn_eq_some ha
    have hlive : t.HasLive k a := ⟨hget, by simp [Attempt.live, hstage]⟩
    obtain ⟨stage, hnew, hmoved⟩ := t.finish_moved k x.full outcome
    have hne : stage ≠ .running := by
      obtain rfl | rfl := hnew <;> exact nofun
    exact ⟨hmoved.keeps hne, fun j b hb => .inl (hmoved.live hlive hb)⟩
  | putBack k =>
    obtain ⟨a, ha, hu⟩ := Option.bind_eq_some_iff.mp hstep
    obtain ⟨hget, hstage⟩ := attemptIn_eq_some ha
    have hlive : t.HasLive k a := ⟨hget, by simp [Attempt.live, hstage]⟩
    have hmoved : t.Moved k .ended u := by
      unfold TaskItem.putBack at hu
      split at hu
      · obtain rfl := Option.some.inj hu
        exact .of_setStage k _ rfl fun _ => rfl
      · split at hu
        · exact nomatch hu
        · obtain rfl := Option.some.inj hu
          exact .of_setStage k _ rfl fun _ => rfl
    exact ⟨hmoved.keeps nofun, fun j b hb => .inl (hmoved.live hlive hb)⟩
  | forget k =>
    obtain ⟨a, ha, rfl⟩ := Option.map_eq_some_iff.mp hstep
    have hmoved : t.Moved k .forgotten (t.forget k) := .of_setStage k _ rfl fun _ => rfl
    refine ⟨hmoved.keeps nofun, fun j b hb => .inl ?_⟩
    obtain ⟨hget, hlive⟩ := hb
    rw [hmoved.attempts, TaskItem.getElem?_setStage] at hget
    split at hget
    · obtain ⟨c, -, rfl⟩ := Option.map_eq_some_iff.mp hget
      simp [Attempt.live] at hlive
    · exact ⟨b, hget, hlive⟩
  | cancel =>
    simp only [taskStep, TaskItem.cancel] at hstep
    split at hstep
    · exact nomatch hstep
    · obtain rfl := Option.some.inj hstep
      have hattempts : (({ t with status := .cancelled, told := true } : TaskItem).cancelRunning.resolve
          .cancelled).attempts = t.cancelRunning.attempts := by
        rw [TaskItem.attempts_resolve]
        simp only [TaskItem.cancelRunning]
        cases t.runningTask <;> rfl
      refine ⟨TaskItem.keeps_of_cancels hattempts fun hdone => ?_, fun k b hb => .inl ?_⟩
      · refine (TaskItem.future_resolve _ _ ?_).trans ?_
        · rw [TaskItem.cancelRunning_eq]
          exact hdone
        · rw [TaskItem.cancelRunning_eq]
      · obtain ⟨a, ha, -⟩ := TaskItem.hasLive_cancelRunning (t := t) ⟨hattempts ▸ hb.1, hb.2⟩
        exact ⟨a, ha⟩

/-! ## All tasks -/

/-- Every task is in order, and every attempt that is live when a `stop` is under way is
one it waits for. -/
structure Inv (x : TaskOrchestrator) : Prop where
  tasks : ∀ t ∈ x.tasks, t.TaskOk (x.running = true) (x.stops ≠ [])
  stops : ∀ pending ∈ x.stops, x.running = false ∧ ∀ (id : ℕ) (t : TaskItem) (k : ℕ) (a : Attempt),
    x.tasks[id]? = some t → t.HasLive k a → (id, k) ∈ pending

theorem Inv.safe (h : Inv x) : Safe x := fun t ht => (h.tasks t ht).safe

theorem inv_start : Inv {} := ⟨by simp, by simp⟩

theorem task_eq_some {id : ℕ} (h : x.step (.task id event) = some y) : ∃ t u, x.tasks[id]? = some t ∧
    x.taskStep t event = some u ∧ y = { x with tasks := x.tasks.set id u } := by
  obtain ⟨t, ht, hmap⟩ := Option.bind_eq_some_iff.mp h
  obtain ⟨u, hu, rfl⟩ := Option.map_eq_some_iff.mp hmap
  exact ⟨t, u, ht, hu, rfl⟩

theorem getElem?_set_task {l : List TaskItem} {id j : ℕ} {v : TaskItem} (hv : (l.set id u)[j]? = some v) :
    (j = id ∧ v = u) ∨ l[j]? = some v := by
  rw [List.getElem?_set] at hv
  split at hv
  · next hj =>
      subst hj
      split at hv
      · exact .inl ⟨rfl, (Option.some.inj hv).symm⟩
      · exact nomatch hv
  · exact .inr hv

theorem Inv.task (h : Inv x) {id : ℕ} (hstep : x.step (.task id event) = some y) (horderly : x.Orderly (.task id event)) :
    Inv y := by
  obtain ⟨t, u, ht, hu, rfl⟩ := task_eq_some hstep
  have hok := h.tasks t (List.mem_of_getElem? ht)
  have hnew := taskStep_ok hok hu (horderly t ht)
  obtain ⟨-, hlive⟩ := taskStep_keeps hok hu
  constructor
  · intro v hv
    obtain hold | rfl := List.mem_or_eq_of_mem_set hv
    · exact h.tasks v hold
    · exact hnew
  · intro pending hpending
    obtain ⟨hrunning, hall⟩ := h.stops pending hpending
    refine ⟨hrunning, fun j v k b hv hb => ?_⟩
    obtain ⟨rfl, rfl⟩ | hold := getElem?_set_task hv
    · obtain ⟨a, ha⟩ | hrun := hlive k b hb
      · exact hall j t k a ht ha
      · exact nomatch hrunning.symm.trans hrun
    · exact hall j v k b hold hb

theorem submit_ok (running stopping : Prop) (priority : ℤ) (createdAt : ℚ) (timeout : ℕ) (maxRetries : ℤ) (full : Bool) :
    (TaskItem.submit priority createdAt timeout maxRetries full).TaskOk running stopping := by
  have hwaits : (TaskItem.submit priority createdAt timeout maxRetries full).Waits running := by
    refine ⟨?_, by simp [TaskItem.HasLive, TaskItem.submit], rfl, .inl rfl, ⟨nofun, nofun⟩, fun _ _ => rfl⟩
    cases full <;> rfl
  have hbounded : ((TaskItem.submit priority createdAt timeout maxRetries full).attempts.length : ℤ) ≤ max 1 maxRetries := by
    simp only [TaskItem.submit, List.length_nil]
    omega
  exact hwaits.ok ⟨hbounded, trivial, fun _ => .inl rfl, nofun⟩

theorem Inv.submit (h : Inv x) {priority : ℤ} {createdAt : ℚ} {timeout : ℕ} {maxRetries : ℤ}
    (hstep : x.step (.submit priority createdAt timeout maxRetries) = some y) : Inv y := by
  obtain rfl := Option.some.inj hstep
  constructor
  · intro t ht
    obtain hold | hnew := List.mem_append.mp ht
    · exact h.tasks t hold
    · rw [List.mem_singleton.mp hnew]
      exact submit_ok _ _ _ _ _ _ _
  · intro pending hpending
    obtain ⟨hrunning, hall⟩ := h.stops pending hpending
    refine ⟨hrunning, fun id t k a ht ha => ?_⟩
    rw [List.getElem?_append] at ht
    split at ht
    · exact hall id t k a ht ha
    · have hmem := List.mem_of_getElem? ht
      rw [List.mem_singleton.mp hmem] at ha
      simp [TaskItem.HasLive, TaskItem.submit] at ha

theorem mem_pending {id k : ℕ} (ht : x.tasks[id]? = some t) (hk : t.runningTask = some k) : (id, k) ∈ x.pending := by
  refine List.mem_flatMap.mpr ⟨(t, id), ?_, by simp [hk]⟩
  rw [List.mem_zipIdx_iff_getElem?]
  exact ht

theorem Inv.stop (h : Inv x) (hstep : x.step .stop = some y) : Inv y := by
  obtain rfl := Option.some.inj hstep
  constructor
  · intro u hu
    obtain ⟨t, ht, rfl⟩ := List.mem_map.mp hu
    exact (h.tasks t ht).stop nofun (List.cons_ne_nil _ _)
  · intro pending hpending
    refine ⟨rfl, fun id u k b hu hb => ?_⟩
    rw [List.getElem?_map] at hu
    obtain ⟨t, ht, rfl⟩ := Option.map_eq_some_iff.mp hu
    obtain ⟨a, ha, -⟩ := TaskItem.hasLive_cancelRunning hb
    obtain rfl | hold := List.mem_cons.mp hpending
    · exact mem_pending ht ((h.tasks t (List.mem_of_getElem? ht)).runs k a ha).reached
    · exact (h.stops pending hold).2 id t k a ht ha

theorem Inv.idle (h : Inv x) {pending : List (ℕ × ℕ)} (hmem : pending ∈ x.stops) (hdone : pending.all x.isDone = true)
    (ht : t ∈ x.tasks) (k : ℕ) (a : Attempt) : ¬t.HasLive k a := by
  intro ha
  obtain ⟨id, hid⟩ := List.getElem?_of_mem ht
  have hisDone := List.all_eq_true.mp hdone _ ((h.stops pending hmem).2 id t k a hid ha)
  simp [isDone, hid, ha.1, ha.2] at hisDone

theorem Inv.stopped (h : Inv x) {pending : List (ℕ × ℕ)} (hstep : x.step (.stopped pending) = some y) : Inv y := by
  simp only [step] at hstep
  split at hstep
  · next hguard =>
      obtain ⟨hmem, hdone⟩ := hguard
      obtain rfl := Option.some.inj hstep
      have hrunning := (h.stops pending hmem).1
      have hidle (t : TaskItem) (ht : t ∈ x.tasks) := h.idle hmem hdone ht
      constructor
      · intro u hu
        obtain ⟨t, ht, rfl⟩ := List.mem_map.mp hu
        exact (h.tasks t ht).stopped (hidle t ht) (by simp [hrunning])
      · intro pending' _
        refine ⟨hrunning, fun id u k b hu hb => ?_⟩
        rw [List.getElem?_map] at hu
        obtain ⟨t, ht, rfl⟩ := Option.map_eq_some_iff.mp hu
        obtain ⟨hget, hlive⟩ := hb
        rw [TaskItem.attempts_resolve] at hget
        exact absurd ⟨hget, hlive⟩ (hidle t (List.mem_of_getElem? ht) k b)
  · exact nomatch hstep

theorem Inv.step (h : Inv x) (hstep : x.step e = some y) (horderly : x.Orderly e) : Inv y := by
  cases e with
  | submit priority createdAt timeout maxRetries => exact h.submit hstep
  | task id event => exact h.task hstep horderly
  | stop => exact h.stop hstep
  | stopped pending => exact h.stopped hstep

/-- No attempt starts after its task is cancelled, and no future is resolved twice. -/
theorem Inv.keeps (h : Inv x) (hstep : x.step e = some y) {id : ℕ} (ht : x.tasks[id]? = some t) (hu : y.tasks[id]? = some u) :
    t.Keeps u := by
  cases e with
  | submit priority createdAt timeout maxRetries =>
    obtain rfl := Option.some.inj hstep
    rw [List.getElem?_append_left (List.getElem?_eq_some_iff.mp ht).1, ht] at hu
    obtain rfl := Option.some.inj hu
    exact TaskItem.keeps_of_same rfl fun _ => rfl
  | task id' event =>
    obtain ⟨t', u', ht', hu', rfl⟩ := task_eq_some hstep
    obtain ⟨rfl, rfl⟩ | hold := getElem?_set_task hu
    · obtain rfl := Option.some.inj (ht'.symm.trans ht)
      exact (taskStep_keeps (h.tasks _ (List.mem_of_getElem? ht)) hu').1
    · obtain rfl := Option.some.inj (hold.symm.trans ht)
      exact TaskItem.keeps_of_same rfl fun _ => rfl
  | stop =>
    obtain rfl := Option.some.inj hstep
    rw [List.getElem?_map, ht] at hu
    obtain rfl := Option.some.inj hu
    refine TaskItem.keeps_of_cancels rfl fun _ => ?_
    rw [TaskItem.cancelRunning_eq]
  | stopped pending =>
    simp only [TaskOrchestrator.step] at hstep
    split at hstep
    · obtain rfl := Option.some.inj hstep
      rw [List.getElem?_map, ht] at hu
      obtain rfl := Option.some.inj hu
      exact TaskItem.keeps_of_same (TaskItem.attempts_resolve _ _) fun hdone => TaskItem.future_resolve _ _ hdone
    · exact nomatch hstep

/-- A step on a task that is not orderly makes the task unsafe. -/
theorem not_safe (h : t.TaskOk (x.running = true) (x.stops ≠ [])) (hstep : x.taskStep t event = some u)
    (horderly : ¬x.OrderlyAt t event) : ¬u.Safe (x.stops ≠ []) := by
  intro hsafe
  cases event with
  | forget k =>
    obtain ⟨a, ha, rfl⟩ := Option.map_eq_some_iff.mp hstep
    obtain ⟨hget, hstage⟩ := attemptIn_eq_some ha
    refine horderly fun b hb => Bool.eq_false_iff.mpr fun hlive => ?_
    obtain ⟨j, hj⟩ := List.getElem?_of_mem hb
    -- the attempt of the callback has ended, so the live one is another
    have hne : k ≠ j := by
      rintro rfl
      obtain rfl := Option.some.inj (hget.symm.trans hj)
      simp [Attempt.live, hstage] at hlive
    have hlost : (t.forget k).HasLive j b := by
      refine ⟨?_, hlive⟩
      rw [TaskItem.forget, TaskItem.getElem?_setStage, if_neg hne]
      exact hj
    exact nomatch hsafe.reached j b hlost
  | finish k outcome =>
    cases outcome with
    | cancelled =>
      obtain ⟨a, ha, rfl⟩ := Option.map_eq_some_iff.mp hstep
      obtain ⟨hget, hstage⟩ := attemptIn_eq_some ha
      obtain ⟨hstatus, hstops⟩ := not_or.mp horderly
      have hpending := (h.runs k a ⟨hget, by simp [Attempt.live, hstage]⟩).unresolved hstatus
      obtain hcancelled | hstopping := hsafe.agrees
      · exact nomatch hpending.symm.trans hcancelled
      · exact hstops hstopping
    | _ => exact horderly trivial
  | _ => exact horderly trivial

/-- A step from a state in order is safe exactly if it is orderly. -/
theorem step_safe_iff (h : Inv x) (hstep : x.step e = some y) : SafeStep x y ↔ x.Orderly e := by
  constructor
  · intro hsafe
    cases e with
    | task id event =>
      obtain ⟨t, u, ht, hu, rfl⟩ := task_eq_some hstep
      intro t' ht'
      obtain rfl := Option.some.inj (ht.symm.trans ht')
      by_contra horderly
      have hmem : u ∈ x.tasks.set id u := List.mem_set (List.getElem?_eq_some_iff.mp ht).1 u
      exact not_safe (h.tasks _ (List.mem_of_getElem? ht)) hu horderly (hsafe.safe u hmem)
    | _ => trivial
  · intro horderly
    exact ⟨(h.step hstep horderly).safe, fun id t u ht hu => h.keeps hstep ht hu⟩

/-- All steps of a run are safe, exactly if all of them are orderly. -/
theorem runs_safely_iff {l : List (Machine.Step TaskOrchestrator Event)} (h : machine.Run {} l x) :
    (∀ s ∈ l, SafeStep s.source s.target) ↔ ∀ s ∈ l, Orderly s.source s.label := by
  have hstart : ∀ s, machine.start s → Inv s := by
    intro s hs
    obtain rfl : s = {} := hs
    exact inv_start
  have hstep : ∀ s i t, Inv s → machine.step s i t → (SafeStep s t ↔ Orderly s i) ∧ (SafeStep s t → Inv t) := by
    intro s i t hs ht
    have hiff := step_safe_iff hs ht
    exact ⟨hiff, fun hsafe => hs.step ht (hiff.mp hsafe)⟩
  exact Machine.Run.steps_iff_of_invariant hstart hstep h rfl

/-- A task that fails, is tried again and completes. -/
theorem retried_safely : ∃ l x, machine.Run {} l x ∧
    l.map Machine.Step.label = [.submit 2 0 120 3, .task 0 (.dispatch 7), .task 0 (.begin 0),
      .task 0 (.finish 0 (.error "timeout")), .task 0 (.forget 0), .task 0 (.dispatch 7), .task 0 (.begin 1),
      .task 0 (.finish 1 (.success none))] ∧
    ((∀ s ∈ l, SafeStep s.source s.target) ↔ ∀ s ∈ l, Orderly s.source s.label) := by
  obtain ⟨x, hexec, -⟩ := Machine.exists_of_any (o := Machine.exec step {} [.submit 2 0 120 3, .task 0 (.dispatch 7),
    .task 0 (.begin 0), .task 0 (.finish 0 (.error "timeout")), .task 0 (.forget 0), .task 0 (.dispatch 7),
    .task 0 (.begin 1), .task 0 (.finish 1 (.success none))]) (p := fun _ => true) (by decide)
  obtain ⟨l, hrun, hlabels⟩ := Machine.exec_run_labels (P := (· = {})) hexec
  exact ⟨l, x, hrun, hlabels, runs_safely_iff hrun⟩

/-- The done-callback of an attempt that failed comes behind the next dispatch. -/
theorem retry_lost : ∃ l x, machine.Run {} l x ∧ l.map Machine.Step.label = [.submit 2 0 120 3, .task 0 (.dispatch 7),
    .task 0 (.begin 0), .task 0 (.finish 0 (.error "timeout")), .task 0 (.dispatch 7), .task 0 (.forget 0)] ∧ ¬Safe x := by
  obtain ⟨x, hexec, hx⟩ := Machine.exists_of_any (o := Machine.exec step {} [.submit 2 0 120 3, .task 0 (.dispatch 7),
    .task 0 (.begin 0), .task 0 (.finish 0 (.error "timeout")), .task 0 (.dispatch 7), .task 0 (.forget 0)])
    (p := fun x => x.tasks.any fun t => t.runningTask = none ∧ t.attempts[1]?.any Attempt.live) (by decide)
  obtain ⟨l, hrun, hlabels⟩ := Machine.exec_run_labels (P := (· = {})) hexec
  obtain ⟨t, ht, hlost⟩ := List.any_eq_true.mp hx
  obtain ⟨hnone, hany⟩ := of_decide_eq_true hlost
  obtain ⟨a, ha, hlive⟩ := (Option.any_eq_true _ _).mp hany
  refine ⟨l, x, hrun, hlabels, fun hsafe => ?_⟩
  exact nomatch hnone.symm.trans ((hsafe t ht).reached 1 a ⟨ha, hlive⟩)

end TaskOrchestrator

end Caips.Agents
