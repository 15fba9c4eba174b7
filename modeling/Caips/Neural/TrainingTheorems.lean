/-
Caips.Neural.TrainingTheorems — how often a training job ends.

A poll writes the status the provider reports, and a cancel writes `cancelled`,
whatever the job has become while they waited. So a job ends once exactly as long
as nothing else is reported after its end (`ends_once_iff`); `on_succeeded` is then
called at most once, and for a job that stays succeeded.
-/
import Caips.Neural.Training

namespace Caips.Neural

open Caips.Logic Caips.Api TrainingStatus

variable {job : TrainingJob} {hook : Bool} {raw : Members} {now : ℚ}

/-! ## One answer -/

/-- The status an answer reports. -/
def reported (raw : Members) : Option TrainingStatus := ofValue (getD raw "status" (text "queued"))

theorem finish_status (wasDone : Bool) : (finish job wasDone hook raw now).job.status = job.status := by
  unfold finish
  simp only
  split
  · split
    · rfl
    · rfl
  · rfl

theorem finish_called {wasDone : Bool} (h : (finish job wasDone hook raw now).called = true) :
    job.status = .succeeded ∧ wasDone = false := by
  unfold finish at h
  simp only at h
  split at h
  · split at h
    · exact nomatch h
    · exact nomatch h
  · simp only [decide_eq_true_eq] at h
    exact ⟨h.1, by simpa using h.2.1⟩

variable (job hook raw now) in
theorem applyAnswer_status : (applyAnswer job hook raw now).job.status = (reported raw).getD job.status := by
  unfold applyAnswer reported
  cases ofValue (getD raw "status" (text "queued")) with
  | none => rfl
  | some status =>
    simp only [Option.getD_some]
    split
    · rfl
    · split
      · exact finish_status _
      · rfl

/-- `on_succeeded` is called when the job becomes succeeded, and had not ended. -/
theorem applyAnswer_called (h : (applyAnswer job hook raw now).called = true) :
    ¬job.status.Done ∧ (applyAnswer job hook raw now).job.status = .succeeded := by
  have hstatus := applyAnswer_status job hook raw now
  rw [hstatus]
  unfold applyAnswer at h
  unfold reported
  cases hv : ofValue (getD raw "status" (text "queued")) with
  | none =>
    rw [hv] at h
    exact nomatch h
  | some status =>
    rw [hv] at h
    simp only at h
    split at h
    · exact nomatch h
    · split at h
      · obtain ⟨hsucceeded, hnot⟩ := finish_called h
        exact ⟨of_decide_eq_false hnot, hsucceeded⟩
      · exact nomatch h

/-! ## Runs -/

namespace Training

/-- A step that leaves the status of a job that has ended. -/
def Stays (s t : Training) : Prop := s.job.status.Done → t.job.status = s.job.status

/-- What is written after the end of a job is the status it ended with. -/
def SameEnd (s : Training) : Event → Prop
  | .answered raw _ => s.job.status.Done → ∀ status, reported raw = some status → status = s.job.status
  | .cancelAccepted _ => s.job.status.Done → s.job.status = .cancelled
  | _ => True

/-- `on_succeeded` was called at most once, and then the job is succeeded. -/
structure CalledOnce (s : Training) : Prop where
  once : s.calls ≤ 1
  succeeded : 0 < s.calls → s.job.status = .succeeded

theorem startPoll_job (s : Training) : s.startPoll.1.job = s.job ∧ s.startPoll.1.calls = s.calls := by
  unfold startPoll
  split
  · exact ⟨rfl, rfl⟩
  · exact ⟨rfl, rfl⟩

theorem startCancel_job (s : Training) : s.startCancel.1.job = s.job ∧ s.startCancel.1.calls = s.calls := by
  unfold startCancel
  split
  · exact ⟨rfl, rfl⟩
  · exact ⟨rfl, rfl⟩

variable {s t : Training}

/-- What a step does to the job and the calls: only an answer and an accepted
cancel do anything. -/
theorem step_cases {e : Event} (h : step hook s e = some t) :
    (t.job = s.job ∧ t.calls = s.calls ∧ SameEnd s e) ∨
    (∃ raw now, e = .answered raw now ∧ t.job = (applyAnswer s.job hook raw now).job ∧
      t.calls = if (applyAnswer s.job hook raw now).called then s.calls + 1 else s.calls) ∨
    ∃ now, e = .cancelAccepted now ∧ t.job = applyCancel s.job now ∧ t.calls = s.calls := by
  cases e with
  | poll =>
    obtain rfl := Option.some.inj h
    exact .inl ⟨(startPoll_job s).1, (startPoll_job s).2, trivial⟩
  | cancel =>
    obtain rfl := Option.some.inj h
    exact .inl ⟨(startCancel_job s).1, (startCancel_job s).2, trivial⟩
  | answered raw now =>
    simp only [step] at h
    split at h
    · exact nomatch h
    · obtain rfl := Option.some.inj h
      exact .inr (.inl ⟨raw, now, rfl, rfl, rfl⟩)
  | pollFails =>
    simp only [step] at h
    split at h
    · exact nomatch h
    · obtain rfl := Option.some.inj h
      exact .inl ⟨rfl, rfl, trivial⟩
  | cancelAccepted now =>
    simp only [step] at h
    split at h
    · exact nomatch h
    · obtain rfl := Option.some.inj h
      exact .inr (.inr ⟨now, rfl, rfl, rfl⟩)
  | cancelFails =>
    simp only [step] at h
    split at h
    · exact nomatch h
    · obtain rfl := Option.some.inj h
      exact .inl ⟨rfl, rfl, trivial⟩

theorem stays_iff {e : Event} (h : step hook s e = some t) : Stays s t ↔ SameEnd s e := by
  rcases step_cases h with ⟨hjob, -, hsame⟩ | ⟨raw, now, rfl, hjob, -⟩ | ⟨now, rfl, hjob, -⟩
  · simp only [hsame, iff_true]
    exact fun _ => congrArg TrainingJob.status hjob
  · unfold Stays SameEnd
    rw [hjob, applyAnswer_status]
    refine forall_congr' fun _ => ?_
    cases reported raw with
    | none => simp
    | some status => simp
  · unfold Stays SameEnd
    rw [hjob]
    exact forall_congr' fun _ => eq_comm

/-- Where the status of an ended job stays, `on_succeeded` is called for a job that
has not ended, so for the first time. -/
theorem CalledOnce.step {e : Event} (hs : s.CalledOnce) (h : Training.step hook s e = some t)
    (hstays : Stays s t) : t.CalledOnce := by
  have hkeep : t.calls = s.calls → t.CalledOnce := by
    intro hcalls
    refine ⟨hcalls ▸ hs.once, fun hpos => ?_⟩
    have hsucceeded := hs.succeeded (hcalls ▸ hpos)
    rw [hstays (.inl hsucceeded), hsucceeded]
  rcases step_cases h with ⟨-, hcalls, -⟩ | ⟨raw, now, rfl, hjob, hcalls⟩ | ⟨now, rfl, -, hcalls⟩
  · exact hkeep hcalls
  · by_cases hcalled : (applyAnswer s.job hook raw now).called = true
    · obtain ⟨hnot, hsucceeded⟩ := applyAnswer_called hcalled
      have hzero : s.calls = 0 := by
        by_contra hpos
        exact hnot (.inl (hs.succeeded (Nat.pos_of_ne_zero hpos)))
      rw [if_pos hcalled, hzero] at hcalls
      exact ⟨hcalls.le, fun _ => by rw [hjob, hsucceeded]⟩
    · rw [if_neg hcalled] at hcalls
      exact hkeep hcalls
  · exact hkeep hcalls

/-- **A job ends once, and `on_succeeded` is called at most once and only for a job
that is succeeded in the end, exactly as long as every answer and every accepted
cancel that comes after the end says what the job ended with.** -/
theorem ends_once_iff {s t : Training} {l : List (Machine.Step Training Event)} (hstart : (machine hook).start s)
    (hrun : (machine hook).Run s l t) :
    ((∀ e ∈ l, Stays e.source e.target) ∧ t.CalledOnce) ↔ ∀ e ∈ l, SameEnd e.source e.label := by
  have hsteps := hrun.steps_iff (P := fun s _ t => Stays s t) (C := SameEnd) (fun _ _ _ _ hstep => stays_iff hstep) hstart
  constructor
  · intro h
    exact hsteps.mp h.1
  · intro h
    refine ⟨hsteps.mpr h, ?_⟩
    refine Machine.Reach.invariant (I := CalledOnce) ?_ ?_ (hrun.reach hstart h)
    · intro s hs
      have hzero : s.calls = 0 := hs.2.2
      exact ⟨by omega, by omega⟩
    · intro s e t hs hstep hsame
      exact hs.step hstep ((stays_iff hstep).mpr hsame)

def submitted : Training := { job := { providerJobId := some "ft-1" } }

/-- An answer that reports a status. -/
def answer (status : String) : Event := .answered [field "status" (text status)] 0

instance (s : Training) : (e : Event) → Decidable (SameEnd s e)
  | .answered raw _ => inferInstanceAs (Decidable (s.job.status.Done → ∀ status ∈ reported raw, status = s.job.status))
  | .cancelAccepted _ => inferInstanceAs (Decidable (s.job.status.Done → s.job.status = .cancelled))
  | .poll | .pollFails | .cancel | .cancelFails => .isTrue trivial

/-- Two polls and a cancel wait while the job succeeds; the second poll is told so
again, and the cancel is refused. -/
def waited : List Event := [.poll, .poll, .cancel, answer "succeeded", answer "succeeded", .cancelFails]

/-- `ends_once_iff` for these calls. -/
theorem ends_once_polled : ∃ t l, (machine true).Run submitted l t ∧ l.map Machine.Step.label = waited ∧
    t.job.status = .succeeded ∧ t.calls = 1 ∧ (∀ e ∈ l, Stays e.source e.target) ∧ t.CalledOnce := by
  obtain ⟨t, ht, htest⟩ := Machine.exists_of_any
    (show (Machine.exec (step true) submitted waited).any (fun t => t.job.status = .succeeded ∧ t.calls = 1) = true by
      decide +kernel)
  obtain ⟨hstatus, hcalls⟩ := of_decide_eq_true htest
  have hrun : (machine true).Run submitted (Machine.steps (step true) submitted waited) t := Machine.run_steps ht
  have hsame : ∀ e ∈ Machine.steps (step true) submitted waited, SameEnd e.source e.label := by decide +kernel
  exact ⟨t, _, hrun, Machine.labels_steps ht, hstatus, hcalls, (ends_once_iff ⟨rfl, rfl, rfl⟩ hrun).mpr hsame⟩

/-- Two polls overlap, and the older answer arrives last: the job has succeeded, runs
again, and succeeds a second time. -/
theorem succeeds_twice : ∃ t l, (machine true).Run submitted l t ∧
    l.map Machine.Step.label = [.poll, .poll, answer "succeeded", answer "running", .poll, answer "succeeded"] ∧
    t.calls = 2 ∧ ¬t.CalledOnce := by
  obtain ⟨t, ht, htest⟩ := Machine.exists_of_any
    (show (Machine.exec (step true) submitted
      [.poll, .poll, answer "succeeded", answer "running", .poll, answer "succeeded"]).any (fun t => t.calls = 2) = true by
      decide +kernel)
  obtain ⟨l, hrun, hlabels⟩ := Machine.exec_run_labels ht
  have hcalls : t.calls = 2 := of_decide_eq_true htest
  exact ⟨t, l, hrun, hlabels, hcalls, fun honce => absurd honce.once (by omega)⟩

end Training

end Caips.Neural
