/-
Caips.Neural.Training — one fine-tuning job, after `TrainingManager.poll` and
`cancel` of `neural/training.py`.

Both look at the job, wait for the provider, and then write. What a waiting call
has read before is not used after the wait, so it is enough to count the calls that
wait. What `_save` writes to a store, and the log, are left out.
-/
import Caips.Api.Compat
import Caips.Logic.Machine
import Mathlib.Algebra.Group.Nat.Defs

namespace Caips.Neural

open Caips.Logic Caips.Api

inductive TrainingStatus where
  | queued
  | validating
  | running
  | succeeded
  | failed
  | cancelled
  deriving DecidableEq, Repr

namespace TrainingStatus

def value : TrainingStatus → String
  | queued => "queued"
  | validating => "validating"
  | running => "running"
  | succeeded => "succeeded"
  | failed => "failed"
  | cancelled => "cancelled"

def all : List TrainingStatus := [queued, validating, running, succeeded, failed, cancelled]

/-- `TrainingStatus(value)`; nothing where it raises. -/
def ofValue (v : Json) : Option TrainingStatus := all.find? fun s => isText s.value v

/-- A status a job ends in. -/
def Done (s : TrainingStatus) : Prop := s = succeeded ∨ s = failed ∨ s = cancelled

instance (s : TrainingStatus) : Decidable s.Done := inferInstanceAs (Decidable (_ ∨ _ ∨ _))

end TrainingStatus

open TrainingStatus

/-- When a job started: a number of the provider, or a reading of the clock. -/
inductive Instant where
  | reported (ts : Json)
  | clock (now : ℚ)

/-- `TrainingJob`, as far as the two calls use it. -/
structure TrainingJob where
  status : TrainingStatus := .queued
  providerJobId : Option String
  fineTunedModel : Json := null
  startedAt : Option Instant := none
  finishedAt : Option ℚ := none
  trainedTokens : Json := .atom (.int 0)
  error : Option Json := none

/-- What a call raises. -/
inductive TrainingFailure where
  | noProviderJob
  | cannotCancel (status : TrainingStatus)
  | provider
  | badStatus
  | badTimestamp
  | badError

/-- An integer that is no double: `float(n)` raises from here on. -/
def tooLarge (n : ℤ) : Bool := 2 ^ 1024 - 2 ^ 970 ≤ n.natAbs

/-- `float(ts) if isinstance(ts, (int, float)) else time.time()`. -/
def instant (now : ℚ) : Json → Except TrainingFailure Instant
  | .atom (.int n) => if tooLarge n then .error .badTimestamp else .ok (.reported (.atom (.int n)))
  | .atom (.float x) => .ok (.reported (.atom (.float x)))
  | .atom (.bool b) => .ok (.reported (.atom (.bool b)))
  | _ => .ok (.clock now)

/-- `raw.get("error", {}).get("message", "Unknown error")`. -/
def errorMessage (raw : Members) : Except TrainingFailure Json :=
  match dict? (getD raw "error" (.obj [])) with
  | none => .error .badError
  | some e => .ok (getD e "message" (text "Unknown error"))

/-- It is the first time that the job is seen to have started. -/
def Starts (job : TrainingJob) (status : TrainingStatus) : Prop :=
  job.startedAt.isNone = true ∧
    (status = .running ∨ (status = .succeeded ∨ status = .failed) ∧ job.status ≠ .queued)

instance (job : TrainingJob) (status : TrainingStatus) : Decidable (Starts job status) :=
  inferInstanceAs (Decidable (_ ∧ _))

/-- What a poll has done when it ends: the job, whether `on_succeeded` was called,
and what was raised. -/
structure Polled where
  job : TrainingJob
  called : Bool := false
  raised : Option TrainingFailure := none

/-- The end of a poll of a job that has ended. -/
def finish (job : TrainingJob) (wasDone : Bool) (hook : Bool) (raw : Members) (now : ℚ) : Polled :=
  let job := { job with finishedAt := some now }
  if job.status = .failed then
    match errorMessage raw with
    | .error e => { job, raised := some e }
    | .ok message => { job := { job with error := some message } }
  else { job, called := job.status = .succeeded ∧ ¬wasDone ∧ hook }

/-- `poll`, after the provider has answered. -/
def applyAnswer (job : TrainingJob) (hook : Bool) (raw : Members) (now : ℚ) : Polled :=
  match ofValue (getD raw "status" (text "queued")) with
  | none => { job, raised := some .badStatus }
  | some status =>
    let wasDone := decide job.status.Done
    let starts := decide (Starts job status)
    let job := { job with status }
    let ts := if truthy (get raw "started_at") then get raw "started_at" else get raw "started"
    match if starts then (instant now ts).map some else .ok job.startedAt with
    | .error e => { job, raised := some e }
    | .ok startedAt =>
      let job := { job with
        startedAt
        trainedTokens := getD raw "trained_tokens" (.atom (.int 0))
        fineTunedModel := get raw "fine_tuned_model" }
      if status.Done then finish job wasDone hook raw now else { job }

/-! ## Calls that overlap -/

/-- A job, the polls and cancels that wait for the provider, and how often
`on_succeeded` was called. -/
structure Training where
  job : TrainingJob
  polls : ℕ := 0
  cancels : ℕ := 0
  calls : ℕ := 0

/-- What happens to a job. -/
inductive Event where
  | poll
  | answered (raw : Members) (now : ℚ)
  | pollFails
  | cancel
  | cancelAccepted (now : ℚ)
  | cancelFails

namespace Training

/-- `poll` up to its wait. -/
def startPoll (s : Training) : Training × Option TrainingFailure :=
  if s.job.providerJobId.isNone then (s, some .noProviderJob) else ({ s with polls := s.polls + 1 }, none)

/-- `cancel` up to its wait. -/
def startCancel (s : Training) : Training × Option TrainingFailure :=
  if ¬(s.job.status = .queued ∨ s.job.status = .running) then (s, some (.cannotCancel s.job.status))
  else ({ s with cancels := s.cancels + 1 }, none)

/-- `cancel`, after the provider has accepted. -/
def applyCancel (job : TrainingJob) (now : ℚ) : TrainingJob := { job with status := .cancelled, finishedAt := some now }

/-- A step of one of the calls; `hook` says whether there is an `on_succeeded`. -/
def step (hook : Bool) (s : Training) : Event → Option Training
  | .poll => some s.startPoll.1
  | .answered raw now =>
    if s.polls = 0 then none
    else
      let r := applyAnswer s.job hook raw now
      some { s with job := r.job, polls := s.polls - 1, calls := if r.called then s.calls + 1 else s.calls }
  | .pollFails => if s.polls = 0 then none else some { s with polls := s.polls - 1 }
  | .cancel => some s.startCancel.1
  | .cancelAccepted now =>
    if s.cancels = 0 then none else some { s with job := applyCancel s.job now, cancels := s.cancels - 1 }
  | .cancelFails => if s.cancels = 0 then none else some { s with cancels := s.cancels - 1 }

/-- The runs of the calls on one job, from any job. -/
def machine (hook : Bool) : Machine Training Event :=
  .ofFun (fun s => s.polls = 0 ∧ s.cancels = 0 ∧ s.calls = 0) (step hook)

end Training

end Caips.Neural
