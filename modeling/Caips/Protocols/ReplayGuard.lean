/-
Caips.Protocols.ReplayGuard — the replay window, after `ReplayGuard` of
`protocols/secure_protocol.py`.

An entry is dropped when its timestamp is at the cutoff or before, and a frame
is let in when its timestamp is at the cutoff or after. The guard is stated for
any numbers of a clock: a session has doubles, as a peer may pack any eight bytes,
and the exchange of messages has exact ones, which are its own clock's.
-/
import Caips.Logic.Dict
import Mathlib.Algebra.Order.Field.Rat
import Mathlib.Algebra.Order.Group.Abs

namespace Caips.Protocols

open Caips.Logic

/-- `abs`. -/
class Abs (τ : Type) where
  abs : τ → τ

instance : Abs ℚ := ⟨fun x => |x|⟩

instance : Abs Float := ⟨Float.abs⟩

/-- `REPLAY_WINDOW_S`. -/
def replayWindowS : ℚ := 30

variable {τ : Type}

/-- `ReplayAttackError`: outside the window, or a number seen in it. -/
inductive ReplayAttack (τ : Type) where
  | outsideWindow (timestamp : τ)
  | duplicate (seqNo : ℕ)

/-- `ReplayGuard`: the timestamps of the numbers seen. -/
structure ReplayGuard (τ : Type) where
  windowS : τ
  seen : Dict ℕ τ := .empty

namespace ReplayGuard

variable [Sub τ] [LT τ] [DecidableLT τ] [Abs τ]

/-- `check`. -/
def check (g : ReplayGuard τ) (now : τ) (seqNo : ℕ) (timestamp : τ) : Except (ReplayAttack τ) (ReplayGuard τ) :=
  if g.windowS < Abs.abs (now - timestamp) then .error (.outsideWindow timestamp)
  else if g.seen.contains seqNo then .error (.duplicate seqNo)
  else .ok { g with seen := (g.seen.filter fun v => now - g.windowS < v).set seqNo timestamp }

variable {now timestamp : τ}

theorem check_ok {g g' : ReplayGuard τ} {seqNo : ℕ} (h : g.check now seqNo timestamp = .ok g') :
    ¬g.windowS < Abs.abs (now - timestamp) ∧ g.seen.get? seqNo = none ∧
      g' = { g with seen := (g.seen.filter fun v => now - g.windowS < v).set seqNo timestamp } := by
  unfold check at h
  split at h
  · exact nomatch h
  · next hwindow =>
      split at h
      · exact nomatch h
      · next hseen =>
          refine ⟨hwindow, ?_, (Except.ok.inj h).symm⟩
          simpa [Dict.contains] using hseen

theorem check_eq_ok {g : ReplayGuard τ} {seqNo : ℕ}
    (hwindow : ¬g.windowS < Abs.abs (now - timestamp)) (hseen : g.seen.get? seqNo = none) :
    ∃ g', g.check now seqNo timestamp = .ok g' := by
  rw [check, if_neg hwindow, if_neg (by simp [Dict.contains, hseen])]
  exact ⟨_, rfl⟩

theorem check_recorded {g g' : ReplayGuard τ} {seqNo : ℕ} (h : g.check now seqNo timestamp = .ok g')
    (now' timestamp' : τ) : ∃ e, g'.check now' seqNo timestamp' = .error e := by
  obtain ⟨-, -, rfl⟩ := check_ok h
  cases hagain : check _ now' seqNo timestamp' with
  | error e => exact ⟨e, rfl⟩
  | ok u => exact absurd (check_ok hagain).2.1 (by simp)

end ReplayGuard

end Caips.Protocols
