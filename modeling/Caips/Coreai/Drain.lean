/-
Caips.Coreai.Drain — the kill switch of the intake, after `DrainController` of
`coreai/drain.py`.

`idle` is the event that `wait_idle` waits for. It is set when the last request has
left, and cleared when one enters, so a waiter may go on after it was cleared again:
`releases` counts how often it was set, which is what an `asyncio.Event` does to its
waiters.
-/
import Mathlib.Data.Rat.Defs

namespace Caips.Coreai

/-- `_ALWAYS_ALLOWED`. -/
def alwaysAllowed : List String := ["/health", "/healthz", "/readyz", "/v1/admin/"]

/-- `path.startswith(self.allowed)`. -/
def allowedPath (path : String) : Bool := alwaysAllowed.any fun p => p.toList.isPrefixOf path.toList

/-- `DrainController`. -/
structure DrainController where
  accepting : Bool := true
  inFlight : ℕ := 0
  idle : Bool := true
  releases : ℕ := 0
  drainStartedAt : Option ℚ := none

namespace DrainController

variable (d : DrainController)

/-- `begin_drain`. -/
def beginDrain (now : ℚ) : DrainController :=
  if d.accepting then { d with accepting := false, drainStartedAt := some now } else d

/-- `resume`. -/
def resume : DrainController := { d with accepting := true, drainStartedAt := none }

/-- `self._idle.set()`. -/
def setIdle : DrainController := if d.idle then d else { d with idle := true, releases := d.releases + 1 }

def enter : DrainController := { d with inFlight := d.inFlight + 1, idle := false }

/-- `leave`; the count is cut off at 0. -/
def leave : DrainController :=
  if d.inFlight - 1 = 0 then ({ d with inFlight := d.inFlight - 1 } : DrainController).setIdle else { d with inFlight := d.inFlight - 1 }

/-- `snapshot`. -/
def snapshot : Bool × ℕ := (d.accepting, d.inFlight)

variable {d}

@[simp] theorem beginDrain_accepting (now : ℚ) : (d.beginDrain now).accepting = false := by
  unfold beginDrain
  split <;> simp_all

@[simp] theorem beginDrain_inFlight (now : ℚ) : (d.beginDrain now).inFlight = d.inFlight := by
  unfold beginDrain
  split <;> rfl

@[simp] theorem beginDrain_idle (now : ℚ) : (d.beginDrain now).idle = d.idle := by
  unfold beginDrain
  split <;> rfl

@[simp] theorem beginDrain_releases (now : ℚ) : (d.beginDrain now).releases = d.releases := by
  unfold beginDrain
  split <;> rfl

@[simp] theorem leave_inFlight : d.leave.inFlight = d.inFlight - 1 := by
  unfold leave setIdle
  split_ifs <;> rfl

@[simp] theorem leave_accepting : d.leave.accepting = d.accepting := by
  unfold leave setIdle
  split_ifs <;> rfl

/-- The event is set exactly while nothing is in flight. -/
theorem leave_idle (h : 0 < d.inFlight) (hidle : d.idle = decide (d.inFlight = 0)) :
    d.leave.idle = decide (d.leave.inFlight = 0) := by
  have hbusy : d.idle = false := by
    rw [hidle]
    exact decide_eq_false (by omega)
  rw [leave_inFlight]
  unfold leave setIdle
  split_ifs with hzero hset
  · exact absurd (hset.symm.trans hbusy) nofun
  · exact (decide_eq_true hzero).symm
  · rw [hbusy]
    exact (decide_eq_false hzero).symm

theorem leave_releases (h : 0 < d.inFlight) (hidle : d.idle = decide (d.inFlight = 0)) :
    d.leave.releases = d.releases ∨ d.inFlight = 1 ∧ d.leave.releases = d.releases + 1 := by
  have hbusy : d.idle = false := by
    rw [hidle]
    exact decide_eq_false (by omega)
  unfold leave setIdle
  split_ifs with hzero hset
  · exact absurd (hset.symm.trans hbusy) nofun
  · exact .inr ⟨by omega, rfl⟩
  · exact .inl rfl

end DrainController

end Caips.Coreai
