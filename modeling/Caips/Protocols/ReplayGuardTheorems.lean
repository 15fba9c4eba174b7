/-
Caips.Protocols.ReplayGuardTheorems — the runs of a `ReplayGuard` on doubles.

A frame whose timestamp is the cutoff can be let in after its entry was dropped,
while the clock still shows the same time; and a timestamp that is no number is
at no distance from any clock and above no cutoff, so the window lets it in and
the next frame drops its entry (`edge_replayed`).
-/
import Caips.Logic.Floats
import Caips.Logic.Machine
import Caips.Protocols.ReplayGuard

namespace Caips.Protocols

open Caips.Logic Caips.Logic.Binary64

/-! ## Runs -/

/-- A call of `check`. -/
structure Checking where
  now : Float
  seqNo : ℕ
  timestamp : Float
  deriving DecidableEq

/-- A guard, the time of the last call, and the frames it has let in. -/
structure Guarding where
  guard : ReplayGuard Float
  now : Float
  accepted : List (ℕ × Float)

namespace Guarding

/-- A call, no earlier than the one before. -/
def step (s : Guarding) (c : Checking) : Option Guarding :=
  if s.now ≤ c.now then
    match s.guard.check c.now c.seqNo c.timestamp with
    | .error _ => some { s with now := c.now }
    | .ok g => some { guard := g, now := c.now, accepted := s.accepted ++ [(c.seqNo, c.timestamp)] }
  else none

def machine : Machine Guarding Checking :=
  .ofFun (fun s => s.guard.seen = .empty ∧ s.accepted = []) Guarding.step

/-- A frame let in before comes again after its entry was dropped: its timestamp is
no number, or it is no further from the clock than the window, as computed, and yet
not above the computed cutoff. -/
def AtEdge (s : Guarding) (c : Checking) : Prop :=
  (c.seqNo, c.timestamp) ∈ s.accepted ∧ s.guard.seen.get? c.seqNo = none ∧
    ¬s.guard.windowS < (c.now - c.timestamp).abs ∧ ¬c.now - s.guard.windowS < c.timestamp

/-- A frame that was let in still has its entry, or its timestamp is not above the cutoff. -/
def Inv (s : Guarding) : Prop :=
  ∀ q t, (q, t) ∈ s.accepted → s.guard.seen.get? q = some t ∨ ¬s.now - s.guard.windowS < t

variable {c : Checking}

theorem step_cases {s u : Guarding} (h : s.step c = some u) :
    s.now ≤ c.now ∧ ((∃ e, s.guard.check c.now c.seqNo c.timestamp = .error e) ∧ u = { s with now := c.now } ∨
      ∃ g, s.guard.check c.now c.seqNo c.timestamp = .ok g ∧
        u = { guard := g, now := c.now, accepted := s.accepted ++ [(c.seqNo, c.timestamp)] }) := by
  unfold step at h
  split at h
  · next hnow =>
      refine ⟨hnow, ?_⟩
      split at h
      · next e he => exact .inl ⟨⟨e, he⟩, (Option.some.inj h).symm⟩
      · next g hg => exact .inr ⟨g, hg, (Option.some.inj h).symm⟩
  · exact nomatch h

theorem inv_step {s u : Guarding} (hs : s.Inv) (h : s.step c = some u) : u.Inv := by
  obtain ⟨hnow, ⟨-, rfl⟩ | ⟨g, hg, rfl⟩⟩ := step_cases h
  · intro q t hqt
    rcases hs q t hqt with hkept | hout
    · exact .inl hkept
    · exact .inr (mt (sub_lt_of_le hnow) hout)
  · obtain ⟨-, hnone, rfl⟩ := ReplayGuard.check_ok hg
    intro q t hqt
    rcases List.mem_append.mp hqt with hold | hnew
    · rcases hs q t hold with hkept | hout
      · by_cases hq : c.seqNo = q
        · subst hq
          exact nomatch hnone.symm.trans hkept
        · -- the entry is dropped only where it is not above the cutoff
          by_cases hcut : c.now - s.guard.windowS < t
          · left
            simp [Dict.get?_set_ne _ _ hq, Dict.get?_filter, hkept, hcut]
          · exact .inr hcut
      · exact .inr (mt (sub_lt_of_le hnow) hout)
    · obtain ⟨rfl, rfl⟩ : q = c.seqNo ∧ t = c.timestamp := by simpa using hnew
      left
      simp

theorem inv_reach {s : Guarding} (h : machine.Reach Machine.free s) : s.Inv := by
  refine Machine.Reach.invariant (I := Inv) ?_ (fun s c u hs hstep _ => inv_step hs hstep) h
  intro s hs q t hqt
  simp [hs.2] at hqt

theorem again_iff {s : Guarding} (hs : s.Inv) (hnow : s.now ≤ c.now) :
    ((c.seqNo, c.timestamp) ∈ s.accepted ∧ ∃ g, s.guard.check c.now c.seqNo c.timestamp = .ok g) ↔ s.AtEdge c := by
  constructor
  · rintro ⟨hmem, g, hg⟩
    obtain ⟨hwindow, hnone, -⟩ := ReplayGuard.check_ok hg
    rcases hs _ _ hmem with hkept | hout
    · exact nomatch hnone.symm.trans hkept
    · exact ⟨hmem, hnone, hwindow, mt (sub_lt_of_le hnow) hout⟩
  · rintro ⟨hmem, hnone, hwindow, -⟩
    exact ⟨hmem, ReplayGuard.check_eq_ok hwindow hnone⟩

/-- **A frame is let in at most once**, in every run, exactly as long as none
that was let in comes again at the edge of the window after its entry was
dropped. -/
theorem accepted_nodup_iff {s t : Guarding} {l : List (Machine.Step Guarding Checking)} (hstart : machine.start s)
    (hrun : machine.Run s l t) : t.accepted.Nodup ↔ ∀ e ∈ l, ¬e.source.AtEdge e.label := by
  induction hrun with
  | nil =>
    have hempty : s.accepted = [] := hstart.2
    simp [hempty]
  | @snoc t u l c hr hstep ih =>
    have hinv := inv_reach (hr.reach hstart fun _ _ => trivial)
    obtain ⟨hnow, hcases⟩ := step_cases hstep
    have hagain := again_iff hinv hnow
    have hlast : (∀ e ∈ l ++ [⟨t, c, u⟩], ¬e.source.AtEdge e.label) ↔ t.accepted.Nodup ∧ ¬t.AtEdge c := by
      rw [ih]
      constructor
      · intro h
        exact ⟨fun e he => h e (by simp [he]), h ⟨t, c, u⟩ (by simp)⟩
      · rintro ⟨h, hc⟩ e he
        rcases List.mem_append.mp he with he | he
        · exact h e he
        · rw [List.mem_singleton.mp he]
          exact hc
    rw [hlast, ← hagain]
    rcases hcases with ⟨⟨e, he⟩, rfl⟩ | ⟨g, hg, rfl⟩
    · simp [he]
    · have hok : ∃ g, t.guard.check c.now c.seqNo c.timestamp = .ok g := ⟨g, hg⟩
      rw [List.nodup_append]
      simp only [hok, and_true, List.nodup_singleton, true_and, List.mem_singleton]
      refine and_congr_right fun _ => ⟨fun h hmem => h _ hmem _ rfl rfl, ?_⟩
      rintro h a ha b rfl rfl
      exact h ha

def fresh : Guarding := { guard := { windowS := 30 }, now := 0, accepted := [] }

theorem reach_exec {cs : List Checking} {t : Guarding} (h : Machine.exec Guarding.step fresh cs = some t) :
    machine.Reach Machine.free t :=
  Machine.exec_reach (.start ⟨rfl, rfl⟩) h

/-- `accepted_nodup_iff` for a frame that comes again while its entry is there, and once more after
it was dropped. -/
theorem accepted_nodup_replay : ∃ s t l, machine.start s ∧ machine.Run s l t ∧ t.accepted = [(1, 0), (2, 40)] ∧
    ∀ e ∈ l, ¬e.source.AtEdge e.label := by
  obtain ⟨t, ht, htest⟩ := Machine.exists_of_any
    (show (Machine.exec Guarding.step fresh [⟨0, 1, 0⟩, ⟨10, 1, 0⟩, ⟨40, 2, 40⟩, ⟨41, 1, 0⟩]).any
      (fun t => t.accepted = [(1, 0), (2, 40)]) = true by decide +kernel)
  have haccepted : t.accepted = [(1, 0), (2, 40)] := of_decide_eq_true htest
  obtain ⟨s, l, hstart, hrun, -⟩ := (reach_exec ht).exists_run
  exact ⟨s, t, l, hstart, hrun, haccepted, (accepted_nodup_iff hstart hrun).mp (by simp [haccepted])⟩

/-- A frame that is exactly 30 seconds old comes a second time right after
another one was let in, and is let in again; and so is one whose timestamp is no
number, as soon as another one was let in. -/
theorem edge_replayed :
    (∃ t, machine.Reach Machine.free t ∧
      Machine.exec Guarding.step fresh [⟨0, 1, 0⟩, ⟨30, 2, 30⟩, ⟨30, 1, 0⟩] = some t ∧ ¬t.accepted.Nodup) ∧
    ∃ t, machine.Reach Machine.free t ∧
      Machine.exec Guarding.step fresh [⟨0, 1, 0 / 0⟩, ⟨0, 2, 0⟩, ⟨0, 1, 0 / 0⟩] = some t ∧ ¬t.accepted.Nodup := by
  constructor
  · obtain ⟨t, ht, htest⟩ := Machine.exists_of_any
      (show (Machine.exec Guarding.step fresh [⟨0, 1, 0⟩, ⟨30, 2, 30⟩, ⟨30, 1, 0⟩]).any
        (fun t => ¬t.accepted.Nodup) = true by decide +kernel)
    exact ⟨t, reach_exec ht, ht, of_decide_eq_true htest⟩
  · obtain ⟨t, ht, htest⟩ := Machine.exists_of_any
      (show (Machine.exec Guarding.step fresh [⟨0, 1, 0 / 0⟩, ⟨0, 2, 0⟩, ⟨0, 1, 0 / 0⟩]).any
        (fun t => ¬t.accepted.Nodup) = true by decide +kernel)
    exact ⟨t, reach_exec ht, ht, of_decide_eq_true htest⟩

end Guarding

end Caips.Protocols
