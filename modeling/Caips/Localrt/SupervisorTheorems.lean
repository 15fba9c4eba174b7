/-
Caips.Localrt.SupervisorTheorems — when no model is stopped under a request.

Eviction and idle reaping look at the time a model was last prepared for a
request, not at the requests that still use it. So they spare those exactly as
long as that time tells them to; and `reap_idle` counts a child as gone before
it has exited, so the number of children stays within its bound only if nothing
is started meanwhile (`undisturbed`).
-/
import Caips.Localrt.Supervisor

namespace Caips.Localrt

open Caips.Logic

namespace Managed

variable {x u : Managed} {ev : ManagedEvent} {name : String}

/-- The number of children is bounded, and what is about to be reaped is not in
use. -/
structure Inv (x : Managed) : Prop where
  size : (x.supervisor.loaded.size : ℤ) ≤ max x.supervisor.maxLoaded 0
  children : (x.children : ℤ) ≤ max x.supervisor.maxLoaded 0
  reaping : ∀ r, x.reaping = some r → ∀ name ∈ r.todo, name ∉ x.requests

/-! ## What an operation does to the number of children -/

variable {s : Supervisor}

theorem Inv.still (hx : x.Inv) (hsupervisor : u.supervisor = x.supervisor) (hevicted : evicted u.preparing ≤ evicted x.preparing)
    (hreaped : reaped u.reaping ≤ reaped x.reaping) (hreaping : ∀ r, u.reaping = some r → ∀ name ∈ r.todo, name ∉ u.requests) :
    u.Inv where
  size := hsupervisor ▸ hx.size
  children := by
    have hchildren := hx.children
    simp only [Managed.children, hsupervisor] at hchildren ⊢
    omega
  reaping := hreaping

/-- What a step has to keep, and whom it has to spare. -/
def Spares (x u : Managed) : Prop := u.Inv ∧ ∀ name ∈ x.requests, ¬Unloads x u name

theorem inv_start (h : machine.start x) : x.Inv := by
  obtain ⟨hloaded, hpreparing, hreaping, -⟩ := h
  refine ⟨?_, ?_, fun r hr => nomatch hreaping.symm.trans hr⟩
  · simp [hloaded, Dict.size, Dict.empty]
  · simp [children, Supervisor.running, hloaded, evicted, hpreparing, reaped, hreaping, Dict.count, Dict.values, Dict.empty]

/-! ## Runs -/

def single : Managed := { supervisor := {} }

instance (x u : Managed) (name : String) : Decidable (Unloads x u name) :=
  decidable_of_iff ((x.supervisor.loaded.get? name).any (·.alive) = true ∧ u.supervisor.loaded.get? name = none)
    (by simp [Unloads, Option.any_eq_true])

instance (s : Supervisor) (o e : String × Loaded) : Decidable (Before s o e) := inferInstanceAs (Decidable (_ ∨ _))

instance (x : Managed) : Decidable x.Roomy := inferInstanceAs (Decidable (_ → _))

instance (x : Managed) : (ev : ManagedEvent) → Decidable (x.Calm ev)
  | .work =>
    match h : x.preparing with
    | some (.ensuring model) =>
      decidable_of_iff (∀ m ∈ x.supervisor.loaded.get? model, ¬m.alive → m.restarts < x.supervisor.maxRestarts →
        m.nextRestartAt ≤ x.now → x.Roomy) (by simp [Calm, h])
    | some (.makingRoom _) =>
      decidable_of_iff (if (x.supervisor.loaded.size : ℤ) ≥ x.supervisor.maxLoaded then
        ∀ e ∈ x.supervisor.loaded.entries, e.2.alive → e.1 ∈ x.requests →
          ∃ o ∈ x.supervisor.loaded.entries, Before x.supervisor o e
        else x.Roomy) (by simp [Calm, h])
    | some (.evicting _) => isTrue (by simp [Calm, h])
    | some (.loading _) => isTrue (by simp [Calm, h])
    | none => isTrue (by simp [Calm, h])
  | .reap => inferInstanceAs (Decidable (∀ e ∈ x.supervisor.loaded.entries, e.1 ∈ x.requests → _ ≤ _))
  | .tick _ | .lock _ | .ready | .loadTimeout | .finish _ | .reapNext | .crash _ => isTrue trivial

def pair : Managed := { supervisor := { maxLoaded := 2 } }

/-- Models `a` and `b` are loaded for requests. When that for `a` has finished, `a` is evicted for `c`; when
that for `b` has, `b` is idle and reaped. -/
def busy : List ManagedEvent :=
  [.lock "a", .work, .work, .ready, .tick 1, .lock "b", .work, .work, .ready, .finish 0, .lock "c", .work, .work,
    .work, .work, .ready, .tick 500, .lock "c", .work, .ready, .finish 0, .tick 700, .reap, .reapNext, .reapNext,
    .reapNext]

end Managed

end Caips.Localrt
