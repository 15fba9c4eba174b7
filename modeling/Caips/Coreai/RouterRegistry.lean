/-
Caips.Coreai.RouterRegistry — requests in flight while providers come and go.

A request looks its candidates up by name again after every await. It ends as
it should as long as it finds those it needs (`KeptRegistry`): after a success
the provider that served it, after a failure also the candidates it may turn
to next.
-/
import Caips.Coreai.RouterSlots

namespace Caips.Coreai

open Caips.Logic Caips.Providers

namespace Router

open RouterState

variable {S : Setup}

/-- Whenever a completion goes on, the candidates it needs for the answer it
got are registered, and the answer is no `KeyError` of a provider's own. -/
def KeptRegistry (p : Pool Γ) : Move Γ Op → Prop
  | .start i => ∀ t ∈ p.tasks[i]?, ∀ n ∈ candidates t.child [], n ∈ p.state.providers.keys
  | .resume i a => p.AtResume i a fun me q r => me.2.isEmbed = false → Unbroken me q p.state r
  | _ => True

/-- The mode of a kept registry. -/
abbrev keptMode : Mode := { kept := True }

theorem good_of_kept {p : Pool Γ} (hp : (system S).Reach KeptRegistry p) :
    (contract S keptMode).Good p := by
  refine (sound fun s hs => inv_fresh hs).good (hp.mono_step fun p m p' hstep hG => ?_)
  cases m with
  | spawn c => trivial
  | start i => exact fun _ => hG
  | resume i a =>
    have hkept : p.AtResume i a fun me q r => me.2.isEmbed = false → Unbroken me q p.state r := hG
    exact (hkept.imp fun me q r hr => ⟨fun hk => hr hk.2, fun hc => hc.elim⟩ :
      p.AtResume i a fun me q r => (Mode.keeps keptMode me.2 → Unbroken me q p.state r) ∧
        (Mode.careful keptMode → ¬ Mode.fixed keptMode → Granted me p.state q r))
  | crash i a n => exact no_crash hstep
  | op o =>
    cases o with
    | setProvider name q => exact id
    | dropProvider name => exact ⟨id, fun hc => hc.elim⟩
    | tick d => trivial
    | provider name q => trivial
    | report u i o m => trivial
    | policies q => trivial
    | modelGate g => trivial

/-- **Requests in flight, in a kept registry.** A completion that has ended has
returned the response its upstream call delivered, or was not served and has no
candidate left to fail over to, or an exception that ends it; no `KeyError`
reaches the caller. -/
theorem requests_answered {p : Pool Γ} (hp : (system S).Reach KeptRegistry p) {i : Nat}
    {t : Task Γ} (ht : p.tasks[i]? = some t) (hc : t.child.isEmbed = false)
    {o : Except Exc t.child.Out} (ho : t.status = .done o) :
    Answered S t.child o (p.state.focus i) t.hist := by
  obtain ⟨h, hpost⟩ := (good_of_kept hp).done ht ho
  change (if t.child.isEmbed then _ else _) at hpost
  rw [hc] at hpost
  exact hpost.2 ⟨trivial, hc⟩

instance : (q : Ask Γ) → (r : Except Exc q.Reply) → Decidable (Foreign q r)
  | .call _, .error e => inferInstanceAs (Decidable (e.isKeyError = false))
  | .call _, .ok _ | .wait _ _, _ | .join _, _ => inferInstanceAs (Decidable True)

instance (me : Γ.Handle) (s : RouterState) (q : Ask Γ) (r : Except Exc q.Reply) :
    Decidable (Unbroken me q s r) :=
  decidable_of_iff
    ((∀ n ∈ needed q r (candidates me.2 (s.focus me.1)), n ∈ s.providers.keys) ∧ Foreign q r)
    ⟨fun h => ⟨h.1, h.2⟩, fun h => ⟨h.1, h.2⟩⟩

instance (p : Pool Γ) : (m : Move Γ Op) → Decidable (KeptRegistry p m)
  | .start i => inferInstanceAs (Decidable
      (∀ t ∈ p.tasks[i]?, ∀ n ∈ candidates t.child [], n ∈ p.state.providers.keys))
  | .resume i a => inferInstanceAs (Decidable
      (p.AtResume i a fun me q r => me.2.isEmbed = false → Unbroken me q p.state r))
  | .op _ | .spawn _ | .crash _ _ _ => inferInstanceAs (Decidable True)

/-- The provider is swapped while the request is on its way, and its response
comes back. -/
theorem requests_answered_swap :
    ∃ (p : Pool Γ) (t : Task Γ) (o : Except Exc t.child.Out), p.tasks[0]? = some t ∧
      t.child.isEmbed = false ∧ t.status = .done o ∧
      Answered plainSetup t.child o (p.state.focus 0) t.hist := by
  have hrun : ((program plainSetup).replay KeptRegistry (plainPool single)
      (routing ++ swap ++ [.resume 0 (upstream none)])).any
      (fun p => p.tasks[0]?.any fun t => t.isDone && !t.child.isEmbed) = true := by decide +kernel
  obtain ⟨p, hp, htest⟩ := Machine.exists_of_any hrun
  obtain ⟨t, ht, hdone⟩ := Machine.exists_of_any htest
  rw [Bool.and_eq_true, Bool.not_eq_true'] at hdone
  obtain ⟨hdone, hc⟩ := hdone
  have hreach := Program.replay_reach (plainPool_reach single) hp
  obtain ⟨c, status, hist⟩ := t
  cases status with
  | ready => cases hdone
  | suspended q k => cases hdone
  | done o => exact ⟨p, _, o, ht, hc, rfl, requests_answered hreach ht hc rfl⟩

/-- The task has ended with this exception. -/
def raised (e : Exc) (t : Task Γ) : Bool :=
  match t.status with
  | .done (.error e') => e' = e
  | _ => false

/-- The provider is dropped while the request is on its way: its upstream call
succeeds, and the caller is given a `KeyError`. -/
theorem response_lost :
    ∃ p : Pool Γ, (system plainSetup).Reach Machine.free p ∧
      ∃ t ∈ p.tasks, raised (.keyError "a") t = true ∧ ¬ Unserved t.hist := by
  have hrun : ((program plainSetup).replay Machine.free (plainPool single)
      (routing ++ [.op (.dropProvider "a"), .resume 0 (upstream none)])).any
      (fun p => p.tasks.any fun t => raised (.keyError "a") t && !(served t.hist).isEmpty) = true := by
    decide +kernel
  obtain ⟨p, hp, htest⟩ := Machine.exists_of_any hrun
  obtain ⟨t, ht, htest⟩ := List.any_eq_true.mp htest
  rw [Bool.and_eq_true, Bool.not_eq_true'] at htest
  refine ⟨p, Program.replay_reach (plainPool_reach single) hp, t, ht, htest.1, fun hnone => ?_⟩
  rw [show served t.hist = [] from hnone] at htest
  cases htest.2

end Router

end Caips.Coreai
