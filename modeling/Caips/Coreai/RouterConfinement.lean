/-
Caips.Coreai.RouterConfinement — a request under a policy contacts the
providers of its plan only.

What the planner proves of a policy's plan (`Confined`) holds of every provider
contacted, in whatever way the run goes on.
-/
import Caips.Coreai.PlannerPolicy
import Caips.Coreai.RouterPrivacy
import Caips.Coreai.RouterSlots

namespace Caips.Coreai

open Caips.Logic Caips.Providers

namespace Router

open RouterState

variable {S : Setup}

/-- **Policy confinement.** Let a request start under a policy without a pinned
provider and without a model, after alias resolution, that a registered provider
owns. Then the plan it is given is confined to what the policy allows in the state
it is made in; and it contacts the candidates that the screen leaves of that plan
only, however the run goes on, or nobody if it is refused. -/
theorem policy_confined {init : RouterState → Prop} {p p' p'' : Pool Γ}
    (hp : ((program S).machine init).Reach Machine.free p) {i : Nat} {c : Call}
    {l : List (Event Γ)} {r : CompletionRequest} {policy : Policy}
    (hi : p.tasks[i]? = some ⟨c, .ready, l⟩) (hc : c.request = some (r, none))
    (hpolicy : (counted p.state).policyFor ((counted p.state).resolveAlias S r) = .ok (some policy))
    (hmodel : ∀ o, (counted p.state).ownerOf S ((counted p.state).resolveAlias S r).model = some o →
      o ∉ p.state.providers.keys)
    (hstep : (program S).step p (.start i) = some p')
    {z : List (Machine.Step (Pool Γ) (Move Γ Op))}
    (hrun : ((program S).machine init).Run p' z p'') :
    (∀ plan, (RouterState.plan S ((counted p.state).resolveAlias S r) none (counted p.state)).1 = .ok plan →
      ∃ order, (planWithPolicy S ((counted p.state).resolveAlias S r) policy (counted p.state)).1 = .ok order ∧
        Confined S (counted p.state) policy (order.headD "") plan) ∧
      match (screen S ((counted p.state).resolveAlias S r) none (counted p.state)).1 with
      | .ok kept =>
        (∃ plan, (RouterState.plan S ((counted p.state).resolveAlias S r) none (counted p.state)).1 = .ok plan ∧
          (models kept).Sublist plan) ∧
        ∀ j, j = i ∨ (program S).StartedBy (⟨p, .start i, p'⟩ :: z) i j →
          ∀ t, p''.tasks[j]? = some t → ∀ x ∈ contactsOf t, x ∈ models kept
      | .error _ =>
        ∀ j, j = i ∨ (program S).StartedBy (⟨p, .start i, p'⟩ :: z) i j →
          ∀ t, p''.tasks[j]? = some t → contactsOf t = [] := by
  refine ⟨fun plan => plan_confined hpolicy hmodel, ?_⟩
  obtain ⟨kept', hkept, hcontacts⟩ := contacts_planned hp hi hc hstep hrun
  cases hscreen : (screen S ((counted p.state).resolveAlias S r) none (counted p.state)).1 with
  | ok kept =>
    refine ⟨screen_sublist hscreen, fun j hj t ht x hx => ?_⟩
    have hmem := hcontacts j hj t ht x hx
    rw [hscreen] at hkept
    rcases hkept with rfl | hkept
    · exact absurd hmem List.not_mem_nil
    · obtain rfl := Except.ok.inj hkept
      exact hmem
  | error e =>
    intro j hj t ht
    rw [hscreen] at hkept
    obtain rfl := hkept.resolve_right nofun
    exact List.eq_nil_iff_forall_not_mem.mpr fun x hx => absurd (hcontacts j hj t ht x hx) List.not_mem_nil

/-- A cloud provider, and a local server after it. -/
def cloudAndLocal : List (String × Provider) :=
  [("cloud", { name := "cloud" }), ("local", { name := "local", isLocal := true })]

/-- A policy that pins the local server and falls back to the cloud. -/
def localFirst : Policy where
  name := "default"
  strategy := .explicit
  provider := some "local"
  fallbackChain := ["cloud"]

/-- A router with that policy and both providers. -/
def policed : RouterState :=
  { RouterState.init plainSetup cloudAndLocal with
    policies := some ⟨Dict.empty.set "default" localFirst⟩ }

/-- The request is sent to the local server, the first of the two candidates planned for it. -/
theorem policy_confined_route :
    ∃ (p'' : Pool Γ) (kept : List (String × CompletionRequest)) (plan : List (String × Option String)),
      (screen plainSetup greeting none (counted policed)).1 = .ok kept ∧
        (RouterState.plan plainSetup greeting none (counted policed)).1 = .ok plan ∧
        plan = [("local", none), ("cloud", none)] ∧ (models kept).Sublist plan ∧
        Confined plainSetup (counted policed) localFirst "local" plan ∧
        ∃ t, p''.tasks[0]? = some t ∧ contactsOf t = [("local", none)] ∧ ("local", none) ∈ models kept := by
  have hstart : ((program plainSetup).machine (· = policed)).Reach Machine.free ⟨policed, []⟩ :=
    .start ⟨rfl, rfl⟩
  have hp : ((program plainSetup).machine (· = policed)).Reach Machine.free
      ⟨policed, [⟨.route greeting none none, .ready, []⟩]⟩ :=
    .step (i := Move.spawn (.route greeting none none)) hstart ⟨rfl, trivial⟩ trivial
  have hrun : (((program plainSetup).step ⟨policed, [⟨.route greeting none none, .ready, []⟩]⟩
      (.start 0)).bind fun p' => (program plainSetup).replay Machine.free p'
        [.resume 0 (upstream none)]).any
      (fun p => p.tasks[0]?.any fun t => contactsOf t = [("local", none)]) = true := by
    decide +kernel
  obtain ⟨p'', hp'', htest⟩ := Machine.exists_of_any hrun
  obtain ⟨p', hstep, hreplay⟩ := Option.bind_eq_some_iff.mp hp''
  obtain ⟨t, ht, hcontacts⟩ := Machine.exists_of_any htest
  obtain ⟨z, hz, -⟩ : ∃ z, ((program plainSetup).machine (· = policed)).Run p' z p'' ∧ _ :=
    Program.exists_run_of_replay hreplay
  have hpolicy : (counted policed).policyFor ((counted policed).resolveAlias plainSetup greeting) =
      .ok (some localFirst) := by decide +kernel
  have hcontacts := of_decide_eq_true hcontacts
  have hplan : (RouterState.plan plainSetup greeting none (counted policed)).1 = .ok [("local", none), ("cloud", none)] := rfl
  have horder : (planWithPolicy plainSetup greeting localFirst (counted policed)).1 = .ok ["local", "cloud"] := rfl
  obtain ⟨hconfined, hkept⟩ := policy_confined hp rfl rfl hpolicy (fun o ho => nomatch ho) hstep hz
  obtain ⟨order, horder', hplanned⟩ := hconfined _ hplan
  obtain rfl := Except.ok.inj (horder.symm.trans horder')
  cases hscreen : (screen plainSetup greeting none (counted policed)).1 with
  | ok kept =>
    rw [show (counted policed).resolveAlias plainSetup greeting = greeting from rfl, hscreen] at hkept
    obtain ⟨⟨plan, hplan', hsub⟩, hall⟩ := hkept
    obtain rfl := Except.ok.inj (hplan.symm.trans hplan')
    exact ⟨p'', kept, _, rfl, hplan, rfl, hsub, hplanned, t, ht, hcontacts, hall 0 (.inl rfl) t ht _ (by rw [hcontacts]; simp)⟩
  | error e =>
    rw [show (counted policed).resolveAlias plainSetup greeting = greeting from rfl, hscreen] at hkept
    exact nomatch hcontacts.symm.trans (hkept 0 (.inl rfl) t ht)

end Router

end Caips.Coreai
