/-
Caips.Coreai.ExplainTheorems — how far the dry run of `explain` can be trusted.

* `explain_unmoved`: it moves nothing. Breakers it has peeked at may have been
  refreshed; from its clock reading on they cannot be told from what they were
  (`Unmoved`), and neither can the plans of any later request.
* `explain_faithful`: for a request that names its provider, or that no alias
  and no owner of its model concerns, the order reported is the order in which
  `route` tries providers exactly if nothing that `route` does to its plan
  drops or moves a candidate (`Intact`). `explain` leaves these steps out: the
  owner of a model, privacy and difficulty, and the screen.
-/
import Caips.Coreai.Explain
import Caips.Coreai.RouterFailover

namespace Caips.Coreai

open Caips.Logic Caips.Providers

namespace RouterState

variable (S : Setup)

/-! ## Routers that plan alike -/

/-- The routers differ in the number of requests and in readings of breakers. -/
inductive SamePlans (s : RouterState) : RouterState → Prop
  | mk (f : Nat → CircuitBreaker) (n : Nat)
      (h : ∀ b, (f b).refresh s.now = (s.breakerAt b).refresh s.now) :
      SamePlans s { s with breakerAt := f, requestCount := n }

/-- The routers differ in readings of breakers. -/
inductive Unmoved (s : RouterState) : RouterState → Prop
  | mk (f : Nat → CircuitBreaker) (h : ∀ b, (f b).refresh s.now = (s.breakerAt b).refresh s.now) :
      Unmoved s { s with breakerAt := f }

instance : Std.Refl Unmoved := ⟨fun s => .mk s.breakerAt fun _ => rfl⟩

instance : IsTrans RouterState Unmoved where
  trans := by
    rintro s t u ⟨f, hf⟩ ⟨g, hg⟩
    exact .mk g fun b => (hg b).trans (hf b)

theorem unmoved_wouldAllow (s : RouterState) (b : Nat) : Unmoved s (s.wouldAllow b).2 := by
  refine .mk _ fun c => ?_
  by_cases hc : c = b
  · rw [hc, Function.update_self, CircuitBreaker.wouldAllow_snd, CircuitBreaker.refresh_refresh]
  · rw [Function.update_of_ne hc]

/-- A breaker read from either router allows a call, or none does. -/
theorem SamePlans.wouldAllow {s s' : RouterState} (h : SamePlans s s') (b : Nat) :
    (s.wouldAllow b).1 = (s'.wouldAllow b).1 ∧ SamePlans (s.wouldAllow b).2 (s'.wouldAllow b).2 := by
  obtain ⟨f, n, hf⟩ := h
  have hread : (f b).wouldAllow s.now = (s.breakerAt b).wouldAllow s.now := by
    unfold CircuitBreaker.wouldAllow
    rw [hf]
  refine ⟨(congrArg Prod.fst hread).symm, .mk _ n fun c => ?_⟩
  show (Function.update f b ((f b).wouldAllow s.now).2 c).refresh s.now =
    (Function.update s.breakerAt b ((s.breakerAt b).wouldAllow s.now).2 c).refresh s.now
  by_cases hc : c = b
  · rw [hc, Function.update_self, Function.update_self, hread]
  · rw [Function.update_of_ne hc, Function.update_of_ne hc]
    exact hf c

/-! ### Planning from such routers -/

theorem alike_reads {α : Type} {f : RouterState → Except Exc α}
    (h : ∀ s g n, f { s with breakerAt := g, requestCount := n } = f s) :
    Sync.Alike SamePlans (Sync.reads f) := by
  refine .reads ?_
  rintro s s' ⟨g, n, hg⟩
  exact congrArg Except.toOption (h s g n).symm

theorem alike_error {α : Type} {f : RouterState → Exc} :
    Sync.Alike SamePlans (Sync.reads fun s => (.error (f s) : Except Exc α)) :=
  .reads fun _ _ _ => rfl

theorem alike_peek (b : Nat) : Sync.Alike SamePlans (Sync.yields fun s => s.wouldAllow b : Routing Bool) :=
  .yields fun _ _ h => h.wouldAllow b

theorem alike_healthyAmong : ∀ names, Sync.Alike SamePlans (healthyAmong names)
  | [] => .pure _
  | _ :: rest =>
    .bind (alike_reads fun _ _ _ => rfl) fun b => .bind (alike_peek b) fun _ =>
      .bind (alike_healthyAmong rest) fun _ => .pure _

theorem alike_advanceRoundRobin (names : List String) (first : String) :
    Sync.Alike SamePlans (advanceRoundRobin names first) := by
  refine .yields ?_
  rintro s s' ⟨g, n, hg⟩
  exact ⟨rfl, .mk g n hg⟩

theorem alike_selectFastest (available : List String) (first : String) :
    Sync.Alike SamePlans (selectFastest available first) := by
  refine .bind (alike_reads fun _ _ _ => rfl) fun rows => ?_
  dsimp only
  split
  · exact .pure _
  · exact alike_advanceRoundRobin _ _

theorem alike_selectProvider (r : CompletionRequest) (available : List String) :
    Sync.Alike SamePlans (selectProvider S r available) := by
  unfold selectProvider
  split
  · exact .throw _
  · split
    · exact .bind (alike_reads fun _ _ _ => rfl) fun _ => .pure _
    · exact alike_selectFastest _ _
    · exact .bind (alike_reads fun _ _ _ => rfl) fun _ => .pure _
    · exact alike_advanceRoundRobin _ _
    · exact .pure _

theorem alike_eligibleFor (policy : Policy) :
    ∀ names, Sync.Alike SamePlans (eligibleFor policy names)
  | [] => .pure _
  | n :: rest => by
      unfold eligibleFor
      split
      · exact alike_eligibleFor policy rest
      · exact .bind (alike_reads fun _ _ _ => rfl) fun b => .bind (alike_peek b) fun _ =>
          .bind (alike_eligibleFor policy rest) fun _ => .pure _

theorem alike_noneEligible (policy : Policy) (blocked : List String) :
    Sync.Alike SamePlans (noneEligible policy blocked) := by
  unfold noneEligible
  split
  · exact .throw _
  · exact alike_error

theorem alike_advancePolicy (policy : Policy) : Sync.Alike SamePlans (advancePolicy policy) := by
  unfold advancePolicy
  split
  · refine .update ?_
    rintro s s' ⟨g, n, hg⟩
    exact .mk g n hg
  · exact .pure _

theorem alike_planWithPolicy (r : CompletionRequest) (policy : Policy) :
    Sync.Alike SamePlans (planWithPolicy S r policy) := by
  refine .bind (alike_reads fun _ _ _ => rfl) fun names => .bind (alike_eligibleFor policy names) ?_
  rintro ⟨eligible, blocked⟩
  dsimp only
  split
  · exact alike_noneEligible policy blocked
  · exact .bind (alike_reads fun _ _ _ => rfl) fun _ => .bind (alike_advancePolicy policy) fun _ =>
      .bind (alike_reads fun _ _ _ => rfl) fun _ => .pure _

theorem alike_planOwned (r : CompletionRequest) (policy : Option Policy) (owner : String) :
    Sync.Alike SamePlans (planOwned r policy owner) := by
  refine .bind (alike_reads fun _ _ _ => rfl) fun _ => .bind (alike_reads fun _ _ _ => rfl) fun b =>
    .bind (alike_peek b) fun ok => ?_
  split
  · exact .pure _
  · exact alike_error

theorem alike_planHealthy (r : CompletionRequest) : Sync.Alike SamePlans (planHealthy S r) := by
  refine .bind (alike_reads fun _ _ _ => rfl) fun names => .bind (alike_healthyAmong names) fun healthy => ?_
  split
  · exact alike_error
  · refine .bind (alike_selectProvider S r healthy) fun primary => ?_
    split
    · exact .pure _
    · exact .bind (alike_reads fun _ _ _ => rfl) fun _ => .pure _

theorem alike_planAny (r : CompletionRequest) (preferred : Option String) :
    Sync.Alike SamePlans (planAny S r preferred) := by
  unfold planAny
  split
  · exact alike_reads fun _ _ _ => rfl
  · refine .bind (alike_reads fun _ _ _ => rfl) fun policy => .bind (alike_reads fun _ _ _ => rfl) fun owner => ?_
    split
    · exact alike_planOwned r _ _
    · exact .bind (alike_planWithPolicy S r _) fun _ => alike_reads fun _ _ _ => rfl
    · exact alike_planHealthy S r

theorem screenAll_congr {s s' : RouterState} (hproviders : s'.providers = s.providers)
    (hgate : s'.modelGate = s.modelGate) (r : CompletionRequest) (single : Bool) :
    ∀ plan, s'.screenAll S r single plan = s.screenAll S r single plan
  | [] => rfl
  | c :: rest => by
      unfold screenAll
      rw [screenAll_congr hproviders hgate r single rest]
      unfold screenOne modelProblem admitModel
      rw [hproviders, hgate]

theorem screened_congr {s s' : RouterState} (hproviders : s'.providers = s.providers)
    (hgate : s'.modelGate = s.modelGate) (r : CompletionRequest) (single : Bool)
    (plan : List (String × Option String)) :
    s'.screened S r single plan = s.screened S r single plan := by
  unfold screened
  rw [screenAll_congr S hproviders hgate]

theorem alike_prepare (r : CompletionRequest) (preferred : Option String) (d : Option ℚ) :
    Sync.Alike SamePlans (Router.prepare S r preferred d) := by
  refine .bind (.update ?_) fun _ => ?_
  · rintro s s' ⟨g, n, hg⟩
    exact .mk g (n + 1) hg
  refine .bind (alike_reads fun _ _ _ => rfl) fun r' => .bind (alike_reads fun _ _ _ => rfl) fun _ => ?_
  refine .bind (alike_reads fun _ _ _ => rfl) fun _ => .bind (alike_reads fun _ _ _ => rfl) fun deadline => ?_
  refine .bind (.bind ?_ fun plan => alike_reads fun s g n => ?_) fun _ => .pure _
  · exact .bind (alike_planAny S r' preferred) fun _ => alike_reads fun _ _ _ => rfl
  · exact screened_congr S (by rfl) (by rfl) r' _ plan

/-! ## A dry run moves nothing -/

theorem unmoved_healthyAmong : ∀ names, Sync.Keeps Unmoved (healthyAmong names)
  | [] => .pure _
  | _ :: rest =>
    .bind (.reads _) fun b => .bind (.yields fun s => s.unmoved_wouldAllow b) fun _ =>
      .bind (unmoved_healthyAmong rest) fun _ => .pure _

theorem unmoved_eligibleFor (policy : Policy) :
    ∀ names, Sync.Keeps Unmoved (eligibleFor policy names)
  | [] => .pure _
  | n :: rest => by
      unfold eligibleFor
      split
      · exact unmoved_eligibleFor policy rest
      · exact .bind (.reads _) fun b => .bind (.yields fun s => s.unmoved_wouldAllow b) fun _ =>
          .bind (unmoved_eligibleFor policy rest) fun _ => .pure _

theorem unmoved_dryPlan (r : CompletionRequest) (policy : Policy) :
    Sync.Keeps Unmoved (dryPlan S r policy) := by
  refine .bind (.reads _) fun names => .bind (unmoved_eligibleFor policy names) ?_
  rintro ⟨eligible, blocked⟩
  dsimp only
  split
  · refine .bind ?_ fun _ => .pure _
    unfold noneEligible
    split
    · exact .throw _
    · exact .reads _
  · exact .bind (.reads _) fun _ => .bind (.reads _) fun _ => .bind (.reads _) fun _ => .pure _

/-- Selecting a provider moves the round robin only. -/
theorem selectProvider_state (r : CompletionRequest) (available : List String) (s : RouterState) :
    ∃ i, (selectProvider S r available s).2 = { s with rrIndex := i } := by
  let Moves (s s' : RouterState) : Prop := ∃ i, s' = { s with rrIndex := i }
  have hrefl : Std.Refl Moves := ⟨fun s => ⟨s.rrIndex, rfl⟩⟩
  have htrans : IsTrans RouterState Moves := ⟨by
    rintro s t u ⟨i, rfl⟩ ⟨j, rfl⟩
    exact ⟨j, rfl⟩⟩
  have hround : ∀ names first, Sync.Keeps Moves (advanceRoundRobin names first) :=
    fun names first => .yields fun s => ⟨_, rfl⟩
  have hkeeps : Sync.Keeps Moves (selectProvider S r available) := by
    unfold selectProvider
    split
    · exact .throw _
    · split
      · exact .bind (.reads _) fun _ => .pure _
      · refine .bind (.reads _) fun rows => ?_
        dsimp only
        split
        · exact .pure _
        · exact hround _ _
      · exact .bind (.reads _) fun _ => .pure _
      · exact hround _ _
      · exact .pure _
  exact hkeeps s

theorem restoring_selectProvider (r : CompletionRequest) (available : List String) (s : RouterState) :
    restoringRoundRobin (selectProvider S r available) s = ((selectProvider S r available s).1, s) := by
  obtain ⟨i, hi⟩ := selectProvider_state S r available s
  unfold restoringRoundRobin
  rw [hi]

theorem unmoved_candidates (r : CompletionRequest) (healthy : List String) :
    Sync.Keeps Unmoved (candidatesNoSideEffects S r healthy) := by
  refine .bind (fun s => ?_) fun primary => ?_
  · rw [restoring_selectProvider]
    exact Std.Refl.refl s
  · split
    · exact .pure _
    · exact .bind (.reads _) fun _ => .pure _

theorem unmoved_explain (r : CompletionRequest) (policyName preferred : Option String) :
    Sync.Keeps Unmoved (explain S r policyName preferred) := by
  unfold explain
  split
  · exact .bind (.reads _) fun _ => .reads _
  · refine .bind (.reads _) fun policy => ?_
    cases policy with
    | some policy => exact .bind (unmoved_dryPlan S r policy) fun _ => .pure _
    | none =>
      refine .bind (.reads _) fun names => .bind (unmoved_healthyAmong names) fun healthy => ?_
      split
      · exact .reads _
      · exact .bind (unmoved_candidates S r healthy) fun _ => .pure _

/-! ## What is reported, and what is tried -/

/-- The request `route` is to be given for the report: the policy's name is in its
metadata. -/
def asked (r : CompletionRequest) (policyName : Option String) : CompletionRequest :=
  if orElse policyName "" = "" then r
  else { r with metadata := r.metadata.set "policy" (.str (orElse policyName "")) }

/-- The providers `explain` reports, in order. -/
def reported (s : RouterState) (r : CompletionRequest) (policyName preferred : Option String) :
    List String :=
  match (explain S r policyName preferred s).1 with
  | .ok report => report.order
  | .error _ => []

/-- The providers `route` has as candidates, in order. -/
def tried (s : RouterState) (r : CompletionRequest) (preferred : Option String) (d : Option ℚ) :
    List String :=
  match (Router.prepare S r preferred d s).1 with
  | .ok (_, _, candidates) => candidates.map Prod.fst
  | .error _ => []

/-- What `route` does to its plan drops and moves no candidate. -/
structure Intact (s : RouterState) (r : CompletionRequest) (preferred : Option String)
    (plan : List (String × Option String)) : Prop where
  conversation : Router.checkConversation r = .ok ()
  privacy : (r.meta "private").truthy = true → ∀ c ∈ plan, s.isLocal c.1 = .ok true
  difficulty : (r.meta "private").truthy = false → preferred = none → 1 < plan.length →
    ∃ moved, s.applyDifficulty plan (r.meta "difficulty") = .ok moved ∧
      moved.map Prod.fst = plan.map Prod.fst
  screen : ∀ c ∈ plan, ∃ req, s.screenOne S r true c = .ok (.keep req)

/-! ### What is left of a plan -/

/-- The names left of a plan once it is restricted and screened. -/
def remaining (s : RouterState) (r : CompletionRequest) (preferred : Option String)
    (plan : List (String × Option String)) : List String :=
  match s.restrict r preferred plan with
  | .error _ => []
  | .ok plan =>
    match s.screened S r (preferred.isSome || r.model.isSome || plan.length == 1) plan with
    | .ok candidates => candidates.map Prod.fst
    | .error _ => []

/-- A request is tried on what is left of its plan. -/
theorem tried_eq (s : RouterState) (r : CompletionRequest) (preferred : Option String) (d : Option ℚ) :
    tried S s r preferred d =
      match Router.checkPreferred preferred s, Router.checkConversation (s.resolveAlias S r),
        (planAny S (s.resolveAlias S r) preferred s).1 with
      | .ok _, .ok _, .ok plan => remaining S s (s.resolveAlias S r) preferred plan
      | _, _, _ => [] := by
  set r' := s.resolveAlias S r with hr'
  set s₁ : RouterState := { s with requestCount := s.requestCount + 1 }
  have hcounted : SamePlans s s₁ := .mk s.breakerAt (s.requestCount + 1) fun _ => rfl
  obtain ⟨hplan, -⟩ := alike_planAny S r' preferred s s₁ hcounted
  have hpeeks := keeps_planAny S r' preferred s₁
  have hproviders : (planAny S r' preferred s₁).2.providers = s.providers := hpeeks.providers_eq
  have hgate : (planAny S r' preferred s₁).2.modelGate = s.modelGate := congrArg (·.modelGate) hpeeks.frame
  unfold tried Router.prepare
  simp only [Sync.bind_run, Sync.update_run, Sync.reads_run]
  rw [show s₁.resolveAlias S r = r' from rfl, show Router.checkPreferred preferred s₁ =
    Router.checkPreferred preferred s from rfl]
  cases Router.checkPreferred preferred s with
  | error e => rfl
  | ok u =>
    cases Router.checkConversation r' with
    | error e => rfl
    | ok u =>
      unfold screen RouterState.plan
      simp only [Sync.bind_run, Sync.reads_run]
      cases h : (planAny S r' preferred s).1 with
      | error e =>
        cases h₁ : (planAny S r' preferred s₁).1 with
        | error e₁ => rfl
        | ok plan => rw [h, h₁] at hplan; cases hplan
      | ok plan =>
        cases h₁ : (planAny S r' preferred s₁).1 with
        | error e₁ => rw [h, h₁] at hplan; cases hplan
        | ok plan₁ =>
          rw [h, h₁] at hplan
          obtain rfl := Option.some.inj hplan
          have hrestrict : (planAny S r' preferred s₁).2.restrict r' preferred plan =
              s.restrict r' preferred plan := by
            unfold restrict applyDifficulty localOnly isLocal
            rw [hproviders]
          dsimp only
          rw [hrestrict]
          unfold remaining
          cases s.restrict r' preferred plan with
          | error e => rfl
          | ok kept =>
            dsimp only
            rw [screened_congr S hproviders hgate]
            cases s.screened S r' (preferred.isSome || r'.model.isSome || kept.length == 1) kept <;>
              rfl

/-- Everything a screen kept passes it alone. -/
theorem screenOne_single {s : RouterState} {r req : CompletionRequest} {single : Bool}
    {c : String × Option String} (h : s.screenOne S r single c = .ok (.keep req)) (single' : Bool) :
    s.screenOne S r single' c = .ok (.keep req) := by
  obtain ⟨reason, hreason, h⟩ := ok_of_bind h
  unfold screenOne
  dsimp only at h ⊢
  rw [hreason]
  show (if orElse reason "" ≠ "" then _ else _ : Except Exc Verdict) = _
  split at h
  · split at h
    · cases h
    · cases h
  · rename_i hnone
    rw [if_neg hnone]
    split at h
    · exact h
    · split at h
      · cases h
      · cases h
    · cases h

theorem screenAll_all {s : RouterState} {r : CompletionRequest} (single : Bool) :
    ∀ {plan : List (String × Option String)},
      (∀ c ∈ plan, ∃ req, s.screenOne S r true c = .ok (.keep req)) →
      ∃ l, s.screenAll S r single plan = .ok (l, none, none) ∧ l.map Prod.fst = plan.map Prod.fst
  | [], _ => ⟨[], rfl, rfl⟩
  | c :: rest, h => by
      obtain ⟨req, hreq⟩ := h c List.mem_cons_self
      obtain ⟨l, hl, hnames⟩ := screenAll_all single fun x hx => h x (List.mem_cons_of_mem _ hx)
      refine ⟨(c.1, req) :: l, ?_, by rw [List.map_cons, hnames, List.map_cons]⟩
      unfold screenAll
      rw [screenOne_single S hreq single, hl]
      rfl

theorem screened_all {s : RouterState} {r : CompletionRequest} (single : Bool)
    {plan : List (String × Option String)} (hne : plan ≠ [])
    (h : ∀ c ∈ plan, ∃ req, s.screenOne S r true c = .ok (.keep req)) :
    ∃ l, s.screened S r single plan = .ok l ∧ l.map Prod.fst = plan.map Prod.fst := by
  obtain ⟨l, hl, hnames⟩ := screenAll_all S single h
  refine ⟨l, ?_, hnames⟩
  have hsome : l.isEmpty = false := by
    rw [List.isEmpty_eq_false_iff]
    rintro rfl
    exact hne (List.map_eq_nil_iff.mp hnames.symm)
  unfold screened
  rw [hl]
  show (if l.isEmpty then _ else _ : Except Exc _) = _
  rw [if_neg (by rw [hsome]; exact Bool.false_ne_true)]

/-- A screen that drops nothing passes every candidate. -/
theorem kept_of_length {s : RouterState} {r : CompletionRequest} {single : Bool}
    {plan : List (String × Option String)} {l : List (String × CompletionRequest)}
    (h : s.screened S r single plan = .ok l) (hlen : plan.length ≤ l.length) :
    l.map Prod.fst = plan.map Prod.fst ∧ ∀ c ∈ plan, ∃ req, s.screenOne S r true c = .ok (.keep req) := by
  have hall : (l.map fun y => (y.1, y.2.model)) = plan :=
    (screened_sublist S h).eq_of_length_le (by rwa [List.length_map])
  refine ⟨by rw [← hall, List.map_map]; rfl, fun c hc => ?_⟩
  rw [← hall] at hc
  obtain ⟨y, hy, rfl⟩ := List.mem_map.mp hc
  obtain ⟨c', hc', hname, hkeep⟩ := (mem_screened S h).2 y hy
  refine ⟨y.2, ?_⟩
  have hc'' : c' = (y.1, y.2.model) := Prod.ext hname.symm (screenOne_model S hkeep).symm
  rw [← hc'']
  exact screenOne_single S hkeep true

theorem moved_perm {s : RouterState} {plan moved : List (String × Option String)} {difficulty : Value}
    (h : s.applyDifficulty plan difficulty = .ok moved) : moved.Perm plan := by
  rcases applyDifficulty_ok h with rfl | ⟨want, rfl⟩
  · exact .refl _
  · exact List.filter_append_perm _ plan

/-- Nothing is lost of a plan exactly if it is left intact. -/
theorem remaining_eq_iff (s : RouterState) (r : CompletionRequest) (preferred : Option String)
    {plan : List (String × Option String)} (hne : plan ≠ []) :
    remaining S s r preferred plan = plan.map Prod.fst ↔
      ((r.meta "private").truthy = true → ∀ c ∈ plan, s.isLocal c.1 = .ok true) ∧
      ((r.meta "private").truthy = false → preferred = none → 1 < plan.length →
        ∃ moved, s.applyDifficulty plan (r.meta "difficulty") = .ok moved ∧
          moved.map Prod.fst = plan.map Prod.fst) ∧
      ∀ c ∈ plan, ∃ req, s.screenOne S r true c = .ok (.keep req) := by
  have hnames : plan.map Prod.fst ≠ [] := fun h => hne (List.map_eq_nil_iff.mp h)
  constructor
  · intro h
    unfold remaining at h
    cases hrestrict : s.restrict r preferred plan with
    | error e => rw [hrestrict] at h; exact absurd h.symm hnames
    | ok left =>
      rw [hrestrict] at h
      dsimp only at h
      cases hscreen : s.screened S r (preferred.isSome || r.model.isSome || left.length == 1) left with
      | error e => rw [hscreen] at h; exact absurd h.symm hnames
      | ok l =>
        rw [hscreen] at h
        have hlen : l.length = plan.length := by
          have hcount := congrArg List.length h
          rwa [List.length_map, List.length_map] at hcount
        unfold restrict at hrestrict
        split at hrestrict
        · rename_i hpublic
          have hfalse : (r.meta "private").truthy = false := by simpa using hpublic
          refine ⟨fun htrue => absurd (hfalse.symm.trans htrue) Bool.false_ne_true, ?_⟩
          split at hrestrict
          · have hperm := moved_perm hrestrict
            obtain ⟨heq, hkept⟩ := kept_of_length S hscreen (by rw [hlen, hperm.length_eq])
            exact ⟨fun _ _ _ => ⟨left, hrestrict, heq.symm.trans h⟩, fun c hc => hkept c (hperm.mem_iff.mpr hc)⟩
          · rename_i hshort
            obtain rfl := Except.ok.inj hrestrict
            obtain ⟨-, hkept⟩ := kept_of_length S hscreen hlen.ge
            refine ⟨fun _ hpreferred hlong => absurd ⟨?_, hlong⟩ hshort, hkept⟩
            rw [hpreferred]
            rfl
        · rename_i hprivate
          have htrue : (r.meta "private").truthy = true := by simpa using hprivate
          obtain ⟨kept, hlocal, hrestrict⟩ := ok_of_bind hrestrict
          split at hrestrict
          · cases hrestrict
          obtain rfl := Except.ok.inj hrestrict
          have hfilter := localOnly_ok hlocal
          have hsub : kept.Sublist plan := by
            rw [hfilter]
            exact List.filter_sublist
          have hshort : l.length ≤ kept.length := by
            have hle := (screened_sublist S hscreen).length_le
            rwa [List.length_map] at hle
          obtain rfl := hsub.eq_of_length_le (hlen ▸ hshort)
          obtain ⟨-, hkept⟩ := kept_of_length S hscreen hlen.ge
          refine ⟨fun _ c hc => ?_, fun hfalse => absurd (htrue.symm.trans hfalse) Bool.noConfusion, hkept⟩
          obtain ⟨-, p, hp, hl⟩ := mem_localOnly hlocal hc
          unfold isLocal
          rw [lookup_of_get? hp]
          exact congrArg Except.ok hl
  · rintro ⟨hprivacy, hdifficulty, hkept⟩
    have hlast : ∀ left : List (String × Option String), s.restrict r preferred plan = .ok left → left ≠ [] →
        left.map Prod.fst = plan.map Prod.fst → (∀ c ∈ left, c ∈ plan) →
        remaining S s r preferred plan = plan.map Prod.fst := by
      intro left hrestrict hleft heq hsub
      obtain ⟨l, hl, hnames⟩ := screened_all S
        (preferred.isSome || r.model.isSome || left.length == 1) hleft fun c hc => hkept c (hsub c hc)
      unfold remaining
      rw [hrestrict]
      dsimp only
      rw [hl]
      exact hnames.trans heq
    cases hpriv : (r.meta "private").truthy with
    | true =>
      refine hlast plan ?_ hne rfl fun _ => id
      unfold restrict
      rw [hpriv, localOnly_all (hprivacy hpriv)]
      show (if plan.isEmpty then _ else _ : Except Exc _) = _
      rw [if_neg (by simpa using hne)]
    | false =>
      by_cases hmoves : preferred.isNone ∧ 1 < plan.length
      · obtain ⟨moved, hmoved, heq⟩ := hdifficulty hpriv (Option.isNone_iff_eq_none.mp hmoves.1) hmoves.2
        refine hlast moved ?_ ?_ heq fun c hc => (moved_perm hmoved).mem_iff.mp hc
        · unfold restrict
          rw [hpriv, if_pos (by rfl), if_pos hmoves]
          exact hmoved
        · rintro rfl
          exact hnames heq.symm
      · refine hlast plan ?_ hne rfl fun _ => id
        unfold restrict
        rw [hpriv, if_pos (by rfl), if_neg hmoves]

/-! ### What is reported is the plan -/

/-- The policy of a request that names one. -/
theorem policyFor_named {s : RouterState} {set : PolicySet} {r : CompletionRequest} {name : String}
    (hset : s.policies = some set) (hmeta : r.meta "policy" = .str name) (hname : name ≠ "") :
    s.policyFor r = match set.get (some name) with
      | some policy => .ok (some policy)
      | none => .error (unknownPolicy set name) := by
  unfold policyFor
  rw [hset, hmeta]
  dsimp only
  split
  · rename_i heq
    exact absurd (Value.str.inj heq) hname
  · rename_i heq
    obtain rfl := Value.str.inj heq
    rfl
  · rename_i hnot
    exact absurd rfl (hnot name)

theorem policyNamed_eq (s : RouterState) (r : CompletionRequest) (name : Option String) :
    s.policyNamed r name = s.policyFor (asked r name) := by
  unfold policyNamed asked
  cases hset : s.policies with
  | none =>
    unfold policyFor
    rw [hset]
  | some set =>
    dsimp only
    split
    · rfl
    · rename_i hname
      have hget : set.get name = set.get (some (orElse name "")) := by
        cases name with
        | none => exact absurd rfl hname
        | some n =>
          unfold orElse at hname ⊢
          dsimp only at hname ⊢
          split
          · rename_i h
            rw [if_pos h] at hname
            exact absurd rfl hname
          · rfl
      have hmeta : ({ r with metadata := r.metadata.set "policy" (.str (orElse name "")) } :
          CompletionRequest).meta "policy" = .str (orElse name "") := by
        unfold CompletionRequest.meta
        rw [Dict.get?_set_self]
        rfl
      refine Eq.trans ?_ (policyFor_named hset hmeta hname).symm
      exact congrArg (fun o => match o with
        | some policy => Except.ok (some policy)
        | none => Except.error (unknownPolicy set (orElse name ""))) hget

/-- The dry plan has the order of the plan. -/
theorem dryPlan_order (r : CompletionRequest) (policy : Policy) (s : RouterState) :
    (dryPlan S r policy s).1.toOption.map Prod.fst = (planWithPolicy S r policy s).1.toOption := by
  unfold dryPlan planWithPolicy
  simp only [Sync.bind_run, Sync.reads_run]
  cases heligible : (eligibleFor policy s.providers.keys s).1 with
  | error e => rfl
  | ok x =>
    obtain ⟨eligible, blocked⟩ := x
    dsimp only
    split
    · rw [Sync.bind_run]
      cases (noneEligible policy blocked (eligibleFor policy s.providers.keys s).2).1 with
      | ok order => rfl
      | error e => rfl
    · simp only [Sync.bind_run, Sync.reads_run]
      cases (eligibleFor policy s.providers.keys s).2.rankForPolicy S r policy eligible with
      | error e => rfl
      | ok ranked =>
        have hadvance := keeps_advancePolicy policy (eligibleFor policy s.providers.keys s).2
        have hok : (advancePolicy policy (eligibleFor policy s.providers.keys s).2).1 = .ok () := by
          unfold advancePolicy
          split <;> rfl
        dsimp only
        rw [hok]
        dsimp only
        unfold applyPolicyModels modelOwnerFirst ownerOf
        rw [hadvance.providers_eq]
        rfl

/-- Without a policy the order is that of the plan. -/
theorem explainHealthy_order (r : CompletionRequest) (s : RouterState) :
    (explainHealthy S r s).1.toOption.map Explanation.order =
      (planHealthy S r s).1.toOption.map (·.map Prod.fst) := by
  unfold explainHealthy planHealthy candidatesNoSideEffects
  simp only [Sync.bind_run, Sync.reads_run]
  cases (healthyAmong s.providers.keys s).1 with
  | error e => rfl
  | ok healthy =>
    dsimp only
    split
    · rfl
    · simp only [Sync.bind_run, restoring_selectProvider]
      obtain ⟨i, hi⟩ := selectProvider_state S r healthy (healthyAmong s.providers.keys s).2
      cases (selectProvider S r healthy (healthyAmong s.providers.keys s).2).1 with
      | error e => rfl
      | ok primary =>
        dsimp only
        by_cases hsingle : S.config.enableFailover = false ∨ r.model.isSome = true
        · rw [if_pos hsingle, if_pos hsingle]
          rfl
        · rw [if_neg hsingle, if_neg hsingle]
          simp only [Sync.bind_run, Sync.reads_run]
          rw [hi, show ({ (healthyAmong s.providers.keys s).2 with rrIndex := i } : RouterState).failoverOrder
            S r (healthy.filter (· ≠ primary)) = (healthyAmong s.providers.keys s).2.failoverOrder
            S r (healthy.filter (· ≠ primary)) from rfl]
          cases (healthyAmong s.providers.keys s).2.failoverOrder S r (healthy.filter (· ≠ primary)) with
          | error e => rfl
          | ok rest =>
            show some (primary :: rest) = some (((primary :: rest).map (·, none)).map Prod.fst)
            rw [List.map_map]
            exact congrArg some (List.map_id _).symm

/-- The reports of a request that no owner of a model concerns is its plan. -/
theorem reported_eq {s : RouterState} {r : CompletionRequest} {policyName : Option String}
    (howner : s.ownerOf S r.model = none) :
    reported S s r policyName none =
      match (planAny S (asked r policyName) none s).1 with
      | .ok plan => plan.map Prod.fst
      | .error _ => [] := by
  have hmodel : (asked r policyName).model = r.model := by
    unfold asked
    split <;> rfl
  unfold reported explain planAny
  dsimp only
  rw [Sync.bind_run, Sync.bind_run, Sync.reads_run, Sync.reads_run, policyNamed_eq]
  cases s.policyFor (asked r policyName) with
  | error e => rfl
  | ok policy =>
    dsimp only
    rw [Sync.bind_run, Sync.reads_run, hmodel, howner]
    cases policy with
    | some policy =>
      have horder := dryPlan_order S (asked r policyName) policy s
      have hsame : dryPlan S (asked r policyName) policy = dryPlan S r policy := by
        unfold asked
        split <;> rfl
      rw [hsame] at horder
      unfold explainUnder planUnder
      dsimp only
      rw [Sync.bind_run, Sync.bind_run]
      cases hdry : (dryPlan S r policy s).1 with
      | error e =>
        cases hplan : (planWithPolicy S (asked r policyName) policy s).1 with
        | error e => rfl
        | ok order => rw [hdry, hplan] at horder; cases horder
      | ok x =>
        cases hplan : (planWithPolicy S (asked r policyName) policy s).1 with
        | error e => rw [hdry, hplan] at horder; cases horder
        | ok order =>
          rw [hdry, hplan] at horder
          obtain rfl := Option.some.inj horder
          show x.1 = List.map Prod.fst (if _ then _ else _)
          split
          · rw [List.map_map]
            exact (List.map_id x.1).symm
          · exact (List.map_fst_zip (length_policyModels _ x.1).ge).symm
    | none =>
      have horder := explainHealthy_order S (asked r policyName) s
      have hsame : (explainHealthy S (asked r policyName) s).1.toOption.map Explanation.order =
          (explainHealthy S r s).1.toOption.map Explanation.order := by
        unfold asked
        split <;> rfl
      rw [hsame] at horder
      dsimp only
      cases hdry : (explainHealthy S r s).1 with
      | error e =>
        cases hplan : (planHealthy S (asked r policyName) s).1 with
        | error e => rfl
        | ok plan => rw [hdry, hplan] at horder; cases horder
      | ok report =>
        cases hplan : (planHealthy S (asked r policyName) s).1 with
        | error e => rw [hdry, hplan] at horder; cases horder
        | ok plan =>
          rw [hdry, hplan] at horder
          exact Option.some.inj horder

theorem reported_pinned (s : RouterState) (r : CompletionRequest) (policyName : Option String)
    (name : String) :
    reported S s r policyName (some name) =
      match Router.checkPreferred (some name) s with
      | .ok _ => [name]
      | .error _ => [] := by
  unfold reported explain
  dsimp only
  rw [Sync.bind_run, Sync.reads_run]
  cases Router.checkPreferred (some name) s with
  | error e => rfl
  | ok u => rfl

/-- The model of a request that names its provider is that provider's, or
nobody's. -/
def Owned (s : RouterState) (model : Option String) (name : String) : Prop :=
  ∀ owner, s.ownerOf S model = some owner → owner = name

theorem planPreferred_ok_iff {s : RouterState} {r : CompletionRequest} {name : String}
    {plan : List (String × Option String)} :
    s.planPreferred S r name = .ok plan ↔ Owned S s r.model name ∧ plan = [(name, r.model)] := by
  unfold planPreferred Owned
  cases howner : s.ownerOf S r.model with
  | none =>
    refine ⟨fun h => ⟨nofun, (Except.ok.inj h).symm⟩, fun h => congrArg Except.ok h.2.symm⟩
  | some owner =>
    dsimp only
    split
    · rename_i hne
      refine ⟨nofun, fun h => absurd (h.1 owner rfl) hne⟩
    · rename_i heq
      rw [not_not] at heq
      refine ⟨fun h => ⟨fun o ho => ?_, (Except.ok.inj h).symm⟩, fun h => congrArg Except.ok h.2.symm⟩
      rw [← Option.some.inj ho]
      exact heq

/-- Neither an alias nor the owner of its model decides where the request goes. -/
def Plain (s : RouterState) (r : CompletionRequest) : Prop :=
  s.resolveAlias S r = r ∧ s.ownerOf S r.model = none

/-- `route` leaves the plan of the request as it is. -/
def Foretold (s : RouterState) (r : CompletionRequest) : Option String → Prop
  | some name => s.providers.contains name = true →
      Owned S s (s.resolveAlias S r).model name ∧
        Intact S s (s.resolveAlias S r) (some name) [(name, (s.resolveAlias S r).model)]
  | none => ∀ plan, (planAny S r none s).1 = .ok plan → plan ≠ [] → Intact S s r none plan

/-- What is tried of a plan is the plan exactly if it is left intact. -/
theorem tried_iff {s : RouterState} {r : CompletionRequest} {preferred : Option String} {d : Option ℚ}
    {plan : List (String × Option String)} (hpreferred : Router.checkPreferred preferred s = .ok ())
    (hplan : (planAny S (s.resolveAlias S r) preferred s).1 = .ok plan) (hne : plan ≠ []) :
    plan.map Prod.fst = tried S s r preferred d ↔
      Intact S s (s.resolveAlias S r) preferred plan := by
  have hnames : plan.map Prod.fst ≠ [] := fun h => hne (List.map_eq_nil_iff.mp h)
  rw [tried_eq, hpreferred, hplan]
  cases hconversation : Router.checkConversation (s.resolveAlias S r) with
  | error e => exact ⟨fun h => absurd h hnames, fun h => nomatch hconversation.symm.trans h.conversation⟩
  | ok u =>
    rw [eq_comm]
    refine (remaining_eq_iff S s _ preferred hne).trans ⟨fun h => ?_, fun h => ?_⟩
    · exact ⟨hconversation, h.1, h.2.1, h.2.2⟩
    · exact ⟨h.privacy, h.difficulty, h.screen⟩

theorem checkPreferred_some {s : RouterState} {name : String} :
    Router.checkPreferred (some name) s = .ok () ↔ s.providers.contains name = true := by
  unfold Router.checkPreferred
  dsimp only
  split
  · rename_i h
    exact ⟨fun _ => h, fun _ => rfl⟩
  · rename_i h
    exact ⟨by simp, fun h' => absurd h' h⟩

theorem tried_of_error {s : RouterState} {r : CompletionRequest} {preferred : Option String}
    {d : Option ℚ} {e : Exc} (h : (planAny S (s.resolveAlias S r) preferred s).1 = .error e) :
    tried S s r preferred d = [] := by
  rw [tried_eq, h]
  cases Router.checkPreferred preferred s with
  | error e => rfl
  | ok u => cases Router.checkConversation (s.resolveAlias S r) <;> rfl

/-- Nothing is left of an empty plan. -/
theorem remaining_nil (s : RouterState) (r : CompletionRequest) (preferred : Option String) :
    remaining S s r preferred [] = [] := by
  unfold remaining
  have hnone : ∀ l, s.restrict r preferred [] = .ok l → l = [] := by
    intro l h
    unfold restrict at h
    split at h
    · split at h
      · rename_i hlong
        exact absurd hlong.2 (Nat.not_lt_zero 1)
      · exact (Except.ok.inj h).symm
    · cases h
  cases hrestrict : s.restrict r preferred [] with
  | error e => rfl
  | ok l =>
    rw [hnone l hrestrict]
    rfl

/-- **`explain` as a dry run.** If the request names its provider, or neither an
alias nor the owner of its model decides where it goes, then the order reported
is the order in which `route` tries providers exactly if `route` drops and moves
no candidate of its plan. And always `explain` leaves the router as it was, up
to breakers it has read, so that any later reading of a breaker and the
candidates of any later request are what they would have been. -/
theorem explain_faithful (s : RouterState) (r : CompletionRequest) (policyName preferred : Option String)
    (d : Option ℚ) :
    (preferred.isSome = true ∨ Plain S s (asked r policyName) →
      (reported S s r policyName preferred = tried S s (asked r policyName) preferred d ↔
        Foretold S s (asked r policyName) preferred)) ∧
    Unmoved s (explain S r policyName preferred s).2 ∧
    ∀ later, s.now ≤ later →
      (∀ b, ((explain S r policyName preferred s).2.breakerAt b).refresh later =
        (s.breakerAt b).refresh later) ∧
      ∀ r' preferred' d', tried S { (explain S r policyName preferred s).2 with now := later } r' preferred' d' =
        tried S { s with now := later } r' preferred' d' := by
  have hunmoved := unmoved_explain S r policyName preferred s
  refine ⟨fun hplain => ?_, hunmoved, fun later hlater => ?_⟩
  · cases preferred with
    | some name =>
      rw [reported_pinned]
      unfold Foretold
      by_cases hregistered : s.providers.contains name = true
      · have hcheck := checkPreferred_some.mpr hregistered
        rw [hcheck]
        set r' := s.resolveAlias S (asked r policyName) with hr'
        by_cases howned : Owned S s r'.model name
        · have hplan : (planAny S r' (some name) s).1 = .ok [(name, r'.model)] :=
            (planPreferred_ok_iff S).mpr ⟨howned, rfl⟩
          refine (tried_iff S hcheck hplan (List.cons_ne_nil _ _)).trans ⟨fun h _ => ⟨howned, h⟩, fun h => ?_⟩
          exact (h hregistered).2
        · refine ⟨fun h => ?_, fun h => absurd (h hregistered).1 howned⟩
          cases hplan : (planAny S r' (some name) s).1 with
          | ok plan => exact absurd ((planPreferred_ok_iff S).mp hplan).1 howned
          | error e =>
            rw [tried_of_error S hplan] at h
            exact absurd h (List.cons_ne_nil _ _)
      · cases hcheck : Router.checkPreferred (some name) s with
        | ok u => exact absurd (checkPreferred_some.mp hcheck) hregistered
        | error e =>
          rw [tried_eq, hcheck]
          exact ⟨fun _ h => absurd h hregistered, fun _ => rfl⟩
    | none =>
      obtain ⟨halias, howner⟩ := hplain.resolve_left Bool.false_ne_true
      have hmodel : (asked r policyName).model = r.model := by
        unfold asked
        split <;> rfl
      rw [hmodel] at howner
      rw [reported_eq S howner]
      unfold Foretold
      cases hplan : (planAny S (asked r policyName) none s).1 with
      | error e =>
        refine ⟨fun _ plan h => absurd h nofun, fun _ => ?_⟩
        rw [← halias] at hplan
        exact (tried_of_error S hplan).symm
      | ok plan =>
        dsimp only
        by_cases hne : plan = []
        · rw [hne] at hplan ⊢
          refine ⟨fun _ plan' h hne' => absurd (Except.ok.inj h).symm hne', fun _ => ?_⟩
          rw [tried_eq, halias, hplan]
          cases Router.checkConversation (asked r policyName) with
          | error e => rfl
          | ok u => exact (remaining_nil S s _ none).symm
        · have hiff := @tried_iff S s (asked r policyName) none d _ rfl (by rw [halias]; exact hplan) hne
          rw [halias] at hiff
          refine hiff.trans ⟨fun h plan' hplan' _ => ?_, fun h => h plan rfl hne⟩
          rw [← Except.ok.inj hplan']
          exact h
  · generalize (explain S r policyName preferred s).2 = s' at hunmoved
    obtain ⟨f, hf⟩ := hunmoved
    have hlate : ∀ b, (f b).refresh later = (s.breakerAt b).refresh later := by
      intro b
      rw [← CircuitBreaker.refresh_of_le (f b) hlater, hf b, CircuitBreaker.refresh_of_le _ hlater]
    refine ⟨hlate, fun r' preferred' d' => ?_⟩
    have hview : SamePlans { s with now := later } { s with breakerAt := f, now := later } :=
      .mk f s.requestCount hlate
    obtain ⟨hsame, -⟩ := alike_prepare S r' preferred' d' _ _ hview
    unfold tried
    cases h : (Router.prepare S r' preferred' d' { s with now := later }).1 with
    | error e =>
      cases h' : (Router.prepare S r' preferred' d' { s with breakerAt := f, now := later }).1 with
      | error e' => rfl
      | ok x => rw [h, h'] at hsame; cases hsame
    | ok x =>
      cases h' : (Router.prepare S r' preferred' d' { s with breakerAt := f, now := later }).1 with
      | error e' => rw [h, h'] at hsame; cases hsame
      | ok x' =>
        rw [h, h'] at hsame
        obtain rfl := Option.some.inj hsame
        rfl

/-- A router with a model of `b` in its registry, that falls over in the order of
its providers. -/
def owningSetup : Setup where
  config := { strategy := .fallback, enableCache := false }
  registry := fun model => if model = "m" then some ⟨"m", "b", 8000, 4000, false, true, true⟩ else none

theorem explain_faithful_plain :
    reported owningSetup (init owningSetup Router.pair) Router.greeting none none = ["a", "b"] ∧
      Foretold owningSetup (init owningSetup Router.pair) Router.greeting none := by
  have hiff := (explain_faithful owningSetup (init owningSetup Router.pair) Router.greeting none none none).1
    (.inr ⟨rfl, rfl⟩)
  exact ⟨by decide +kernel, hiff.mp (by decide +kernel)⟩

/-- A request for the model of `b` is reported to go to `a`, and goes to `b`. -/
theorem explain_misreports :
    reported owningSetup (init owningSetup Router.pair) { Router.greeting with model := some "m" } none none =
        ["a"] ∧
      tried owningSetup (init owningSetup Router.pair) { Router.greeting with model := some "m" } none none =
        ["b"] := by
  decide +kernel

end RouterState

end Caips.Coreai
