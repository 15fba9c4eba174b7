/-
Caips.Coreai.RouterScope — what the calls of a router can await and change,
whatever happens around them.

Every action of every call leaves the clock, the registered providers and the
tables of breakers and limiters alone (`Quiet`), and what a request can send
is fixed by the candidates it was prepared with: it sends requests to these
candidates only, itself or through the legs it starts. One lemma for each part
of the router's code, in the order of the code.
-/
import Caips.Logic.CoroPool
import Caips.Coreai.RouterInvariant

namespace Caips.Coreai

open Caips.Logic Caips.Providers

namespace Router

open RouterState

/-! ## Actions that leave the tables alone -/

/-- The clock and the tables of a router are as they were; the objects they
refer to may have changed. -/
structure Quiet (s s' : RouterState) : Prop where
  now : s'.now = s.now
  providers : s'.providers = s.providers
  breakers : s'.breakers = s.breakers
  limiters : s'.limiters = s.limiters
  health : s'.health.keys = s.health.keys
  providerStats : s'.providerStats.keys = s.providerStats.keys

theorem quiet_refl (s : RouterState) : Quiet s s := ⟨rfl, rfl, rfl, rfl, rfl, rfl⟩

instance : Std.Refl Quiet := ⟨quiet_refl⟩

theorem Quiet.trans {s s' s'' : RouterState} (h : Quiet s s') (h' : Quiet s' s'') : Quiet s s'' :=
  ⟨h'.now.trans h.now, h'.providers.trans h.providers, h'.breakers.trans h.breakers,
    h'.limiters.trans h.limiters, h'.health.trans h.health, h'.providerStats.trans h.providerStats⟩

instance : IsTrans RouterState Quiet := ⟨fun _ _ _ => Quiet.trans⟩

theorem Quiet.of_peeks {s s' : RouterState} (h : Peeks s s') : Quiet s s' :=
  ⟨h.now_eq, h.providers_eq, h.breakers_eq, h.limiters_eq, congrArg Dict.keys h.health_eq,
    congrArg Dict.keys h.providerStats_eq⟩

theorem Quiet.consistent {s s' : RouterState} (h : Quiet s s') (hs : Consistent s) :
    Consistent s' where
  breakers := by rw [h.breakers, h.providers]; exact hs.breakers
  limiters := by rw [h.limiters, h.providers]; exact hs.limiters
  health := by rw [h.health, h.providers]; exact hs.health
  providerStats := by rw [h.providerStats, h.providers]; exact hs.providerStats

section Keeps

variable {name : String}

theorem quiet_onStats (f : ProviderStats → ProviderStats) : Sync.Keeps Quiet (onStats name f) := by
  intro s
  unfold onStats
  rw [Sync.bind_run, Sync.reads_run]
  cases hv : lookup s.providerStats name with
  | error e => exact quiet_refl s
  | ok v =>
    have hkey := Dict.mem_keys.mpr ⟨v, get?_of_lookup hv⟩
    exact ⟨rfl, rfl, rfl, rfl, rfl, Dict.keys_set_of_mem _ hkey⟩

theorem quiet_recordHealth (ok : Bool) : Sync.Keeps Quiet (recordHealth name ok) := by
  intro s
  unfold recordHealth
  rw [Sync.bind_run, Sync.reads_run]
  cases hv : lookup s.health name with
  | error e => exact quiet_refl s
  | ok v =>
    have hkey := Dict.mem_keys.mpr ⟨v, get?_of_lookup hv⟩
    exact ⟨rfl, rfl, rfl, rfl, Dict.keys_set_of_mem _ hkey, rfl⟩

theorem quiet_recordSuccess (costUsd latencyMs : ℚ) :
    Sync.Keeps Quiet (recordSuccess name costUsd latencyMs) :=
  (quiet_onStats _).bind fun _ => (quiet_recordHealth _).bind fun _ => quiet_onStats _

theorem quiet_recordError (kind : ErrorKind) (status : Option Nat) :
    Sync.Keeps Quiet (recordError name kind status) := by
  refine (quiet_onStats _).bind fun _ => .bind ?_ fun _ => quiet_onStats _
  unfold recordIllness
  split
  · exact quiet_recordHealth _
  · exact .pure _

theorem quiet_settleStreamRaw (r : CompletionRequest) (u chars : Nat) (completed : Bool) :
    Sync.Keeps Quiet (settleStreamRaw name r u chars completed) := by
  refine .bind (.reads _) fun p => .bind (.reads _) fun usage => ?_
  refine .bind (.update fun s => ⟨rfl, rfl, rfl, rfl, rfl, rfl⟩) fun _ => ?_
  exact .bind (quiet_onStats _) fun _ => .update fun s => ⟨rfl, rfl, rfl, rfl, rfl, rfl⟩

theorem quiet_allow (s : RouterState) (b : Nat) : Quiet s (s.allow b).2 := by
  unfold RouterState.allow
  dsimp only
  split <;> exact ⟨rfl, rfl, rfl, rfl, rfl, rfl⟩

theorem quiet_limiterRelease (s : RouterState) (t : Option Nat) :
    Quiet s (s.limiterRelease name t) := by
  unfold RouterState.limiterRelease
  split
  · exact quiet_refl s
  · dsimp only
    split <;> exact ⟨rfl, rfl, rfl, rfl, rfl, rfl⟩

theorem quiet_cacheLookup (s : RouterState) (model : Option String) (r : CompletionRequest) :
    Quiet s (cacheLookup s name model r).2 := by
  unfold cacheLookup
  split
  · split <;> exact ⟨rfl, rfl, rfl, rfl, rfl, rfl⟩
  · exact quiet_refl s

theorem quiet_cacheResponse (S : Setup) (s : RouterState) (r : CompletionRequest)
    (response : CompletionResponse) : Quiet s (cacheResponse S name r response s) := by
  unfold cacheResponse
  split
  · split <;> exact ⟨rfl, rfl, rfl, rfl, rfl, rfl⟩
  · exact quiet_refl s

theorem quiet_prepare (S : Setup) (r : CompletionRequest) (preferred : Option String) (d : Option ℚ) :
    Sync.Keeps Quiet (prepare S r preferred d) := by
  refine .bind (.update fun s => ⟨rfl, rfl, rfl, rfl, rfl, rfl⟩) fun _ => ?_
  refine .bind (.reads _) fun r' => .bind (.reads _) fun _ => .bind (.reads _) fun _ => ?_
  refine .bind (.reads _) fun d => .bind (fun s => .of_peeks ?_) fun l => .pure _
  exact keeps_screen S r' preferred s

end Keeps

/-! ## Awaits -/

/-- The await sends no request and concerns no leg. -/
def Silent : Ask Γ → Prop
  | .call (.complete _ _ _ _) => False
  | .call (.firstChunk _ _ _ _) => False
  | .call (.embed _ _ _ _ _) => False
  | .call _ => True
  | .wait _ _ => False
  | .join _ => False

/-- The await belongs to the delivery of a stream. -/
def Delivers : Ask Γ → Prop
  | .call (.nextChunk _) => True
  | .call (.yieldChunk _) => True
  | .call .closeStream => True
  | _ => False

theorem Delivers.silent {q : Ask Γ} (h : Delivers q) : Silent q := by
  cases q with
  | call q =>
    cases q with
    | nextChunk w => trivial
    | yieldChunk c => trivial
    | closeStream => trivial
    | _ => exact h.elim
  | wait m hs => exact h.elim
  | join h' => exact h.elim

section Within

variable {S : Setup} {φ : Ask Γ → Prop} {α : Type} (hφ : ∀ q, Silent q → φ q)

/-- The coroutine keeps within `φ` and leaves the tables alone. -/
abbrev Scope (φ : Ask Γ → Prop) (c : Async α) : Prop := c.Within φ Quiet

theorem scope_reads {f : RouterState → Except Exc α} : Scope φ (reads f) := .sync quiet_refl

theorem scope_update {f : RouterState → RouterState} (h : ∀ s, Quiet s (f s)) : Scope φ (update f) :=
  .sync h

theorem scope_yields {f : RouterState → α × RouterState} (h : ∀ s, Quiet s (f s).2) :
    Scope φ (yields f) := .sync h

theorem scope_clock : Scope φ clock := scope_reads

theorem scope_fail {e : Exc} : Scope φ (Coro.fail e : Async α) := trivial

theorem scope_pure {a : α} : Scope φ (pure a : Async α) := trivial

include hφ

theorem scope_query {q : Query} (hq : Silent (.call q)) : Scope φ (query q) := .ask (hφ _ hq)

variable {l : Nat} {maxWait : Option ℚ} {tokens : ℚ}

omit hφ in
theorem scope_reject {retryAfter : Option ℚ} : Scope φ (reject l retryAfter : Async α) :=
  .bind (scope_yields fun _ => ⟨rfl, rfl, rfl, rfl, rfl, rfl⟩) fun _ => scope_fail

theorem scope_takeSlot {budget : Option ℚ} : Scope φ (takeSlot l budget) := by
  unfold takeSlot
  split
  · refine .bind (scope_query hφ trivial) fun locked => .bind (.when fun _ => scope_reject) fun _ => ?_
    exact scope_update fun s => ⟨rfl, rfl, rfl, rfl, rfl, rfl⟩
  · refine .handle (scope_query hφ trivial) (fun _ => scope_update fun s => ⟨rfl, rfl, rfl, rfl, rfl, rfl⟩) ?_
    intro e
    split
    · exact scope_reject
    · exact scope_fail

theorem scope_awaitRates {started : ℚ} :
    Scope φ (awaitRates l tokens maxWait started) := by
  refine .bind (scope_yields fun s => ⟨rfl, rfl, rfl, rfl, rfl, rfl⟩) fun wait => ?_
  refine .bind scope_clock fun now => .bind (.when fun _ => scope_reject) fun _ => ?_
  exact .when fun _ => scope_query hφ trivial

theorem scope_acquire :
    Scope φ (acquire l tokens maxWait) := by
  refine .bind scope_clock fun started => .bind (scope_takeSlot hφ) fun _ => ?_
  refine .bind (.tryCatch (scope_awaitRates hφ) fun e => ?_) fun _ => ?_
  · exact .bind (scope_update fun s => ⟨rfl, rfl, rfl, rfl, rfl, rfl⟩) fun _ => scope_fail
  · exact scope_yields fun s => ⟨rfl, rfl, rfl, rfl, rfl, rfl⟩

variable {name : String} {deadline : Deadline} {r : CompletionRequest}

theorem scope_limiterAcquire :
    Scope φ (limiterAcquire name tokens maxWait) := by
  refine .bind scope_reads fun l => ?_
  cases l with
  | none => exact scope_pure
  | some l => exact .bind (scope_acquire hφ) fun _ => scope_pure

theorem scope_admitCall {probe : Nat} :
    Scope φ (admitCall name r deadline probe) := by
  refine .bind scope_clock fun now => .tryCatch (scope_limiterAcquire hφ) fun e => ?_
  refine .bind (.when fun _ => .sync (quiet_onStats _)) fun _ => .bind scope_reads fun b => ?_
  exact .bind (scope_update fun s => ⟨rfl, rfl, rfl, rfl, rfl, rfl⟩) fun _ => scope_fail

omit hφ in
theorem scope_drawWait {attempt : Nat} {info : ErrorInfo} : Scope φ (drawWait S attempt info) := by
  unfold drawWait
  split
  · exact scope_pure
  · exact .bind (scope_yields fun s => ⟨rfl, rfl, rfl, rfl, rfl, rfl⟩) fun _ => scope_pure

theorem scope_runWithRetry {func : Async α} (hfunc : Scope φ func) :
    ∀ {more attempt : Nat}, Scope φ (runWithRetry S func deadline more attempt)
  | 0, _ => hfunc
  | more + 1, attempt => by
      refine .tryCatch hfunc fun e => ?_
      split
      · exact scope_fail
      · refine .bind scope_drawWait fun wait => ?_
        cases wait with
        | none => exact scope_fail
        | some wait =>
          refine .bind scope_clock fun now => .bind (.when fun _ => scope_fail) fun _ => ?_
          refine .bind (scope_update fun s => ⟨rfl, rfl, rfl, rfl, rfl, rfl⟩) fun _ => ?_
          exact .bind (scope_query hφ trivial) fun _ => scope_runWithRetry hfunc

theorem scope_execute {func : Async α} (hfunc : Scope φ func)
    {maxAttempts : Nat} : Scope φ (execute S func deadline maxAttempts) := by
  unfold execute
  split
  · refine .tryCatch (scope_runWithRetry hφ hfunc) fun e => .bind (.when fun _ => ?_) fun _ => scope_fail
    exact scope_update fun s => ⟨rfl, rfl, rfl, rfl, rfl, rfl⟩
  · exact hfunc

omit hφ in
theorem scope_checkDeadline {b probe : Nat} :
    Scope φ (checkDeadline deadline b probe) := by
  refine .bind scope_clock fun now => .when fun _ => ?_
  exact .bind (scope_update fun s => ⟨rfl, rfl, rfl, rfl, rfl, rfl⟩) fun _ => scope_fail

omit hφ in
theorem scope_attemptSeconds :
    Scope φ (attemptSeconds S name deadline) :=
  .bind scope_clock fun _ => .bind (.when fun _ => scope_fail) fun _ => scope_pure

omit hφ in
theorem scope_timedOut {seconds : Option ℚ} :
    Scope φ (timedOut S name deadline seconds : Async α) :=
  .bind scope_clock fun _ => .bind (.when fun _ => scope_fail) fun _ => scope_fail

omit hφ in
theorem scope_oneCall {p : Provider}
    (hsend : ∀ w, φ (.call (.complete name p r w))) : Scope φ (oneCall S name p r deadline) := by
  refine .bind scope_attemptSeconds fun seconds => .tryCatch (.ask (hsend _)) fun e => ?_
  split
  · exact scope_timedOut
  · exact scope_fail

omit hφ in
theorem scope_settleFailure {b probe : Nat} {e : Exc} :
    Scope φ (settleFailure name b probe e) := by
  unfold settleFailure
  split
  · refine .bind (.sync (quiet_recordError _ _)) fun _ => scope_update fun s => ?_
    split <;> exact ⟨rfl, rfl, rfl, rfl, rfl, rfl⟩
  · exact scope_update fun s => ⟨rfl, rfl, rfl, rfl, rfl, rfl⟩

theorem scope_callProvider {attempts probe : Nat} (hsend : ∀ p w, φ (.call (.complete name p r w))) :
    Scope φ (callProvider S name r deadline attempts probe) := by
  refine .bind scope_reads fun p => .bind scope_reads fun b => .bind scope_checkDeadline fun _ => ?_
  refine .bind (scope_admitCall hφ) fun ticket => .tryFinally ?_ (scope_update fun s => quiet_limiterRelease s _)
  refine .handle (scope_execute hφ (scope_oneCall (hsend p))) (fun response => ?_) fun e => ?_
  · exact .bind (scope_update fun s => ⟨rfl, rfl, rfl, rfl, rfl, rfl⟩) fun _ => scope_pure
  · exact .bind scope_settleFailure fun _ => scope_fail

omit hφ in
theorem scope_closeStream (hφ : ∀ q, Delivers q → φ q) : Scope φ closeStream := by
  refine .tryCatch (.ask (hφ (.call .closeStream) trivial)) fun e => ?_
  split
  · exact scope_pure
  · exact scope_fail

theorem scope_openOnce {p : Provider}
    (hsend : ∀ w, φ (.call (.firstChunk name p r w))) : Scope φ (openOnce S name p r deadline) := by
  refine .bind scope_attemptSeconds fun seconds => .handle (.ask (hsend _)) (fun _ => scope_pure) ?_
  intro e
  split
  · exact scope_pure
  · split
    · exact .bind (scope_closeStream fun q hq => hφ q hq.silent) fun _ => scope_timedOut
    · exact .bind (scope_closeStream fun q hq => hφ q hq.silent) fun _ => scope_fail

theorem scope_openStream {attempts b probe : Nat} (hsend : ∀ p w, φ (.call (.firstChunk name p r w))) :
    Scope φ (openStream S name r deadline attempts b probe) := by
  refine .bind scope_reads fun p => .bind scope_checkDeadline fun _ => .bind (scope_admitCall hφ) fun ticket => ?_
  refine .handle (scope_execute hφ (scope_openOnce hφ (hsend p))) (fun _ => scope_pure) fun e => ?_
  refine .bind scope_settleFailure fun _ => .bind (scope_update fun s => quiet_limiterRelease s _) fun _ => ?_
  exact scope_fail

omit hφ in
theorem scope_exhausted {i : Nat} {single : Bool} {g : Progress} :
    Scope φ (exhausted i single g : Async α) := by
  refine .bind (scope_update fun s => ⟨rfl, rfl, rfl, rfl, rfl, rfl⟩) fun _ => ?_
  split
  · exact scope_fail
  · exact .bind scope_reads fun _ => scope_fail

omit hφ in
theorem scope_countFailover {isLast : Bool} : Scope φ (countFailover isLast) := by
  unfold countFailover
  split
  · exact scope_pure
  · exact scope_update fun s => ⟨rfl, rfl, rfl, rfl, rfl, rfl⟩

omit hφ in
theorem scope_allowCandidate : Scope φ (allowCandidate name) := by
  refine .bind scope_reads fun b => .bind (scope_yields fun s => quiet_allow s b) fun x => ?_
  cases x with
  | some probe => exact scope_pure
  | none => exact .bind scope_reads fun _ => scope_pure

end Within

/-! ## Calls -/

/-- The handle is that of a leg to one of the candidates, under the deadline. -/
def LegOf (S : Setup) (plan : List (String × CompletionRequest)) (deadline : Deadline)
    (h : Γ.Handle) : Prop :=
  ∃ c ∈ plan, ∃ last probe, h.2 = .leg c.1 c.2 deadline (attemptsFor S last) probe

/-- What a route or stream that was prepared with these candidates can await. A
stream attaches its usage object to the request. -/
def AsksPlan (S : Setup) (plan : List (String × CompletionRequest)) (deadline : Deadline) :
    Ask Γ → Prop
  | .call (.complete name _ r _) => (name, r) ∈ plan
  | .call (.firstChunk name _ r _) => ∃ req u, (name, req) ∈ plan ∧ r = { req with streamUsage := u }
  | .call (.embed _ _ _ _ _) => False
  | .call _ => True
  | .wait _ hs => ∀ h ∈ hs, LegOf S plan deadline h
  | .join h => LegOf S plan deadline h

variable {S : Setup}

variable {plan : List (String × CompletionRequest)} {deadline : Deadline}

theorem AsksPlan.of_silent (q : Ask Γ) (hq : Silent q) : AsksPlan S plan deadline q := by
  cases q with
  | call q =>
    cases q with
    | complete n p r w => exact hq.elim
    | firstChunk n p r w => exact hq.elim
    | embed n p x m w => exact hq.elim
    | _ => trivial
  | wait m hs => exact hq.elim
  | join h => exact hq.elim

def OpensStream : Ask Γ → Prop
  | .call (.firstChunk _ _ _ _) => True
  | _ => False

theorem not_opensStream {q : Ask Γ} (h : Silent q) : ¬ OpensStream q := by
  cases q with
  | call q => cases q <;> first | exact id | exact h.elim
  | wait m hs => exact id
  | join h' => exact id

/-- What a route that was prepared with these candidates can await. -/
def AsksRoute (S : Setup) (plan : List (String × CompletionRequest)) (deadline : Deadline)
    (q : Ask Γ) : Prop := AsksPlan S plan deadline q ∧ ¬ OpensStream q

theorem AsksRoute.of_silent
    (q : Ask Γ) (hq : Silent q) : AsksRoute S plan deadline q := ⟨.of_silent q hq, not_opensStream hq⟩

/-- What the part of a route that hedges can await: its legs. -/
def AsksHedge (S : Setup) (plan : List (String × CompletionRequest)) (deadline : Deadline) : Ask Γ → Prop
  | .call _ => False
  | .wait _ hs => ∀ h ∈ hs, LegOf S plan deadline h
  | .join h => LegOf S plan deadline h

theorem AsksHedge.route (q : Ask Γ)
    (hq : AsksHedge S plan deadline q) : AsksRoute S plan deadline q := by
  cases q with
  | call q => exact hq.elim
  | wait m hs => exact ⟨hq, id⟩
  | join h => exact ⟨hq, id⟩

/-- What a leg can await. -/
def AsksOf (name : String) (r : CompletionRequest) : Ask Γ → Prop
  | .call (.complete name' _ r' _) => name' = name ∧ r' = r
  | .call (.firstChunk _ _ _ _) => False
  | .call (.embed _ _ _ _ _) => False
  | .call _ => True
  | .wait _ _ => False
  | .join _ => False

theorem AsksOf.of_silent {name : String} {r : CompletionRequest} (q : Ask Γ) (hq : Silent q) :
    AsksOf name r q := by
  cases q with
  | call q =>
    cases q with
    | complete n p r w => exact hq.elim
    | firstChunk n p r w => exact hq.elim
    | embed n p x m w => exact hq.elim
    | _ => trivial
  | wait m hs => exact hq.elim
  | join h => exact hq.elim

section Plan

variable {S : Setup} {plan : List (String × CompletionRequest)} {deadline : Deadline}

variable {name : String} {r : CompletionRequest} {φ : Ask Γ → Prop}

theorem scope_leg {attempts probe : Nat} :
    Scope (AsksOf name r) (callProvider S name r deadline attempts probe) :=
  scope_callProvider AsksOf.of_silent fun _ _ => ⟨rfl, rfl⟩

theorem scope_awaitAll {legs : List Γ.Handle} (h : ∀ x ∈ legs, LegOf S plan deadline x) :
    Scope (AsksHedge S plan deadline) (awaitAll legs) := .bind (.ask h) fun _ => scope_pure

theorem scope_hedgeLoop {nameOf : Γ.Handle → String} :
    ∀ {rounds : Nat} {pending : List Γ.Handle} {errors : List (String × Exc)},
      (∀ x ∈ pending, LegOf S plan deadline x) →
      Scope (AsksHedge S plan deadline) (hedgeLoop nameOf rounds pending errors)
  | 0, _, _, _ => scope_pure
  | rounds + 1, pending, errors, h => by
      unfold hedgeLoop
      split
      · exact scope_pure
      · refine .bind (.ask h) fun done => ?_
        have hrest : ∀ x ∈ pending.filter fun h => !(done.any fun x => x.1.1 = h.1),
            LegOf S plan deadline x := fun x hx => h x (List.mem_of_mem_filter hx)
        dsimp only
        split
        · exact scope_fail
        · exact .bind (.when fun _ => scope_awaitAll hrest) fun _ => scope_pure
        · exact scope_hedgeLoop hrest

theorem scope_callHedged {primary partner : String} {r partnerReq : CompletionRequest}
    {last last' : Bool} {probe : Nat} (hprimary : (primary, r) ∈ plan)
    (hpartner : (partner, partnerReq) ∈ plan) :
    Scope (AsksHedge S plan deadline) (callHedged primary partner r partnerReq deadline
      (attemptsFor S last) (attemptsFor S last') probe) := by
  refine .start_bind fun n₁ => ⟨⟨_, hprimary, last, probe, rfl⟩, ?_⟩
  have h₁ : LegOf S plan deadline (n₁, .leg primary r deadline (attemptsFor S last) probe) :=
    ⟨_, hprimary, last, probe, rfl⟩
  have hwait : Scope (AsksHedge S plan deadline)
      (Coro.wait .upTo [(n₁, Call.leg primary r deadline (attemptsFor S last) probe)]) := by
    refine .ask fun h hh => ?_
    rw [List.mem_singleton.mp hh]
    exact h₁
  refine hwait.bind fun done => ?_
  dsimp only
  split
  · exact .bind (.ofExcept _) fun _ => scope_pure
  · refine .bind scope_reads fun b => .bind (scope_yields fun s => quiet_allow s b) fun x => ?_
    cases x with
    | none => exact .bind (.ask h₁) fun _ => scope_pure
    | some partnerProbe =>
      refine .start_bind fun n₂ => ⟨⟨_, hpartner, last', partnerProbe, rfl⟩, ?_⟩
      have h₂ : ∀ h ∈ [(n₁, Call.leg primary r deadline (attemptsFor S last) probe),
          (n₂, Call.leg partner partnerReq deadline (attemptsFor S last') partnerProbe)],
          LegOf S plan deadline h := by
        intro h hh
        rcases List.mem_cons.mp hh with rfl | hh
        · exact h₁
        · rw [List.mem_singleton.mp hh]
          exact ⟨_, hpartner, last', partnerProbe, rfl⟩
      refine .bind (scope_update fun s => ⟨rfl, rfl, rfl, rfl, rfl, rfl⟩) fun _ => ?_
      refine .bind (.tryCatch (scope_hedgeLoop h₂) fun e => ?_) fun hedged => ?_
      · exact .bind (.when fun _ => scope_awaitAll h₂) fun _ => scope_fail
      · refine .bind (.when fun _ => scope_update fun s => ⟨rfl, rfl, rfl, rfl, rfl, rfl⟩) fun _ => ?_
        exact scope_pure

theorem scope_succeed
    {response : CompletionResponse} {g : Progress} : Scope φ (succeed S name r response g) := by
  refine .bind (scope_update fun s => quiet_cacheResponse S s r response) fun _ => ?_
  refine .bind (.sync (quiet_recordSuccess _ _)) fun _ => ?_
  exact .bind (scope_update fun s => ⟨rfl, rfl, rfl, rfl, rfl, rfl⟩) fun _ => scope_pure

variable {i : Nat} {chunks : Nat} {x : CompletionRequest × Deadline × List (String × CompletionRequest)}

theorem scope_routeLoop {hedging single : Bool} :
    ∀ {rest : List (String × CompletionRequest)} {g : Progress}, (∀ c ∈ rest, c ∈ plan) →
      Scope (AsksRoute S plan deadline) (routeLoop S i r deadline hedging single rest g)
  | [], _, _ => scope_exhausted
  | (name, req) :: rest, g, h => by
      have hrest : ∀ c ∈ rest, c ∈ plan := fun c hc => h c (List.mem_cons_of_mem _ hc)
      have hnext : ∀ g, Scope (AsksRoute S plan deadline) (routeLoop S i r deadline hedging single rest g) :=
        fun g => scope_routeLoop hrest
      have hfail : ∀ e, Scope (AsksRoute S plan deadline) (do
          Coro.when (!e.isException || givesUp S e) (Coro.fail e)
          countFailover rest.isEmpty
          routeLoop S i r deadline hedging single rest (g.add name e)) := fun e =>
        .bind (.when fun _ => scope_fail) fun _ => .bind scope_countFailover fun _ => hnext _
      unfold routeLoop
      split
      · exact hnext g
      · refine .bind (scope_update fun s => ⟨rfl, rfl, rfl, rfl, rfl, rfl⟩) fun _ => ?_
        refine .bind scope_allowCandidate fun x => ?_
        obtain ⟨b, x⟩ := x
        cases x with
        | error e => exact hnext _
        | ok probe =>
          dsimp only
          split
          · refine .handle (scope_callProvider AsksRoute.of_silent fun p w => ?_)
              (fun response => scope_succeed) hfail
            exact ⟨h (name, req) List.mem_cons_self, id⟩
          · rename_i partner partnerReq hpartner
            have hmem : (partner, partnerReq) ∈ rest := by
              cases rest with
              | nil => cases hpartner
              | cons next rest =>
                rw [partnerOf, Option.ite_none_right_eq_some] at hpartner
                rw [← Option.some.inj hpartner.2]
                exact List.mem_cons_self
            refine .handle ((scope_callHedged (h (name, req) List.mem_cons_self) (hrest _ hmem)).mono AsksHedge.route fun _ _ => id)
              (fun hedged => ?_) hfail
            cases hedged with
            | won winner response launched => exact scope_succeed
            | failed errors =>
              refine .bind (.ofExcept _) fun last => .bind (.when fun _ => scope_fail) fun _ => ?_
              exact .bind scope_countFailover fun _ => hnext _

theorem scope_deliverRest (hφ : ∀ q, Delivers q → φ q) :
    ∀ {chunks chars : Nat}, Scope φ (deliverRest S name chunks chars)
  | 0, _ => scope_pure
  | chunks + 1, chars => by
      refine .handle (.ask (hφ (.call (.nextChunk _)) trivial)) (fun chunk => ?_) fun e => ?_
      · exact .handle (.ask (hφ (.call (.yieldChunk _)) trivial)) (fun _ => scope_deliverRest hφ)
          fun e => scope_pure
      · split
        · exact scope_pure
        · split
          · exact scope_pure
          · exact scope_pure

theorem scope_deliver (hφ : ∀ q, Delivers q → φ q)
    {first : Option String} : Scope φ (deliver S name first chunks) := by
  cases first with
  | none => exact scope_pure
  | some chunk =>
    exact .handle (.ask (hφ (.call (.yieldChunk _)) trivial)) (fun _ => scope_deliverRest hφ)
      fun e => scope_pure

theorem scope_concludeStream {b probe : Nat}
    {outcome : Except Exc Unit} : Scope φ (concludeStream name b probe outcome) := by
  cases outcome with
  | ok u =>
    exact .bind (scope_update fun s => ⟨rfl, rfl, rfl, rfl, rfl, rfl⟩) fun _ =>
      .sync (quiet_onStats _)
  | error e => exact .bind scope_settleFailure fun _ => scope_fail

theorem scope_runStream (hφ : ∀ q, Delivers q → φ q)
    {u b probe : Nat} {ticket : Option Nat} {first : Option String}
    : Scope φ (runStream S i name r u b probe ticket first chunks) := by
  refine .bind scope_reads fun model => ?_
  refine .bind (scope_update fun s => ⟨rfl, rfl, rfl, rfl, rfl, rfl⟩) fun _ => ?_
  refine .bind (scope_deliver hφ) fun x => .tryFinally scope_concludeStream ?_
  refine .bind ?_ fun _ => .bind (scope_update fun s => quiet_limiterRelease s _) fun _ => ?_
  · unfold settleStream
    split
    · exact scope_update fun s => quiet_settleStreamRaw _ _ _ _ s
    · exact scope_pure
  · refine .bind (scope_update fun s => ⟨rfl, rfl, rfl, rfl, rfl, rfl⟩) fun _ => ?_
    exact scope_closeStream hφ

theorem scope_streamLoop {single : Bool} :
    ∀ {rest : List (String × CompletionRequest)} {g : Progress}, (∀ c ∈ rest, c ∈ plan) →
      Scope (AsksPlan S plan deadline) (streamLoop S i deadline single chunks rest g)
  | [], _, _ => scope_exhausted
  | (name, req) :: rest, g, h => by
      have hrest : ∀ c ∈ rest, c ∈ plan := fun c hc => h c (List.mem_cons_of_mem _ hc)
      refine .bind (scope_update fun s => ⟨rfl, rfl, rfl, rfl, rfl, rfl⟩) fun _ => ?_
      refine .bind scope_allowCandidate fun x => ?_
      obtain ⟨b, x⟩ := x
      cases x with
      | error e => exact scope_streamLoop hrest
      | ok probe =>
        refine .bind (scope_yields fun s => ⟨rfl, rfl, rfl, rfl, rfl, rfl⟩) fun u => ?_
        refine .handle (scope_openStream AsksPlan.of_silent fun p w => ?_)
          (fun x => scope_runStream fun q hq => .of_silent q hq.silent) ?_
        · exact ⟨req, some u, h (name, req) List.mem_cons_self, rfl⟩
        · intro e
          refine .bind (.when fun _ => scope_fail) fun _ => .bind scope_countFailover fun _ => ?_
          exact scope_streamLoop hrest

/-- `route`, once the request is prepared. -/
def routePlan (S : Setup) (i : Nat) (preferred : Option String)
    (x : CompletionRequest × Deadline × List (String × CompletionRequest)) :
    Async CompletionResponse := do
  let (name, req) := x.2.2.headD ("", x.1)
  match ← yields fun s => cacheLookup s name req.model x.1 with
  | some hit => return cacheHit hit
  | none =>
    let delay ← reads fun s => s.hedgeDelay S x.1 preferred
    routeLoop S i x.1 x.2.1 delay.isSome (x.2.2.length == 1) x.2.2 {}

theorem route_eq (i : Nat) (r : CompletionRequest) (preferred : Option String) (d : Option ℚ) :
    route S i r preferred d = Coro.sync (prepare S r preferred d) >>= routePlan S i preferred := rfl

/-- `stream`, once the request is prepared. -/
def streamPlan (S : Setup) (i : Nat) (chunks : Nat)
    (x : CompletionRequest × Deadline × List (String × CompletionRequest)) : Async Unit :=
  streamLoop S i x.2.1 (x.2.2.length == 1) chunks x.2.2 {}

theorem stream_eq (i : Nat) (r : CompletionRequest) (preferred : Option String) (d : Option ℚ)
    (chunks : Nat) :
    stream S i r preferred d chunks =
      Coro.sync (prepare S r preferred d) >>= streamPlan S i chunks := rfl

theorem scope_asksRoute {preferred : Option String}
    :
    Scope (AsksRoute S x.2.2 x.2.1) (routePlan S i preferred x) := by
  refine .bind (scope_yields fun s => quiet_cacheLookup s _ _) fun hit => ?_
  cases hit with
  | some hit => exact scope_pure
  | none => exact .bind scope_reads fun delay => scope_routeLoop fun _ => id

theorem scope_routePlan {preferred : Option String}
    :
    Scope (AsksPlan S x.2.2 x.2.1) (routePlan S i preferred x) :=
  scope_asksRoute.mono (fun _ => And.left) fun _ _ => id

theorem scope_streamPlan {i chunks : Nat}
    :
    Scope (AsksPlan S x.2.2 x.2.1) (streamPlan S i chunks x) := scope_streamLoop fun _ => id

end Plan

theorem scope_embedLoop {φ : Ask Γ → Prop} {texts : List String} {model : Option String}
    (hφ : ∀ n p w, φ (.call (.embed n p texts model w))) :
    ∀ {names : List String} {errors : List (String × ErrorKind)} {last : Option Exc},
      Scope φ (embedLoop S texts model names errors last)
  | [], errors, last => by
      unfold embedLoop
      split
      · exact scope_fail
      · exact scope_fail
      · exact .bind scope_reads fun _ => scope_fail
  | name :: rest, errors, last => by
      unfold embedLoop
      refine .bind scope_reads fun p => ?_
      cases p with
      | none => exact scope_fail
      | some p =>
        dsimp only
        split
        · exact scope_embedLoop hφ
        · refine .bind scope_reads fun b => .bind (scope_yields fun s => quiet_allow s b) fun x => ?_
          cases x with
          | none => exact scope_embedLoop hφ
          | some probe =>
            refine .handle (.ask (hφ _ _ _)) (fun v => ?_) fun e => ?_
            · refine .bind scope_reads fun b => ?_
              refine .bind (scope_update fun s => ⟨rfl, rfl, rfl, rfl, rfl, rfl⟩) fun _ => ?_
              refine .bind (scope_update fun s => ⟨rfl, rfl, rfl, rfl, rfl, rfl⟩) fun _ => ?_
              exact scope_pure
            · refine .bind (.when fun _ => scope_fail) fun _ => ?_
              refine .bind (.sync (quiet_recordError _ _)) fun _ => .bind scope_reads fun b => ?_
              refine .bind (scope_update fun s => ?_) fun _ => .bind (.when fun _ => scope_fail) fun _ => ?_
              · split <;> exact ⟨rfl, rfl, rfl, rfl, rfl, rfl⟩
              · exact scope_embedLoop hφ

/-- No task changes the clock or the tables, whatever it awaits. -/
theorem scope_body (i : Nat) (c : Call) : Scope (fun _ => True) (body S i c) := by
  cases c with
  | route r n d =>
    show Scope _ (route S i r n d)
    rw [route_eq]
    refine .bind (.sync (quiet_prepare S r n d)) fun x => ?_
    exact scope_routePlan.mono (fun _ _ => trivial) fun _ _ => id
  | stream r n d k =>
    show Scope _ (stream S i r n d k)
    rw [stream_eq]
    refine .bind (.sync (quiet_prepare S r n d)) fun x => ?_
    exact scope_streamPlan.mono (fun _ _ => trivial) fun _ _ => id
  | embed x m n => exact .bind scope_reads fun names => scope_embedLoop fun _ _ _ => trivial
  | leg n r d a t => exact scope_leg.mono (fun _ _ => trivial) fun _ _ => id

/-! ## Runs -/

section Apart

variable {E : Coro.Env Γ} {α β : Type} {s s' : RouterState} {l : Trail Γ}
  {o : Except Exc β}

theorem runs_update {f : RouterState → RouterState} {k : Unit → Async β}
    (h : Coro.Runs E (update f >>= k) s l o s') : Coro.Runs E (k ()) (f s) l o s' := by
  rcases Coro.Runs.of_sync_bind h with ⟨e, he, -⟩ | ⟨a, -, h⟩
  · cases he
  · exact h

theorem runs_yields {f : RouterState → α × RouterState} {k : α → Async β}
    (h : Coro.Runs E (yields f >>= k) s l o s') : Coro.Runs E (k (f s).1) (f s).2 l o s' := by
  rcases Coro.Runs.of_sync_bind h with ⟨e, he, -⟩ | ⟨a, ha, h⟩
  · cases he
  · obtain rfl := Except.ok.inj ha
    exact h

theorem runs_reads {f : RouterState → Except Exc α} {a : α} {k : α → Async β} (ha : f s = .ok a)
    (h : Coro.Runs E (reads f >>= k) s l o s') : Coro.Runs E (k a) s l o s' := by
  rcases Coro.Runs.of_sync_bind h with ⟨e, he, -⟩ | ⟨a', ha', h⟩
  · cases ha.symm.trans he
  · obtain rfl := Except.ok.inj (ha.symm.trans ha')
    exact h

end Apart

end Router

end Caips.Coreai
