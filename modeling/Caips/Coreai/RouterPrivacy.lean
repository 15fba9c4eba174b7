/-
Caips.Coreai.RouterPrivacy — private requests stay on local servers.

A private request is planned on local servers only, but their names are looked
up again when they are asked. As long as no other server is registered in the
meantime (`Sheltered`), what it asks is local, itself and through its legs
(`private_stays_local`); without that it is not (`sent_to_cloud`). That a private
request which no local server can serve ends before anything is sent is a
statement about the planner.
-/
import Caips.Coreai.RouterContacts
import Caips.Coreai.RouterTheorems

namespace Caips.Coreai

open Caips.Logic Caips.Providers

namespace RouterState

variable {S : Setup}

/-- The request could be sent to `name`: its plan contains the provider, and
the screen keeps it. -/
def Admissible (S : Setup) (s : RouterState) (r : CompletionRequest) (preferred : Option String)
    (name : String) : Prop :=
  ∃ order model single req, (planAny S r preferred s).1 = .ok order ∧ (name, model) ∈ order ∧
    (planAny S r preferred s).2.screenOne S r single (name, model) = .ok (.keep req)

/-- A private request that is given candidates has an admissible local one. -/
theorem exists_admissible {s : RouterState} {r : CompletionRequest} {preferred : Option String}
    (hr : (r.meta "private").truthy = true) {l : List (String × CompletionRequest)}
    (h : (screen S r preferred s).1 = .ok l) :
    ∃ name p, s.providers.get? name = some p ∧ p.isLocal = true ∧
      Admissible S s r preferred name := by
  obtain ⟨order, plan, single, horder, hplan, hscreened⟩ := screen_ok S h
  obtain ⟨hne, hkept⟩ := mem_screened S hscreened
  obtain ⟨y, hy⟩ := List.exists_mem_of_ne_nil l hne
  obtain ⟨⟨name, model⟩, hc, -, hkeep⟩ := hkept y hy
  rw [restrict, hr] at hplan
  obtain ⟨kept, hlocals, hplan⟩ := ok_of_bind hplan
  split at hplan
  · cases hplan
  · obtain rfl := Except.ok.inj hplan
    obtain ⟨hmem, p, hp, hlocal⟩ := mem_localOnly hlocals hc
    rw [(keeps_planAny S r preferred s).providers_eq] at hp
    exact ⟨name, p, hp, hlocal, order, model, single, y.2, horder, hmem, hkeep⟩

end RouterState

namespace Router

open RouterState

variable {S : Setup}

/-! ## Private requests that cannot be served -/

/-- `request.metadata.get("private")` is truthy. -/
def Private (r : CompletionRequest) : Prop := (r.meta "private").truthy = true

variable {r : CompletionRequest} {names : List String}

/-- Resolving an alias leaves a private request private. -/
theorem private_resolveAlias {s : RouterState}
    (h : Private r) : Private (s.resolveAlias S r) := by
  have hset : ∀ (d : Dict String Value) (k : String) (v : Value), k ≠ "private" →
      (d.set k v).get? "private" = d.get? "private" := fun d k v hk => Dict.get?_set_ne d v hk
  unfold RouterState.resolveAlias
  split
  · exact h
  · split
    · unfold Private CompletionRequest.meta
      rw [hset _ _ _ (by decide)]
      exact h
    · split
      · exact h
      · unfold Private CompletionRequest.meta
        rw [hset _ _ _ (by decide), hset _ _ _ (by decide)]
        exact h

variable {preferred : Option String} {s s' : RouterState}

/-- A private request none of the local providers is admissible for is refused
while it is prepared. -/
theorem prepare_private {s : RouterState}
    {d : Option ℚ} (hr : Private r)
    (hnone : ∀ name p, s.providers.get? name = some p → p.isLocal = true →
      ¬ Admissible S (counted s) ((counted s).resolveAlias S r) preferred name) :
    ∃ e, (prepare S r preferred d s).1 = .error e := by
  cases hx : (prepare S r preferred d s).1 with
  | error e => exact ⟨e, rfl⟩
  | ok x =>
    obtain ⟨hr', -, hscreen⟩ := prepare_ok hx
    rw [hr'] at hscreen
    obtain ⟨name, p, hp, hlocal, hadm⟩ := exists_admissible (private_resolveAlias hr) hscreen
    exact absurd hadm (hnone name p hp hlocal)

/-- A call whose preparation fails ends there: it has sent nothing and started
no task. -/
theorem start_of_prepare_error {p p' : Pool Γ} {i : Nat} {c : Call} {l : List (Event Γ)}
    (ht : p.tasks[i]? = some ⟨c, .ready, l⟩)
    (hc : c.request = some (r, preferred))
    (hprepare : ∀ d, ∃ e, (prepare S r preferred d p.state).1 = .error e)
    (hstep : (program S).step p (.start i) = some p') :
    ∃ e, p'.tasks = p.tasks.set i ⟨c, .done (.error e), l⟩ := by
  simp only [Program.step, ht] at hstep
  obtain rfl := Option.some.inj hstep
  cases c with
  | route r' n d =>
    obtain ⟨rfl, rfl⟩ : r' = r ∧ n = preferred := by simpa [Call.request] using hc
    obtain ⟨e, he⟩ := hprepare d
    have hburst : Coro.burst (d := Call.route r' n d) p.tasks.length (route S i r' n d) p.state =
        ⟨_, .done (.error e), []⟩ := Coro.burst_sync_error he
    exact ⟨e, (congrArg (fun b => (p.advance i _ l b).tasks) hburst).trans (p.advance_ended i _ l _ _)⟩
  | stream r' n d k =>
    obtain ⟨rfl, rfl⟩ : r' = r ∧ n = preferred := by simpa [Call.request] using hc
    obtain ⟨e, he⟩ := hprepare d
    have hburst : Coro.burst (d := Call.stream r' n d k) p.tasks.length (stream S i r' n d k) p.state =
        ⟨_, .done (.error e), []⟩ := Coro.burst_sync_error he
    exact ⟨e, (congrArg (fun b => (p.advance i _ l b).tasks) hburst).trans (p.advance_ended i _ l _ _)⟩
  | embed x m n => cases hc
  | leg n r' d a t => cases hc

/-! ## What is sent -/

/-- Under these names no other server than a local one is registered. -/
def Sheltered (names : List String) (s : RouterState) : Prop :=
  ∀ n ∈ names, ∀ q, s.providers.get? n = some q → q.isLocal = true

/-- The names under which no other server than a local one is registered stay so. -/
def KeepsLocal (s s' : RouterState) : Prop := ∀ n, Sheltered [n] s → Sheltered [n] s'

/-- Under these names local servers only are asked. -/
def AsksLocal (names : List String) : Ask Γ → Prop
  | .call (.complete n p _ _) => n ∈ names → p.isLocal = true
  | .call (.firstChunk n p _ _) => n ∈ names → p.isLocal = true
  | _ => True

theorem AsksLocal.of_silent (q : Ask Γ) (hq : Silent q) : AsksLocal names q := by
  cases q with
  | call q =>
    cases q with
    | complete n p r w => exact hq.elim
    | firstChunk n p r w => exact hq.elim
    | _ => trivial
  | _ => trivial

theorem AsksLocal.of_hedge {plan : List (String × CompletionRequest)} {deadline : Deadline}
    (q : Ask Γ) (hq : AsksHedge S plan deadline q) : AsksLocal names q := by
  cases q with
  | call q => exact hq.elim
  | _ => trivial

/-- The coroutine asks local servers only, as long as its names are sheltered. -/
abbrev Shelters {α : Type} (names : List String) (c : Async α) : Prop := c.Under (Sheltered names) (AsksLocal names)

section Shelters

variable {names : List String} {α : Type}

theorem Quiet.sheltered {s s' : RouterState} (h : Quiet s s') (hs : Sheltered names s) : Sheltered names s' := by
  unfold Sheltered at *
  rwa [h.providers]

theorem shelters_of_scope {c : Async α} (h : Scope (AsksLocal names) c) : Shelters names c :=
  .of_within (fun _ _ => Quiet.sheltered) h

variable {name : String}

theorem shelters_lookup {k : Provider → Async α}
    (hk : ∀ p, (name ∈ names → p.isLocal = true) → Scope (AsksLocal names) (k p)) :
    Shelters names (reads (fun s => lookup s.providers name) >>= k) := by
  refine .sync_bind fun s hs => ⟨hs, fun p hp => shelters_of_scope (hk p fun hn => ?_)⟩
  exact hs name hn p (get?_of_lookup hp)

variable {deadline : Deadline}

theorem shelters_callProvider {r : CompletionRequest} {attempts probe : Nat} :
    Shelters names (callProvider S name r deadline attempts probe) := by
  refine shelters_lookup fun p hp => .bind scope_reads fun b => .bind scope_checkDeadline fun _ => ?_
  refine .bind (scope_admitCall AsksLocal.of_silent) fun ticket =>
    .tryFinally ?_ (scope_update fun s => quiet_limiterRelease s _)
  refine .handle (scope_execute AsksLocal.of_silent (scope_oneCall fun _ => hp)) (fun response => ?_) fun e => ?_
  · exact .bind (scope_update fun s => ⟨rfl, rfl, rfl, rfl, rfl, rfl⟩) fun _ => scope_pure
  · exact .bind scope_settleFailure fun _ => scope_fail

theorem shelters_openStream {r : CompletionRequest}
    {attempts b probe : Nat} : Shelters names (openStream S name r deadline attempts b probe) := by
  refine shelters_lookup fun p hp => .bind scope_checkDeadline fun _ =>
    .bind (scope_admitCall AsksLocal.of_silent) fun ticket => ?_
  refine .handle (scope_execute AsksLocal.of_silent (scope_openOnce AsksLocal.of_silent fun _ => hp))
    (fun _ => scope_pure) fun e => ?_
  refine .bind scope_settleFailure fun _ => .bind (scope_update fun s => quiet_limiterRelease s _) fun _ => ?_
  exact scope_fail

theorem shelters_routeLoop {i : Nat} {r : CompletionRequest} {hedging single : Bool} :
    ∀ {rest : List (String × CompletionRequest)} {g : Progress},
      Shelters names (routeLoop S i r deadline hedging single rest g)
  | [], _ => shelters_of_scope scope_exhausted
  | (name, req) :: rest, g => by
      have hnext : ∀ g, Shelters names (routeLoop S i r deadline hedging single rest g) := fun _ => shelters_routeLoop
      have hfail : ∀ e, Shelters names (do
          Coro.when (!e.isException || givesUp S e) (Coro.fail e)
          countFailover rest.isEmpty
          routeLoop S i r deadline hedging single rest (g.add name e)) := fun e =>
        .bind (shelters_of_scope (.when fun _ => scope_fail)) fun _ =>
          .bind (shelters_of_scope scope_countFailover) fun _ => hnext _
      unfold routeLoop
      split
      · exact hnext g
      · refine .bind (shelters_of_scope (scope_update fun s => ⟨rfl, rfl, rfl, rfl, rfl, rfl⟩)) fun _ => ?_
        refine .bind (shelters_of_scope scope_allowCandidate) fun x => ?_
        obtain ⟨b, x⟩ := x
        cases x with
        | error e => exact hnext _
        | ok probe =>
          dsimp only
          split
          · exact .handle shelters_callProvider (fun response => shelters_of_scope scope_succeed) hfail
          · rename_i partner partnerReq hpartner
            have hedge : Scope (AsksHedge S [(name, req), (partner, partnerReq)] deadline)
                (callHedged name partner req partnerReq deadline (attemptsFor S rest.isEmpty)
                  (attemptsFor S rest.tail.isEmpty) probe) :=
              scope_callHedged List.mem_cons_self (List.mem_cons_of_mem _ (List.mem_singleton_self _))
            refine .handle (shelters_of_scope (hedge.mono AsksLocal.of_hedge fun _ _ => id)) (fun hedged => ?_) hfail
            cases hedged with
            | won winner response launched => exact shelters_of_scope scope_succeed
            | failed errors =>
              refine .bind (shelters_of_scope (.ofExcept _)) fun last => ?_
              refine .bind (shelters_of_scope (.when fun _ => scope_fail)) fun _ => ?_
              exact .bind (shelters_of_scope scope_countFailover) fun _ => hnext _

theorem shelters_streamLoop {i : Nat} {single : Bool} {chunks : Nat} :
    ∀ {rest : List (String × CompletionRequest)} {g : Progress},
      Shelters names (streamLoop S i deadline single chunks rest g)
  | [], _ => shelters_of_scope scope_exhausted
  | (name, req) :: rest, g => by
      refine .bind (shelters_of_scope (scope_update fun s => ⟨rfl, rfl, rfl, rfl, rfl, rfl⟩)) fun _ => ?_
      refine .bind (shelters_of_scope scope_allowCandidate) fun x => ?_
      obtain ⟨b, x⟩ := x
      cases x with
      | error e => exact shelters_streamLoop
      | ok probe =>
        refine .bind (shelters_of_scope (scope_yields fun s => ⟨rfl, rfl, rfl, rfl, rfl, rfl⟩)) fun u => ?_
        refine .handle shelters_openStream (fun x => shelters_of_scope ?_) fun e => ?_
        · exact scope_runStream fun q hq => .of_silent q hq.silent
        · refine .bind (shelters_of_scope (.when fun _ => scope_fail)) fun _ => ?_
          exact .bind (shelters_of_scope scope_countFailover) fun _ => shelters_streamLoop

/-- What a task asks is local, as long as its names are sheltered. -/
theorem shelters_body (i : Nat) (c : Call) : Shelters names (body S i c) := by
  cases c with
  | route r n d =>
    show Shelters names (route S i r n d)
    rw [route_eq]
    refine .bind (shelters_of_scope (.sync (quiet_prepare S r n d))) fun x => ?_
    refine .bind (shelters_of_scope (scope_yields fun s => quiet_cacheLookup s _ _)) fun hit => ?_
    cases hit with
    | some hit => exact shelters_of_scope scope_pure
    | none => exact .bind (shelters_of_scope scope_reads) fun delay => shelters_routeLoop
  | stream r n d k =>
    show Shelters names (stream S i r n d k)
    rw [stream_eq]
    exact .bind (shelters_of_scope (.sync (quiet_prepare S r n d))) fun x => shelters_streamLoop
  | embed x m n => exact shelters_of_scope (.bind scope_reads fun names => scope_embedLoop fun _ _ _ => trivial)
  | leg n r d a t => exact shelters_callProvider

end Shelters

/-! ## Runs -/

/-- No provider is added or replaced but by a local one. -/
def AddsLocal (_ : Pool Γ) : Move Γ Op → Prop
  | .op (.setProvider _ q) => q.isLocal = true
  | _ => True

/-- The provider a task sends a request to, at the await it is at. -/
def asked (t : Task Γ) : List Provider :=
  match t.status with
  | .suspended (.call (.complete _ p _ _)) _ => [p]
  | .suspended (.call (.firstChunk _ p _ _)) _ => [p]
  | _ => []

/-- What a task asks is local if its contacts have these names. -/
theorem local_of_asked {J : RouterState → Prop} {t : Task Γ}
    (hleft : ∀ d, t.status.left = some d → d.Under J (AsksLocal names))
    (hnames : ∀ x ∈ contactsOf t, x.1 ∈ names) : ∀ q ∈ asked t, q.isLocal = true := by
  intro q hq
  unfold asked at hq
  unfold contactsOf at hnames
  split at hq
  · rename_i n p r w k hstatus
    rw [hstatus] at hnames hleft
    obtain rfl := List.mem_singleton.mp hq
    exact (hleft _ rfl).1 (hnames _ (List.mem_singleton_self _))
  · rename_i n p r w k hstatus
    rw [hstatus] at hnames hleft
    obtain rfl := List.mem_singleton.mp hq
    exact (hleft _ rfl).1 (hnames _ (List.mem_singleton_self _))
  · exact absurd hq List.not_mem_nil

theorem KeepsLocal.sheltered (h : KeepsLocal s s')
    (hs : Sheltered names s) : Sheltered names s' :=
  fun n hn => h n (fun m hm => hs m (List.mem_singleton.mp hm ▸ hn)) n (List.mem_singleton_self n)

theorem keepsLocal_set {name : String} {p : Provider}
    (hset : s'.providers = s.providers.set name p)
    (hp : Sheltered [name] s → p.isLocal = true) : KeepsLocal s s' := by
  intro n hn m hm q hq
  obtain rfl := List.mem_singleton.mp hm
  rw [hset] at hq
  by_cases hname : m = name
  · subst hname
    rw [Dict.get?_set_self] at hq
    obtain rfl := Option.some.inj hq
    exact hp hn
  · rw [Dict.get?_set_ne _ _ (Ne.symm hname)] at hq
    exact hn m hm q hq

theorem keepsLocal_of_eq (h : s'.providers = s.providers) : KeepsLocal s s' := by
  intro n hn
  unfold Sheltered
  rw [h]
  exact hn

/-- Every step keeps the local names local, where only local servers are registered. -/
theorem tame_local : (program S).Tame (fun _ _ => True) KeepsLocal AddsLocal where
  refl _ _ := id
  trans _ _ _ h h' n hn := h' n (h n hn)
  body i c := (scope_body i c).mono (fun _ => id) fun _ _ h n => h.sheltered
  reboot _ := rfl
  enter c s s' h := by
    cases c with
    | leg n r d a t => cases h
    | _ => exact keepsLocal_of_eq (congrArg RouterState.providers (Option.some.inj h).symm)
  op p o s hG h := by
    cases o with
    | tick d =>
      obtain ⟨-, h⟩ := Option.ite_none_right_eq_some.mp h
      obtain rfl := Option.some.inj h
      exact keepsLocal_of_eq rfl
    | provider name q =>
      simp only [applyOp] at h
      split at h
      · rename_i old hold
        obtain ⟨hkind, h⟩ := Option.ite_none_right_eq_some.mp h
        obtain rfl := Option.some.inj h
        exact keepsLocal_set rfl fun hs => hkind.trans (hs name (List.mem_singleton_self _) old hold)
      · cases h
    | report u i o m =>
      obtain rfl := Option.some.inj h
      exact keepsLocal_of_eq rfl
    | policies q =>
      obtain rfl := Option.some.inj h
      exact keepsLocal_of_eq rfl
    | modelGate g =>
      obtain rfl := Option.some.inj h
      exact keepsLocal_of_eq rfl
    | setProvider name q =>
      obtain rfl := Option.some.inj h
      have hset : (setProvider S p.state name q).providers = p.state.providers.set name q := by
        unfold setProvider
        dsimp only
        split <;> rfl
      exact keepsLocal_set hset fun _ => hG
    | dropProvider name =>
      obtain rfl := Option.some.inj h
      intro n hn m hm q hq
      have hq : (p.state.providers.pop name).get? m = some q := hq
      by_cases hname : m = name
      · rw [hname, Dict.get?_pop_self] at hq
        cases hq
      · rw [Dict.get?_pop_ne _ (Ne.symm hname)] at hq
        exact hn m hm q hq

/-- The candidates of a private request are local. -/
theorem sheltered_screen {s : RouterState}
    (hr : Private r) {l : List (String × CompletionRequest)} (h : (screen S r preferred s).1 = .ok l) :
    Sheltered (l.map Prod.fst) s := by
  obtain ⟨order, plan, single, -, hplan, hscreened⟩ := screen_ok S h
  obtain ⟨-, hkept⟩ := mem_screened S hscreened
  intro n hn q hq
  obtain ⟨y, hy, rfl⟩ := List.mem_map.mp hn
  obtain ⟨⟨name, model⟩, hc, hname, -⟩ := hkept y hy
  rw [restrict, show (r.meta "private").truthy = true from hr] at hplan
  obtain ⟨kept, hlocals, hplan⟩ := ok_of_bind hplan
  split at hplan
  · cases hplan
  · obtain rfl := Except.ok.inj hplan
    obtain ⟨-, p, hp, hlocal⟩ := mem_localOnly hlocals hc
    rw [(keeps_planAny S r preferred s).providers_eq] at hp
    obtain rfl : p = q := Option.some.inj (hp.symm.trans (hname ▸ hq))
    exact hlocal

/-- **Private requests stay local.** A private request is sent to local servers only,
by itself and by the legs it starts, however the run goes on, as long as no other
server is registered meanwhile; and one for which no local server is admissible
raises at once, with no provider contacted. -/
theorem private_stays_local {init : RouterState → Prop} {p p' p'' : Pool Γ}
    (hp : ((program S).machine init).Reach Machine.free p) {i : Nat} {c : Call}
    {l : List (Event Γ)} {r : CompletionRequest} {preferred : Option String}
    (hi : p.tasks[i]? = some ⟨c, .ready, l⟩) (hc : c.request = some (r, preferred)) (hr : Private r)
    (hstep : (program S).step p (.start i) = some p')
    {z : List (Machine.Step (Pool Γ) (Move Γ Op))}
    (hrun : ((program S).machine init).Run p' z p'') (hlocal : ∀ e ∈ z, AddsLocal e.source e.label) :
    (∀ j, j = i ∨ (program S).StartedBy (⟨p, .start i, p'⟩ :: z) i j →
      ∀ t, p''.tasks[j]? = some t → ∀ q ∈ asked t, q.isLocal = true) ∧
      ((∀ name q, p.state.providers.get? name = some q → q.isLocal = true →
          ¬ Admissible S (counted p.state) ((counted p.state).resolveAlias S r) preferred name) →
        ∃ e, p'.tasks = p.tasks.set i ⟨c, .done (.error e), l⟩) := by
  refine ⟨fun j hj t ht q hq => ?_, fun hnone =>
    start_of_prepare_error hi hc (fun d => prepare_private hr hnone) hstep⟩
  obtain rfl : l = [] := Program.hist_of_ready (fun _ => rfl) hp _ (List.mem_of_getElem? hi) rfl
  obtain ⟨plan, hplan, hcontacts⟩ := contacts_planned hp hi hc hstep hrun
  have hcandidates : Sheltered (plan.map Prod.fst) p.state := by
    rcases hplan with rfl | hplan
    · exact fun n hn => absurd hn List.not_mem_nil
    · exact sheltered_screen (s := counted p.state) (private_resolveAlias hr) hplan
  have hwhole : ((program S).machine init).Run p (⟨p, .start i, p'⟩ :: z) p'' :=
    (Machine.Run.single (m := (program S).machine init) ⟨hstep, trivial⟩).append hrun
  -- none of the tasks had started before the request did
  have hnew : ∀ u, p.tasks[j]? = some u → u.status = .ready ∧ u.hist = [] := by
    intro u hu
    rcases hj with rfl | hj
    · obtain rfl := Option.some.inj (hi.symm.trans hu)
      exact ⟨rfl, rfl⟩
    · have hlt := (List.getElem?_eq_some_iff.mp hu).1
      exact absurd hlt (Nat.not_lt.mpr (Program.StartedBy.length_le (fun _ => rfl) hj hwhole))
  obtain ⟨-, -, ⟨hready, -⟩ | ⟨s₀, l, ⟨s, ⟨-, d, hd, hexec⟩, -⟩, hfrom⟩⟩ :=
    tame_local.known_run hwhole (List.forall_mem_cons.mpr ⟨trivial, hlocal⟩) (tame_local.scoped_reach hp) hnew ht
  · rw [asked, hready] at hq
    exact absurd hq List.not_mem_nil
  · have hleft := (hexec.under (fun _ _ _ _ h => (Program.world_step h).sheltered)
      (shelters_body j t.child) (hfrom.sheltered hcandidates)).1
    have hnames : ∀ x ∈ contactsOf t, x.1 ∈ plan.map Prod.fst := by
      intro x hx
      obtain ⟨y, hy, rfl⟩ := List.mem_map.mp (hcontacts j hj t ht x hx)
      exact List.mem_map.mpr ⟨y, hy, rfl⟩
    exact local_of_asked (fun c hc => Option.some.inj (hd.symm.trans hc) ▸ hleft) hnames q hq

instance (p : Pool Γ) : (m : Move Γ Op) → Decidable (AddsLocal p m)
  | .op (.setProvider _ q) => inferInstanceAs (Decidable (q.isLocal = true))
  | .op (.dropProvider _) | .op (.tick _) | .op (.provider _ _) | .op (.report _ _ _ _) | .op (.policies _)
  | .op (.modelGate _) | .spawn _ | .start _ | .resume _ _ | .crash _ _ _ => inferInstanceAs (Decidable True)

def secret : CompletionRequest where
  messages := [{ role := "user", content := "hello" }]
  metadata := Dict.empty.set "private" (.bool true)

def twoLocals : List (String × Provider) :=
  [("a", { name := "a", isLocal := true }), ("b", { name := "b", isLocal := true })]

/-- A reload registers `q` as `b` while the request is with `a`; then `a` fails. -/
def reloaded (q : Provider) : List (Move Γ Op) :=
  [.resume 0 (upstream none), .op (.setProvider "b" q), .resume 0 (upstream (some serverError)),
    .resume 0 (upstream none)]

/-- The private request fails over to what is registered as `b` by then, a local server too. -/
theorem private_stays_local_route :
    ∃ (p : Pool Γ) (t : Task Γ), p.tasks[0]? = some t ∧ contactsOf t = [("b", none)] ∧
      (∃ q ∈ asked t, q.defaultModel = "small") ∧ ∀ q ∈ asked t, q.isLocal = true := by
  have hp : (system plainSetup).Reach Machine.free
      ⟨(plainPool twoLocals).state, [⟨.route secret none none, .ready, []⟩]⟩ :=
    .step (i := Move.spawn (.route secret none none)) (plainPool_reach twoLocals) ⟨rfl, trivial⟩ trivial
  have hrun : (((program plainSetup).step ⟨(plainPool twoLocals).state, [⟨.route secret none none, .ready, []⟩]⟩
      (.start 0)).bind fun p' => (program plainSetup).replay AddsLocal p'
        (reloaded { name := "b", isLocal := true, defaultModel := "small" })).any
      (fun p => p.tasks[0]?.any fun t => decide (contactsOf t = [("b", none)]) &&
        (asked t).any fun q => q.defaultModel = "small") = true := by
    decide +kernel
  obtain ⟨p, hp', htest⟩ := Machine.exists_of_any hrun
  obtain ⟨p', hstep, hreplay⟩ := Option.bind_eq_some_iff.mp hp'
  obtain ⟨t, ht, htest⟩ := Machine.exists_of_any htest
  obtain ⟨hcontacts, hasked⟩ := Bool.and_eq_true_iff.mp htest
  obtain ⟨q, hq, hmodel⟩ := List.any_eq_true.mp hasked
  obtain ⟨z, hz, hlocal⟩ : ∃ z, (system plainSetup).Run p' z p ∧ _ := Program.exists_run_of_replay hreplay
  exact ⟨p, t, ht, of_decide_eq_true hcontacts, ⟨q, hq, of_decide_eq_true hmodel⟩,
    (private_stays_local (r := secret) hp rfl rfl rfl hstep hz hlocal).1 0 (.inl rfl) t ht⟩

/-- The same run, where `b` is a server in the cloud by then: it is sent the private request. -/
theorem sent_to_cloud :
    ∃ p, (program plainSetup).replay Machine.free (plainPool twoLocals)
        (.spawn (.route secret none none) :: .start 0 :: reloaded { name := "b" }) = some p ∧
      (system plainSetup).Reach Machine.free p ∧ ∃ t ∈ p.tasks, ∃ r n, t.child.request = some (r, n) ∧
        Private r ∧ ∃ q ∈ asked t, q.isLocal = false := by
  have hrun : ((program plainSetup).replay Machine.free (plainPool twoLocals)
      (.spawn (.route secret none none) :: .start 0 :: reloaded { name := "b" })).any
      (fun p => p.tasks.any fun t => t.child.request.any (fun x => (x.1.meta "private").truthy) &&
        (asked t).any fun q => !q.isLocal) = true := by decide +kernel
  obtain ⟨p, hp, htest⟩ := Machine.exists_of_any hrun
  obtain ⟨t, ht, htest⟩ := List.any_eq_true.mp htest
  obtain ⟨hsecret, hsent⟩ := Bool.and_eq_true_iff.mp htest
  obtain ⟨⟨r, n⟩, hr, hprivate⟩ := Machine.exists_of_any hsecret
  obtain ⟨q, hq, hcloud⟩ := List.any_eq_true.mp hsent
  exact ⟨p, hp, Program.replay_reach (plainPool_reach twoLocals) hp, t, ht, r, n, hr, hprivate, q, hq,
    (Bool.not_eq_true' _).mp hcloud⟩

end Router

end Caips.Coreai
