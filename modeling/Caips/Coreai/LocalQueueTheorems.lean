/-
Caips.Coreai.LocalQueueTheorems — the queue of a local server, and its slots.

Every slot is given back once (`Slots`): the counter is the number of calls in
flight, and a task that has ended, however it did, has given back as many slots as it
took. For a completion that is its `finally`. A generator has to be ended by the
router, so the answers of every task are read by an automaton (`Attends`): a task that
has a generator of the server open starts no other call on it, and has none open at
its end.

The bound is another matter. The server is asked when a request is screened, and the
counter goes up when its call begins, after the awaits of the limiter, of earlier
candidates and of retries. The requests in flight keep within the queue limit
exactly in the runs where no call begins while the server is busy
(`queue_bound_iff`), and nothing sees to that (`two_in_flight`).
-/
import Caips.Coreai.LocalQueue
import Caips.Coreai.RouterSettlement

namespace Caips.Coreai

open Caips.Logic Caips.Providers

namespace Router

open RouterState

variable {S : Setup} {name : String}

/-! ## Generators of the server -/

/-- What an answer leaves of a generator of `name`: whether it is open. -/
def openAfter (name : String) : Event Γ → Bool → Bool
  | ⟨.call (.firstChunk n _ _ _), r⟩, x => if n = name then r.isOk else x
  | ⟨.call (.nextChunk _), r⟩, x => x && r.isOk
  | ⟨.call .closeStream, _⟩, _ => false
  | _, x => x

/-- A generator of `name` is open after these answers. -/
def isOpen (name : String) (hist : List (Event Γ)) : Bool := hist.foldr (openAfter name) false

/-- A call on `name` is begun only while no generator of it is open. -/
inductive Attends (name : String) : Bool → Note Γ → Bool → Prop
  | act {x : Bool} {s s' : RouterState} : Attends name x (.act s s') x
  | child {x : Bool} {h : Γ.Handle} : Attends name x (.child h) x
  | met {x : Bool} {e : Event Γ} : (callOn name e.1 ≠ none → x = false) →
      Attends name x (.met e) (openAfter name e x)

theorem readsAnswers_attends : ReadsAnswers (Attends name) (openAfter name) where
  act h := by cases h; rfl
  child h := by cases h; rfl
  met h := by cases h; rfl

theorem openAfter_false {e : Event Γ} (h : ¬ OpensStream e.1) : openAfter name e false = false := by
  obtain ⟨q, r⟩ := e
  cases q with
  | call q => cases q <;> first | rfl | exact absurd trivial h
  | wait m hs => rfl
  | join hd => rfl

theorem callOn_silent {q : Ask Γ} (h : Silent q) : callOn name q = none := by
  cases q with
  | call q => cases q <;> first | rfl | exact h.elim
  | wait m hs => rfl
  | join hd => rfl

section Tracks

variable {s : RouterState} {x : Bool} {α : Type}

/-- From the account `x` on the awaits of the code are those of a task that keeps
track of its generator of `name`, the server stays registered, and at the end the
account and the outcome are as `Q` says. -/
abbrev Minds (S : Setup) (name : String) (c : Async α) (x : Bool) (s : RouterState)
    (Q : Bool → Except Exc α → Prop) : Prop :=
  c.Tracks (keeping S [name]) (Attends name) (fun y s' o => name ∈ s'.providers.keys ∧ Q y o) x s

theorem registered_quiet {s s' : RouterState} (h : name ∈ s.providers.keys) (hq : Quiet s s') :
    name ∈ s'.providers.keys := by
  rw [hq.providers]
  exact h

theorem registered_retains {s s' : RouterState} (h : name ∈ s.providers.keys) (hr : Retains [name] s s') :
    name ∈ s'.providers.keys := (hr.kept name List.mem_cons_self h).1

variable {c : Async α}

theorem minds_closed (hc : Scope (fun q => ¬ OpensStream q) c)
    (h : name ∈ s.providers.keys) : Minds S name c false s fun y _ => y = false := by
  have hrun := Coro.Tracks.within (E := keeping S [name]) (R := Attends name) (x := false)
    (I := fun s => name ∈ s.providers.keys)
    (fun s s' hs hq => ⟨.act, registered_quiet hs hq⟩)
    (fun s q r s' hs hq hr => ⟨?_, registered_retains hs (Program.world_step hr)⟩)
    (fun h _ => .child) hc h
  · exact hrun.mono fun y s' o ho => ⟨ho.2, ho.1⟩
  · have hmet : Attends name false (.met ⟨q, r⟩) (openAfter name ⟨q, r⟩ false) := .met fun _ => rfl
    rw [openAfter_false hq] at hmet
    exact hmet

theorem minds_silent (hc : Scope Silent c) (h : name ∈ s.providers.keys) :
    Minds S name c x s fun _ _ => True := by
  have hrun := Coro.Tracks.within_class (E := keeping S [name]) (R := Attends name) (J := fun _ => True)
    (I := fun s => name ∈ s.providers.keys)
    (fun x s s' _ hs hq => ⟨x, .act, trivial, registered_quiet hs hq⟩)
    (fun x s q r s' _ hs hq hr => ⟨_, .met fun hcall => absurd (callOn_silent hq) hcall, trivial,
      registered_retains hs (Program.world_step hr)⟩)
    (fun x h _ _ => ⟨x, .child, trivial⟩) hc trivial h (x := x)
  exact hrun.mono fun y s' o ho => ⟨ho.2, ho.1⟩

theorem minds_closed_bind {β : Type} {c : Async β} {k : β → Async α} {Q : Bool → Except Exc α → Prop}
    (hc : Scope (fun q => ¬ OpensStream q) c) (h : name ∈ s.providers.keys)
    (hk : ∀ a s', name ∈ s'.providers.keys → Minds S name (k a) false s' Q)
    (he : ∀ e, Q false (.error e)) : Minds S name (c >>= k) false s Q := by
  refine .bind (minds_closed hc h) (fun a y s' hy => ?_) fun e y s' hy => ⟨hy.1, hy.2 ▸ he e⟩
  obtain ⟨hs', rfl⟩ := hy
  exact hk a s' hs'

theorem minds_sync_bind {β : Type} {m : Routing β} {k : β → Async α} {Q : Bool → Except Exc α → Prop}
    (hm : Sync.Keeps Quiet m) (h : name ∈ s.providers.keys)
    (hk : ∀ a s', name ∈ s'.providers.keys → Minds S name (k a) x s' Q)
    (he : ∀ e, (m s).1 = .error e → Q x (.error e)) : Minds S name (Coro.sync m >>= k) x s Q := by
  have hs := registered_quiet h (hm s)
  exact .sync_bind .act (fun a _ => hk a _ hs) fun e hm => ⟨hs, he e hm⟩

/-! ### Opening a stream -/

/-- A generator that is open at the end of the code is one of `n`, and there is an
outcome to show for it. -/
def OpenAt (name n : String) (y : Bool) : Except Exc α → Prop
  | .ok _ => y = true → n = name
  | .error _ => y = false

variable {n : String} {deadline : Deadline} {r : CompletionRequest}

theorem minds_closed_openAt (hc : Scope (fun q => ¬ OpensStream q) c)
    (h : name ∈ s.providers.keys) : Minds S name c false s (OpenAt name n) := by
  refine (minds_closed hc h).mono fun y s' o hy => ⟨hy.1, ?_⟩
  obtain ⟨-, rfl⟩ := hy
  cases o with
  | ok a => exact nofun
  | error e => rfl

theorem minds_openOnce {p : Provider}
    (h : name ∈ s.providers.keys) :
    Minds S name (openOnce S n p r deadline) false s (OpenAt name n) := by
  refine minds_closed_bind scope_attemptSeconds h (fun seconds s h => ?_) fun e => rfl
  refine .ask_handle (y := fun a => if n = name then a.isOk else false)
    (fun _ _ _ => .met fun _ => rfl) (fun chunk s' hr => ?_) fun e s' hr => ?_
  · refine ⟨registered_retains h (Program.world_step hr), fun hy => ?_⟩
    by_contra hn
    rw [if_neg hn] at hy
    cases hy
  · -- the generator has ended with the exception it raised
    have hclose : Scope (fun q => ¬ OpensStream q) closeStream :=
      scope_closeStream fun q hq => not_opensStream hq.silent
    have hcode : Scope (fun q => ¬ OpensStream q)
        (if e = .stopAsyncIteration then pure none
          else if isTimeoutError e then do
            closeStream
            timedOut S n deadline seconds
          else do
            closeStream
            Coro.fail e : Async (Option String)) := by
      split
      · exact scope_pure
      · split
        · exact .bind hclose fun _ => scope_timedOut
        · exact .bind hclose fun _ => scope_fail
    have hs := registered_retains h (Program.world_step hr)
    have hrest : Minds S name _ false s' (OpenAt name n) := minds_closed_openAt hcode hs
    by_cases hn : n = name
    · rw [if_pos hn]
      exact hrest
    · rw [if_neg hn]
      exact hrest

theorem minds_runWithRetry {func : Async α}
    (hfunc : ∀ s, name ∈ s.providers.keys → Minds S name func false s (OpenAt name n)) :
    ∀ {more attempt : ℕ} {s : RouterState}, name ∈ s.providers.keys →
      Minds S name (runWithRetry S func deadline more attempt) false s (OpenAt name n)
  | 0, _, s, h => hfunc s h
  | more + 1, attempt, s, h => by
      refine .tryCatch (hfunc s h) (fun a y s' hy => hy) fun e y s' hy => ?_
      obtain ⟨hs', rfl⟩ := hy
      split
      · exact ⟨hs', rfl⟩
      · refine minds_closed_bind scope_drawWait hs' (fun wait s h => ?_) fun _ => rfl
        cases wait with
        | none => exact ⟨h, rfl⟩
        | some wait =>
          refine minds_closed_bind scope_clock h (fun now s h => ?_) fun _ => rfl
          refine minds_closed_bind (.when fun _ => scope_fail) h (fun _ s h => ?_) fun _ => rfl
          refine minds_closed_bind (scope_update fun s => ?_) h (fun _ s h => ?_) fun _ => rfl
          · exact ⟨rfl, rfl, rfl, rfl, rfl, rfl⟩
          · refine minds_closed_bind (.ask id) h (fun _ s h => ?_) fun _ => rfl
            exact minds_runWithRetry hfunc h

theorem minds_execute {func : Async α} {attempts : ℕ}
    (hfunc : ∀ s, name ∈ s.providers.keys → Minds S name func false s (OpenAt name n))
    (h : name ∈ s.providers.keys) :
    Minds S name (execute S func deadline attempts) false s (OpenAt name n) := by
  unfold execute
  split
  · refine .tryCatch (minds_runWithRetry hfunc h) (fun a y s' hy => hy) fun e y s' hy => ?_
    obtain ⟨hs', rfl⟩ := hy
    refine minds_closed_bind (.when fun _ => scope_update fun s => ?_) hs' (fun _ s h => ?_) fun _ => rfl
    · exact ⟨rfl, rfl, rfl, rfl, rfl, rfl⟩
    · exact ⟨h, rfl⟩
  · exact hfunc s h

theorem minds_openStream {b probe : ℕ}
    {attempts : ℕ} (h : name ∈ s.providers.keys) :
    Minds S name (openStream S n r deadline attempts b probe) false s (OpenAt name n) := by
  refine minds_closed_bind scope_reads h (fun p s h => ?_) fun _ => rfl
  refine minds_closed_bind scope_checkDeadline h (fun _ s h => ?_) fun _ => rfl
  refine minds_closed_bind (scope_admitCall fun q => not_opensStream) h (fun ticket s h => ?_) fun _ => rfl
  refine .then_handle (minds_execute (fun s h => minds_openOnce h) h) (fun first y s hy => hy) fun e y s hy => ?_
  obtain ⟨h, rfl⟩ := hy
  refine minds_closed_bind scope_settleFailure h (fun _ s h => ?_) fun _ => rfl
  refine minds_closed_bind (scope_update fun s => quiet_limiterRelease s _) h (fun _ s h => ?_) fun _ => rfl
  exact ⟨h, rfl⟩

/-! ### Delivering a stream -/

/-- A delivery ends without an exception. -/
theorem minds_deliverRest :
    ∀ {chunks chars : ℕ} {x : Bool} {s : RouterState}, name ∈ s.providers.keys →
      Minds S name (deliverRest S n chunks chars) x s fun _ o => ∃ a, o = .ok a
  | 0, chars, x, s, h => ⟨h, _, rfl⟩
  | chunks + 1, chars, x, s, h => by
      refine .ask_handle (fun _ _ _ => .met fun hcall => absurd rfl hcall) (fun chunk s hr => ?_) fun e s hr => ?_
      · have h := registered_retains h (Program.world_step hr)
        refine .ask_handle (fun _ _ _ => .met fun hcall => absurd rfl hcall) (fun _ s hr => ?_) fun e s hr => ?_
        · exact minds_deliverRest (registered_retains h (Program.world_step hr))
        · exact ⟨registered_retains h (Program.world_step hr), _, rfl⟩
      · have h := registered_retains h (Program.world_step hr)
        split
        · exact ⟨h, _, rfl⟩
        · split <;> exact ⟨h, _, rfl⟩

theorem minds_deliver {first : Option String} {chunks : ℕ} (h : name ∈ s.providers.keys) :
    Minds S name (deliver S n first chunks) x s fun _ o => ∃ a, o = .ok a := by
  cases first with
  | none => exact ⟨h, _, rfl⟩
  | some chunk =>
    refine .ask_handle (fun _ _ _ => .met fun hcall => absurd rfl hcall) (fun _ s hr => ?_) fun e s hr => ?_
    · exact minds_deliverRest (registered_retains h (Program.world_step hr))
    · exact ⟨registered_retains h (Program.world_step hr), _, rfl⟩

theorem minds_settleStream {u chars : ℕ} {delivered completed : Bool}
    (h : name ∈ s.providers.keys) :
    Minds S name (settleStream n r u chars delivered completed) x s fun _ o => o = .ok () := by
  unfold settleStream
  split
  · exact .sync .act ⟨registered_quiet h (quiet_settleStreamRaw _ _ _ _ s), rfl⟩
  · exact ⟨h, rfl⟩

theorem minds_close {i : ℕ} {ticket : Option ℕ} (h : name ∈ s.providers.keys) :
    Minds S name (do
      update fun s => s.limiterRelease n ticket
      update fun s => s.turnTo i []
      closeStream) x s fun y _ => y = false := by
  refine minds_sync_bind (.update fun s => quiet_limiterRelease s _) h (fun _ s h => ?_) fun e he => nomatch he
  refine minds_sync_bind (.update fun s => ⟨rfl, rfl, rfl, rfl, rfl, rfl⟩) h (fun _ s h => ?_) fun e he => nomatch he
  refine .ask_handle (fun _ _ _ => .met fun hcall => absurd rfl hcall) (fun _ s hr => ?_) fun e s hr => ?_
  · exact ⟨registered_retains h (Program.world_step hr), rfl⟩
  · have h := registered_retains h (Program.world_step hr)
    split <;> exact ⟨h, rfl⟩

/-- An open stream has closed its generator at its end. -/
theorem minds_runStream {i u b probe chunks : ℕ} {ticket : Option ℕ}
    {first : Option String} (hx : x = true → n = name) (h : name ∈ s.providers.keys) :
    Minds S name (runStream S i n r u b probe ticket first chunks) x s fun y _ => y = false := by
  refine minds_sync_bind (.reads _) h (fun model s h => ?_) fun e he => ?_
  · refine minds_sync_bind (.update fun s => ⟨rfl, rfl, rfl, rfl, rfl, rfl⟩) h (fun _ s h => ?_) fun e he => nomatch he
    refine .bind (minds_deliver h) (fun a y s hy => ?_) fun e y s hy => ?_
    · obtain ⟨h, -⟩ := hy
      obtain ⟨chars, outcome⟩ := a
      refine .tryFinally (minds_silent scope_concludeStream h) fun o y s hy => ?_
      refine .bind (minds_settleStream hy.1) (fun _ y s hy => ?_) fun e y s hy => ?_
      · refine (minds_close hy.1).mono fun y s o' hy => ?_
        cases o' <;> exact hy
      · cases hy.2
    · obtain ⟨-, _, ha⟩ := hy
      cases ha
  · -- the server stays registered, so its own stream finds it
    cases x with
    | false => rfl
    | true =>
      obtain rfl := hx rfl
      obtain ⟨p, hp⟩ := Dict.mem_keys.mp h
      rw [Sync.reads_run, lookup_of_get? hp] at he
      dsimp only at he
      split at he <;> cases he

/-- The candidate loop of a stream. -/
theorem minds_streamLoop {i chunks : ℕ} {single : Bool} :
    ∀ {rest : List (String × CompletionRequest)} {g : Progress} {s : RouterState}, name ∈ s.providers.keys →
      Minds S name (streamLoop S i deadline single chunks rest g) false s fun y _ => y = false
  | [], g, s, h => minds_closed scope_exhausted h
  | (n, req) :: rest, g, s, h => by
      refine minds_closed_bind (scope_update fun s => ⟨rfl, rfl, rfl, rfl, rfl, rfl⟩) h (fun _ s h => ?_) fun _ => rfl
      refine minds_closed_bind scope_allowCandidate h (fun a s h => ?_) fun _ => rfl
      obtain ⟨b, a⟩ := a
      cases a with
      | error e => exact minds_streamLoop h
      | ok probe =>
        refine minds_closed_bind (scope_yields fun s => ⟨rfl, rfl, rfl, rfl, rfl, rfl⟩) h (fun u s h => ?_)
          fun _ => rfl
        refine .then_handle (minds_openStream h) (fun a y s hy => minds_runStream hy.2 hy.1) fun e y s hy => ?_
        obtain ⟨h, rfl⟩ := hy
        refine minds_closed_bind (.when fun _ => scope_fail) h (fun _ s h => ?_) fun _ => rfl
        refine minds_closed_bind scope_countFailover h (fun _ s h => ?_) fun _ => rfl
        exact minds_streamLoop h

/-- Every task has no generator of the server open at its end. -/
theorem minds_body (i : ℕ) (c : Call) (h : name ∈ s.providers.keys) :
    Minds S name (body S i c) false s fun y _ => y = false := by
  cases c with
  | route r n d =>
    show Minds S name (route S i r n d) false s _
    rw [route_eq]
    refine minds_sync_bind (quiet_prepare S r n d) h (fun plan s h => ?_) fun _ _ => rfl
    exact minds_closed (scope_asksRoute.mono (fun _ => And.right) fun _ _ => id) h
  | stream r n d k =>
    show Minds S name (stream S i r n d k) false s _
    rw [stream_eq]
    exact minds_sync_bind (quiet_prepare S r n d) h (fun plan s h => minds_streamLoop h) fun _ _ => rfl
  | embed x m n =>
    exact minds_closed (.bind scope_reads fun names => scope_embedLoop fun _ _ _ => id) h
  | leg n r d a t =>
    exact minds_closed (scope_callProvider (fun q => not_opensStream) fun _ _ => id) h

end Tracks

/-! ## Tasks and their generators -/

/-- The calls of a router that has the provider `name` from the start. -/
abbrev hosting (S : Setup) (name : String) : Machine (Pool Γ) (Move Γ Op) :=
  (program S).machine fun s => Fresh S s ∧ name ∈ s.providers.keys

variable {p : Pool Γ}

theorem hosting_registered (hp : (hosting S name).Reach (Spares [name]) p) :
    name ∈ p.state.providers.keys := by
  have htame := tame_retains (S := S) [name]
  induction hp with
  | start h => exact h.1.2
  | step hp hstep hG ih => exact registered_retains ih (htame.step (htame.scoped_reach hp) hstep.1 hG)

theorem hosting_at (hp : (hosting S name).Reach (Spares [name]) p) {i : ℕ} {t : Task Γ}
    (ht : p.tasks[i]? = some t) : t.status = .ready ∨
      (program S).At (Retains [name]) (Attends name) p i t.child
        (fun y s _ => name ∈ s.providers.keys ∧ y = false) (isOpen name t.hist) :=
  (tame_retains [name]).at_reach readsAnswers_attends (Q := fun _ y s _ => name ∈ s.providers.keys ∧ y = false)
    (fun _ hp => hosting_registered hp) (fun i c _ h => minds_body i c h) hp ht

/-- A task that waits for the answer to a call on the server has no generator of it
open. -/
theorem not_isOpen_of_call (hp : (hosting S name).Reach (Spares [name]) p) {i : ℕ} {t : Task Γ}
    (ht : p.tasks[i]? = some t) {q : Ask Γ} {k : Except Exc q.Reply → Async t.child.Out}
    (hst : t.status = .suspended q k) (hq : callOn name q ≠ none) : isOpen name t.hist = false := by
  rcases hosting_at hp ht with hready | hat
  · cases hready.symm.trans hst
  · obtain ⟨d, s, hd, htracks, -⟩ := hat.left ht
    rw [hst] at hd
    obtain rfl := Option.some.inj hd
    have hworld : ∃ r s', keeping S [name] s q r s' := by
      cases q with
      | call q =>
        cases q with
        | complete n p r w => exact ⟨.error .cancelled, s, retains_refl _ s, nofun⟩
        | firstChunk n p r w => exact ⟨.error .cancelled, s, retains_refl _ s, nofun⟩
        | _ => exact absurd rfl hq
      | wait m hs => exact absurd rfl hq
      | join hd => exact absurd rfl hq
    obtain ⟨r, s', hr⟩ := hworld
    obtain ⟨y, hy, -⟩ := htracks r s' hr
    cases hy with
    | met hclosed => exact hclosed hq

/-- A task that has ended has no generator of the server open. -/
theorem not_isOpen_of_done (hp : (hosting S name).Reach (Spares [name]) p) {i : ℕ} {t : Task Γ}
    (ht : p.tasks[i]? = some t) (hdone : t.isDone = true) : isOpen name t.hist = false := by
  rcases hosting_at hp ht with hready | hat
  · unfold Task.isDone at hdone
    rw [hready] at hdone
    cases hdone
  · obtain ⟨c, st, l⟩ := t
    cases st with
    | ready => cases hdone
    | suspended q k => cases hdone
    | done o =>
      obtain ⟨s, -, hclosed⟩ := hat.ended ht
      exact hclosed

/-! ## Calls in flight -/

/-- The task has a call on `name` in flight: it waits for its answer, or has its
generator open. -/
def InCall (name : String) (t : Task Γ) : Prop :=
  (∃ q k, t.status = .suspended q k ∧ callOn name q ≠ none) ∨ isOpen name t.hist = true

/-- After an answer that does not end the call, its generator is open. -/
theorem openAfter_of_running {e : Event Γ} {x : Bool} (hends : endsCall e = false)
    (h : callOn name e.1 ≠ none ∨ x = true) : openAfter name e x = true := by
  obtain ⟨q, r⟩ := e
  cases q with
  | call q =>
    cases q with
    | complete n p v w => cases hends
    | closeStream => cases hends
    | firstChunk n p v w =>
      have hok : r.isOk = true := by simpa [endsCall] using hends
      show (if n = name then r.isOk else x) = true
      split
      · exact hok
      · rename_i hn
        exact h.resolve_left fun hcall => hcall (if_neg hn)
    | nextChunk w =>
      have hok : r.isOk = true := by simpa [endsCall] using hends
      show (x && r.isOk) = true
      rw [hok, h.resolve_left fun hcall => hcall rfl]
      rfl
    | _ => exact h.resolve_left fun hcall => hcall rfl
  | wait m hs => exact h.resolve_left fun hcall => hcall rfl
  | join hd => exact h.resolve_left fun hcall => hcall rfl

namespace Site

/-! ### What a step does -/

/-- An answer reaches the call of its task, or there is none that it ends. -/
theorem handed_cases (x : Site) (m : Move Γ Op) : x.handed m = x ∨
    ∃ i e, x.answer m = some (i, e) ∧ i ∈ x.inside ∧ endsCall e = true ∧ x.handed m = x.leave i := by
  unfold handed
  cases hans : x.answer m with
  | none => exact .inl rfl
  | some v =>
    obtain ⟨i, e⟩ := v
    dsimp only
    split
    · rename_i h
      exact .inr ⟨i, e, rfl, h.1, h.2, rfl⟩
    · exact .inl rfl

/-- A burst comes to a call that begins, or to none. -/
theorem came_cases (x : Site) (m : Move Γ Op) : came x m = x ∨
    ∃ i r, x.beginning m = some (i, r) ∧ came x m =
      { x with
        server := { x.server with inflight := x.server.inflight + 1 }
        inside := i :: x.inside
        taken := Function.update x.taken i (x.taken i + 1) } := by
  unfold came
  cases hbegin : x.beginning m with
  | none => exact .inl rfl
  | some v =>
    obtain ⟨i, r⟩ := v
    dsimp only [enter]
    cases hserver : x.server.enter r with
    | error e => exact .inl rfl
    | ok server =>
      obtain rfl := LocalProvider.enter_ok hserver
      exact .inr ⟨i, r, rfl, rfl⟩

theorem awaited_eq {p : Pool Γ} {i : ℕ} {q : Ask Γ} :
    awaited p i = some q ↔ ∃ t k, p.tasks[i]? = some t ∧ t.status = .suspended q k := by
  unfold awaited
  simp only [Option.bind_eq_bind, Option.bind_eq_some_iff]
  constructor
  · rintro ⟨t, ht, hq⟩
    cases hst : t.status with
    | ready =>
      rw [hst] at hq
      cases hq
    | done o =>
      rw [hst] at hq
      cases hq
    | suspended q' k =>
      rw [hst] at hq
      obtain rfl := Option.some.inj hq
      exact ⟨t, k, ht, hst⟩
  · rintro ⟨t, k, ht, hst⟩
    exact ⟨t, ht, by rw [hst]⟩

theorem beginning_some {x : Site} {m : Move Γ Op} {i : ℕ} {r : CompletionRequest}
    (h : x.beginning m = some (i, r)) : runsTask m = some i ∧
      ∃ q, awaited x.pool i = some q ∧ callOn x.server.name q = some r := by
  unfold beginning at h
  simp only [Option.bind_eq_bind, Option.bind_eq_some_iff, Option.pure_def] at h
  obtain ⟨j, hj, q, hq, r', hr, heq⟩ := h
  obtain ⟨rfl, rfl⟩ := Prod.mk.inj (Option.some.inj heq)
  exact ⟨hj, q, hq, hr⟩

theorem handed_name (x : Site) (m : Move Γ Op) :
    (x.handed m).server.name = x.server.name ∧ (x.handed m).server.maxQueue = x.server.maxQueue := by
  rcases handed_cases x m with h | ⟨i, e, -, -, -, h⟩ <;> rw [h] <;> exact ⟨rfl, rfl⟩

theorem came_name (x : Site) (m : Move Γ Op) :
    (came x m).server.name = x.server.name ∧ (came x m).server.maxQueue = x.server.maxQueue := by
  rcases came_cases x m with h | ⟨i, r, -, h⟩ <;> rw [h] <;> exact ⟨rfl, rfl⟩

theorem came_pool (x : Site) (m : Move Γ Op) : (came x m).pool = x.pool := by
  rcases came_cases x m with h | ⟨i, r, -, h⟩ <;> rw [h]

/-! ### The invariant -/

/-- The slots of a site: the counter is the number of calls in flight, each of another
task; a task has given back all slots it took but that of its call in flight. -/
structure Tallied (x : Site) : Prop where
  counter : x.server.inflight = x.inside.length
  apart : x.inside.Nodup
  ledger : ∀ i, x.taken i = x.given i + x.inside.count i

theorem Tallied.handed {x : Site} (h : x.Tallied) (m : Move Γ Op) : (x.handed m).Tallied := by
  rcases handed_cases x m with heq | ⟨i, e, -, hi, -, heq⟩
  · rw [heq]
    exact h
  · rw [heq]
    have hlen := List.length_erase_of_mem hi
    have hpos := List.length_pos_of_mem hi
    refine ⟨?_, h.apart.erase i, fun j => ?_⟩
    · show x.server.inflight - 1 = ((x.inside.erase i).length : ℤ)
      have hcounter := h.counter
      omega
    · show x.taken j = Function.update x.given i (x.given i + 1) j + (x.inside.erase i).count j
      have hledger := h.ledger j
      rcases eq_or_ne j i with rfl | hne
      · have hcount := List.count_pos_iff.mpr hi
        rw [Function.update_self, List.count_erase_self]
        omega
      · rw [Function.update_of_ne hne, List.count_erase_of_ne hne]
        exact hledger

theorem Tallied.came {x : Site} (h : x.Tallied) {m : Move Γ Op}
    (hnew : ∀ i r, x.beginning m = some (i, r) → i ∉ x.inside) : (came x m).Tallied := by
  rcases came_cases x m with heq | ⟨i, r, hbegin, heq⟩
  · rw [heq]
    exact h
  · rw [heq]
    have hi := hnew i r hbegin
    refine ⟨?_, List.nodup_cons.mpr ⟨hi, h.apart⟩, fun j => ?_⟩
    · show x.server.inflight + 1 = ((i :: x.inside).length : ℤ)
      have hcounter := h.counter
      rw [List.length_cons]
      omega
    · show Function.update x.taken i (x.taken i + 1) j = x.given j + (i :: x.inside).count j
      have hledger := h.ledger j
      rcases eq_or_ne j i with rfl | hne
      · rw [Function.update_self, List.count_cons_self]
        omega
      · rw [Function.update_of_ne hne, List.count_cons_of_ne hne.symm]
        exact hledger

/-- What holds of a site at every moment: its router is one that has had the server
from the start and sees it as it is, the slots are tallied, and a task in flight has
its call to show for it. -/
structure Inv (S : Setup) (name : String) (limit : ℕ) (x : Site) : Prop where
  named : x.server.name = name
  limited : x.server.maxQueue = limit
  reach : (hosting S name).Reach (Spares [name]) x.pool
  registered : x.pool.state.providers.get? name = some x.server.provider
  tallied : x.Tallied
  calling : ∀ i ∈ x.inside, ∃ t, x.pool.tasks[i]? = some t ∧ InCall name t

variable {limit : ℕ} {x y : Site} {m : Move Γ Op} {p : Pool Γ}

theorem spares_of_not_reregisters (hm : ¬ Reregisters name m) : Spares [name] p m := by
  cases m with
  | op o =>
    cases o with
    | dropProvider n => exact fun hmem => hm (List.mem_singleton.mp hmem)
    | _ => trivial
  | _ => trivial

/-- A move that leaves the provider alone leaves its attributes. -/
theorem tame_untouched (name : String) : (program S).Tame (fun _ _ => True)
    (fun s s' => s'.providers.get? name = s.providers.get? name) fun _ m => ¬ Reregisters name m where
  refl _ := rfl
  trans _ _ _ h h' := h'.trans h
  body i c := (scope_body i c).mono (fun _ => id) fun s s' h => by rw [h.providers]
  reboot _ := rfl
  enter c s s' h := by
    cases c with
    | leg n r d a t => cases h
    | _ => rw [← Option.some.inj h]
  op p o s' hG h := by
    cases o with
    | setProvider n q =>
      have hne : n ≠ name := hG
      rw [← Option.some.inj h]
      unfold RouterState.setProvider
      dsimp only
      split <;> exact Dict.get?_set_ne _ _ hne
    | dropProvider n =>
      have hne : n ≠ name := hG
      rw [← Option.some.inj h]
      exact Dict.get?_pop_ne _ hne
    | tick d =>
      simp only [applyOp, Option.ite_none_right_eq_some] at h
      rw [← Option.some.inj h.2]
    | provider n q =>
      have hne : n ≠ name := hG
      simp only [applyOp] at h
      split at h
      · rw [Option.ite_none_right_eq_some] at h
        rw [← Option.some.inj h.2]
        exact Dict.get?_set_ne _ _ hne
      · cases h
    | report u i o m => rw [← Option.some.inj h]; rfl
    | policies q => rw [← Option.some.inj h]
    | modelGate g => rw [← Option.some.inj h]

/-- A call that is still in flight once its answer has come has its generator open. -/
theorem calling_step (hx : x.Inv S name limit) (hstep : (program S).step x.pool m = some p) {j : ℕ}
    (hj : j ∈ (x.handed m).inside) :
    ∃ t, p.tasks[j]? = some t ∧ InCall name t ∧ (runsTask m = some j → isOpen name t.hist = true) := by
  have hsub : j ∈ x.inside := by
    rcases handed_cases x m with heq | ⟨i, e, -, -, -, heq⟩
    · rwa [heq] at hj
    · rw [heq] at hj
      exact List.mem_of_mem_erase hj
  obtain ⟨t, ht, hcall⟩ := hx.calling j hsub
  obtain ⟨t', ht', -⟩ := Program.child_step (fun _ => rfl) hstep ht
  refine ⟨t', ht', ?_⟩
  rcases Program.task_step (fun _ => rfl) hstep ht ht' with ⟨hm, rfl⟩ | hready | ⟨q, k, a, hq, rfl, hhist⟩
  · refine ⟨hcall, fun hruns => absurd ?_ hm⟩
    cases m with
    | start i => exact Option.some.inj hruns
    | resume i a => exact Option.some.inj hruns
    | _ => cases hruns
  · have hhist := Program.hist_of_ready (fun _ => rfl) hx.reach _ (List.mem_of_getElem? ht) hready
    rcases hcall with ⟨q, k, hq, -⟩ | hopen
    · cases hready.symm.trans hq
    · rw [hhist] at hopen
      cases hopen
  · have hends : endsCall ⟨q, a q⟩ = false := by
      cases hends : endsCall (⟨q, a q⟩ : Event Γ) with
      | false => rfl
      | true =>
        -- the call has left `inside`
        have hhanded : x.handed (.resume j a) = x.leave j := by
          have hans : x.answer (.resume j a) = some (j, ⟨q, a q⟩) := by
            simp only [answer, awaited_eq.mpr ⟨t, k, ht, hq⟩, Option.map_some]
          unfold handed
          rw [hans]
          exact if_pos ⟨hsub, hends⟩
        rw [hhanded] at hj
        exact absurd hj hx.tallied.apart.not_mem_erase
    have hopen : isOpen name t'.hist = true := by
      rw [hhist]
      refine openAfter_of_running hends ?_
      rcases hcall with ⟨q', k', hq', hcall⟩ | hopen
      · injection hq.symm.trans hq' with hqq
        exact .inl (hqq ▸ hcall)
      · exact .inr hopen
    exact ⟨.inr hopen, fun _ => hopen⟩

theorem reach_renew (hp : (hosting S name).Reach (Spares [name]) p) {old : Provider} (new : Provider)
    (hold : p.state.providers.get? name = some old) (hlocal : new.isLocal = old.isLocal) :
    (hosting S name).Reach (Spares [name])
      { p with state := { p.state with providers := p.state.providers.set name new } } := by
  refine .step (i := .op (.provider name new)) hp ⟨?_, trivial⟩ trivial
  simp only [Program.step, applyOp, hold, if_pos hlocal, Option.map_some]

/-- A step of the router keeps the invariant, if the server's attributes are renewed. -/
theorem Inv.router (hx : x.Inv S name limit) (hm : ¬ Reregisters name m)
    (hstep : (program S).step x.pool m = some p) (hadm : (program S).Admissible x.pool m) :
    (came { x.handed m with pool := p } m).renew.Inv S name limit := by
  have hp : (hosting S name).Reach (Spares [name]) p :=
    .step hx.reach ⟨hstep, hadm⟩ (spares_of_not_reregisters hm)
  have htame := tame_untouched (S := S) name
  have hget : p.state.providers.get? name = some x.server.provider :=
    (htame.step (htame.scoped_reach hx.reach) hstep hm).trans hx.registered
  obtain ⟨hname, hlimit⟩ := handed_name x m
  have hcalling : ∀ j ∈ (x.handed m).inside, ∃ t, p.tasks[j]? = some t ∧ InCall name t ∧
      (runsTask m = some j → isOpen name t.hist = true) := fun j hj => calling_step hx hstep hj
  generalize hz : ({ x.handed m with pool := p } : Site) = z
  have hzpool : z.pool = p := by rw [← hz]
  have hzinside : z.inside = (x.handed m).inside := by rw [← hz]
  have hztallied : z.Tallied := by
    obtain ⟨hcounter, hapart, hledger⟩ := hx.tallied.handed m
    rw [← hz]
    exact ⟨hcounter, hapart, hledger⟩
  have hzname : z.server.name = name := by rw [← hz]; exact hname.trans hx.named
  have hzlimit : z.server.maxQueue = limit := by rw [← hz]; exact hlimit.trans hx.limited
  rw [← hzinside] at hcalling
  -- a call begins only in a task that has none in flight
  have hnew : ∀ i r, z.beginning m = some (i, r) → i ∉ z.inside := by
    intro i r hbegin hi
    obtain ⟨hruns, q, hq, hcall⟩ := beginning_some hbegin
    rw [hzpool] at hq
    obtain ⟨t, k, ht, hst⟩ := awaited_eq.mp hq
    obtain ⟨t', ht', -, hopen⟩ := hcalling i hi
    obtain rfl := Option.some.inj (ht.symm.trans ht')
    have hclosed : isOpen name t.hist = false := by
      refine not_isOpen_of_call hp ht hst ?_
      rw [← hzname, hcall]
      exact Option.some_ne_none r
    cases hclosed.symm.trans (hopen hruns)
  have htallied := hztallied.came hnew
  obtain ⟨hcame, hcamelimit⟩ := came_name z m
  refine ⟨hcame.trans hzname, hcamelimit.trans hzlimit, ?_, ?_, ⟨htallied.1, htallied.2, htallied.3⟩, ?_⟩
  · have hrenewed := reach_renew hp (came z m).server.provider hget rfl
    unfold renew
    rw [came_pool, hcame, hzpool, hzname]
    exact hrenewed
  · show ((came z m).pool.state.providers.set _ _).get? name = _
    rw [hcame, hzname]
    exact Dict.get?_set_self _ _ _
  · show ∀ i ∈ (came z m).inside, ∃ t, (came z m).pool.tasks[i]? = some t ∧ InCall name t
    rw [came_pool, hzpool]
    have hold : ∀ i ∈ z.inside, ∃ t, p.tasks[i]? = some t ∧ InCall name t := by
      intro i hi
      obtain ⟨t, ht, hcall, -⟩ := hcalling i hi
      exact ⟨t, ht, hcall⟩
    rcases came_cases z m with heq | ⟨i, r, hbegin, heq⟩
    · rw [heq]
      exact hold
    · rw [heq]
      refine List.forall_mem_cons.mpr ⟨?_, hold⟩
      obtain ⟨-, q, hq, hcall⟩ := beginning_some hbegin
      rw [hzpool] at hq
      obtain ⟨t, k, ht, hst⟩ := awaited_eq.mp hq
      refine ⟨t, ht, .inl ⟨q, k, hst, ?_⟩⟩
      rw [← hzname, hcall]
      exact Option.some_ne_none r

/-- A health check or a listing keeps the invariant. -/
theorem Inv.server (hx : x.Inv S name limit) {server : LocalProvider} (h : LocalProvider.Same x.server server) :
    (renew { x with server }).Inv S name limit := by
  obtain ⟨hname, hlimit, hinflight⟩ := h
  have hname' := hname.trans hx.named
  refine ⟨hname', hlimit.trans hx.limited, ?_, ?_, ⟨hinflight.trans hx.tallied.1, hx.tallied.2, hx.tallied.3⟩,
    hx.calling⟩
  · have hrenewed := reach_renew hx.reach server.provider hx.registered rfl
    unfold renew
    dsimp only
    rw [hname']
    exact hrenewed
  · show (x.pool.state.providers.set server.name server.provider).get? name = _
    rw [hname']
    exact Dict.get?_set_self _ _ _

/-- Every step keeps the invariant. -/
theorem Inv.step (hx : x.Inv S name limit) {m : SiteMove} (h : (site S).step x m y) : y.Inv S name limit := by
  obtain ⟨hstep, hadm⟩ := h
  cases m with
  | router m =>
    simp only [Site.step, Option.ite_none_left_eq_some, Option.map_eq_some_iff] at hstep
    obtain ⟨hm, p, hp, rfl⟩ := hstep
    rw [hx.named] at hm
    exact hx.router hm hp hadm
  | probe found =>
    obtain rfl := Option.some.inj hstep
    exact hx.server (LocalProvider.same_probe _ _)
  | refreshModels found =>
    obtain rfl := Option.some.inj hstep
    exact hx.server (LocalProvider.same_refreshModels _ _)

/-- A site that has just been opened. -/
theorem Inv.opened (h : x.Opened S) : x.Inv S x.server.name x.server.maxQueue where
  named := rfl
  limited := rfl
  reach := .start ⟨⟨h.fresh.1, Dict.mem_keys.mpr ⟨_, h.registered⟩⟩, h.fresh.2⟩
  registered := h.registered
  tallied := by
    refine ⟨?_, ?_, fun i => ?_⟩
    · rw [h.inflight, h.inside]
      rfl
    · rw [h.inside]
      exact List.nodup_nil
    · rw [h.taken, h.given, h.inside]
      rfl
  calling i hi := by
    rw [h.inside] at hi
    exact absurd hi List.not_mem_nil

/-! ### Slots and the bound -/

/-- Every slot is given back once: the slots are tallied, and a task that has ended
has given back all it took. -/
structure Slots (x : Site) : Prop extends Tallied x where
  settled : ∀ i t, x.pool.tasks[i]? = some t → t.isDone = true → x.taken i = x.given i

theorem Inv.slots (hx : x.Inv S name limit) : x.Slots := by
  refine ⟨hx.tallied, fun i t ht hdone => ?_⟩
  have hout : i ∉ x.inside := by
    intro hi
    obtain ⟨t', ht', hcall⟩ := hx.calling i hi
    obtain rfl := Option.some.inj (ht.symm.trans ht')
    rcases hcall with ⟨q, k, hq, -⟩ | hopen
    · unfold Task.isDone at hdone
      rw [hq] at hdone
      cases hdone
    · cases (not_isOpen_of_done hx.reach ht hdone).symm.trans hopen
  have hledger := hx.tallied.ledger i
  rw [List.count_eq_zero_of_not_mem hout] at hledger
  exact hledger

/-- The requests in flight on the server keep within its queue limit. -/
def Bounded (x : Site) : Prop := x.inside.length ≤ x.server.maxQueue

/-- The server at a move, once the answer of the move has been handed over. -/
def serverAt (x : Site) : SiteMove → LocalProvider
  | .router m => (x.handed m).server
  | _ => x.server

/-- Where a call on the server begins, the queue check would let it pass. -/
def Fits (S : Setup) (x : Site) (m : SiteMove) : Prop :=
  ∀ y, x.step S m = some y → y.taken ≠ x.taken → (x.serverAt m).busy = false

/-- What a step does to the calls in flight: one begins, or none does. -/
theorem step_cases (hx : x.Inv S name limit) {m : SiteMove} (h : x.step S m = some y) :
    (y.taken = x.taken ∧ y.inside.length ≤ x.inside.length) ∨
      (y.taken ≠ x.taken ∧ (x.serverAt m).maxQueue = limit ∧
        ((y.inside.length : ℕ) : ℤ) = (x.serverAt m).inflight + 1) := by
  cases m with
  | router m =>
    simp only [Site.step, Option.ite_none_left_eq_some, Option.map_eq_some_iff] at h
    obtain ⟨-, p, -, rfl⟩ := h
    have hcounter := (hx.tallied.handed m).counter
    have htaken : (x.handed m).taken = x.taken := by
      rcases handed_cases x m with heq | ⟨i, e, -, -, -, heq⟩ <;> rw [heq]
      rfl
    have hless : (x.handed m).inside.length ≤ x.inside.length := by
      rcases handed_cases x m with heq | ⟨i, e, -, -, -, heq⟩
      · rw [heq]
      · rw [heq]
        exact List.length_erase_le
    rcases came_cases { x.handed m with pool := p } m with heq | ⟨i, r, -, heq⟩
    · left
      rw [heq]
      exact ⟨htaken, hless⟩
    · right
      rw [heq]
      refine ⟨fun hsame => ?_, (handed_name x m).2.trans hx.limited, ?_⟩
      · have hi : Function.update (x.handed m).taken i ((x.handed m).taken i + 1) i = x.taken i :=
          congrFun hsame i
        rw [Function.update_self, htaken] at hi
        exact absurd hi (Nat.succ_ne_self _)
      · show ((((x.handed m).inside.length + 1 : ℕ)) : ℤ) = (x.handed m).server.inflight + 1
        rw [hcounter]
        rfl
  | probe found =>
    obtain rfl := Option.some.inj h
    exact .inl ⟨rfl, Nat.le_refl _⟩
  | refreshModels found =>
    obtain rfl := Option.some.inj h
    exact .inl ⟨rfl, Nat.le_refl _⟩

/-- **One step.** It keeps the bound exactly if a call that begins fits. -/
theorem bounded_step_iff (hx : x.Inv S name limit) (hlimit : limit ≠ 0) (hbound : x.Bounded) {m : SiteMove}
    (h : (site S).step x m y) : y.Bounded ↔ Fits S x m := by
  have hy := hx.step h
  unfold Bounded at hbound ⊢
  rw [hx.limited] at hbound
  rw [hy.limited]
  constructor
  · intro hle y' hy' hbegins
    obtain rfl := Option.some.inj (h.1.symm.trans hy')
    rcases step_cases hx h.1 with ⟨hsame, -⟩ | ⟨-, hmax, hlen⟩
    · exact absurd hsame hbegins
    · rw [← Bool.not_eq_true, LocalProvider.busy_iff, hmax]
      omega
  · intro hfits
    rcases step_cases hx h.1 with ⟨-, hless⟩ | ⟨hbegins, hmax, hlen⟩
    · exact hless.trans hbound
    · have hfree := hfits y h.1 hbegins
      rw [← Bool.not_eq_true, LocalProvider.busy_iff, hmax] at hfree
      omega

end Site

/-- **The queue of a local server.** Let a router be opened with a server that has a
queue limit, and let any requests run. In every state each slot is given back once,
however the requests end; and the requests in flight keep within the limit exactly if
no call on the server begins while the server is busy. -/
theorem queue_bound_iff {x x' : Site} {z : List (Machine.Step Site SiteMove)} (hstart : (site S).start x)
    (hlimit : x.server.maxQueue ≠ 0) (hrun : (site S).Run x z x') :
    (∀ y, y = x ∨ (∃ e ∈ z, y = e.target) → y.Bounded ∧ y.Slots) ↔
      ∀ e ∈ z, Site.Fits S e.source e.label := by
  have hopened : x.Bounded := by
    unfold Site.Bounded
    rw [hstart.inside]
    exact Nat.zero_le _
  -- the same steps, from this site only
  have hsame : ∀ y m y', (site S).step y m y' → (Machine.mk (· = x) (site S).step).step y m y' := fun _ _ _ h => h
  have hsteps : (∀ e ∈ z, e.target.Bounded) ↔ ∀ e ∈ z, Site.Fits S e.source e.label := by
    refine (hrun.mono hsame).steps_iff_of_invariant (I := fun y => y.Inv S x.server.name x.server.maxQueue ∧ y.Bounded)
      (P := fun _ _ y => y.Bounded) (C := Site.Fits S) ?_ ?_ rfl
    · rintro y rfl
      exact ⟨.opened hstart, hopened⟩
    · intro y m y' hy hstep
      exact ⟨Site.bounded_step_iff hy.1 hlimit hy.2 hstep, fun hbound => ⟨hy.1.step hstep, hbound⟩⟩
  have hinv : ∀ {y : Site} {l : List (Machine.Step Site SiteMove)}, (site S).Run x l y →
      y.Inv S x.server.name x.server.maxQueue := by
    intro y l hl
    induction hl with
    | nil => exact .opened hstart
    | snoc _ hstep ih => exact ih.step hstep
  rw [← hsteps]
  constructor
  · intro hall e he
    exact (hall e.target (.inr ⟨e, he, rfl⟩)).1
  · intro hall y hy
    rcases hy with rfl | ⟨e, he, rfl⟩
    · exact ⟨hopened, (hinv (.nil y)).slots⟩
    · obtain ⟨hstep, ⟨l, hbefore, -⟩, -⟩ := hrun.split he
      exact ⟨hall e he, ((hinv hbefore).step hstep).slots⟩

/-! ### A route and a stream -/

/-- The reply a move gives needs no finished child. -/
def Site.Plain (S : Setup) (x : Site) : SiteMove → Prop
  | .router m => (program S).Plain x.pool m
  | _ => True

instance (S : Setup) (x : Site) : (m : SiteMove) → Decidable (x.Plain S m)
  | .router m => inferInstanceAs (Decidable ((program S).Plain x.pool m))
  | .probe _ | .refreshModels _ => inferInstanceAs (Decidable True)

/-- Take these moves, as far as the answers allow. -/
def Site.replay (S : Setup) (x : Site) (ms : List SiteMove) : Option Site :=
  Machine.exec (fun x m => if x.Plain S m then x.step S m else none) x ms

/-- A replay is a run. -/
theorem Site.run_of_replay {x y : Site} {ms : List SiteMove} (h : x.replay S ms = some y) :
    ∃ z, (site S).Run x z y := by
  obtain ⟨z, hz⟩ := Machine.exec_run (P := (site S).start) h
  refine ⟨z, hz.mono fun x m y hstep => ?_⟩
  rw [Machine.ofFun_step, Option.ite_none_right_eq_some] at hstep
  refine ⟨hstep.2, ?_⟩
  cases m with
  | router m =>
    cases m with
    | resume i a =>
      have hplain : x.pool.AtResume i a fun _ q r => (program S).Direct x.pool.state q r := hstep.1
      exact fun t ht q k hk => Program.Direct.answers (program S) (hplain.of ht hk)
    | crash i a n => exact hstep.1.elim
    | _ => trivial
  | _ => trivial

def oneAtATime : LocalProvider := .init "a" ["llama"] "" 1 {} .empty

def smallSite : Site where
  pool := plainPool [("a", oneAtATime.provider)]
  server := oneAtATime

theorem smallSite_opened : (site plainSetup).start smallSite where
  fresh := ⟨⟨[("a", oneAtATime.provider)], rfl⟩, rfl⟩
  registered := rfl
  inflight := rfl
  inside := rfl
  taken := rfl
  given := rfl

def routeAlone : List SiteMove :=
  [.router (.spawn (.route greeting none none)), .router (.start 0), .router (.resume 0 (upstream none)),
    .router (.resume 0 (upstream none))]

/-- A route alone: its slot is back. -/
theorem queue_bound_routed :
    ∃ (z : List (Machine.Step Site SiteMove)) (x' : Site), x'.taken 0 = 1 ∧ x'.given 0 = 1 ∧
      ((∀ y, y = smallSite ∨ (∃ e ∈ z, y = e.target) → y.Bounded ∧ y.Slots) ↔
        ∀ e ∈ z, Site.Fits plainSetup e.source e.label) := by
  have hrun : (smallSite.replay plainSetup routeAlone).any
      (fun x => decide (x.taken 0 = 1) && decide (x.given 0 = 1)) = true := by decide +kernel
  obtain ⟨x', hx', htest⟩ := Machine.exists_of_any hrun
  obtain ⟨z, hz⟩ := Site.run_of_replay hx'
  rw [Bool.and_eq_true, decide_eq_true_eq, decide_eq_true_eq] at htest
  exact ⟨z, x', htest.1, htest.2, queue_bound_iff smallSite_opened (by decide) hz⟩

/-- A route and a stream are both screened while the server is idle, wait for the
limiter, and then call the server. -/
def screenedTogether : List SiteMove :=
  [.router (.spawn (.route greeting none none)), .router (.start 0),
    .router (.spawn (.stream greeting none none 2)), .router (.start 1),
    .router (.resume 0 (upstream none)), .router (.resume 1 (upstream none))]

/-- Two requests are in flight on a server with a queue of one. -/
theorem two_in_flight :
    ∃ z x', (site plainSetup).start smallSite ∧ (site plainSetup).Run smallSite z x' ∧
      x'.server.maxQueue = 1 ∧ x'.inside = [1, 0] ∧ x'.server.inflight = 2 ∧ ¬ x'.Bounded := by
  have hrun : (smallSite.replay plainSetup screenedTogether).any
      (fun x => decide (x.server.maxQueue = 1) && decide (x.inside = [1, 0]) &&
        decide (x.server.inflight = 2)) = true := by decide +kernel
  obtain ⟨x', hx', htest⟩ := Machine.exists_of_any hrun
  obtain ⟨z, hz⟩ := Site.run_of_replay hx'
  simp only [Bool.and_eq_true, decide_eq_true_eq] at htest
  obtain ⟨⟨hmax, hinside⟩, hinflight⟩ := htest
  refine ⟨z, x', smallSite_opened, hz, hmax, hinside, hinflight, ?_⟩
  unfold Site.Bounded
  rw [hinside, hmax]
  decide

end Router

end Caips.Coreai
