/-
Caips.Coreai.RouterCalls — the contract of one call of a provider: admission
by the limiter, retries, `_call_provider` and `_open_stream`.

Every part is stated from `Idle H`, the request owning the tokens `H` with
nothing delivered yet, and ends as `Ends H` says: with what the part is for,
or with an exception and exactly the tokens `H` again. The parts compose by
these statements alone; no proof looks into another part.
-/
import Caips.Coreai.RouterContract

namespace Caips.Coreai

open Caips.Logic Caips.Providers

namespace Router

open RouterState

/-- The candidates of the task. -/
abbrev near {M : Mode} (me : Γ.Handle) (o : Own M) : List String := candidates me.2 o.1

/-- Between two actions of a request: nothing is delivered yet, and its
candidates are registered. -/
abbrev Idle (M : Mode) (me : Γ.Handle) (H : Multiset Tok) (o : Own M) :
    RouterState → Multiset Tok → List (Event Γ) → Prop := At M me Unserved H o (near me o)

/-- How a part of a request ends: with `ok`, or with an exception that leaves
it where it was. -/
def Ends {α : Type} (M : Mode) (me : Γ.Handle) (H : Multiset Tok) (o : Own M)
    (ok : α → RouterState → Multiset Tok → List (Event Γ) → Prop) :
    Except Exc α → RouterState → Multiset Tok → List (Event Γ) → Prop
  | .ok a => ok a
  | .error e => fun s h l => Idle M me H o s h l ∧ (M.keeps me.2 → e.isKeyError = false)

section Parts

variable {S : Setup} {M : Mode} {me : Γ.Handle} {H T : Multiset Tok} {o : Own M} {α β : Type}
  {ok : α → (contract S M).Assn}

variable {e : Exc} {K : List String} {s : RouterState} {name : String} {W : List (Event Γ) → Prop}
  {ticket : Option Nat} {deadline : Deadline} {r : CompletionRequest}

theorem holds_fail (he : e.isKeyError = false) :
    (contract S M).Holds me (Idle M me H o) (Coro.fail e) (Ends M me H o ok) :=
  .fail fun _ _ _ _ _ h => ⟨h, fun _ => he⟩

theorem no_keyError_of_cut (h : e.isException = false) : e.isKeyError = false := by
  cases e <;> first | rfl | cases h

theorem holds_raise (he : M.keeps me.2 → e.isKeyError = false) :
    (contract S M).Holds me (Idle M me H o) (Coro.fail e) (Ends M me H o ok) :=
  .fail fun _ _ _ _ _ h => ⟨h, he⟩

variable {l : List (Event Γ)} {maxWait : Option ℚ} {tokens : ℚ} {probe : Nat} {m : Routing β}

theorem ends_of_unsure {ok : α → RouterState → Multiset Tok → List (Event Γ) → Prop}
    {h : Multiset Tok}
    (hat : At M me Unserved H o K s h l) (hsure : ¬ M.sure me.2) :
    Ends M me H o ok (.error e) s h l :=
  ⟨⟨hat.tokens, hat.own, fun hs => absurd hs hsure, hat.hist⟩,
    fun hk => absurd (.inr hk) hsure⟩

theorem ends_of_lost {ok : α → RouterState → Multiset Tok → List (Event Γ) → Prop}
    {h : Multiset Tok}
    {t : Nat}
    (hat : At M me Unserved ({Tok.probe t name} + H) o K s h l) (hsure : ¬ M.sure me.2) :
    Ends M me H o ok (.error e) s h l :=
  ⟨hat.lose hsure fun _ => slotless_probe, fun hk => absurd (.inr hk) hsure⟩

theorem ends_of_returns (r : Except Exc α) :
    (contract S M).Entails ((contract S M).returns ok r) (Ends M me H o ok r) := by
  rintro s h F l - ⟨a, rfl, hok⟩
  exact hok

theorem holds_then {pre : (contract S M).Assn} {c : Async β} {k : β → Async α}
    {N : β → (contract S M).Assn} (hc : (contract S M).Holds me pre c (Ends M me H o N))
    (hk : ∀ b, (contract S M).Holds me (N b) (k b) (Ends M me H o ok)) :
    (contract S M).Holds me pre (c >>= k) (Ends M me H o ok) :=
  hc.bind hk fun _ _ _ _ _ _ h => h

theorem holds_handler {c : Async α} {N : β → (contract S M).Assn}
    {post : Except Exc α → (contract S M).Assn}
    (hc : (M.keeps me.2 → e.isKeyError = false) → (contract S M).Holds me (Idle M me T o) c post) :
    (contract S M).Holds me (Ends M me T o N (.error e)) c post :=
  .assume (φ := M.keeps me.2 → e.isKeyError = false) (fun _ _ _ _ _ h => h.2) fun he =>
    (hc he).weaken_pre fun _ _ _ _ _ h => h.1

theorem holds_await {q : Query}
    (hW : ∀ r l, W l → W (⟨.call q, r⟩ :: l))
    (hK : ∀ r, ∀ n ∈ K, n ∈ needed (.call q) r (near me o)) :
    (contract S M).Holds me (At M me W H o K) (query q)
      fun r s h l => At M me W H o K s h l ∧ Fair M me (.call q) s r := by
  refine (holds_askFor (N := fun _ => K) hK fun _ _ h => h).weaken_post ?_
  rintro r s h F l - ⟨hat, -, hfair⟩
  refine ⟨hat.mono ?_ fun _ h => h, hfair⟩
  rintro l ⟨l', rfl, hl⟩
  exact hW r l' hl

theorem holds_quiet {q : Query}
    (hs : ∀ r, successes ⟨.call q, r⟩ = []) (hn : ∀ r N, needed (.call q) r N = N) :
    (contract S M).Holds me (Idle M me H o) (query q)
      fun r s h l => Idle M me H o s h l ∧ Fair M me (.call q) s r := by
  refine holds_await (fun r l hl => ?_) fun r n h => ?_
  · rw [Unserved, served_cons, hs, List.nil_append]
    exact hl
  · rw [hn]
    exact h

theorem Fair.keyError {q : Query}
    (h : Fair M me (.call q) s (.error e)) (hk : M.keeps me.2) : e.isKeyError = false :=
  (h.unbroken hk).upstream

/-! ## Admission by the limiter -/

theorem steady_onLimiter (s : RouterState) (l : Nat) (f : ProviderLimiter → ProviderLimiter) :
    Steady s (s.onLimiter l f) := ⟨rfl, rfl, rfl, rfl⟩

theorem holds_reject {l : Nat} {retryAfter : Option ℚ} :
    (contract S M).Holds me (Idle M me H o) (reject l retryAfter) (Ends M me H o ok) := by
  refine .bind_returns (holds_through (fun s => steady_onLimiter s l _) fun s T hi =>
    hi.idle rfl rfl rfl) fun name => ?_
  exact holds_fail rfl

theorem holds_takeSlotNow {l : Nat} :
    (contract S M).Holds me
      (fun s h l' => Idle M me H o s h l' ∧
        (M.careful → s.limiters.get? name = some l ∧ 0 < (s.limiterAt l).slots))
      (update fun s => s.onLimiter l .takeSlot)
      (Ends M me H o fun _ => Idle M me ({Tok.slot name l} + H) o) := by
  refine (holds_trade_update (fun s => steady_onLimiter s l _) fun s F hP hi => ?_).weaken_post
    ends_of_returns
  rw [add_assoc]
  exact hi.takeSlot hP

/-- A slot of the limiter `l` of the candidate. -/
theorem holds_takeSlot (hname : (near me o).head? = some name) {l : Nat}
    (hl : ∀ hf : M.fixed, (o.2 hf).2.2.get? name = some l) {budget : Option ℚ} :
    (contract S M).Holds me (Idle M me H o) (takeSlot l budget)
      (Ends M me H o fun _ => Idle M me ({Tok.slot name l} + H) o) := by
  have hhead : ∀ s h l', Idle M me H o s h l' →
      (candidates me.2 (s.focus me.1)).headD "" = name := by
    intro s h l' hat
    have hfocus : s.focus me.1 = o.1 := congrArg Prod.fst hat.own
    rw [hfocus, List.headD_eq_head?_getD, hname]
    rfl
  have hlimiter : ∀ s h l', Idle M me H o s h l' →
      (¬ M.fixed → s.limiters.get? ((candidates me.2 (s.focus me.1)).headD "") = some l) →
      s.limiters.get? name = some l := by
    intro s h l' hat hgranted
    by_cases hf : M.fixed
    · have htable := hl hf
      rw [hat.fixed hf] at htable
      exact htable
    · rw [← hhead s h l' hat]
      exact hgranted hf
  unfold takeSlot
  split
  · refine .bind (holds_quiet (fun _ => rfl) fun _ _ => rfl) ?_ ?_
    · intro (locked : Bool)
      refine holds_then (N := fun _ s h l' => Idle M me H o s h l' ∧
        (M.careful → s.limiters.get? name = some l ∧ 0 < (s.limiterAt l).slots)) ?_
        fun _ => holds_takeSlotNow
      refine .when (fun _ => holds_reject.weaken_pre fun _ _ _ _ _ h => h.1) ?_
      rintro rfl s h F l' - ⟨hat, hfair⟩
      exact ⟨hat, fun hc => ⟨hlimiter s h l' hat fun hf => hfair.granted hc hf rfl, hfair.given rfl⟩⟩
    · rintro e s h F l' - ⟨-, hfair⟩
      exact absurd hfair.given id
  · refine .handle (holds_quiet (fun _ => rfl) fun _ _ => rfl) ?_ ?_
    · intro _
      refine holds_takeSlotNow.weaken_pre ?_
      rintro s h F l' - ⟨hat, hfair⟩
      exact ⟨hat, fun hc => ⟨hlimiter s h l' hat fun hf => hfair.granted hc hf, hfair.given⟩⟩
    · intro e
      split
      · exact holds_reject.weaken_pre fun _ _ _ _ _ h => h.1
      · exact .fail fun _ _ _ _ _ h => ⟨h.1, h.2.keyError⟩

/-- The request waits for its share of the rates; it keeps what it owns. -/
theorem holds_awaitRates {l : Nat}
    {started : ℚ} :
    (contract S M).Holds me (Idle M me H o) (awaitRates l tokens maxWait started)
      (Ends M me H o fun _ => Idle M me H o) := by
  unfold awaitRates
  refine .bind_returns (holds_through (fun s => ?_) fun s T hi => ?_) fun wait => ?_
  · exact ⟨rfl, rfl, rfl, rfl⟩
  · exact hi.idle (f := fun _ => ((s.limiterAt l).reserve tokens s.now).2) rfl rfl rfl
  refine .bind_returns holds_value fun now => ?_
  refine holds_then (N := fun _ => Idle M me H o) ?_ fun _ => ?_
  · exact .when (fun _ => holds_reject.weaken_pre fun _ _ _ _ _ h => h.1)
      fun _ _ _ _ _ _ h => h.1
  · refine .when (fun _ => ?_) fun _ _ _ _ _ _ h => h
    refine (holds_quiet (fun _ => rfl) fun _ _ => rfl).weaken_post ?_
    rintro (e | a) s h F l - ⟨hat, hfair⟩
    · exact ⟨hat, hfair.keyError⟩
    · exact hat

/-- `acquire` of the limiter of the candidate. -/
theorem holds_acquire (hname : (near me o).head? = some name) {l : Nat}
    (hl : ∀ hf : M.fixed, (o.2 hf).2.2.get? name = some l) :
    (contract S M).Holds me (Idle M me H o) (acquire l tokens maxWait)
      (Ends M me H o fun t => Idle M me ({Tok.active name l t} + H) o) := by
  unfold acquire
  refine .bind_returns holds_value fun started => ?_
  refine holds_then ((holds_takeSlot hname hl).weaken_pre fun _ _ _ _ _ h => h.1) fun _ => ?_
  refine holds_then (N := fun _ => Idle M me ({Tok.slot name l} + H) o) ?_ fun _ => ?_
  · refine .tryCatch (holds_awaitRates) (fun _ _ _ _ _ _ h => h) fun e => ?_
    refine holds_handler fun he => ?_
    refine .bind_returns ((holds_trade_update (P := fun _ => True) (fun s => steady_onLimiter s l _)
      fun s F _ hi => ?_).weaken_pre fun _ _ _ _ _ h => ⟨h, trivial⟩) fun _ => holds_raise he
    rw [add_assoc] at hi
    exact hi.abandon tokens
  · refine ((holds_trade (P := fun _ => True) (J := fun t => {Tok.active name l t} + H)
      (fun s => ⟨rfl, rfl, rfl, rfl⟩) ?_).weaken_pre fun _ _ _ _ _ h => ⟨h, trivial⟩).weaken_post
        ends_of_returns
    intro s F _ hi
    rw [add_assoc] at hi ⊢
    exact hi.letIn _

/-- `acquire` by name, for a candidate that has a limiter. -/
theorem holds_limiterAcquire (hname : (near me o).head? = some name) :
    (contract S M).Holds me
      (fun s h l => Idle M me H o s h l ∧ name ∈ s.limiters.keys)
      (limiterAcquire name tokens maxWait)
      (Ends M me H o fun ticket s h l => ∃ X, Admitted M name ticket X ∧
        Idle M me (X + H) o s h l) := by
  unfold limiterAcquire
  refine .bind_returns holds_value fun x => ?_
  cases x with
  | none =>
    refine .assume (φ := False) (fun s h F l _ hp => ?_) False.elim
    obtain ⟨v, hv⟩ := Dict.mem_keys.mp hp.1.2
    rw [hv] at hp
    cases hp.2
  | some l =>
    refine .assume (φ := ∀ hf : M.fixed, (o.2 hf).2.2.get? name = some l) ?_ fun hl => ?_
    · rintro s h F l' - ⟨⟨hat, -⟩, hget⟩ hfix
      rw [hat.fixed hfix]
      exact hget.symm
    refine holds_then ((holds_acquire hname hl).weaken_pre fun _ _ _ _ _ h => h.1.1) fun t => ?_
    exact .ret fun _ _ _ _ _ h => ⟨_, .active l t, h⟩

/-- The probe of a candidate is given back to its breaker, looked up by name. -/
theorem holds_giveBack (hname : name ∈ near me o) {k : Async α}
    {f : Nat → RouterState → RouterState}
    (hf : ∀ b s, ∃ g, f b s = s.settle b probe g ∧ ∀ c : CircuitBreaker, c.Single → c.Settles (g c))
    (hk : (contract S M).Holds me (Idle M me H o) k (Ends M me H o ok)) :
    (contract S M).Holds me (Idle M me ({Tok.probe probe name} + H) o)
      (reads (fun s => lookup s.breakers name) >>= fun b => update (f b) >>= fun _ => k)
      (Ends M me H o ok) := by
  refine .bind (holds_lookup (fun s hs h => (hs.breakers name).mpr h) hname) ?_ ?_
  · intro b
    refine .assume (φ := ∀ hf : M.fixed, (o.2 hf).1.get? name = some b) ?_ fun hb => ?_
    · rintro s h F l - ⟨hat, hget⟩ hfix
      rw [hat.fixed hfix]
      exact hget
    · exact .bind_returns ((holds_settle hb (hf b)).weaken_pre fun _ _ _ _ _ h => h.1) fun _ => hk
  · rintro e s h F l - ⟨hat, hsure⟩
    exact ends_of_lost hat hsure

theorem holds_books (hm : Books name m)
    (hname : name ∈ K) :
    (contract S M).Holds me (At M me W H o K) (Coro.sync m)
      (Found M me W H o K fun _ _ => True) := by
  refine (holds_same (Q := fun r => ∀ e, r = .error e → ¬ M.sure me.2) hm.keeps ?_).weaken_post ?_
  · intro s hs hK e he hsure
    obtain ⟨a, ha⟩ := hm.total s hs (hK hsure name hname)
    rw [ha] at he
    cases he
  · rintro (e | a) s h F l - ⟨hat, hr⟩
    · exact ⟨hat, hr e rfl⟩
    · exact ⟨hat, trivial⟩

theorem At.active_mem {h F : Multiset Tok}
    {X Y : Multiset Tok} (hX : Admitted M name ticket X) (hat : At M me W (Y + (X + H)) o K s h l)
    (hi : Inv M s (h + F)) (hc : M.careful) : name ∈ s.providers.keys := by
  obtain ⟨⟨g, -, rfl⟩, -⟩ := hat
  have hswap : Y + (X + H) + g + F = X + (Y + H + g + F) := by abel
  rw [hswap] at hi
  exact hi.active_mem hX hc

/-- Books kept on the candidate of an active request. -/
theorem holds_booksHeld (hm : Books name m)
    (hname : name ∈ K) {X Y : Multiset Tok}
    (hX : Admitted M name ticket X) :
    (contract S M).Holds me (At M me W (Y + (X + H)) o K) (Coro.sync m)
      fun r s h l => At M me W (Y + (X + H)) o K s h l ∧
        ∀ e, r = .error e → ¬ M.sure me.2 ∧ ¬ M.careful := by
  refine holds_sync fun s t F l hi hat => ?_
  have hs := hm.keeps s
  have hsteady : Steady s (m s).2 := ⟨hs.focus_eq, hs.breakers_eq, hs.providers_eq, hs.limiters_eq⟩
  have htotal : name ∈ s.providers.keys → ∀ e, (m s).1 ≠ .error e := by
    intro hreg e he
    obtain ⟨a, ha⟩ := hm.total s hi.consistent hreg
    rw [ha] at he
    cases he
  refine ⟨fun j _ => hsteady.own j, t, hi.same hs,
    ⟨hat.tokens, (hsteady.own _).trans hat.own, ?_, hat.hist⟩, fun e he => ⟨fun hsure => ?_, fun hc => ?_⟩⟩
  · rw [hsteady.providers]
    exact hat.here
  · exact htotal (hat.here hsure name hname) e he
  · exact htotal (hat.active_mem hX hi hc) e he

theorem holds_booksThen (hm : Books name m)
    (hname : name ∈ near me o) {t : Nat} {k : β → Async α}
    (hk : ∀ b, (contract S M).Holds me (Idle M me ({Tok.probe t name} + H) o) (k b)
      (Ends M me H o ok)) :
    (contract S M).Holds me (Idle M me ({Tok.probe t name} + H) o) (Coro.sync m >>= k)
      (Ends M me H o ok) := by
  refine .bind (holds_books hm hname) (fun b => (hk b).weaken_pre fun _ _ _ _ _ h => h.1) ?_
  rintro e s h F l - ⟨hat, hsure⟩
  exact ends_of_lost hat hsure

/-- `_admit`: on failure the probe is given back. -/
theorem holds_admitCall (hname : (near me o).head? = some name)
    :
    (contract S M).Holds me
      (fun s h l => Idle M me ({Tok.probe probe name} + H) o s h l ∧ name ∈ s.providers.keys)
      (admitCall name r deadline probe)
      (Ends M me H o fun ticket s h l => ∃ X, Admitted M name ticket X ∧
        Idle M me (X + ({Tok.probe probe name} + H)) o s h l) := by
  have hmem : name ∈ near me o := List.mem_of_mem_head? hname
  unfold admitCall
  refine .bind_returns holds_value fun now => ?_
  refine .tryCatch ((holds_limiterAcquire hname).weaken_pre ?_) (fun _ _ _ _ _ _ h => h) ?_
  · rintro s h F l hi ⟨⟨hat, hreg⟩, -⟩
    exact ⟨hat, (Inv.consistent hi).limiters name |>.mpr hreg⟩
  · intro e
    refine holds_handler fun he => ?_
    have hback : (contract S M).Holds me (Idle M me ({Tok.probe probe name} + H) o)
        (reads (fun s => lookup s.breakers name) >>= fun b =>
          update (fun s => s.breakerRelease b probe) >>= fun _ => Coro.fail e)
        (Ends M me H o fun ticket s h l => ∃ X, Admitted M name ticket X ∧
          Idle M me (X + ({Tok.probe probe name} + H)) o s h l) :=
      holds_giveBack hmem (fun b s => settles_release s b probe) (holds_raise he)
    unfold Coro.when
    split
    · exact holds_booksThen books_countLocalRateLimit hmem fun _ => hback
    · exact hback

/-! ## Retries -/

theorem holds_drawWait {attempt : Nat} {info : ErrorInfo} :
    (contract S M).Holds me (Idle M me H o) (drawWait S attempt info)
      (Ends M me H o fun _ => Idle M me H o) := by
  unfold drawWait
  split
  · exact .ret fun _ _ _ _ _ h => h
  · refine .bind_returns (holds_through (fun _ => ⟨rfl, rfl, rfl, rfl⟩) fun s T hi => ?_) fun rng =>
      .ret fun _ _ _ _ _ h => h
    exact hi.same (.of_frame rfl rfl rfl rfl)

/-- Repeating a part that leaves everything where it was on failure. -/
theorem holds_runWithRetry {func : Async α}
    (hf : (contract S M).Holds me (Idle M me T o) func (Ends M me T o ok)) :
    ∀ more attempt, (contract S M).Holds me (Idle M me T o)
      (runWithRetry S func deadline more attempt) (Ends M me T o ok)
  | 0, _ => hf
  | more + 1, attempt => by
      refine .tryCatch hf (fun _ _ _ _ _ _ h => h) fun e => holds_handler fun he => ?_
      split
      · exact holds_raise he
      · refine holds_then holds_drawWait fun wait => ?_
        cases wait with
        | none => exact holds_raise he
        | some wait =>
          refine .bind_returns holds_value fun now => ?_
          refine holds_then (N := fun _ => Idle M me T o) ?_ fun _ => ?_
          · exact .when (fun _ => (holds_raise he).weaken_pre fun _ _ _ _ _ h => h.1)
              fun _ _ _ _ _ _ h => h.1
          refine .bind_returns (holds_update fun s => .of_frame rfl rfl rfl rfl) fun _ => ?_
          refine .bind (holds_quiet (fun _ => rfl) fun _ _ => rfl) ?_ ?_
          · intro _
            exact (holds_runWithRetry hf more (attempt + 1)).weaken_pre
              fun _ _ _ _ _ h => h.1
          · exact fun _ _ _ _ _ _ h => ⟨h.1, h.2.keyError⟩

theorem holds_execute {func : Async α}
    {attempts : Nat} (hf : (contract S M).Holds me (Idle M me T o) func (Ends M me T o ok)) :
    (contract S M).Holds me (Idle M me T o) (execute S func deadline attempts)
      (Ends M me T o ok) := by
  unfold execute
  split
  · refine .tryCatch (holds_runWithRetry hf _ _) (fun _ _ _ _ _ _ h => h) fun e =>
      holds_handler fun he => ?_
    refine holds_then (N := fun _ => Idle M me T o) ?_ fun _ => holds_raise he
    refine .when (fun _ => ?_) fun _ _ _ _ _ _ h => h
    refine (holds_update fun s => ?_).weaken_post ends_of_returns
    exact .of_frame rfl rfl rfl rfl
  · exact hf

/-! ## Calling a provider -/

theorem holds_checkDeadline {b probe : Nat}
    (hb : ∀ hf : M.fixed, (o.2 hf).1.get? name = some b) :
    (contract S M).Holds me
      (fun s h l => Idle M me ({Tok.probe probe name} + H) o s h l ∧ name ∈ s.providers.keys)
      (checkDeadline deadline b probe)
      (Ends M me H o fun _ s h l =>
        Idle M me ({Tok.probe probe name} + H) o s h l ∧ name ∈ s.providers.keys) := by
  refine .bind_returns holds_value fun now => .when (fun _ => ?_) fun _ _ _ _ _ _ h => h.1
  refine .bind_returns ((holds_settle hb fun s => settles_release s b probe).weaken_pre
    fun _ _ _ _ _ h => h.1.1) fun _ => ?_
  exact holds_raise fun _ => rfl

theorem holds_attemptSeconds :
    (contract S M).Holds me (Idle M me H o) (attemptSeconds S name deadline)
      (Ends M me H o fun _ => Idle M me H o) := by
  refine .bind_returns holds_value fun now => ?_
  refine holds_then (N := fun _ => Idle M me H o) ?_ fun _ => .ret fun _ _ _ _ _ h => h
  exact .when (fun _ => (holds_fail rfl).weaken_pre fun _ _ _ _ _ h => h.1)
    fun _ _ _ _ _ _ h => h.1

theorem holds_timedOut {seconds : Option ℚ} :
    (contract S M).Holds me (Idle M me H o) (timedOut S name deadline seconds)
      (Ends M me H o ok) := by
  refine .bind_returns holds_value fun now => ?_
  refine holds_then (N := fun _ => Idle M me H o) ?_ fun _ => holds_fail rfl
  exact .when (fun _ => (holds_fail rfl).weaken_pre fun _ _ _ _ _ h => h.1)
    fun _ _ _ _ _ _ h => h.1

/-- One attempt: the response, or an exception. -/
theorem holds_oneCall {p : Provider}
    :
    (contract S M).Holds me (Idle M me H o) (oneCall S name p r deadline)
      (Ends M me H o fun response =>
        At M me (Served (.response response)) H o ((near me o).take 1)) := by
  refine holds_then holds_attemptSeconds fun seconds => ?_
  refine .handle (holds_ask (q := .call (.complete name p r seconds))
    fun r n h => mem_of_mem_needed h) ?_ ?_
  · intro (response : CompletionResponse)
    refine .ret ?_
    rintro s h F l - ⟨hat, -⟩
    refine hat.mono ?_ fun _ h => h
    rintro l ⟨l', rfl, -⟩
    exact List.mem_append_left _ List.mem_cons_self
  · intro e
    have hidle : ∀ s h l, At M me (fun l => ∃ l', l = ⟨.call (.complete name p r seconds),
        .error e⟩ :: l' ∧ Unserved l') H o (near me o) s h l → Idle M me H o s h l := by
      intro s h l hat
      refine hat.mono ?_ fun _ h => h
      rintro l ⟨l', rfl, hl⟩
      exact hl
    split
    · exact holds_timedOut.weaken_pre fun s h _ l _ hm => hidle s h l hm.1
    · exact .fail fun s h _ l _ hm => ⟨hidle s h l hm.1, hm.2.2.keyError⟩

/-- The failure of a call settles its probe; the slot is not touched. -/
theorem holds_settleFailure (hname : name ∈ K) {b probe : Nat}
    (hb : ∀ hf : M.fixed, (o.2 hf).1.get? name = some b) {X : Multiset Tok}
    (hX : Admitted M name ticket X) :
    (contract S M).Holds me (At M me W ({Tok.probe probe name} + (X + H)) o K)
      (settleFailure name b probe e)
      fun r s h l => At M me W (X + H) o K s h l ∧
        ∀ e', r = .error e' → ¬ M.sure me.2 ∧ ¬ M.careful := by
  have hsettle : ∀ f : RouterState → RouterState,
      (∀ s, ∃ g, f s = s.settle b probe g ∧ ∀ c : CircuitBreaker, c.Single → c.Settles (g c)) →
      (contract S M).Holds me (At M me W ({Tok.probe probe name} + (X + H)) o K) (update f)
        fun r s h l => At M me W (X + H) o K s h l ∧
          ∀ e', r = .error e' → ¬ M.sure me.2 ∧ ¬ M.careful := by
    intro f hf
    refine (holds_settle hb hf).weaken_post ?_
    rintro r s h F l - ⟨a, rfl, hat⟩
    exact ⟨hat, fun e' he => by cases he⟩
  unfold settleFailure
  split
  · refine .bind (holds_booksHeld (books_recordError _ _) hname hX)
      (fun _ => (hsettle _ fun s => ?_).weaken_pre fun _ _ _ _ _ h => h.1) ?_
    · split
      · exact settles_failure s b probe
      · exact settles_release s b probe
    · rintro e' s h F l - ⟨hat, hr⟩
      exact ⟨hat.lose (hr e' rfl).1 fun _ => slotless_probe, fun _ _ => hr e' rfl⟩
  · exact hsettle _ fun s => settles_release s b probe

/-- The provider and the breaker of a candidate, at the start of a call. -/
theorem holds_provider (hname : name ∈ near me o)
    {k : Provider → Async α}
    (hk : ∀ p, (contract S M).Holds me
      (fun s h l => Idle M me ({Tok.probe probe name} + H) o s h l ∧ name ∈ s.providers.keys) (k p)
      (Ends M me H o ok)) :
    (contract S M).Holds me (Idle M me ({Tok.probe probe name} + H) o)
      (reads (fun s => lookup s.providers name) >>= k) (Ends M me H o ok) := by
  refine .bind (holds_lookup (fun _ _ h => h) hname) ?_ ?_
  · refine fun p => (hk p).weaken_pre ?_
    rintro s h F l - ⟨hat, hget⟩
    exact ⟨hat, Dict.mem_keys.mpr ⟨p, hget⟩⟩
  · rintro e s h F l - ⟨hat, hsure⟩
    exact ends_of_lost hat hsure

theorem holds_limiterRelease {X : Multiset Tok}
    (hX : Admitted M name ticket X) :
    (contract S M).Holds me (At M me W (X + H) o K)
      (update fun s => s.limiterRelease name ticket)
      ((contract S M).returns fun _ => At M me W H o K) := by
  refine (holds_trade_update (P := fun _ => True) (fun s => ?_) fun s F _ hi => ?_).weaken_pre
    fun _ _ _ _ _ h => ⟨h, trivial⟩
  · obtain ⟨f, led, heq⟩ := limiterRelease_eq s name ticket
    rw [heq]
    exact ⟨rfl, rfl, rfl, rfl⟩
  · rw [add_assoc] at hi
    exact hi.limiterRelease hX

/-- The breaker of a candidate known to be registered. -/
theorem holds_breaker {k : Nat → Async α}
    (hk : ∀ b, (∀ hf : M.fixed, (o.2 hf).1.get? name = some b) → (contract S M).Holds me
      (fun s h l => Idle M me ({Tok.probe probe name} + H) o s h l ∧ name ∈ s.providers.keys) (k b)
      (Ends M me H o ok)) :
    (contract S M).Holds me
      (fun s h l => Idle M me ({Tok.probe probe name} + H) o s h l ∧ name ∈ s.providers.keys)
      (reads (fun s => lookup s.breakers name) >>= k) (Ends M me H o ok) := by
  refine .bind holds_reads ?_ ?_
  · intro b
    refine .assume (φ := ∀ hf : M.fixed, (o.2 hf).1.get? name = some b) ?_ fun hb =>
      (hk b hb).weaken_pre fun _ _ _ _ _ h => h.1
    rintro s h F l - ⟨⟨hat, -⟩, hget⟩ hfix
    rw [hat.fixed hfix]
    exact get?_of_lookup hget.symm
  · rintro e s h F l hi ⟨⟨-, hreg⟩, hget⟩
    obtain ⟨b, hb⟩ := Dict.mem_keys.mp ((Inv.consistent hi).breakers name |>.mpr hreg)
    rw [lookup_of_get? hb] at hget
    cases hget

/-- Admission for a call that goes on with probe and slot. -/
theorem holds_admitThen (hname : (near me o).head? = some name)
    {b probe : Nat} (hb : ∀ hf : M.fixed, (o.2 hf).1.get? name = some b)
    {k : Option Nat → Async α}
    (hk : ∀ ticket X, Admitted M name ticket X → (contract S M).Holds me
      (Idle M me ({Tok.probe probe name} + (X + H)) o) (k ticket) (Ends M me H o ok)) :
    (contract S M).Holds me
      (fun s h l => Idle M me ({Tok.probe probe name} + H) o s h l ∧ name ∈ s.providers.keys)
      (checkDeadline deadline b probe >>= fun _ => admitCall name r deadline probe >>= k)
      (Ends M me H o ok) := by
  refine holds_then (holds_checkDeadline hb) fun _ => ?_
  refine holds_then (holds_admitCall hname) fun ticket => ?_
  rintro s h F l hi ⟨X, hX, hat⟩
  have hswap : X + ({Tok.probe probe name} + H) = {Tok.probe probe name} + (X + H) := by abel
  rw [hswap] at hat
  exact hk ticket X hX s h F l hi hat

/-- **A call of a provider.** It ends with the response it was given and with
what the request owned before, the probe and the slot returned. -/
theorem holds_callProvider (hname : (near me o).head? = some name)
    {attempts probe : Nat} :
    (contract S M).Holds me (Idle M me ({Tok.probe probe name} + H) o)
      (callProvider S name r deadline attempts probe)
      (Ends M me H o fun response =>
        At M me (Served (.response response)) H o ((near me o).take 1)) := by
  have hmem : name ∈ near me o := List.mem_of_mem_head? hname
  refine holds_provider hmem fun p => holds_breaker fun b hb =>
    holds_admitThen hname hb fun ticket X hX => ?_
  let okAt (H : Multiset Tok) (response : CompletionResponse) :=
    At M me (Served (.response response)) H o ((near me o).take 1)
  refine .tryFinally (N := Ends M me (X + H) o (okAt (X + H)))
    (V := fun r => (contract S M).returns fun _ => Ends M me H o (okAt H) r) ?_ ?_ ?_ ?_
  · refine .handle (holds_execute holds_oneCall) ?_ ?_
    · intro response
      refine .bind_returns (holds_settle hb fun s => settles_success s b probe) fun _ => ?_
      exact .ret fun _ _ _ _ _ h => h
    · intro e
      refine holds_handler fun he => .bind (holds_settleFailure hmem hb hX) ?_ ?_
      · exact fun _ => (holds_raise he).weaken_pre fun _ _ _ _ _ h => h.1
      · rintro e' s h F l - ⟨hat, hr⟩
        exact ends_of_unsure hat (hr e' rfl).1
  · rintro (e | response)
    · exact holds_handler fun he => (holds_limiterRelease hX).weaken_post
        fun r s h F l _ ⟨a, hr, hat⟩ => ⟨a, hr, hat, he⟩
    · exact holds_limiterRelease hX
  · rintro r s h F l - ⟨a, -, hend⟩
    exact hend
  · rintro r e s h F l - ⟨a, hr, -⟩
    cases hr

/-! ## Opening a stream -/

theorem holds_closeStream (hW : ∀ r l, W l → W (⟨.call .closeStream, r⟩ :: l)) (hK : ∀ n ∈ K, n ∈ near me o) :
    (contract S M).Holds me (At M me W H o K) closeStream
      fun r s h l => At M me W H o K s h l ∧ ∀ e, r = .error e → e.isException = false := by
  refine .tryCatch (holds_await hW fun _ => hK)
    (fun a s h F l _ hat => ⟨hat.1, fun e he => by cases he⟩) fun e => ?_
  split
  · exact .ret fun _ _ _ _ _ h => ⟨h.1, fun e he => by cases he⟩
  · rename_i he
    refine .fail fun _ _ _ _ _ h => ⟨h.1, ?_⟩
    rintro e' ⟨⟩
    exact Bool.not_eq_true _ ▸ he

/-- What an opened stream has delivered: nothing, or already its end. -/
def Opened (first : Option String) (l : List (Event Γ)) : Prop :=
  if first.isSome then Unserved l else Served .streamEnd l

/-- One attempt to open a stream. -/
theorem holds_openOnce {p : Provider}
    :
    (contract S M).Holds me (Idle M me H o) (openOnce S name p r deadline)
      (Ends M me H o fun first => At M me (Opened first) H o ((near me o).take 1)) := by
  refine holds_then holds_attemptSeconds fun seconds => ?_
  refine .handle (holds_ask (q := .call (.firstChunk name p r seconds))
    fun r n h => mem_of_mem_needed h) ?_ ?_
  · intro (chunk : String)
    refine .ret ?_
    rintro s h F l - ⟨hat, -⟩
    refine hat.mono ?_ fun _ h => h
    rintro l ⟨l', rfl, hl⟩
    exact hl
  · intro e
    split
    · rename_i he
      subst he
      refine .ret ?_
      rintro s h F l - ⟨hat, -⟩
      refine hat.mono ?_ fun _ h => h
      rintro l ⟨l', rfl, -⟩
      exact List.mem_append_left _ List.mem_cons_self
    · rename_i hstop
      obtain ⟨hs, hn⟩ : successes ⟨.call (.firstChunk name p r seconds), .error e⟩ = [] ∧
        ∀ N, needed (.call (.firstChunk name p r seconds)) (.error e) N = N := firstChunk_error hstop
      have hclose : ∀ c : Async (Option String), (∀ (_ : M.keeps me.2 → e.isKeyError = false),
          (contract S M).Holds me (Idle M me H o) c
            (Ends M me H o fun first => At M me (Opened first) H o ((near me o).take 1))) →
          (contract S M).Holds me
            (fun s h l => At M me (fun l => ∃ l', l = ⟨.call (.firstChunk name p r seconds),
                .error e⟩ :: l' ∧ Unserved l') H o
                (needed (.call (.firstChunk name p r seconds)) (.error e) (near me o)) s h l ∧
              (contract S M).Rely me s (.call (.firstChunk name p r seconds)) (.error e))
            (closeStream >>= fun _ => c)
            (Ends M me H o fun first => At M me (Opened first) H o ((near me o).take 1)) := by
        intro c hc
        refine .assume (φ := M.keeps me.2 → e.isKeyError = false)
          (fun _ _ _ _ _ hm => hm.2.2.keyError) fun he => ?_
        refine .bind ((holds_closeStream (fun _ _ hl => hl) fun _ h => h).weaken_pre ?_)
          (fun _ => (hc he).weaken_pre fun _ _ _ _ _ h => h.1) ?_
        · rintro s h F l - ⟨hat, -⟩
          rw [hn] at hat
          refine hat.mono ?_ fun _ h => h
          rintro l ⟨l', rfl, hl⟩
          rw [Unserved, served_cons, hs]
          exact hl
        · rintro e' s h F l - ⟨hat, hcut⟩
          exact ⟨hat, fun _ => no_keyError_of_cut (hcut e' rfl)⟩
      split
      · exact hclose _ fun _ => holds_timedOut
      · exact hclose _ fun he => holds_raise he

/-- **An opened stream.** On failure breaker and limiter are settled; on
success the request still owns the probe and its slot. -/
theorem holds_openStream (hname : (near me o).head? = some name)
    {attempts b probe : Nat} (hb : ∀ hf : M.fixed, (o.2 hf).1.get? name = some b) :
    (contract S M).Holds me (Idle M me ({Tok.probe probe name} + H) o)
      (openStream S name r deadline attempts b probe)
      (Ends M me H o fun x s h l => ∃ X, Admitted M name x.2 X ∧
        At M me (Opened x.1) ({Tok.probe probe name} + (X + H)) o ((near me o).take 1) s h l) := by
  have hmem : name ∈ near me o := List.mem_of_mem_head? hname
  refine holds_provider hmem fun p => holds_admitThen hname hb fun ticket X hX => ?_
  refine .handle (holds_execute holds_openOnce) ?_ ?_
  · intro first
    exact .ret fun _ _ _ _ _ h => ⟨X, hX, h⟩
  · intro e
    refine holds_handler fun he => ?_
    refine .bind (holds_settleFailure hmem hb hX) (fun _ => ?_) ?_
    · refine .bind_returns ((holds_limiterRelease hX).weaken_pre fun _ _ _ _ _ h => h.1) ?_
      exact fun _ => holds_raise he
    · rintro e' s h F l - ⟨hat, hr⟩
      obtain ⟨hsure, hcare⟩ := hr e' rfl
      exact ⟨hat.lose hsure fun hc => absurd hc hcare, fun hk => absurd (.inr hk) hsure⟩

end Parts

end Router

end Caips.Coreai
