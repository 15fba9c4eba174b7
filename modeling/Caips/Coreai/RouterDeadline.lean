/-
Caips.Coreai.RouterDeadline — the shared deadline and the attempts of a request.

A request has one deadline, which goes down to every retry, every failover and
every leg of a hedged call. Each layer reads the clock right before it sends or
sleeps, so no attempt starts after the deadline and no backoff reaches it. The
attempts are counted along the trail of the request: what it has `spent` on a
candidate, by itself and in the legs it started, and what is `Left` of the
budget its plan gives it.

`max_attempts or self.config.max_attempts` takes an explicit 0 for no number at
all, so the bound needs both configured numbers to be positive.
-/
import Caips.Logic.CoroTriple
import Caips.Coreai.RouterFailover
import Mathlib.Algebra.Order.BigOperators.Group.List

namespace Caips.Coreai

open Caips.Logic Caips.Providers

namespace Router

open RouterState

variable {S : Setup}

/-! ## Budgets -/

/-- A number of attempts for every provider and model. -/
abbrev Budget : Type := String × Option String → Nat

/-- Attempts on one candidate only. -/
def only (c : String × Option String) (n : Nat) : Budget := fun x => if c = x then n else 0

/-- What an entry of a trail takes of the budget: an attempt one, a leg all it
may make. -/
def cost (x : String × Option String) : Event Γ ⊕ Γ.Handle → Nat
  | .inl e => (contacts e.1).count x
  | .inr (_, .leg name r _ attempts _) => only (name, r.model) attempts x
  | .inr _ => 0

/-- What a trail has taken of the budget. -/
def spent (x : String × Option String) (l : Trail Γ) : Nat := (l.map (cost x)).sum

/-- Of the budget `B` at least `R` is left. -/
def Left (B R : Budget) (l : Trail Γ) : Prop := ∀ x, spent x l + R x ≤ B x

/-- The budget of a plan, without the providers in `skip`. -/
def allowance (S : Setup) (skip : List String) : List (String × CompletionRequest) → Budget
  | [] => 0
  | c :: rest =>
    (if skip.contains c.1 then 0 else only (c.1, c.2.model) (attemptsFor S rest.isEmpty)) +
      allowance S skip rest

section Budgets

variable {B R R' : Budget} {l : Trail Γ}

theorem count_contact (c x : String × Option String) : [c].count x = only c 1 x := by
  rw [List.count_singleton]
  simp [only]

@[simp] theorem spent_cons (x : String × Option String) (e : Event Γ ⊕ Γ.Handle) (l : Trail Γ) :
    spent x (e :: l) = cost x e + spent x l := rfl

theorem Left.mono (h : Left B R l) (hR : ∀ x, R' x ≤ R x) : Left B R' l :=
  fun x => Nat.le_trans (Nat.add_le_add_left (hR x) _) (h x)

theorem Left.rest (h : Left B (R' + R) l) : Left B R l := h.mono fun _ => Nat.le_add_left _ _

theorem Left.none (h : Left B R l) : Left B 0 l := h.mono fun _ => Nat.zero_le _

theorem Left.event {q : Ask Γ} {r : Except Exc q.Reply} (h : Left B R l) (hq : contacts q = []) :
    Left B R (.inl ⟨q, r⟩ :: l) := by
  intro x
  have hcost : cost x (.inl ⟨q, r⟩ : Event Γ ⊕ Γ.Handle) = 0 := by
    show (contacts q).count x = 0
    rw [hq, List.count_nil]
  rw [spent_cons, hcost, Nat.zero_add]
  exact h x

theorem Left.attempt {q : Ask Γ} {r : Except Exc q.Reply} {c : String × Option String}
    (h : Left B (only c 1 + R) l) (hq : contacts q = [c]) : Left B R (.inl ⟨q, r⟩ :: l) := by
  intro x
  have hcost : cost x (.inl ⟨q, r⟩ : Event Γ ⊕ Γ.Handle) = only c 1 x := by
    show (contacts q).count x = only c 1 x
    rw [hq, count_contact]
  have hleft : spent x l + (only c 1 x + R x) ≤ B x := h x
  rw [spent_cons, hcost]
  omega

theorem Left.start {n attempts probe : Nat} {name : String} {r : CompletionRequest}
    {deadline : Deadline} (h : Left B (only (name, r.model) attempts + R) l) :
    Left B R (.inr (n, .leg name r deadline attempts probe) :: l) := by
  intro x
  have hleft : spent x l + (only (name, r.model) attempts x + R x) ≤ B x := h x
  rw [spent_cons]
  show only (name, r.model) attempts x + spent x l + R x ≤ B x
  omega

theorem only_le (c : String × Option String) {m n : Nat} (h : m ≤ n) (x : String × Option String) :
    only c m x ≤ only c n x := by
  unfold only
  split
  · exact h
  · exact Nat.le_refl 0

theorem only_succ (c : String × Option String) (n : Nat) : only c (n + 1) = only c 1 + only c n := by
  funext x
  simp only [only, Pi.add_apply]
  split
  · exact Nat.add_comm n 1
  · rfl

theorem allowance_cons_le {skip : List String} {c : String × CompletionRequest}
    {rest : List (String × CompletionRequest)} (x : String × Option String) :
    allowance S skip rest x ≤ allowance S skip (c :: rest) x := Nat.le_add_left _ _

theorem allowance_skip_le {skip : List String} {name : String}
    {plan : List (String × CompletionRequest)} (x : String × Option String) :
    allowance S (name :: skip) plan x ≤ allowance S skip plan x := by
  induction plan with
  | nil => exact Nat.le_refl 0
  | cons c rest ih =>
    refine Nat.add_le_add ?_ ih
    split
    · exact Nat.zero_le _
    · rename_i hname
      rw [if_neg fun hskip => hname (List.contains_iff_mem.mpr
        (List.mem_cons_of_mem _ (List.contains_iff_mem.mp hskip)))]

end Budgets

/-! ## What a request may await -/

/-- The latest answer was a slot of a rate limiter: what is slept now is the
limiter's wait, and not a backoff. -/
def afterSlot (hist : List (Event Γ)) : Bool :=
  hist.head?.any fun
    | ⟨.call (.slot _ _), _⟩ => true
    | ⟨.call (.slotLocked _), _⟩ => true
    | _ => false

/-- An attempt is within the budget and before the deadline, and a backoff is
over before it. -/
structure Punctual (deadline : Deadline) (B : Budget) (s : RouterState) (l : Trail Γ) (q : Ask Γ) :
    Prop where
  budget : ∀ x, spent x l + (contacts q).count x ≤ B x
  inTime : contacts q ≠ [] → deadline.expired s.now = false
  backoff : ∀ w, q = .call (.sleep w) → afterSlot l.events = true ∨
    ∀ rest, deadline.remaining s.now = some rest → w < rest

/-- The world of a task when nothing is known of it. -/
abbrev anyWorld (S : Setup) : Coro.Env Γ := (program S).world fun _ _ => True

/-- The task behaves so from here on, and leaves this of its budget. -/
abbrev Spends (S : Setup) (deadline : Deadline) (B R : Budget) {α : Type} (c : Async α)
    (s : RouterState) (l : Trail Γ) : Prop :=
  c.Follows (anyWorld S) (Punctual deadline B) (fun _ l _ => Left B R l) s l

section Rules

variable {deadline : Deadline} {B R : Budget} {s : RouterState} {l : Trail Γ} {α : Type}

theorem punctual_plain {q : Ask Γ} (h : Left B R l) (hq : contacts q = [])
    (hsleep : ∀ w, q ≠ .call (.sleep w)) : Punctual deadline B s l q where
  budget x := by
    rw [hq]
    exact Nat.le_trans (Nat.le_add_right _ _) (h x)
  inTime hne := absurd hq hne
  backoff w hw := absurd hw (hsleep w)

theorem punctual_sleep {w : ℚ} (h : Left B R l)
    (hw : afterSlot l.events = true ∨ ∀ rest, deadline.remaining s.now = some rest → w < rest) :
    Punctual deadline B s l (.call (.sleep w)) where
  budget x := Nat.le_trans (Nat.le_add_right _ _) (h x)
  inTime hne := absurd rfl hne
  backoff w' hw' := by
    obtain rfl : w = w' := by injection hw' with hw'; injection hw'
    exact hw

variable {c : String × Option String}

theorem punctual_attempt {q : Ask Γ} (h : Left B (only c 1 + R) l)
    (hq : contacts q = [c]) (hsleep : ∀ w, q ≠ .call (.sleep w))
    (hdeadline : deadline.expired s.now = false) : Punctual deadline B s l q where
  budget x := by
    have hleft : spent x l + (only c 1 x + R x) ≤ B x := h x
    rw [hq, count_contact]
    omega
  inTime _ := hdeadline
  backoff w hw := absurd hw (hsleep w)

/-- Code that sends nothing, starts nothing and does not sleep. -/
theorem spends_of_delivers {c : Async α} (hc : Scope Delivers c) (h : Left B R l) :
    Spends S deadline B R c s l := by
  refine Coro.Follows.within (I := fun _ l => Left B R l) (fun _ _ _ h _ => h) ?_ ?_ hc h
  · intro s l q h hq
    cases q with
    | call q =>
      cases q with
      | nextChunk w => exact ⟨punctual_plain h rfl nofun, fun r _ _ => h.event rfl⟩
      | yieldChunk c => exact ⟨punctual_plain h rfl nofun, fun r _ _ => h.event rfl⟩
      | closeStream => exact ⟨punctual_plain h rfl nofun, fun r _ _ => h.event rfl⟩
      | _ => exact hq.elim
    | wait m hs => exact hq.elim
    | join hd => exact hq.elim
  · exact fun _ _ _ _ hq => hq.elim

theorem spends_sync {β : Type} {m : Routing β} {k : β → Async α} (h : Left B R l)
    (hk : ∀ a, (m s).1 = .ok a → Spends S deadline B R (k a) (m s).2 l) :
    Spends S deadline B R (Coro.sync m >>= k) s l := .sync_bind (fun _ _ => h) hk

/-! ## Calls -/

theorem follows_takeSlot {n : Nat} {w : Option ℚ} (h : Left B R l) :
    (takeSlot n w).Follows (anyWorld S) (Punctual deadline B)
      (fun _ l o => Left B R l ∧ ∀ u, o = .ok u → afterSlot l.events = true) s l := by
  unfold takeSlot
  split
  · refine Coro.Follows.ask_handle (q := (.call (.slotLocked n) : Ask Γ)) (punctual_plain h rfl nofun) ?_ ?_
    · intro locked s' _
      refine .mono (fun s l' o hl => ?_) (Coro.Follows.silent (N := Quiet) ?_)
      · obtain rfl := hl
        exact ⟨h.event rfl, fun _ _ => rfl⟩
      · refine .bind (.when fun _ => scope_reject) fun _ => ?_
        exact scope_update fun s => ⟨rfl, rfl, rfl, rfl, rfl, rfl⟩
    · exact fun e s' _ => ⟨h.event rfl, nofun⟩
  · refine Coro.Follows.ask_handle (q := (.call (.slot n w) : Ask Γ)) (punctual_plain h rfl nofun) ?_ ?_
    · exact fun _ s' _ => ⟨h.event rfl, fun _ _ => rfl⟩
    · intro e s' _
      refine .mono (fun s l' o hl => ?_) (Coro.Follows.silent (N := Quiet) ?_)
      · obtain rfl := hl
        exact ⟨h.event rfl, fun _ _ => rfl⟩
      · split
        · exact scope_reject
        · exact scope_fail

theorem spends_acquire {n : Nat} {tokens : ℚ} {w : Option ℚ} (h : Left B R l) :
    Spends S deadline B R (acquire n tokens w) s l := by
  refine spends_sync h fun started _ => .bind ((follows_takeSlot h).mono fun s l o ho => ?_)
  obtain ⟨h, hslot⟩ := ho
  cases o with
  | error e => exact h
  | ok u =>
    have hrates : Spends S deadline B R (awaitRates n tokens w started) s l := by
      refine spends_sync h fun wait _ => spends_sync h fun now _ => .when_bind (fun _ => ?_) fun _ => ?_
      · exact .bind (.sync_bind (fun _ _ => h) fun name _ => h)
      · refine .when (fun _ => ?_) fun _ => h
        exact Coro.Follows.ask (punctual_sleep h (.inl (hslot u rfl))) fun r s' _ => h.event rfl
    refine .bind (.tryCatch (hrates.mono fun s l o ho => ?_))
    cases o with
    | ok u => exact ho
    | error e => exact ho

variable {r : CompletionRequest} {name : String}

theorem spends_admitCall {probe : Nat} (h : Left B R l) :
    Spends S deadline B R (admitCall name r deadline probe) s l := by
  refine spends_sync h fun now _ => .tryCatch (.mono (Q := fun _ l _ => Left B R l) ?_ ?_)
  · intro s l o ho
    cases o with
    | ok t => exact ho
    | error e =>
      refine .mono (fun s l' o hl => ?_) (Coro.Follows.silent (N := Quiet) ?_)
      · obtain rfl := hl
        exact ho
      · refine .bind (.when fun _ => .sync (quiet_onStats _)) fun _ => .bind scope_reads fun b => ?_
        exact .bind (scope_update fun s => ⟨rfl, rfl, rfl, rfl, rfl, rfl⟩) fun _ => scope_fail
  · refine spends_sync h fun n _ => ?_
    cases n with
    | none => exact h
    | some n => exact .bind ((spends_acquire h).mono fun s l o ho => by cases o <;> exact ho)

theorem follows_attemptSeconds :
    (attemptSeconds S name deadline).Follows (anyWorld S) (Punctual deadline B)
      (fun s' l' o => s' = s ∧ l' = l ∧ ∀ a, o = .ok a → deadline.expired s.now = false) s l := by
  refine .sync_bind (fun e he => nomatch he) fun now hnow => .when_bind (fun _ => ⟨rfl, rfl, nofun⟩) ?_
  obtain rfl := Except.ok.inj hnow
  refine fun hpos => ⟨rfl, rfl, fun _ _ => ?_⟩
  unfold Deadline.expired
  unfold Deadline.clamp Deadline.remaining at hpos
  cases hend : deadline.endsAt with
  | none => rfl
  | some e =>
    rw [hend] at hpos
    by_contra hlate
    have hle : e ≤ s.now := of_decide_eq_true ((Bool.not_eq_false _).mp hlate)
    have hzero : max 0 (e - s.now) = 0 := max_eq_left (sub_nonpos.mpr hle)
    simp [hzero] at hpos

/-- One attempt of a call. -/
theorem spends_oneCall {p : Provider}
    (h : Left B (only (name, r.model) 1 + R) l) :
    Spends S deadline B R (oneCall S name p r deadline) s l := by
  refine .bind (follows_attemptSeconds.mono fun s' l' o ho => ?_)
  obtain ⟨rfl, rfl, hseconds⟩ := ho
  cases o with
  | error e => exact h.rest
  | ok seconds =>
    refine .ask_handle (q := (.call (.complete name p r seconds) : Ask Γ))
      (punctual_attempt h rfl nofun (hseconds _ rfl)) (fun a s' _ => h.attempt rfl) fun e s' _ => ?_
    have hleft := h.attempt (q := (.call (.complete name p r seconds) : Ask Γ)) (r := .error e) rfl
    refine .mono (fun s l' o hl => ?_) (Coro.Follows.silent (N := Quiet) ?_)
    · obtain rfl := hl
      exact hleft
    · split
      · exact scope_timedOut
      · exact scope_fail

/-- One attempt to open a stream. -/
theorem spends_openOnce {p : Provider}
    (h : Left B (only (name, r.model) 1 + R) l) :
    Spends S deadline B R (openOnce S name p r deadline) s l := by
  refine .bind (follows_attemptSeconds.mono fun s' l' o ho => ?_)
  obtain ⟨rfl, rfl, hseconds⟩ := ho
  cases o with
  | error e => exact h.rest
  | ok seconds =>
    refine .ask_handle (q := (.call (.firstChunk name p r seconds) : Ask Γ))
      (punctual_attempt h rfl nofun (hseconds _ rfl)) (fun a s' _ => h.attempt rfl) fun e s' _ => ?_
    refine spends_of_delivers ?_ (h.attempt rfl)
    split
    · exact scope_pure
    · split
      · exact .bind (scope_closeStream fun _ => id) fun _ => scope_timedOut
      · exact .bind (scope_closeStream fun _ => id) fun _ => scope_fail

/-- `more + 1` attempts at most, with backoffs that end before the deadline. -/
theorem spends_runWithRetry {func : Async α}
    (hfunc : ∀ {R s l}, Left B (only c 1 + R) l → Spends S deadline B R func s l) :
    ∀ {more attempt : Nat} {R : Budget} {s : RouterState} {l : Trail Γ},
      Left B (only c (more + 1) + R) l →
      Spends S deadline B R (runWithRetry S func deadline more attempt) s l
  | 0, _, _, _, _, h => hfunc h
  | more + 1, attempt, R, s, l, h => by
      rw [only_succ, add_assoc] at h
      refine .tryCatch ((hfunc h).mono fun s l o h => ?_)
      cases o with
      | ok a => exact h.rest
      | error e =>
        dsimp only
        split
        · exact h.rest
        · refine .bind ((Coro.Follows.silent (N := Quiet) scope_drawWait).mono fun s l' o hl => ?_)
          obtain rfl := hl
          cases o with
          | error e' => exact h.rest
          | ok wait =>
            cases wait with
            | none => exact h.rest
            | some wait =>
              refine .sync_bind (fun _ _ => h.rest) fun now hnow =>
                .when_bind (fun _ => h.rest) fun hwait => ?_
              obtain rfl := Except.ok.inj hnow
              refine spends_sync h.rest fun u _ => ?_
              refine .ask_handle (q := (.call (.sleep wait) : Ask Γ)) (punctual_sleep h (.inr ?_))
                (fun u s' _ => spends_runWithRetry hfunc (h.event rfl))
                fun e' s' _ => h.rest.event rfl
              intro rest hrest
              rw [show deadline.remaining s.now = some rest from hrest] at hwait
              exact not_le.mp (of_decide_eq_false hwait)

theorem spends_execute {func : Async α} {attempts : Nat}
    (hpos : 1 ≤ attempts)
    (hfunc : ∀ {R s l}, Left B (only c 1 + R) l → Spends S deadline B R func s l)
    (h : Left B (only c attempts + R) l) :
    Spends S deadline B R (execute S func deadline attempts) s l := by
  unfold execute
  split
  · rw [if_neg (Nat.pos_iff_ne_zero.mp hpos)]
    refine .tryCatch ((spends_runWithRetry hfunc (by rwa [Nat.sub_add_cancel hpos])).mono ?_)
    intro s l o ho
    cases o with
    | ok a => exact ho
    | error e =>
      refine .mono (fun s l' o hl => ?_) (Coro.Follows.silent (N := Quiet) ?_)
      · obtain rfl := hl
        exact ho
      · refine .bind (.when fun _ => ?_) fun _ => scope_fail
        exact scope_update fun s => ⟨rfl, rfl, rfl, rfl, rfl, rfl⟩
  · exact hfunc (h.mono fun x => Nat.add_le_add_right (only_le c hpos x) _)

theorem spends_silent {c : Async α} (hc : Scope (fun _ => False) c) (h : Left B R l) :
    Spends S deadline B R c s l := by
  refine (Coro.Follows.silent hc).mono fun s l' o hl => ?_
  obtain rfl := hl
  exact h

theorem follows_checkDeadline {b probe : Nat} :
    (checkDeadline deadline b probe).Follows (anyWorld S) (Punctual deadline B)
      (fun _ l' _ => l' = l) s l := Coro.Follows.silent scope_checkDeadline

/-- A call spends no more than its attempts. -/
theorem spends_callProvider {attempts probe : Nat}
    (hpos : 1 ≤ attempts) (h : Left B (only (name, r.model) attempts + R) l) :
    Spends S deadline B R (callProvider S name r deadline attempts probe) s l := by
  refine .sync_bind (fun _ _ => h.rest) fun p _ => .sync_bind (fun _ _ => h.rest) fun b _ => ?_
  refine .bind (follows_checkDeadline.mono fun s l' o hl => ?_)
  obtain rfl := hl
  cases o with
  | error e => exact h.rest
  | ok u =>
    refine .bind ((spends_admitCall h).mono fun s l o ho => ?_)
    cases o with
    | error e => exact ho.rest
    | ok ticket =>
      refine .handle ((Coro.Follows.handle ((spends_execute hpos spends_oneCall ho).mono ?_)).mono
        (Q := fun _ l _ => Left B R l) ?_)
      · intro s l o ho
        cases o with
        | ok response => exact ho
        | error e => exact spends_silent (.bind scope_settleFailure fun _ => scope_fail) ho
      · intro s l o ho
        cases o with
        | ok response =>
          exact spends_silent (.handle (scope_update fun s => quiet_limiterRelease s _)
            (fun _ => trivial) fun _ => trivial) ho
        | error e =>
          exact spends_silent (.handle (scope_update fun s => quiet_limiterRelease s _)
            (fun _ => trivial) fun _ => trivial) ho

theorem spends_openStream {attempts b probe : Nat}
    (hpos : 1 ≤ attempts) (h : Left B (only (name, r.model) attempts + R) l) :
    Spends S deadline B R (openStream S name r deadline attempts b probe) s l := by
  refine .sync_bind (fun _ _ => h.rest) fun p _ => ?_
  refine .bind (follows_checkDeadline.mono fun s l' o hl => ?_)
  obtain rfl := hl
  cases o with
  | error e => exact h.rest
  | ok u =>
    refine .bind ((spends_admitCall h).mono fun s l o ho => ?_)
    cases o with
    | error e => exact ho.rest
    | ok ticket =>
      refine .handle ((spends_execute hpos spends_openOnce ho).mono fun s l o ho => ?_)
      cases o with
      | ok first => exact ho
      | error e =>
        refine spends_silent (.bind scope_settleFailure fun _ => .bind ?_ fun _ => scope_fail) ho
        exact scope_update fun s => quiet_limiterRelease s _

/-! ## Hedged calls -/

theorem spends_wait {m : Wait} {hs : List Γ.Handle} {R : Budget} (h : Left B R l) :
    (Coro.wait m hs).Follows (anyWorld S) (Punctual deadline B)
      (fun _ l o => Left B R l ∧ ∀ e, o = .error e → e = .cancelled) s l := by
  refine Coro.Follows.ask (punctual_plain h rfl nofun) fun r s' hr => ⟨h.event rfl, ?_⟩
  rintro e rfl
  exact hr.2

theorem spends_awaitAll {hs : List Γ.Handle} {R : Budget} (h : Left B R l) :
    (awaitAll hs).Follows (anyWorld S) (Punctual deadline B)
      (fun _ l o => Left B R l ∧ ∀ e, o = .error e → e = .cancelled) s l := by
  refine .bind ((spends_wait h).mono fun s l o ho => ?_)
  cases o with
  | ok x => exact ⟨ho.1, nofun⟩
  | error e => exact ⟨ho.1, fun e' he => ho.2 e' (congrArg _ (Except.error.inj he))⟩

theorem firstSuccess_error {e : Exc} :
    ∀ {l : List Γ.Ending}, firstSuccess l = .error e → e = .cancelled
  | [], h => nomatch h
  | x :: rest, h => by
      unfold firstSuccess at h
      split at h
      · cases h
      · split at h
        · rename_i hc
          rw [← Except.error.inj h]
          exact hc
        · cases hrest : firstSuccess rest with
          | error e' =>
            rw [hrest] at h
            obtain rfl := Except.error.inj h
            exact firstSuccess_error hrest
          | ok y =>
            rw [hrest] at h
            cases y <;> cases h

theorem spends_hedgeLoop {nameOf : Γ.Handle → String} :
    ∀ {rounds : Nat} {pending : List Γ.Handle} {errors : List (String × Exc)} {s : RouterState}
      {l : Trail Γ}, Left B R l →
      (hedgeLoop nameOf rounds pending errors).Follows (anyWorld S) (Punctual deadline B)
        (fun _ l o => Left B R l ∧ (∀ e, o = .error e → e = .cancelled) ∧
          ∀ n x b, o = .ok (.won n x b) → b = true) s l
  | 0, _, _, _, _, h => ⟨h, by simp, by simp⟩
  | rounds + 1, pending, errors, s, l, h => by
      unfold hedgeLoop
      split
      · exact ⟨h, by simp, by simp⟩
      · refine .bind ((spends_wait h).mono fun s l o ho => ?_)
        obtain ⟨h, herror⟩ := ho
        cases o with
        | error e => exact ⟨h, fun e' he => herror e' (congrArg _ (Except.error.inj he)), by simp⟩
        | ok ended =>
          dsimp only
          split
          · rename_i e he
            refine ⟨h, fun e' he' => ?_, by simp⟩
            rw [← Except.error.inj he']
            exact firstSuccess_error he
          · rename_i winner response hw
            refine .when_bind (fun _ => ?_) fun _ => ?_
            · refine .bind ((spends_awaitAll h).mono fun s l o ho => ?_)
              cases o with
              | ok u => exact ⟨ho.1, by simp, fun n x b heq => by cases heq; rfl⟩
              | error e =>
                exact ⟨ho.1, fun e' he => ho.2 e' (congrArg _ (Except.error.inj he)), by simp⟩
            · exact ⟨h, by simp, fun n x b heq => by cases heq; rfl⟩
          · exact spends_hedgeLoop h

/-- A hedged call takes the attempts of its legs. If it fails in a way the
request may go on after, the partner was not called. -/
theorem spends_callHedged {primary partner : String} {r partnerReq : CompletionRequest}
    {attempts partnerAttempts probe : Nat}
    (h : Left B (only (primary, r.model) attempts +
      (only (partner, partnerReq.model) partnerAttempts + R)) l) :
    (callHedged primary partner r partnerReq deadline attempts partnerAttempts probe).Follows
      (anyWorld S) (Punctual deadline B) (fun _ l o => Left B R l ∧ ∀ e, o = .error e →
        e = .cancelled ∨ Left B (only (partner, partnerReq.model) partnerAttempts + R) l) s l := by
  refine .start_bind fun n => .bind ((spends_wait h.start).mono fun s l o ho => ?_)
  obtain ⟨h, herror⟩ := ho
  cases o with
  | error e => exact ⟨h.rest, fun _ _ => .inr h⟩
  | ok ended =>
    cases ended with
    | cons x ended =>
      show ((Coro.ofExcept (result x) : Async CompletionResponse).handle _ _).Follows _ _ _ _ _
      cases result x with
      | ok response => exact ⟨h.rest, nofun⟩
      | error e => exact ⟨h.rest, fun _ _ => .inr h⟩
    | nil =>
      refine .sync_bind (fun _ _ => ⟨h.rest, fun _ _ => .inr h⟩) fun b _ => ?_
      refine .sync_bind (fun e he => nomatch he) fun partnerProbe _ => ?_
      cases partnerProbe with
      | none =>
        refine .ask_handle (punctual_plain h rfl nofun) (fun a s' _ => ?_) fun e s' _ => ?_
        · exact ⟨h.rest.event rfl, nofun⟩
        · exact ⟨h.rest.event rfl, fun _ _ => .inr (h.event rfl)⟩
      | some partnerProbe =>
        refine .start_bind fun n' => .sync_bind (fun e he => nomatch he) fun u _ => ?_
        refine .bind (.tryCatch ((spends_hedgeLoop h.start).mono fun s l o ho => ?_))
        obtain ⟨h, herror, -⟩ := ho
        cases o with
        | ok hedged =>
          refine .when_bind (fun _ => ?_) fun _ => ⟨h, nofun⟩
          exact .sync_bind (fun e he => nomatch he) fun u _ => ⟨h, nofun⟩
        | error e =>
          obtain rfl := herror e rfl
          refine .bind ((spends_awaitAll h).mono fun s l o ho => ?_)
          cases o with
          | ok u => exact ⟨ho.1, fun _ he => .inl (Except.error.inj he).symm⟩
          | error e => exact ⟨ho.1, fun e' he => .inl (ho.2 e' (congrArg _ (Except.error.inj he)))⟩

/-! ## Candidate loops -/

theorem spends_exhausted {i : Nat} {single : Bool} {g : Progress} (h : Left B R l) :
    Spends S deadline B R (exhausted i single g : Async α) s l := spends_silent scope_exhausted h

theorem spends_goOn {b isLast : Bool} {e : Exc} {k : Async α} (h : Left B R l)
    (hk : ∀ s, b = false → Spends S deadline B R k s l) :
    Spends S deadline B R (do
      Coro.when b (Coro.fail e)
      countFailover isLast
      k) s l := by
  refine .when_bind (fun _ => h) fun hb => ?_
  refine .bind ((Coro.Follows.silent (N := Quiet) scope_countFailover).mono fun s l' o hl => ?_)
  obtain rfl := hl
  cases o with
  | ok u => exact hk s hb
  | error e => exact h

theorem attemptsFor_pos (hretry : 1 ≤ S.config.maxRetryAttempts)
    (hbefore : 1 ≤ S.config.maxAttemptsBeforeFailover) (isLast : Bool) : 1 ≤ attemptsFor S isLast := by
  unfold attemptsFor
  split
  · exact hretry
  · exact le_min hretry hbefore

theorem partnerOf_some {hedging : Bool} {g : Progress}
    {rest : List (String × CompletionRequest)} {c : String × CompletionRequest}
    (h : partnerOf hedging r name g rest = some c) :
    ∃ rest', rest = c :: rest' ∧ g.skip.contains c.1 = false := by
  cases rest with
  | nil => cases h
  | cons next rest' =>
    rw [partnerOf, Option.ite_none_right_eq_some] at h
    obtain ⟨hcond, heq⟩ := h
    obtain rfl := Option.some.inj heq
    simp only [Bool.and_eq_true, Bool.not_eq_true'] at hcond
    exact ⟨rest', rfl, hcond.1.2⟩

theorem spends_routeLoop (hpos : ∀ isLast, 1 ≤ attemptsFor S isLast) {i : Nat}
    {hedging single : Bool} :
    ∀ {plan : List (String × CompletionRequest)} {g : Progress} {s : RouterState} {l : Trail Γ},
      Left B (allowance S g.skip plan) l →
      Spends S deadline B 0 (routeLoop S i r deadline hedging single plan g) s l
  | [], _, _, _, h => spends_exhausted h
  | (name, req) :: rest, g, s, l, h => by
      have hrest : Left B (allowance S g.skip rest) l := h.mono fun x => allowance_cons_le x
      unfold routeLoop
      split
      · exact spends_routeLoop hpos hrest
      · rename_i hskip
        have hsplit : allowance S g.skip ((name, req) :: rest) =
            only (name, req.model) (attemptsFor S rest.isEmpty) + allowance S g.skip rest := by
          rw [allowance, if_neg hskip]
        rw [hsplit] at h
        refine spends_sync h.none fun u _ => ?_
        refine .bind ((Coro.Follows.silent (N := Quiet) scope_allowCandidate).mono fun s l' o hl => ?_)
        obtain rfl := hl
        rcases o with e | ⟨b, e | probe⟩
        · exact h.none
        · exact spends_routeLoop hpos hrest
        · have hfail : ∀ {e : Exc} {s : RouterState} {l : Trail Γ},
              (e.isException = true → Left B (allowance S g.skip rest) l) → Left B 0 l →
              Spends S deadline B 0 (do
                Coro.when (!e.isException || givesUp S e) (Coro.fail e)
                countFailover rest.isEmpty
                routeLoop S i r deadline hedging single rest (g.add name e)) s l := by
            intro e s l hgo h
            refine spends_goOn h fun s hb => spends_routeLoop hpos (hgo ?_)
            cases he : e.isException with
            | true => rfl
            | false => rw [he] at hb; cases hb
          dsimp only
          split
          · refine .handle ((spends_callProvider (hpos _) h).mono fun s l o ho => ?_)
            cases o with
            | ok response => exact spends_silent scope_succeed ho.none
            | error e => exact hfail (fun _ => ho) ho.none
          · rename_i partner partnerReq hpartner
            obtain ⟨rest', rfl, hnew⟩ := partnerOf_some hpartner
            have hboth : allowance S g.skip ((partner, partnerReq) :: rest') =
                only (partner, partnerReq.model) (attemptsFor S rest'.isEmpty) +
                  allowance S g.skip rest' := by
              rw [allowance, if_neg (by rw [hnew]; exact Bool.false_ne_true)]
            rw [hboth] at h hfail
            refine .handle ((spends_callHedged h).mono fun s l o ho => ?_)
            obtain ⟨ho, herror⟩ := ho
            cases o with
            | error e =>
              refine hfail (fun he => ?_) ho.none
              rcases herror e rfl with rfl | hleft
              · cases he
              · exact hleft
            | ok hedged =>
              cases hedged with
              | won winner response launched => exact spends_silent scope_succeed ho.none
              | failed errors =>
                -- the partner is skipped from here on
                have hskipped : ∀ x, allowance S (partner :: g.skip) ((partner, partnerReq) :: rest') x ≤
                    allowance S g.skip rest' x := by
                  intro x
                  rw [allowance, if_pos (by simp), zero_add]
                  exact allowance_skip_le x
                refine .bind (Coro.follows_ofExcept.mpr ?_)
                cases lookup (Dict.ofList errors) name with
                | error e => exact ho.none
                | ok last => exact spends_goOn ho.none fun s _ => spends_routeLoop hpos (ho.mono hskipped)

theorem spends_streamLoop (hpos : ∀ isLast, 1 ≤ attemptsFor S isLast) {i chunks : Nat} {single : Bool} :
    ∀ {plan : List (String × CompletionRequest)} {g : Progress} {s : RouterState} {l : Trail Γ},
      Left B (allowance S [] plan) l →
      Spends S deadline B 0 (streamLoop S i deadline single chunks plan g) s l
  | [], _, _, _, h => spends_exhausted h
  | (name, req) :: rest, g, s, l, h => by
      have hsplit : allowance S [] ((name, req) :: rest) =
          only (name, req.model) (attemptsFor S rest.isEmpty) + allowance S [] rest := rfl
      rw [hsplit] at h
      refine spends_sync h.none fun u _ => ?_
      refine .bind ((Coro.Follows.silent (N := Quiet) scope_allowCandidate).mono fun s l' o hl => ?_)
      obtain rfl := hl
      rcases o with e | ⟨b, e | probe⟩
      · exact h.none
      · exact spends_streamLoop hpos h.rest
      · refine spends_sync h.none fun u _ => ?_
        -- the usage object the request carries does not change its model
        have hopen : Left B (only (name, { req with streamUsage := some u }.model)
            (attemptsFor S rest.isEmpty) + allowance S [] rest) l' := h
        refine .handle ((spends_openStream (hpos _) hopen).mono fun s l o ho => ?_)
        cases o with
        | ok x => exact spends_of_delivers (scope_runStream fun _ => id) ho.none
        | error e => exact spends_goOn ho.none fun s _ => spends_streamLoop hpos ho

end Rules

/-! ## Tasks -/

/-- The attempts on a candidate a task has made, the one it is at included. -/
def attempts (x : String × Option String) (t : Task Γ) : Nat :=
  (t.hist.map fun e => (contacts e.1).count x).sum + (contactsOf t).count x

/-- A task that waits for a provider, or that backs off, does so before the
deadline. -/
structure OnTime (deadline : Deadline) (now : ℚ) (t : Task Γ) : Prop where
  attempt : contactsOf t ≠ [] → deadline.expired now = false
  backoff : ∀ w k, t.status = .suspended (.call (.sleep w)) k → afterSlot t.hist = true ∨
    ∀ rest, deadline.remaining now = some rest → w < rest

/-- What a trail has spent is what its events are and what its children may
spend. -/
theorem spent_eq (x : String × Option String) (l : Trail Γ) :
    spent x l = (l.events.map fun e => (contacts e.1).count x).sum +
      (l.started.map fun h => cost x (.inr h)).sum := by
  induction l with
  | nil => rfl
  | cons e l ih =>
    rw [spent_cons, ih]
    cases e with
    | inl e =>
      rw [Trail.events_inl, Trail.started_inl, List.map_cons, List.sum_cons]
      exact (Nat.add_assoc _ _ _).symm
    | inr h =>
      rw [Trail.events_inr, Trail.started_inr, List.map_cons, List.sum_cons]
      exact Nat.add_left_comm _ _ _

section Tasks

variable {deadline : Deadline} {B : Budget} {i : Nat} {t : Task Γ} {s₀ s : RouterState} {l : Trail Γ}

/-- The attempts of a task, and those its children may make, are in its budget. -/
theorem attempts_le (h : (program S).TracedTo (fun _ _ => True) i t s₀ l s)
    (hbody : Spends S deadline B 0 (body S i t.child) s₀ []) (x : String × Option String) :
    attempts x t + (l.started.map fun h => cost x (.inr h)).sum ≤ B x := by
  have hspent := spent_eq x l
  rw [← h.1] at hspent
  unfold attempts contactsOf
  split
  · rename_i q k hq
    have hbudget := (h.awaits hbody hq).budget x
    omega
  · rename_i hnot
    have hle : spent x l ≤ B x := by
      cases hstatus : t.status with
      | ready =>
        obtain ⟨-, c, hc, -⟩ := h
        rw [hstatus] at hc
        cases hc
      | suspended q k => exact absurd hstatus (hnot q k)
      | done o => exact h.ends hbody hstatus x
    rw [List.count_nil]
    omega

theorem onTime (h : (program S).TracedTo (fun _ _ => True) i t s₀ l s)
    (hbody : Spends S deadline B 0 (body S i t.child) s₀ []) : OnTime deadline s.now t where
  attempt hne := by
    unfold contactsOf at hne
    split at hne
    · rename_i q k hq
      exact (h.awaits hbody hq).inTime hne
    · exact absurd rfl hne
  backoff w k hw := by
    have hmay := (h.awaits hbody hw).backoff w rfl
    rwa [← h.1] at hmay

/-- The candidates a request is given are its budget, and its deadline is that of
the moment it starts in. -/
theorem spends_request (hpos : ∀ isLast, 1 ≤ attemptsFor S isLast) {c : Call} {r : CompletionRequest}
    {preferred : Option String} (hc : c.request = some (r, preferred)) (s : RouterState) :
    ∃ plan, (plan = [] ∨ ∃ r', (prepare S r preferred c.seconds s).1 =
        .ok (r', Deadline.init (c.seconds <|> S.config.deadlineSeconds) s.now, plan)) ∧
      Spends S (Deadline.init (c.seconds <|> S.config.deadlineSeconds) s.now) (allowance S [] plan) 0
        (body S i c) s [] := by
  have hnothing : Left (allowance S [] []) 0 [] := fun x => Nat.le_refl 0
  have hall : ∀ plan, Left (allowance S [] plan) (allowance S [] plan) [] := fun plan x => by
    show 0 + _ ≤ _
    rw [Nat.zero_add]
  cases hx : (prepare S r preferred c.seconds s).1 with
  | error e =>
    refine ⟨[], .inl rfl, ?_⟩
    cases c with
    | route r' preferred' d =>
      obtain ⟨rfl, rfl⟩ := Prod.mk.inj (Option.some.inj hc)
      exact .sync_bind (fun _ _ => hnothing) fun x hx' => nomatch hx.symm.trans hx'
    | stream r' preferred' d k =>
      obtain ⟨rfl, rfl⟩ := Prod.mk.inj (Option.some.inj hc)
      exact .sync_bind (fun _ _ => hnothing) fun x hx' => nomatch hx.symm.trans hx'
    | embed x m n => cases hc
    | leg n r d a t => cases hc
  | ok x =>
    obtain ⟨r', d', plan⟩ := x
    obtain ⟨-, hd, -⟩ := prepare_ok hx
    obtain rfl : d' = _ := hd
    refine ⟨plan, .inr ⟨r', rfl⟩, ?_⟩
    cases c with
    | route r' preferred' d =>
      obtain ⟨rfl, rfl⟩ := Prod.mk.inj (Option.some.inj hc)
      refine .sync_bind (fun e he => nomatch hx.symm.trans he) fun x hx' => ?_
      obtain rfl := Except.ok.inj (hx.symm.trans hx')
      refine spends_sync (hall plan).none fun hit _ => ?_
      cases hit with
      | some hit => exact (hall plan).none
      | none =>
        refine spends_sync (hall plan).none fun delay _ => ?_
        exact spends_routeLoop hpos (hall plan)
    | stream r' preferred' d k =>
      obtain ⟨rfl, rfl⟩ := Prod.mk.inj (Option.some.inj hc)
      refine .sync_bind (fun e he => nomatch hx.symm.trans he) fun x hx' => ?_
      obtain rfl := Except.ok.inj (hx.symm.trans hx')
      exact spends_streamLoop hpos (hall plan)
    | embed x m n => cases hc
    | leg n r d a t => cases hc

end Tasks

/-! ## The last error -/

/-- A retried call fails as its last attempt did, or is interrupted in a backoff. -/
inductive LastError {α : Type} (E : Coro.Env Γ) (func : Async α) (e : Exc) : Trail Γ → Prop
  | attempt {s s' : RouterState} {l l' : Trail Γ} :
      Coro.Runs E func s l (.error e) s' → LastError E func e (l ++ l')
  | interrupted {w : ℚ} {l : Trail Γ} :
      LastError E func e (.inl ⟨.call (.sleep w), .error e⟩ :: l)

section Errors

variable {α : Type} {E : Coro.Env Γ} {func : Async α} {e : Exc} {deadline : Deadline}

variable {l : Trail Γ}

theorem LastError.append (h : LastError E func e l) (l' : Trail Γ) :
    LastError E func e (l ++ l') := by
  cases h with
  | attempt h => rw [List.append_assoc]; exact .attempt h
  | interrupted => exact .interrupted

theorem runs_drawWait {attempt : Nat} {info : ErrorInfo} {s s' : RouterState}
    {o : Except Exc (Option ℚ)} (h : Coro.Runs E (drawWait S attempt info) s l o s') :
    l = [] ∧ ∃ w, o = .ok w := by
  unfold drawWait at h
  split at h
  · obtain ⟨rfl, rfl, -⟩ := Coro.Runs.of_ret h
    exact ⟨rfl, _, rfl⟩
  · replace h := runs_yields h
    obtain ⟨rfl, rfl, -⟩ := Coro.Runs.of_ret h
    exact ⟨rfl, _, rfl⟩

theorem lastError_runWithRetry :
    ∀ {more attempt : Nat} {s s' : RouterState} {l : Trail Γ},
      Coro.Runs E (runWithRetry S func deadline more attempt) s l (.error e) s' →
      LastError E func e l
  | 0, _, _, _, l, h => by
      rw [← List.append_nil l]
      exact .attempt h
  | more + 1, attempt, s, s', l, h => by
      unfold runWithRetry at h
      rcases Coro.Runs.of_tryCatch h with ⟨a, ha, -⟩ | ⟨e₁, s₁, l₁, l₂, hfunc, rfl, hrest⟩
      · cases ha
      clear h
      have hraised : ∀ {s₂ : RouterState}, Coro.Runs E (Coro.fail e₁ : Async α) s₂ l₂ (.error e) s' →
          LastError E func e (l₂ ++ l₁) := by
        intro s₂ hfail
        obtain ⟨heq, rfl, -⟩ := Coro.Runs.of_fail hfail
        obtain rfl := Except.error.inj heq
        rw [List.nil_append, ← List.append_nil l₁]
        exact .attempt hfunc
      split at hrest
      · exact hraised hrest
      rcases Coro.Runs.of_bind hrest with ⟨e', -, hdraw⟩ | ⟨w, s₂, l₃, l₄, hdraw, rfl, h⟩
      · obtain ⟨-, w, hw⟩ := runs_drawWait hdraw
        cases hw
      obtain ⟨rfl, -⟩ := runs_drawWait hdraw
      rw [List.append_nil] at hraised ⊢
      cases w with
      | none => exact hraised h
      | some wait =>
        replace h := runs_reads (a := s₂.now) rfl h
        rcases Coro.Runs.of_bind h with ⟨e', heq, hwhen⟩ | ⟨u, s₃, l₅, l₆, hwhen, rfl, hwait⟩
        · rcases Coro.Runs.of_when hwhen with ⟨-, hfail⟩ | ⟨-, ho, -⟩
          · obtain ⟨he, rfl, -⟩ := Coro.Runs.of_fail hfail
            rw [Except.error.inj heq, Except.error.inj he]
            rw [List.nil_append, ← List.append_nil l₁]
            exact .attempt hfunc
          · cases ho
        · rcases Coro.Runs.of_when hwhen with ⟨-, hfail⟩ | ⟨-, -, rfl, -⟩
          · obtain ⟨ho, -⟩ := Coro.Runs.of_fail hfail
            cases ho
          rw [List.append_nil]
          replace hwait := runs_update hwait
          rcases Coro.Runs.of_bind hwait with ⟨e', heq, hsleep⟩ | ⟨u, s₄, l₇, l₈, hsleep, rfl, hnext⟩
          · obtain ⟨-, rfl⟩ := Coro.Runs.of_ask hsleep
            rw [Except.error.inj heq]
            exact .interrupted
          · rw [List.append_assoc]
            exact (lastError_runWithRetry hnext).append _

theorem lastError_execute {s s' : RouterState} {n : Nat}
    (h : Coro.Runs E (execute S func deadline n) s l (.error e) s') : LastError E func e l := by
  unfold execute at h
  split at h
  · rcases Coro.Runs.of_tryCatch h with ⟨a, ha, -⟩ | ⟨e₁, s₁, l₁, l₂, hrun, rfl, hrest⟩
    · cases ha
    have hlast := lastError_runWithRetry hrun
    rcases Coro.Runs.of_bind hrest with ⟨e', -, hwhen⟩ | ⟨u, s₂, l₃, l₄, hwhen, rfl, hfail⟩
    · rcases Coro.Runs.of_when hwhen with ⟨-, hupdate⟩ | ⟨-, ho, -⟩
      · obtain ⟨ho, -⟩ := Coro.Runs.of_sync hupdate
        cases ho
      · cases ho
    · have hl₃ : l₃ = [] := by
        rcases Coro.Runs.of_when hwhen with ⟨-, hupdate⟩ | ⟨-, -, hl, -⟩
        · exact (Coro.Runs.of_sync hupdate).2.1
        · exact hl
      obtain ⟨heq, rfl, -⟩ := Coro.Runs.of_fail hfail
      obtain rfl := Except.error.inj heq
      rw [hl₃, List.append_nil, List.nil_append]
      exact hlast
  · rw [← List.append_nil l]
    exact .attempt h

end Errors

/-! ## Requests -/

variable {p : Pool Γ}

/-- Different children of a trail cost no more than the trail. -/
theorem sum_started_le {z : List (Machine.Step (Pool Γ) (Move Γ Op))} {i : Nat}
    {l : Trail Γ} (hl : (program S).Lists z p i l) {f : Nat → Nat} {g : Γ.Handle → Nat}
    (hfg : ∀ h ∈ l.started, f h.1 ≤ g h) {js : List Nat} (hjs : js.Nodup)
    (hstarted : ∀ j ∈ js, (program S).StartedBy z i j) :
    (js.map f).sum ≤ (l.started.map g).sum := by
  have hsub : js ⊆ l.started.map Prod.fst := by
    intro j hj
    obtain ⟨h, hh, rfl⟩ := hl.listed j (hstarted j hj)
    exact List.mem_map_of_mem hh
  obtain ⟨ks, hperm, hks⟩ := hjs.subperm hsub
  calc (js.map f).sum = (ks.map f).sum := (hperm.map f).sum_eq.symm
    _ ≤ ((l.started.map Prod.fst).map f).sum := (hks.map f).sum_le_sum fun _ _ => Nat.zero_le _
    _ = (l.started.map fun h => f h.1).sum := by rw [List.map_map]; rfl
    _ ≤ (l.started.map g).sum := List.sum_le_sum hfg

/-- The attempts on a candidate of the task at a place of the pool. -/
def attemptsAt (p : Pool Γ) (x : String × Option String) (j : Nat) : Nat :=
  (p.tasks[j]?.map (attempts x)).getD 0

theorem attemptsAt_eq {x : String × Option String} {j : Nat} {t : Task Γ}
    (h : p.tasks[j]? = some t) : attemptsAt p x j = attempts x t := by
  unfold attemptsAt
  rw [h]
  rfl

theorem attempts_ready {init : RouterState → Prop}
    (hp : ((program S).machine init).Reach Machine.free p) {j : Nat} {t : Task Γ}
    (ht : p.tasks[j]? = some t) (hready : t.status = .ready) (x : String × Option String) :
    attempts x t = 0 := by
  unfold attempts contactsOf
  rw [Program.hist_of_ready (fun _ => rfl) hp t (List.mem_of_getElem? ht) hready, hready]
  rfl

theorem left_only (c : String × Option String) (n : Nat) : Left (only c n) (only c n + 0) [] := by
  intro x
  show 0 + (only c n x + 0) ≤ only c n x
  rw [Nat.zero_add]
  exact Nat.le_refl _

/-- A leg makes no more attempts than it may. -/
theorem attempts_leg {init : RouterState → Prop}
    (hp : ((program S).machine init).Reach Machine.free p) {h : Γ.Handle} {t : Task Γ}
    (ht : p.tasks[h.1]? = some t) (hchild : t.child = h.2) {name : String} {r : CompletionRequest}
    {deadline : Deadline} {n probe : Nat} (hleg : h.2 = .leg name r deadline n probe) (hpos : 1 ≤ n)
    (x : String × Option String) : attempts x t ≤ cost x (.inr h) := by
  obtain ⟨j, c⟩ := h
  obtain rfl : c = .leg name r deadline n probe := hleg
  rcases tame_asks.known hp ht with hready | ⟨s₀, l, s, htr, -⟩
  · rw [attempts_ready hp ht hready]
    exact Nat.zero_le _
  · have hbody : Spends S deadline (only (name, r.model) n) 0 (body S j t.child) s₀ [] := by
      rw [hchild]
      exact spends_callProvider hpos (left_only _ _)
    exact Nat.le_trans (Nat.le_add_right _ _) (attempts_le htr hbody x)

/-- **The deadline and the attempts of a request.** With positive numbers of
attempts configured, let a request start in any state. However the run goes on,
every attempt and every backoff of the request and of the legs it starts is made
before its deadline; over all of them, no candidate is attempted more often than
its plan says; and a retried call that fails raises the error of its last
attempt. -/
theorem deadline_bounds (hretry : 1 ≤ S.config.maxRetryAttempts)
    (hbefore : 1 ≤ S.config.maxAttemptsBeforeFailover) {init : RouterState → Prop} {p p' p'' : Pool Γ}
    (hp : ((program S).machine init).Reach Machine.free p) {i : Nat} {c : Call}
    {hist : List (Event Γ)} {r : CompletionRequest} {preferred : Option String}
    (hi : p.tasks[i]? = some ⟨c, .ready, hist⟩) (hc : c.request = some (r, preferred))
    (hstep : (program S).step p (.start i) = some p')
    {z : List (Machine.Step (Pool Γ) (Move Γ Op))}
    (hrun : ((program S).machine init).Run p' z p'') {deadline : Deadline}
    (hdeadline : deadline = .init (c.seconds <|> S.config.deadlineSeconds) p.state.now) :
    (∀ j, j = i ∨ (program S).StartedBy (⟨p, .start i, p'⟩ :: z) i j →
      ∀ e ∈ ⟨p, .start i, p'⟩ :: z, (program S).Moves j e.label →
        ∀ t, e.target.tasks[j]? = some t → OnTime deadline e.target.state.now t) ∧
    (∃ plan, (plan = [] ∨ ∃ r', (prepare S r preferred c.seconds p.state).1 = .ok (r', deadline, plan)) ∧
      ∀ js : List Nat, js.Nodup →
        (∀ j ∈ js, j = i ∨ (program S).StartedBy (⟨p, .start i, p'⟩ :: z) i j) →
        ∀ x, (js.map (attemptsAt p'' x)).sum ≤ allowance S [] plan x) ∧
    ∀ {α : Type} {func : Async α} {E : Coro.Env Γ} {n : Nat} {s s' : RouterState} {l : Trail Γ} {e : Exc},
      Coro.Runs E (execute S func deadline n) s l (.error e) s' → LastError E func e l := by
  obtain rfl : hist = [] := Program.hist_of_ready (fun _ => rfl) hp _ (List.mem_of_getElem? hi) rfl
  have hpos := attemptsFor_pos hretry hbefore
  obtain ⟨plan, hplan, hbody⟩ := spends_request hpos hc p.state (i := i)
  rw [← hdeadline] at hplan hbody
  obtain ⟨plan', -, hscope⟩ := asks_request (S := S) (i := i) hc p.state hdeadline
  obtain ⟨t₀, l, ht₀, rfl, ⟨s₁, htr, -⟩, hlists⟩ :=
    tame_asks.traced_from (tame_asks.scoped_reach hp) hi hstep hrun fun _ _ => trivial
  have hfirst : ((program S).machine init).step p (.start i) p' := ⟨hstep, trivial⟩
  have hall : ((program S).machine init).Run p (⟨p, .start i, p'⟩ :: z) p'' :=
    (Machine.Run.single hfirst).append hrun
  have hlegs : ∀ h ∈ l.started, ∃ name r n probe, 1 ≤ n ∧ h.2 = .leg name r deadline n probe := by
    intro h hh
    obtain ⟨-, d, hd, hexec⟩ := htr
    obtain ⟨y, -, last, probe, hleg⟩ := (hscope (Status.left_ne_act hd) hexec).1 h hh
    exact ⟨_, _, _, _, hpos last, hleg⟩
  refine ⟨fun j hj e he hm t ht => ?_, ⟨plan, hplan, fun js hjs hmem x => ?_⟩, lastError_execute⟩
  · obtain ⟨hestep, ⟨l₁, hbefore, -⟩, l₂, hafter, -⟩ := hall.split he
    rcases hj with rfl | hj
    · obtain ⟨t', l', ht', hchild, htr'⟩ :=
        tame_asks.traced_at (tame_asks.scoped_reach hp) hi hstep hrun (fun _ _ => trivial) he hm
      obtain rfl := Option.some.inj (ht.symm.trans ht')
      rw [← hchild] at hbody
      exact onTime htr' hbody
    · obtain ⟨s₀, l', htr'⟩ := tame_asks.known_step (hp.run hbefore fun _ _ => trivial) hestep trivial hm ht
      obtain ⟨h, hh, rfl⟩ := hlists.listed j hj
      obtain ⟨name, r', n, probe, hn, hleg⟩ := hlegs h hh
      obtain ⟨u, hu, hchild⟩ := hlists.children h hh
      obtain ⟨u', hu', hchild'⟩ := Program.child_run (fun _ => rfl) hafter ht
      obtain rfl := Option.some.inj (hu.symm.trans hu')
      have hbody' : Spends S deadline (only (name, r'.model) n) 0 (body S h.1 t.child) s₀ [] := by
        rw [← hchild', hchild, hleg]
        exact spends_callProvider hn (left_only _ _)
      exact onTime htr' hbody'
  · have hown := attempts_le htr hbody x
    have hcost : ∀ h ∈ l.started, attemptsAt p'' x h.1 ≤ cost x (.inr h) := by
      intro h hh
      obtain ⟨name, r', n, probe, hn, hleg⟩ := hlegs h hh
      obtain ⟨u, hu, hchild⟩ := hlists.children h hh
      rw [attemptsAt_eq hu]
      exact attempts_leg (hp.run hall fun _ _ => trivial) hu hchild hleg hn x
    have hsum : ∀ ks : List Nat, ks.Nodup → (∀ j ∈ ks, (program S).StartedBy _ i j) →
        (ks.map (attemptsAt p'' x)).sum ≤ (l.started.map fun h => cost x (.inr h)).sum :=
      fun ks => sum_started_le hlists hcost
    by_cases hself : i ∈ js
    · have hrest := hsum (js.erase i) (hjs.erase i) fun j hj =>
        (hmem j (List.mem_of_mem_erase hj)).resolve_left fun heq => (hjs.mem_erase_iff.mp hj).1 heq
      rw [((List.perm_cons_erase hself).map _).sum_eq, List.map_cons, List.sum_cons, attemptsAt_eq ht₀]
      omega
    · have hrest := hsum js hjs fun j hj => (hmem j hj).resolve_left fun heq => hself (heq ▸ hj)
      omega

/-- A router with retries, and so many attempts before a failover. -/
def retrying (before : Nat) : Setup where
  config := { enableCache := false, maxAttemptsBeforeFailover := before }

/-- A request to `a` and `b` is about to start. -/
def retryingPool (before : Nat) : Pool Γ :=
  ⟨RouterState.init (retrying before) pair, [⟨.route greeting none none, .ready, []⟩]⟩

theorem retryingPool_reach (before : Nat) :
    (system (retrying before)).Reach Machine.free (retryingPool before) :=
  .step (s := ⟨RouterState.init (retrying before) pair, []⟩) (i := .spawn (.route greeting none none))
    (.start ⟨⟨pair, rfl⟩, rfl⟩) ⟨rfl, trivial⟩ trivial

/-- `a` is unavailable, and is tried again each time. -/
def unavailable : List (Move Γ Op) :=
  [.resume 0 (upstream none), .resume 0 (upstream (some (.upstream { status := some 503 }))),
    .resume 0 (upstream none), .resume 0 (upstream (some (.upstream { status := some 503 })))]

/-- The plan a request is given. -/
def planOf (S : Setup) (p : Pool Γ) : Option (List (String × CompletionRequest)) :=
  (prepare S greeting none none p.state).1.toOption.map (·.2.2)

theorem deadline_bounds_retry :
    ∃ p'' : Pool Γ, attemptsAt p'' ("a", none) 0 = 2 ∧ ∃ plan,
      (plan = [] ∨ ∃ r' deadline, (prepare (retrying 2) greeting none none (retryingPool 2).state).1 =
        .ok (r', deadline, plan)) ∧
      attemptsAt p'' ("a", none) 0 ≤ allowance (retrying 2) [] plan ("a", none) := by
  have hrun : (((program (retrying 2)).step (retryingPool 2) (.start 0)).bind fun p' =>
      (program (retrying 2)).replay Machine.free p' unavailable).any
      (fun p => decide (attemptsAt p ("a", none) 0 = 2)) = true := by decide +kernel
  obtain ⟨p'', hp'', htest⟩ := Machine.exists_of_any hrun
  obtain ⟨p', hstep, hreplay⟩ := Option.bind_eq_some_iff.mp hp''
  obtain ⟨z, hz, -⟩ : ∃ z, (system (retrying 2)).Run p' z p'' ∧ ∀ e ∈ z, Machine.free e.source e.label :=
    Program.exists_run_of_replay hreplay
  obtain ⟨-, ⟨plan, hplan, hsum⟩, -⟩ := deadline_bounds (S := retrying 2) (by decide) (by decide)
    (retryingPool_reach 2) (c := .route greeting none none) rfl rfl hstep hz rfl
  refine ⟨p'', of_decide_eq_true htest, plan, hplan.imp id fun ⟨r', h⟩ => ⟨r', _, h⟩, ?_⟩
  exact hsum [0] (List.nodup_singleton 0) (fun j hj => .inl (List.mem_singleton.mp hj)) ("a", none)

/-- With no attempts before a failover configured, the first of two candidates is
attempted three times. -/
theorem attempts_exceeded :
    ∃ (p' p'' : Pool Γ) (z : List (Machine.Step (Pool Γ) (Move Γ Op)))
      (plan : List (String × CompletionRequest)),
      (system (retrying 0)).Reach Machine.free (retryingPool 0) ∧
      (program (retrying 0)).step (retryingPool 0) (.start 0) = some p' ∧
      (system (retrying 0)).Run p' z p'' ∧ planOf (retrying 0) (retryingPool 0) = some plan ∧
      allowance (retrying 0) [] plan ("a", none) = 0 ∧ attemptsAt p'' ("a", none) 0 = 3 := by
  have hrun : (((program (retrying 0)).step (retryingPool 0) (.start 0)).bind fun p' =>
      (program (retrying 0)).replay Machine.free p' (unavailable ++ [.resume 0 (upstream none)])).any
      (fun p => decide (attemptsAt p ("a", none) 0 = 3)) = true := by decide +kernel
  have hplan : (planOf (retrying 0) (retryingPool 0)).any
      (fun plan => decide (allowance (retrying 0) [] plan ("a", none) = 0)) = true := by decide +kernel
  obtain ⟨p'', hp'', htest⟩ := Machine.exists_of_any hrun
  obtain ⟨p', hstep, hreplay⟩ := Option.bind_eq_some_iff.mp hp''
  obtain ⟨z, hz, -⟩ : ∃ z, (system (retrying 0)).Run p' z p'' ∧ ∀ e ∈ z, Machine.free e.source e.label :=
    Program.exists_run_of_replay hreplay
  obtain ⟨plan, hplan, hnone⟩ := Machine.exists_of_any hplan
  exact ⟨p', p'', z, plan, retryingPool_reach 0, hstep, hz, hplan, of_decide_eq_true hnone,
    of_decide_eq_true htest⟩

end Router

end Caips.Coreai
