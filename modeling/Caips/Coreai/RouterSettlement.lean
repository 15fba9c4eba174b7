/-
Caips.Coreai.RouterSettlement — what a stream owes is settled once, however it ends.

A stream takes a probe of a breaker and a slot of a limiter for each candidate it
turns to, and owes an account of its usage once a chunk was delivered. Its notes
(`Caips.Logic.CoroNotes`: every action it took and every answer it was given) are
read by an automaton that says what may come when:

* a probe or a slot is taken only while none is held, and given back to the breaker
  or limiter it was taken from; no other action touches one;
* a provider is contacted only before the first chunk was delivered;
* usage is recorded only after a chunk was delivered and not a second time, under
  the provider it came from, as the usage object of the stream says.

The notes of every stream are accepted, at every moment, and at its end nothing is
held and the usage is recorded if a chunk was delivered (`stream_settled`). The
stream may end in any way: it runs out, fails or idles before or after the first
chunk, or is closed or cancelled at any await. What it takes for granted is that
none of its candidates is dropped meanwhile.
-/
import Caips.Logic.CoroNotes
import Caips.Coreai.Billing
import Caips.Coreai.RouterFailover

namespace Caips.Coreai

open Caips.Logic Caips.Providers

namespace Router

open RouterState

variable {S : Setup}

/-! ## The automaton -/

/-- The cost on record under a provider. -/
def costOf (s : RouterState) (name : String) : Option ℚ := (s.providerStats.get? name).map (·.totalCost)

/-- No probe and no slot is taken or given back. -/
structure Still (s s' : RouterState) : Prop where
  probes : s'.probes = s.probes
  admitted : s'.admitted = s.admitted
  active : ∀ l, (s'.limiterAt l).activeRequests = (s.limiterAt l).activeRequests

/-- Nothing is taken, given back or recorded. -/
structure Plain (s s' : RouterState) : Prop extends Quiet s s', Still s s' where
  usage : s'.modelStats = s.modelStats
  cost : ∀ n, costOf s' n = costOf s n

/-- Where a stream stands: the provider contacted last and the one whose chunks were
delivered; the probe it holds, as breaker and ticket, and the slot, as limiter and
ticket; and the provider its usage was recorded under. -/
structure Account where
  contacted : Option String := none
  delivered : Option String := none
  probe : Option (ℕ × ℕ) := none
  slot : Option (ℕ × ℕ) := none
  recorded : Option String := none

/-- The await contacts no provider and delivers no chunk. -/
def Aside : Ask Γ → Prop
  | .call (.firstChunk _ _ _ _) => False
  | .call (.yieldChunk _) => False
  | .call _ => True
  | .wait _ _ => False
  | .join _ => False

/-- What may come when. -/
inductive Accounts : Account → Note Γ → Account → Prop
  | plain {x : Account} {s s' : RouterState} : Plain s s' → Accounts x (.act s s') x
  | aside {x : Account} {q : Ask Γ} {r : Except Exc q.Reply} : Aside q → Accounts x (.met ⟨q, r⟩) x
  | contact {x : Account} {name : String} {p : Provider} {r : CompletionRequest} {w : Option ℚ}
      {a : Except Exc String} : x.delivered = none →
      Accounts x (.met ⟨.call (.firstChunk name p r w), a⟩) { x with contacted := some name }
  | deliver {x : Account} {name chunk : String} {a : Except Exc Unit} : x.contacted = some name →
      Accounts x (.met ⟨.call (.yieldChunk chunk), a⟩) { x with delivered := some name }
  | allow {x : Account} {s : RouterState} {b t : ℕ} : x.probe = none → (s.allow b).1 = some t →
      Accounts x (.act s (s.allow b).2) { x with probe := some (b, t) }
  | settle {x : Account} {s s' : RouterState} {b t : ℕ} : x.probe = some (b, t) →
      s' = s.breakerRelease b t ∨ s' = s.recordProbeSuccess b t ∨ s' = s.recordProbeFailure b t →
      Accounts x (.act s s') { x with probe := none }
  | enter {x : Account} {s : RouterState} {l : ℕ} {waited : ℚ} : x.slot = none →
      Accounts x (.act s (s.letIn l waited).2) { x with slot := some (l, (s.letIn l waited).1) }
  | release {x : Account} {s : RouterState} {name : String} {l t : ℕ} : x.slot = some (l, t) →
      s.limiters.get? name = some l →
      Accounts x (.act s (s.limiterRelease name (some t))) { x with slot := none }
  | record {x : Account} {s s' : RouterState} {name : String} {u : ℕ} : x.recorded = none →
      x.delivered = some name → Still s s' → Recorded s s' name none (.ofUsage (s'.usageAt u)) →
      Accounts x (.act s s') { x with recorded := some name }

namespace Account

/-- Nothing was delivered yet, and nothing is held. -/
structure Idle (x : Account) : Prop where
  delivered : x.delivered = none
  recorded : x.recorded = none
  probe : x.probe = none
  slot : x.slot = none

/-- Nothing is held, and the usage is on record if a chunk was delivered. -/
structure Settled (x : Account) : Prop where
  recorded : x.recorded = x.delivered
  probe : x.probe = none
  slot : x.slot = none

theorem Idle.settled {x : Account} (h : x.Idle) : x.Settled :=
  ⟨h.recorded.trans h.delivered.symm, h.probe, h.slot⟩

end Account

/-! ### What the automaton says -/

def DeliversChunk : Note Γ → Prop
  | .met ⟨.call (.yieldChunk _), _⟩ => True
  | _ => False

/-- The note is an action that records the usage of a stream. -/
def Records : Note Γ → Prop
  | .act s s' => ∃ name b, Recorded s s' name none b
  | _ => False

theorem not_records {s s' : RouterState} (h : s'.modelStats = s.modelStats) : ¬ Records (.act s s') := by
  rintro ⟨name, b, hrecorded⟩
  have heq := hrecorded.usage.symm.trans h
  unfold recordUsage at heq
  dsimp only at heq
  generalize s.modelKey name (if b.model = "" then "unknown" else b.model) = key at heq
  have hget := congrArg (fun d => (d.get? key).map ModelStats.requests) heq
  simp only [Dict.get?_set_self, Option.map_some] at hget
  cases hkey : s.modelStats.get? key with
  | none => simp [hkey] at hget
  | some e => simp [hkey] at hget

theorem modelStats_limiterRelease (s : RouterState) (name : String) (t : Option ℕ) :
    (s.limiterRelease name t).modelStats = s.modelStats := by
  unfold limiterRelease
  split
  · rfl
  · split <;> rfl

theorem modelStats_allow (s : RouterState) (b : ℕ) : (s.allow b).2.modelStats = s.modelStats := by
  unfold RouterState.allow
  dsimp only
  split <;> rfl

/-- Usage is recorded by the one step that says so, and only once. -/
theorem Accounts.records {x y : Account} {n : Note Γ} (h : Accounts x n y) :
    (Records n ∧ x.recorded.isSome = false ∧ y.recorded.isSome = true) ∨
      (¬ Records n ∧ y.recorded.isSome = x.recorded.isSome) := by
  cases h with
  | plain hplain => exact .inr ⟨not_records hplain.usage, rfl⟩
  | aside _ => exact .inr ⟨id, rfl⟩
  | contact _ => exact .inr ⟨id, rfl⟩
  | deliver _ => exact .inr ⟨id, rfl⟩
  | allow _ _ => exact .inr ⟨not_records (modelStats_allow _ _), rfl⟩
  | settle _ hs =>
    refine .inr ⟨not_records ?_, rfl⟩
    rcases hs with rfl | rfl | rfl <;> rfl
  | enter _ => exact .inr ⟨not_records rfl, rfl⟩
  | release _ _ => exact .inr ⟨not_records (modelStats_limiterRelease _ _ _), rfl⟩
  | record hx _ _ hr => exact .inl ⟨⟨_, _, hr⟩, by rw [hx]; rfl, rfl⟩

/-- The account tells whether a chunk was delivered. -/
theorem Accounts.delivers {x y : Account} {n : Note Γ} (h : Accounts x n y) :
    y.delivered ≠ none ↔ x.delivered ≠ none ∨ DeliversChunk n := by
  cases h with
  | @aside q _ hq =>
    refine (or_iff_left ?_).symm
    cases q with
    | call q => cases q <;> first | exact id | exact hq.elim
    | wait m hs => exact id
    | join hd => exact id
  | deliver _ => exact iff_of_true nofun (.inr trivial)
  | plain _ => exact (or_iff_left id).symm
  | contact _ => exact (or_iff_left id).symm
  | allow _ _ => exact (or_iff_left id).symm
  | settle _ _ => exact (or_iff_left id).symm
  | enter _ => exact (or_iff_left id).symm
  | release _ _ => exact (or_iff_left id).symm
  | record _ _ _ _ => exact (or_iff_left id).symm

/-- Accepted notes that end settled record usage once if a chunk was delivered, and
never otherwise. -/
theorem records_iff {x : Account} {l : List (Note Γ)} (h : Accepts Accounts {} l x) (hx : x.Settled) :
    ((∃ n ∈ l, DeliversChunk n) ∧ Once Records l) ∨
      ((∀ n ∈ l, ¬ DeliversChunk n) ∧ ∀ n ∈ l, ¬ Records n) := by
  have hdelivered := h.flag_iff (P := DeliversChunk) (f := fun x => x.delivered ≠ none) fun _ _ _ => Accounts.delivers
  have hrecorded := h.once (P := Records) (f := fun x => x.recorded.isSome) fun _ _ _ => Accounts.records
  rw [hx.recorded] at hrecorded
  rcases hrecorded with ⟨hnone, hl⟩ | ⟨-, hsome, honce⟩
  · refine .inr ⟨fun n hn hdelivers => ?_, hl⟩
    have hne := hdelivered.mpr (.inr ⟨n, hn, hdelivers⟩)
    exact hne (Option.isSome_eq_false_iff.mp hnone |> Option.isNone_iff_eq_none.mp)
  · refine .inl ⟨?_, honce⟩
    rcases hdelivered.mp (Option.isSome_iff_ne_none.mp hsome) with h | h
    · exact absurd rfl h
    · exact h

/-! ## Plain code -/

theorem still_refl (s : RouterState) : Still s s := ⟨rfl, rfl, fun _ => rfl⟩

theorem plain_refl (s : RouterState) : Plain s s := ⟨quiet_refl s, still_refl s, rfl, fun _ => rfl⟩

theorem Plain.trans {s s' s'' : RouterState} (h : Plain s s') (h' : Plain s' s'') : Plain s s'' where
  toQuiet := h.toQuiet.trans h'.toQuiet
  probes := h'.probes.trans h.probes
  admitted := h'.admitted.trans h.admitted
  active l := (h'.active l).trans (h.active l)
  usage := h'.usage.trans h.usage
  cost n := (h'.cost n).trans (h.cost n)

instance : Std.Refl Plain := ⟨plain_refl⟩

instance : IsTrans RouterState Plain := ⟨fun _ _ _ => Plain.trans⟩

theorem Plain.of_quiet {s s' : RouterState} (h : Quiet s s') (hp : s'.probes = s.probes)
    (ha : s'.admitted = s.admitted) (hl : s'.limiterAt = s.limiterAt) (hu : s'.modelStats = s.modelStats)
    (hc : s'.providerStats = s.providerStats) : Plain s s' where
  toQuiet := h
  probes := hp
  admitted := ha
  active l := by rw [hl]
  usage := hu
  cost n := by rw [costOf, costOf, hc]

theorem Plain.of_peeks {s s' : RouterState} (h : Peeks s s') : Plain s s' :=
  .of_quiet (.of_peeks h) (congrArg (·.probes) h.frame) (congrArg (·.admitted) h.frame)
    (congrArg (·.limiterAt) h.frame) (congrArg (·.modelStats) h.frame) (congrArg (·.providerStats) h.frame)

theorem plain_onLimiter (s : RouterState) (l : ℕ) {f : ProviderLimiter → ProviderLimiter}
    (hf : ∀ c, (f c).activeRequests = c.activeRequests) : Plain s (s.onLimiter l f) := by
  refine ⟨⟨rfl, rfl, rfl, rfl, rfl, rfl⟩, ⟨rfl, rfl, fun k => ?_⟩, rfl, fun _ => rfl⟩
  by_cases hk : k = l
  · subst hk
    simp [onLimiter, hf]
  · simp [onLimiter, hk]

section Sync

variable {name : String}

theorem plain_onStats {f : ProviderStats → ProviderStats} (hf : ∀ st, (f st).totalCost = st.totalCost) :
    Sync.Keeps Plain (onStats name f) := by
  intro s
  have hquiet : Quiet s (onStats name f s).2 := quiet_onStats f s
  unfold onStats at hquiet ⊢
  rw [Sync.bind_run, Sync.reads_run] at hquiet ⊢
  cases hv : lookup s.providerStats name with
  | error e => exact plain_refl s
  | ok v =>
    rw [hv] at hquiet
    refine ⟨hquiet, ⟨rfl, rfl, fun _ => rfl⟩, rfl, fun n => ?_⟩
    by_cases hn : name = n
    · subst hn
      simp [costOf, get?_of_lookup hv, hf]
    · simp [costOf, Dict.get?_set_ne _ _ hn]

theorem plain_recordHealth (ok : Bool) : Sync.Keeps Plain (recordHealth name ok) := by
  intro s
  have hquiet : Quiet s (recordHealth name ok s).2 := quiet_recordHealth ok s
  unfold recordHealth at hquiet ⊢
  rw [Sync.bind_run, Sync.reads_run] at hquiet ⊢
  cases hv : lookup s.health name with
  | error e => exact plain_refl s
  | ok v =>
    rw [hv] at hquiet
    exact .of_quiet hquiet rfl rfl rfl rfl rfl

theorem plain_recordError (kind : ErrorKind) (status : Option ℕ) :
    Sync.Keeps Plain (recordError name kind status) := by
  refine .bind (plain_onStats ?_) fun _ => .bind ?_ fun _ => plain_onStats ?_
  · exact fun _ => rfl
  · unfold recordIllness
    split
    · exact plain_recordHealth _
    · exact .pure _
  · exact fun _ => rfl

theorem plain_prepare (r : CompletionRequest) (preferred : Option String) (d : Option ℚ) :
    Sync.Keeps Plain (prepare S r preferred d) := by
  refine .bind (.update fun s => .of_quiet ⟨rfl, rfl, rfl, rfl, rfl, rfl⟩ rfl rfl rfl rfl rfl) fun _ => ?_
  refine .bind (.reads _) fun r' => .bind (.reads _) fun _ => .bind (.reads _) fun _ => ?_
  refine .bind (.reads _) fun d => .bind (fun s => .of_peeks ?_) fun l => .pure _
  exact keeps_screen S r' preferred s

end Sync

section Within

variable {α : Type}

/-- The coroutine does nothing that is accounted for. -/
abbrev PlainCode (c : Async α) : Prop := c.Within Aside Plain

theorem plain_reads {f : RouterState → Except Exc α} : PlainCode (reads f) := .sync plain_refl

theorem plain_update {f : RouterState → RouterState} (h : ∀ s, Plain s (f s)) : PlainCode (update f) :=
  .sync h

theorem plain_yields {f : RouterState → α × RouterState} (h : ∀ s, Plain s (f s).2) :
    PlainCode (yields f) := .sync h

theorem plain_reject {l : ℕ} {retryAfter : Option ℚ} : PlainCode (reject l retryAfter : Async α) :=
  .bind (plain_yields fun s => plain_onLimiter s l fun _ => rfl) fun _ => trivial

theorem plain_takeSlot {l : ℕ} {budget : Option ℚ} : PlainCode (takeSlot l budget) := by
  have htake : PlainCode (update fun s => s.onLimiter l .takeSlot) :=
    plain_update fun s => plain_onLimiter s l fun _ => rfl
  unfold takeSlot
  split
  · exact .bind (.ask trivial) fun locked => .bind (.when fun _ => plain_reject) fun _ => htake
  · refine .handle (.ask trivial) (fun _ => htake) fun e => ?_
    split
    · exact plain_reject
    · trivial

theorem plain_awaitRates {l : ℕ} {tokens : ℚ} {maxWait : Option ℚ} {started : ℚ} :
    PlainCode (awaitRates l tokens maxWait started) := by
  refine .bind (plain_yields fun s => ?_) fun wait => ?_
  · refine ⟨⟨rfl, rfl, rfl, rfl, rfl, rfl⟩, ⟨rfl, rfl, fun k => ?_⟩, rfl, fun _ => rfl⟩
    by_cases hk : k = l
    · subst hk
      simp [onLimiter]
    · simp [onLimiter, hk]
  · refine .bind plain_reads fun now => .bind (.when fun _ => plain_reject) fun _ => ?_
    exact .when fun _ => .ask trivial

theorem plain_drawWait {attempt : ℕ} {info : ErrorInfo} : PlainCode (drawWait S attempt info) := by
  unfold drawWait
  split
  · trivial
  · exact .bind (plain_yields fun s => .of_quiet ⟨rfl, rfl, rfl, rfl, rfl, rfl⟩ rfl rfl rfl rfl rfl)
      fun _ => trivial

theorem plain_attemptSeconds {name : String} {deadline : Deadline} :
    PlainCode (attemptSeconds S name deadline) :=
  .bind plain_reads fun _ => .bind (.when fun _ => trivial) fun _ => trivial

theorem plain_timedOut {name : String} {deadline : Deadline} {seconds : Option ℚ} :
    PlainCode (timedOut S name deadline seconds : Async α) :=
  .bind plain_reads fun _ => .bind (.when fun _ => trivial) fun _ => trivial

theorem plain_closeStream : PlainCode closeStream := by
  refine .tryCatch (.ask trivial) fun e => ?_
  split <;> trivial

theorem plain_turnTo {i : ℕ} {l : List String} : PlainCode (update fun s => s.turnTo i l) :=
  plain_update fun _ => .of_quiet ⟨rfl, rfl, rfl, rfl, rfl, rfl⟩ rfl rfl rfl rfl rfl

theorem plain_exhausted {i : ℕ} {single : Bool} {g : Progress} :
    PlainCode (exhausted i single g : Async α) := by
  refine .bind plain_turnTo fun _ => ?_
  split
  · trivial
  · exact .bind plain_reads fun _ => trivial

theorem plain_countFailover {isLast : Bool} : PlainCode (countFailover isLast) := by
  unfold countFailover
  split
  · trivial
  · exact plain_update fun _ => .of_quiet ⟨rfl, rfl, rfl, rfl, rfl, rfl⟩ rfl rfl rfl rfl rfl

end Within

/-! ## Names that stay registered -/

/-- The tables still agree, and these names have the breakers and limiters they
had. -/
structure Retains (names : List String) (s s' : RouterState) : Prop where
  consistent : Consistent s → Consistent s'
  kept : ∀ n ∈ names, n ∈ s.providers.keys → n ∈ s'.providers.keys ∧
    s'.breakers.get? n = s.breakers.get? n ∧ s'.limiters.get? n = s.limiters.get? n

theorem retains_refl (names : List String) (s : RouterState) : Retains names s s :=
  ⟨id, fun _ _ hn => ⟨hn, rfl, rfl⟩⟩

theorem Retains.trans {names : List String} {s s' s'' : RouterState} (h : Retains names s s')
    (h' : Retains names s' s'') : Retains names s s'' where
  consistent hs := h'.consistent (h.consistent hs)
  kept n hn hs := by
    obtain ⟨hs', hb, hl⟩ := h.kept n hn hs
    obtain ⟨hs'', hb', hl'⟩ := h'.kept n hn hs'
    exact ⟨hs'', hb'.trans hb, hl'.trans hl⟩

theorem Quiet.retains {names : List String} {s s' : RouterState} (h : Quiet s s') : Retains names s s' where
  consistent := h.consistent
  kept n _ hs := by
    rw [h.providers, h.breakers, h.limiters]
    exact ⟨hs, rfl, rfl⟩

/-- None of these names is dropped. -/
def Spares (names : List String) (_ : Pool Γ) : Move Γ Op → Prop
  | .op (.dropProvider name) => name ∉ names
  | _ => True

theorem retains_setProvider {names : List String} (s : RouterState) (name : String) (q : Provider) :
    Retains names s (s.setProvider S name q) where
  consistent hs := hs.setProvider S name q
  kept n _ hs := by
    unfold RouterState.setProvider
    dsimp only
    have hset : n ∈ (s.providers.set name q).keys := Dict.mem_keys_set.mpr (.inr hs)
    split
    · exact ⟨hset, rfl, rfl⟩
    · rename_i hc
      have hne : name ≠ n := by
        rintro rfl
        exact not_contains hc hs
      exact ⟨hset, Dict.get?_set_ne _ _ hne, Dict.get?_set_ne _ _ hne⟩

variable {name : String} {deadline : Deadline} {r : CompletionRequest}

theorem retains_dropProvider {names : List String} (s : RouterState) (h : name ∉ names) :
    Retains names s (s.dropProvider name) where
  consistent hs := hs.dropProvider name
  kept n hn hs := by
    have hne : n ≠ name := fun heq => h (heq ▸ hn)
    exact ⟨Dict.mem_keys_pop.mpr ⟨hne, hs⟩, Dict.get?_pop_ne _ hne.symm, Dict.get?_pop_ne _ hne.symm⟩

theorem tame_retains (names : List String) :
    (program S).Tame (fun _ _ => True) (Retains names) (Spares names) where
  refl := retains_refl names
  trans _ _ _ := Retains.trans
  body i c := Coro.Within.mono (fun _ => id) (fun _ _ => Quiet.retains) (scope_body i c)
  reboot _ := rfl
  enter c s s' h := by
    cases c with
    | leg n r d a t => cases h
    | _ => rw [← Option.some.inj h]; exact retains_refl names s
  op p o s' hG h := by
    cases o with
    | setProvider n q =>
      rw [← Option.some.inj h]
      exact retains_setProvider _ n q
    | dropProvider n =>
      rw [← Option.some.inj h]
      exact retains_dropProvider _ hG
    | tick d =>
      simp only [applyOp, Option.ite_none_right_eq_some] at h
      rw [← Option.some.inj h.2]
      exact ⟨fun hs => ⟨hs.1, hs.2, hs.3, hs.4⟩, fun _ _ hn => ⟨hn, rfl, rfl⟩⟩
    | provider n q =>
      simp only [applyOp] at h
      split at h
      · rename_i old hold
        rw [Option.ite_none_right_eq_some] at h
        have hkeys := Dict.keys_set_of_mem q (Dict.mem_keys.mpr ⟨_, hold⟩)
        rw [← Option.some.inj h.2]
        refine ⟨?_, fun _ _ hn => ⟨hkeys.symm ▸ hn, rfl, rfl⟩⟩
        rintro ⟨hb, hl, hh, hp⟩
        rw [← hkeys] at hb hl hh hp
        exact ⟨hb, hl, hh, hp⟩
      · cases h
    | report u i o m =>
      rw [← Option.some.inj h]
      exact ⟨fun hs => ⟨hs.1, hs.2, hs.3, hs.4⟩, fun _ _ hn => ⟨hn, rfl, rfl⟩⟩
    | policies q =>
      rw [← Option.some.inj h]
      exact ⟨fun hs => ⟨hs.1, hs.2, hs.3, hs.4⟩, fun _ _ hn => ⟨hn, rfl, rfl⟩⟩
    | modelGate g =>
      rw [← Option.some.inj h]
      exact ⟨fun hs => ⟨hs.1, hs.2, hs.3, hs.4⟩, fun _ _ hn => ⟨hn, rfl, rfl⟩⟩

/-- These names are registered, with the breakers and limiters they have in `s₀`. -/
structure Registered (names : List String) (s₀ s : RouterState) : Prop where
  consistent : Consistent s
  mem : ∀ n ∈ names, n ∈ s.providers.keys
  breaker : ∀ n ∈ names, s.breakers.get? n = s₀.breakers.get? n
  limiter : ∀ n ∈ names, s.limiters.get? n = s₀.limiters.get? n

namespace Registered

variable {names : List String} {s₀ s s' : RouterState}

theorem retains (h : Registered names s₀ s) (hr : Retains names s s') : Registered names s₀ s' where
  consistent := hr.consistent h.consistent
  mem n hn := (hr.kept n hn (h.mem n hn)).1
  breaker n hn := (hr.kept n hn (h.mem n hn)).2.1.trans (h.breaker n hn)
  limiter n hn := (hr.kept n hn (h.mem n hn)).2.2.trans (h.limiter n hn)

theorem quiet (h : Registered names s₀ s) (hq : Quiet s s') : Registered names s₀ s' := h.retains hq.retains

end Registered

/-! ## What a stream does to its account -/

/-- The world of a stream whose candidates are these names. -/
abbrev keeping (S : Setup) (names : List String) : Coro.Env Γ := (program S).world (Retains names)

variable {names : List String} {s₀ s : RouterState} {x : Account} {α : Type}

/-- From the account `x` on the notes of the code are accepted, the names stay
registered, and at the end the account and the outcome are as `Q` says. -/
abbrev Leads (S : Setup) (names : List String) (s₀ : RouterState) (c : Async α) (x : Account)
    (s : RouterState) (Q : Account → Except Exc α → Prop) : Prop :=
  c.Tracks (keeping S names) Accounts (fun y s' o => Registered names s₀ s' ∧ Q y o) x s

theorem leads_plain {c : Async α} (hc : PlainCode c) (h : Registered names s₀ s) :
    Leads S names s₀ c x s fun y _ => y = x := by
  have hrun := Coro.Tracks.within (E := keeping S names) (R := Accounts) (x := x)
    (I := Registered names s₀)
    (fun s s' hs hp => ⟨.plain hp, hs.quiet hp.toQuiet⟩)
    (fun s q r s' hs hq hr => ⟨.aside hq, hs.retains (Program.world_step hr)⟩)
    (fun h hq => hq.elim) hc h
  exact hrun.mono fun y s' o ho => ⟨ho.2, ho.1⟩

theorem leads_plain_bind {β : Type} {c : Async β} {k : β → Async α} {Q : Account → Except Exc α → Prop}
    (hc : PlainCode c) (h : Registered names s₀ s)
    (hk : ∀ a s', Registered names s₀ s' → Leads S names s₀ (k a) x s' Q)
    (he : ∀ e, Q x (.error e)) : Leads S names s₀ (c >>= k) x s Q := by
  refine .bind (leads_plain hc h) (fun a y s' hy => ?_) fun e y s' hy => ⟨hy.1, hy.2 ▸ he e⟩
  obtain ⟨hs', rfl⟩ := hy
  exact hk a s' hs'

theorem leads_update {f : RouterState → RouterState} {k : Unit → Async α} {y : Account}
    {Q : Account → RouterState → Except Exc α → Prop} (hact : Accounts x (.act s (f s)) y)
    (hk : (k ()).Tracks (keeping S names) Accounts Q y (f s)) :
    (update f >>= k).Tracks (keeping S names) Accounts Q x s :=
  .sync_bind hact (fun _ _ => hk) fun _ he => nomatch he

theorem leads_reads {β : Type} {f : RouterState → Except Exc β} {b : β} {k : β → Async α}
    {Q : Account → Except Exc α → Prop} (hb : f s = .ok b) (hk : Leads S names s₀ (k b) x s Q) :
    Leads S names s₀ (reads f >>= k) x s Q := by
  refine .sync_bind (.plain (plain_refl s)) (fun a ha => ?_) fun e he => ?_
  · obtain rfl := Except.ok.inj (hb.symm.trans ha)
    exact hk
  · cases hb.symm.trans he

/-! ### Admission -/

/-- How an admission ends: with a slot of the limiter `l`, or without one. -/
def GotSlot (x : Account) (l : ℕ) (y : Account) : Except Exc ℕ → Prop
  | .ok t => y = { x with slot := some (l, t) }
  | .error _ => y = x

theorem leads_acquire {l : ℕ} {tokens : ℚ} {maxWait : Option ℚ} (hx : x.slot = none)
    (h : Registered names s₀ s) :
    Leads S names s₀ (acquire l tokens maxWait) x s (GotSlot x l) := by
  refine leads_plain_bind plain_reads h (fun started s h => ?_) fun _ => rfl
  refine leads_plain_bind plain_takeSlot h (fun _ s h => ?_) fun _ => rfl
  have hrates : PlainCode (Coro.tryCatch (awaitRates l tokens maxWait started) fun e => do
      update fun s => s.onLimiter l (·.abandon tokens)
      Coro.fail e) := by
    refine .tryCatch plain_awaitRates fun e => .bind (plain_update fun s => ?_) fun _ => trivial
    exact plain_onLimiter s l fun _ => rfl
  refine leads_plain_bind hrates h (fun _ s h => ?_) fun _ => rfl
  exact .sync (.enter hx) ⟨h.quiet ⟨rfl, rfl, rfl, rfl, rfl, rfl⟩, rfl⟩

theorem leads_limiterAcquire {l : ℕ} {tokens : ℚ} {maxWait : Option ℚ}
    (hname : name ∈ names) (hl : s₀.limiters.get? name = some l) (hx : x.slot = none)
    (h : Registered names s₀ s) :
    Leads S names s₀ (limiterAcquire name tokens maxWait) x s fun y o =>
      (∃ t, o = .ok (some t) ∧ y = { x with slot := some (l, t) }) ∨ ∃ e, o = .error e ∧ y = x := by
  have hget : s.limiters.get? name = some l := (h.limiter name hname).trans hl
  refine leads_reads (b := some l) (by rw [hget]) ?_
  refine .bind (leads_acquire hx h) (fun t y s' hy => ?_) fun e y s' hy => ?_
  · exact ⟨hy.1, .inl ⟨t, rfl, hy.2⟩⟩
  · exact ⟨hy.1, .inr ⟨e, rfl, hy.2⟩⟩

/-- `_admit`: a slot, or the probe is given back. -/
theorem leads_admitCall {b l probe : ℕ}
    (hname : name ∈ names) (hb : s₀.breakers.get? name = some b) (hl : s₀.limiters.get? name = some l)
    (hslot : x.slot = none) (hprobe : x.probe = some (b, probe)) (h : Registered names s₀ s) :
    Leads S names s₀ (admitCall name r deadline probe) x s fun y o =>
      (∃ t, o = .ok (some t) ∧ y = { x with slot := some (l, t) }) ∨
        ∃ e, o = .error e ∧ y = { x with probe := none } := by
  unfold admitCall
  refine .sync_bind (.plain (plain_refl s)) (fun now _ => ?_) fun e he => nomatch he
  refine .tryCatch (leads_limiterAcquire hname hl hslot h) (fun a y s' hy => ?_) fun e y s' hy => ?_
  · obtain ⟨hs', ⟨t, ht, rfl⟩ | ⟨e, he, -⟩⟩ := hy
    · exact ⟨hs', .inl ⟨t, ht, rfl⟩⟩
    · cases he
  · obtain ⟨hs', ⟨t, ht, -⟩ | ⟨_, -, rfl⟩⟩ := hy
    · cases ht
    · have hrelease : ∀ s, Registered names s₀ s → Leads S names s₀ (do
          let b ← reads fun s => lookup s.breakers name
          update fun s => s.breakerRelease b probe
          (Coro.fail e : Async (Option ℕ))) y s fun y' o =>
            (∃ t, o = .ok (some t) ∧ y' = { y with slot := some (l, t) }) ∨
              ∃ e, o = .error e ∧ y' = { y with probe := none } := by
        intro s h
        refine leads_reads (lookup_of_get? ((h.breaker name hname).trans hb)) ?_
        refine leads_update (.settle hprobe (.inl rfl)) ?_
        exact ⟨h.quiet ⟨rfl, rfl, rfl, rfl, rfl, rfl⟩, .inr ⟨e, rfl, rfl⟩⟩
      refine .when_bind (fun _ => ?_) fun _ => hrelease s' hs'
      have hquiet : Plain s' (countLocalRateLimit name s').2 := by
        refine plain_onStats ?_ s'
        exact fun _ => rfl
      have hok : (countLocalRateLimit name s').1 = .ok () := by
        have hbooks : Books name (countLocalRateLimit name) := books_countLocalRateLimit
        obtain ⟨_, hok⟩ := hbooks.total s' hs'.consistent (hs'.mem name hname)
        exact hok
      refine .sync_bind (.plain hquiet) (fun _ _ => hrelease _ (hs'.quiet hquiet.toQuiet)) fun e he => ?_
      cases hok.symm.trans he

/-! ### Failures -/

theorem recordError_ok (hname : name ∈ names) (h : Registered names s₀ s) (kind : ErrorKind)
    (status : Option ℕ) : (recordError name kind status s).1 = .ok () := by
  have hbooks : Books name (recordError name kind status) := books_recordError kind status
  obtain ⟨_, hok⟩ := hbooks.total s h.consistent (h.mem name hname)
  exact hok

variable {b probe : ℕ} {first : Option String}

/-- The probe is settled after a failure. -/
theorem leads_settleFailure {e : Exc} (hname : name ∈ names)
    (hprobe : x.probe = some (b, probe)) (h : Registered names s₀ s) :
    Leads S names s₀ (settleFailure name b probe e) x s fun y o =>
      y = { x with probe := none } ∧ o = .ok () := by
  unfold settleFailure
  split
  · have hplain : Plain s (recordError name (classify e).kind (statusOf e) s).2 :=
      plain_recordError _ _ s
    refine .sync_bind (.plain hplain) (fun _ _ => ?_) fun e' he => ?_
    · have hs := h.quiet hplain.toQuiet
      generalize (recordError name (classify e).kind (statusOf e) s).2 = s' at hs
      refine .sync (.settle hprobe ?_) ⟨?_, rfl, rfl⟩
      · dsimp only [Sync.update_run]
        split
        · exact .inr (.inr rfl)
        · exact .inl rfl
      · refine hs.quiet ?_
        dsimp only [Sync.update_run]
        split <;> exact ⟨rfl, rfl, rfl, rfl, rfl, rfl⟩
    · cases (recordError_ok hname h _ _).symm.trans he
  · exact .sync (.settle hprobe (.inl rfl)) ⟨h.quiet ⟨rfl, rfl, rfl, rfl, rfl, rfl⟩, rfl, rfl⟩

/-! ### Opening a stream -/

/-- How an attempt to open a stream of `name` ends: nothing but the provider
contacted last has changed, and it is `name` if the stream is open. -/
def Opens (x : Account) (name : String) (y : Account) (o : Except Exc α) : Prop :=
  (∃ c, y = { x with contacted := c }) ∧ ∀ a, o = .ok a → y.contacted = some name

theorem leads_openOnce {p : Provider}
    {y : Account} (hdelivered : x.delivered = none) (hy : ∃ c, y = { x with contacted := c })
    (h : Registered names s₀ s) :
    Leads S names s₀ (openOnce S name p r deadline) y s (Opens x name) := by
  refine leads_plain_bind plain_attemptSeconds h (fun seconds s h => ?_) fun e => ⟨hy, nofun⟩
  obtain ⟨c, rfl⟩ := hy
  -- from here on the provider has been contacted, whatever comes of it
  have hrest : ∀ {c : Async (Option String)}, PlainCode c → ∀ s, Registered names s₀ s →
      Leads S names s₀ c { x with contacted := some name } s (Opens x name) := by
    intro c hc s h
    refine (leads_plain hc h).mono fun y s' o ho => ⟨ho.1, ?_⟩
    obtain ⟨-, rfl⟩ := ho
    exact ⟨⟨_, rfl⟩, fun _ _ => rfl⟩
  refine .ask_handle (fun _ _ _ => .contact hdelivered) (fun chunk s' hr => ?_) fun e s' hr => ?_
  · exact hrest (c := pure (some chunk)) trivial s' (h.retains (Program.world_step hr))
  · refine hrest ?_ s' (h.retains (Program.world_step hr))
    split
    · trivial
    · split
      · exact .bind plain_closeStream fun _ => plain_timedOut
      · exact .bind plain_closeStream fun _ => trivial

theorem leads_runWithRetry {func : Async α}
    (hfunc : ∀ y s, (∃ c, y = { x with contacted := c }) → Registered names s₀ s →
      Leads S names s₀ func y s (Opens x name)) :
    ∀ {more attempt : ℕ} {y : Account} {s : RouterState}, (∃ c, y = { x with contacted := c }) →
      Registered names s₀ s →
      Leads S names s₀ (runWithRetry S func deadline more attempt) y s (Opens x name)
  | 0, _, y, s, hy, h => hfunc y s hy h
  | more + 1, attempt, y, s, hy, h => by
      refine .tryCatch (hfunc y s hy h) (fun a y s' hy => hy) fun e y s' hy => ?_
      obtain ⟨hs', hy, -⟩ := hy
      split
      · exact ⟨hs', hy, nofun⟩
      · refine leads_plain_bind plain_drawWait hs' (fun wait s h => ?_) fun _ => ⟨hy, nofun⟩
        cases wait with
        | none => exact ⟨h, hy, nofun⟩
        | some wait =>
          refine leads_plain_bind plain_reads h (fun now s h => ?_) fun _ => ⟨hy, nofun⟩
          refine leads_plain_bind (.when fun _ => trivial) h (fun _ s h => ?_) fun _ => ⟨hy, nofun⟩
          refine leads_plain_bind (plain_update fun s => ?_) h (fun _ s h => ?_) fun _ => ⟨hy, nofun⟩
          · exact .of_quiet ⟨rfl, rfl, rfl, rfl, rfl, rfl⟩ rfl rfl rfl rfl rfl
          · refine leads_plain_bind (.ask trivial) h (fun _ s h => ?_) fun _ => ⟨hy, nofun⟩
            exact leads_runWithRetry hfunc hy h

theorem leads_execute {func : Async α} {attempts : ℕ}
    (hfunc : ∀ y s, (∃ c, y = { x with contacted := c }) → Registered names s₀ s →
      Leads S names s₀ func y s (Opens x name)) (h : Registered names s₀ s) :
    Leads S names s₀ (execute S func deadline attempts) x s (Opens x name) := by
  have hx : ∃ c, x = { x with contacted := c } := ⟨x.contacted, rfl⟩
  unfold execute
  split
  · refine .tryCatch (leads_runWithRetry hfunc hx h) (fun a y s' hy => hy) fun e y s' hy => ?_
    obtain ⟨hs', hy, -⟩ := hy
    refine leads_plain_bind (.when fun _ => plain_update fun s => ?_) hs' (fun _ s h => ?_) fun _ => ⟨hy, nofun⟩
    · exact .of_quiet ⟨rfl, rfl, rfl, rfl, rfl, rfl⟩ rfl rfl rfl rfl rfl
    · exact ⟨h, hy, nofun⟩
  · exact hfunc x s hx h

theorem leads_checkDeadline (hprobe : x.probe = some (b, probe))
    (h : Registered names s₀ s) :
    Leads S names s₀ (checkDeadline deadline b probe) x s fun y o =>
      (o = .ok () ∧ y = x) ∨ ∃ e, o = .error e ∧ y = { x with probe := none } := by
  refine .sync_bind (.plain (plain_refl s)) (fun now _ => ?_) fun e he => nomatch he
  cases hnow : deadline.expired now with
  | false => exact ⟨h, .inl ⟨rfl, rfl⟩⟩
  | true =>
    refine leads_update (.settle hprobe (.inl rfl)) ?_
    exact ⟨h.quiet ⟨rfl, rfl, rfl, rfl, rfl, rfl⟩, .inr ⟨_, rfl, rfl⟩⟩

theorem limiterRelease_quiet {t : Option ℕ} (h : Registered names s₀ s) :
    Registered names s₀ (s.limiterRelease name t) := h.quiet (quiet_limiterRelease s t)

/-- `_open_stream`: the stream of `name` is open and probe and slot are held, or
neither is. -/
theorem leads_openStream {b l probe : ℕ}
    {attempts : ℕ} (hname : name ∈ names) (hb : s₀.breakers.get? name = some b)
    (hl : s₀.limiters.get? name = some l) (hslot : x.slot = none) (hprobe : x.probe = some (b, probe))
    (hdelivered : x.delivered = none) (h : Registered names s₀ s) :
    Leads S names s₀ (openStream S name r deadline attempts b probe) x s fun y o =>
      (∃ first t, o = .ok (first, some t) ∧ y = { x with contacted := some name, slot := some (l, t) }) ∨
        ∃ e c, o = .error e ∧ y = { x with contacted := c, probe := none } := by
  obtain ⟨p, hp⟩ := Dict.mem_keys.mp (h.mem name hname)
  refine leads_reads (lookup_of_get? hp) ?_
  refine .bind (leads_checkDeadline hprobe h) (fun _ y s h => ?_) fun e y s h => ?_
  · obtain ⟨h, ⟨-, rfl⟩ | ⟨e, he, -⟩⟩ := h
    · refine .bind (leads_admitCall hname hb hl hslot hprobe h) (fun ticket y s h => ?_) fun e y s h => ?_
      · obtain ⟨h, ⟨t, ht, rfl⟩ | ⟨e, he, -⟩⟩ := h
        · obtain rfl := Except.ok.inj ht
          refine .then_handle (leads_execute (fun y s hy h => leads_openOnce hdelivered hy h) h)
            (fun first y s hy => ?_) fun e y s hy => ?_
          · obtain ⟨hs, ⟨c, rfl⟩, hc⟩ := hy
            obtain rfl := hc first rfl
            exact ⟨hs, .inl ⟨first, t, rfl, rfl⟩⟩
          · obtain ⟨hs, ⟨c, rfl⟩, -⟩ := hy
            refine .bind (leads_settleFailure hname hprobe hs) (fun _ y s hy => ?_) fun e y s hy => ?_
            · obtain ⟨hs, rfl, -⟩ := hy
              have hget := (hs.limiter name hname).trans hl
              refine leads_update (.release rfl hget) ?_
              refine ⟨limiterRelease_quiet hs, .inr ⟨e, c, rfl, ?_⟩⟩
              rw [← hslot]
            · cases hy.2.2
        · cases he
      · obtain ⟨h, ⟨t, ht, -⟩ | ⟨e, he, rfl⟩⟩ := h
        · cases ht
        · exact ⟨h, .inr ⟨_, _, rfl, rfl⟩⟩
    · cases he
  · obtain ⟨h, ⟨ho, -⟩ | ⟨e, he, rfl⟩⟩ := h
    · cases ho
    · exact ⟨h, .inr ⟨_, _, rfl, rfl⟩⟩

/-! ### Delivering a stream -/

/-- Chunks may be delivered, of the provider contacted last. -/
theorem leads_deliverRest (hcontacted : x.contacted = some name)
    (hdelivered : x.delivered = some name) :
    ∀ {chunks chars : ℕ} {s : RouterState}, Registered names s₀ s →
      Leads S names s₀ (deliverRest S name chunks chars) x s fun y o => y = x ∧ ∃ a, o = .ok a
  | 0, chars, s, h => ⟨h, rfl, _, rfl⟩
  | chunks + 1, chars, s, h => by
      have hsame : ({ x with delivered := some name } : Account) = x :=
        congrArg (fun d => ({ x with delivered := d } : Account)) hdelivered.symm
      refine .ask_handle (fun _ _ _ => .aside trivial) (fun chunk s hr => ?_) fun e s hr => ?_
      · have h := h.retains (Program.world_step hr)
        refine .ask_handle (fun _ _ _ => hsame ▸ Accounts.deliver hcontacted) (fun _ s hr => ?_) fun e s hr => ?_
        · exact leads_deliverRest hcontacted hdelivered (h.retains (Program.world_step hr))
        · exact ⟨h.retains (Program.world_step hr), rfl, _, rfl⟩
      · have h := h.retains (Program.world_step hr)
        split
        · exact ⟨h, rfl, _, rfl⟩
        · split
          · exact ⟨h, rfl, _, rfl⟩
          · exact ⟨h, rfl, _, rfl⟩

theorem leads_deliver {chunks : ℕ} (hcontacted : x.contacted = some name)
    (hdelivered : x.delivered = none) (h : Registered names s₀ s) :
    Leads S names s₀ (deliver S name first chunks) x s fun y o =>
      y = { x with delivered := first.map fun _ => name } ∧ ∃ a, o = .ok a := by
  cases first with
  | none =>
    refine ⟨h, ?_, _, rfl⟩
    rw [Option.map_none, ← hdelivered]
  | some chunk =>
    refine .ask_handle (fun _ _ _ => .deliver hcontacted) (fun _ s hr => ?_) fun e s hr => ?_
    · exact leads_deliverRest (by exact hcontacted) rfl (h.retains (Program.world_step hr))
    · exact ⟨h.retains (Program.world_step hr), rfl, _, rfl⟩

theorem leads_concludeStream {outcome : Except Exc Unit} (hname : name ∈ names)
    (hprobe : x.probe = some (b, probe)) (h : Registered names s₀ s) :
    Leads S names s₀ (concludeStream name b probe outcome) x s fun y _ => y = { x with probe := none } := by
  cases outcome with
  | ok u =>
    refine leads_update (.settle hprobe (.inr (.inl rfl))) ?_
    have h : Registered names s₀ (s.recordProbeSuccess b probe) := h.quiet ⟨rfl, rfl, rfl, rfl, rfl, rfl⟩
    exact leads_plain (.sync (plain_onStats fun _ => rfl)) h
  | error e =>
    refine .bind (leads_settleFailure hname hprobe h) (fun _ y s hy => ?_) fun e y s hy => ?_
    · exact ⟨hy.1, hy.2.1⟩
    · cases hy.2.2

theorem still_settleWith {st : ProviderStats} (hst : s.providerStats.get? name = some st)
    (u : ℕ) (final : StreamUsage) (reported : Bool) :
    Still s (settleWith name u final reported s).2 ∧
      (settleWith name u final reported s).2.usageAt u = final := by
  unfold settleWith
  rw [Sync.bind_run, Sync.update_run]
  dsimp only
  rw [Sync.bind_run, onStats_run (by exact hst)]
  refine ⟨⟨rfl, rfl, fun _ => rfl⟩, ?_⟩
  simp [recordUsage, onUsage]

/-- `_settle_stream`: the usage is recorded if a chunk was delivered. -/
theorem leads_settleStream {u chars : ℕ}
    {completed : Bool} (hname : name ∈ names) (hdelivered : x.delivered = first.map fun _ => name)
    (hrecorded : x.recorded = none) (h : Registered names s₀ s) :
    Leads S names s₀ (settleStream name r u chars first.isSome completed) x s fun y o =>
      y = { x with recorded := x.delivered } ∧ o = .ok () := by
  cases first with
  | none =>
    have hnone : x.recorded = x.delivered := hrecorded.trans hdelivered.symm
    exact ⟨h, congrArg (fun d => ({ x with recorded := d } : Account)) hnone, rfl⟩
  | some chunk =>
    obtain ⟨p, hp⟩ := Dict.mem_keys.mp (h.mem name hname)
    obtain ⟨st, hst⟩ := Dict.mem_keys.mp ((h.consistent.providerStats name).mpr (h.mem name hname))
    have hact : Accounts x (.act s (settleStreamRaw name r u chars completed s).2)
        { x with recorded := some name } := by
      have hrecord := recorded_settle hp hst r u chars completed
      rw [settleStreamRaw_eq hp] at hrecord ⊢
      obtain ⟨hstill, husage⟩ := still_settleWith hst u
        (settledUsage p name r (s.usageAt u) chars completed) (s.usageAt u).reported
      refine .record (u := u) hrecorded hdelivered hstill ?_
      rw [husage]
      exact hrecord
    refine .sync hact ⟨h.quiet (quiet_settleStreamRaw _ _ _ _ s), ?_, rfl⟩
    rw [hdelivered]
    rfl

/-- An open stream holds its probe and its slot, and has settled them at its end. -/
theorem leads_runStream {i u b l probe t chunks : ℕ}
    (hname : name ∈ names) (hl : s₀.limiters.get? name = some l)
    (hcontacted : x.contacted = some name) (hdelivered : x.delivered = none) (hrecorded : x.recorded = none)
    (hprobe : x.probe = some (b, probe)) (hslot : x.slot = some (l, t)) (h : Registered names s₀ s) :
    Leads S names s₀ (runStream S i name r u b probe (some t) first chunks) x s fun y _ => y.Settled := by
  obtain ⟨p, hp⟩ := Dict.mem_keys.mp (h.mem name hname)
  obtain ⟨model, hmodel⟩ : ∃ model, (if orElse r.model "" = "" then
      (lookup s.providers name).map Provider.defaultModel else .ok (orElse r.model "")) = .ok model := by
    rw [lookup_of_get? hp]
    split
    · exact ⟨_, rfl⟩
    · exact ⟨_, rfl⟩
  refine leads_reads hmodel (leads_update (.plain ?_) ?_)
  · exact .of_quiet ⟨rfl, rfl, rfl, rfl, rfl, rfl⟩ rfl rfl rfl rfl rfl
  have h : Registered names s₀ (s.onUsage u fun usage => { usage with openedModel := model }) :=
    h.quiet ⟨rfl, rfl, rfl, rfl, rfl, rfl⟩
  refine .bind (leads_deliver hcontacted hdelivered h) (fun a y s hy => ?_) fun e y s hy => ?_
  · obtain ⟨h, rfl, -⟩ := hy
    obtain ⟨chars, outcome⟩ := a
    refine .tryFinally (leads_concludeStream (by exact hname) (by exact hprobe) h) fun o y s hy => ?_
    obtain ⟨h, rfl⟩ := hy
    refine .bind (leads_settleStream hname rfl (by exact hrecorded) h) (fun _ y s hy => ?_) fun e y s hy => ?_
    · obtain ⟨h, rfl, -⟩ := hy
      have hget := (h.limiter name hname).trans hl
      refine leads_update (f := fun s => s.limiterRelease name (some t)) (.release (by exact hslot) hget) ?_
      -- nothing is held any more, however the end of the generator ends
      have hend : PlainCode (do
          update fun s => s.turnTo i []
          closeStream) := .bind plain_turnTo fun _ => plain_closeStream
      refine (leads_plain hend (limiterRelease_quiet h)).mono fun y s o' hy => ?_
      obtain ⟨h, rfl⟩ := hy
      cases o' <;> exact ⟨h, rfl, rfl, rfl⟩
    · cases hy.2.2
  · obtain ⟨-, -, _, ha⟩ := hy
    cases ha

theorem allow_none {b : ℕ} (h : (s.allow b).1 = none) :
    (s.allow b).2 = { s with
      breakerAt := Function.update s.breakerAt b ((s.breakerAt b).allow s.now).2 } := by
  unfold RouterState.allow at h ⊢
  dsimp only at h ⊢
  split at h
  · cases h
  · rename_i hno
    rw [if_neg hno]

/-- `breaker.allow()`: a probe, or none. -/
theorem leads_allowCandidate {b : ℕ} (hname : name ∈ names)
    (hb : s₀.breakers.get? name = some b) (hx : x.probe = none) (h : Registered names s₀ s) :
    Leads S names s₀ (allowCandidate name) x s fun y o =>
      (∃ t, o = .ok (b, .ok t) ∧ y = { x with probe := some (b, t) }) ∨
        ∃ e, o = .ok (b, .error e) ∧ y = x := by
  refine leads_reads (lookup_of_get? ((h.breaker name hname).trans hb)) ?_
  have hs := h.quiet (quiet_allow s b)
  cases hallow : (s.allow b).1 with
  | some t =>
    refine .sync_bind (.allow hx hallow) (fun a ha => ?_) fun e he => nomatch he
    obtain rfl : a = some t := (Except.ok.inj ha).symm.trans hallow
    exact ⟨hs, .inl ⟨t, rfl, rfl⟩⟩
  | none =>
    have hplain : Plain s (s.allow b).2 := by
      rw [allow_none hallow]
      exact ⟨⟨rfl, rfl, rfl, rfl, rfl, rfl⟩, ⟨rfl, rfl, fun _ => rfl⟩, rfl, fun _ => rfl⟩
    refine .sync_bind (.plain hplain) (fun a ha => ?_) fun e he => nomatch he
    obtain rfl : a = none := (Except.ok.inj ha).symm.trans hallow
    exact leads_reads rfl ⟨hs, .inr ⟨_, rfl, rfl⟩⟩

/-- The candidate loop: what a candidate takes is given back before the next one's
turn, and the loop goes on only while nothing was delivered. -/
theorem leads_streamLoop {i chunks : ℕ} {single : Bool} :
    ∀ {rest : List (String × CompletionRequest)} {g : Progress} {x : Account} {s : RouterState},
      (∀ c ∈ rest, c.1 ∈ names) → x.Idle → Registered names s₀ s →
      Leads S names s₀ (streamLoop S i deadline single chunks rest g) x s fun y _ => y.Settled
  | [], g, x, s, _, hx, h => (leads_plain plain_exhausted h).mono fun y s' o hy =>
    ⟨hy.1, hy.2 ▸ hx.settled⟩
  | (name, req) :: rest, g, x, s, hnames, hx, h => by
      have hname := hnames (name, req) List.mem_cons_self
      have hrest : ∀ c ∈ rest, c.1 ∈ names := fun c hc => hnames c (List.mem_cons_of_mem _ hc)
      refine leads_plain_bind plain_turnTo h (fun _ s h => ?_) fun _ => hx.settled
      obtain ⟨b, hb⟩ := Dict.mem_keys.mp ((h.consistent.breakers name).mpr (h.mem name hname))
      obtain ⟨l, hl⟩ := Dict.mem_keys.mp ((h.consistent.limiters name).mpr (h.mem name hname))
      replace hb := (h.breaker name hname).symm.trans hb
      replace hl := (h.limiter name hname).symm.trans hl
      refine .bind (leads_allowCandidate hname hb hx.probe h) (fun a y s hy => ?_) fun e y s hy => ?_
      · obtain ⟨h, ⟨t, ha, rfl⟩ | ⟨e, ha, rfl⟩⟩ := hy
        · obtain rfl := Except.ok.inj ha
          have hs : Registered names s₀ { s.onUsage s.usagesMade fun _ => {} with
              usagesMade := s.usagesMade + 1 } := h.quiet ⟨rfl, rfl, rfl, rfl, rfl, rfl⟩
          refine .sync_bind (.plain ?_) (fun u _ => ?_) fun e he => nomatch he
          · exact .of_quiet ⟨rfl, rfl, rfl, rfl, rfl, rfl⟩ rfl rfl rfl rfl rfl
          · refine .then_handle (leads_openStream hname hb hl (by exact hx.slot) rfl (by exact hx.delivered) hs)
              (fun a y s hy => ?_) fun e y s hy => ?_
            · obtain ⟨h, ⟨first, t, ha, rfl⟩ | ⟨e, _, ha, -⟩⟩ := hy
              · obtain rfl := Except.ok.inj ha
                exact leads_runStream hname hl rfl (by exact hx.delivered) (by exact hx.recorded) rfl rfl h
              · cases ha
            · obtain ⟨h, ⟨_, _, he, -⟩ | ⟨e, c, -, rfl⟩⟩ := hy
              · cases he
              · have hidle : Account.Idle { x with contacted := c, probe := none } :=
                  ⟨hx.delivered, hx.recorded, rfl, hx.slot⟩
                refine leads_plain_bind (.when fun _ => trivial) h (fun _ s h => ?_) fun _ => hidle.settled
                refine leads_plain_bind plain_countFailover h (fun _ s h => ?_) fun _ => hidle.settled
                exact leads_streamLoop hrest hidle h
        · obtain rfl := Except.ok.inj ha
          exact leads_streamLoop hrest hx h
      · obtain ⟨-, ⟨_, he, -⟩ | ⟨_, he, -⟩⟩ := hy <;> cases he

/-! ## Streams -/

/-- The names of the candidates a request is given; none if it is refused. -/
def planNames (S : Setup) (r : CompletionRequest) (preferred : Option String) (d : Option ℚ)
    (s : RouterState) : List String :=
  match (prepare S r preferred d s).1 with
  | .ok x => x.2.2.map Prod.fst
  | .error _ => []

theorem leads_stream {i chunks : ℕ} {preferred : Option String} {d : Option ℚ}
    (hs : Consistent s) :
    (stream S i r preferred d chunks).Tracks (keeping S (planNames S r preferred d s)) Accounts
      (fun y _ _ => y.Settled) {} s := by
  have hidle : Account.Idle {} := ⟨rfl, rfl, rfl, rfl⟩
  have hplain := plain_prepare (S := S) r preferred d s
  have hcandidates := plans_prepare S r preferred d s hs rfl
  refine .sync_bind (.plain hplain) (fun a ha => ?_) fun _ _ => hidle.settled
  rw [ha] at hcandidates
  have hnames : planNames S r preferred d s = a.2.2.map Prod.fst := by
    unfold planNames
    rw [ha]
  have hregistered : Registered (planNames S r preferred d s) (prepare S r preferred d s).2
      (prepare S r preferred d s).2 := by
    refine ⟨hplain.toQuiet.consistent hs, fun n hn => ?_, fun _ _ => rfl, fun _ _ => rfl⟩
    rw [hnames] at hn
    obtain ⟨c, hc, rfl⟩ := List.mem_map.mp hn
    rw [hplain.toQuiet.providers]
    exact (hcandidates.serves c hc).mem_keys
  have hloop : Leads S (planNames S r preferred d s) (prepare S r preferred d s).2
      (streamLoop S i a.2.1 (a.2.2.length == 1) chunks a.2.2 {}) {} (prepare S r preferred d s).2
      fun y _ => y.Settled :=
    leads_streamLoop (fun c hc => hnames ▸ List.mem_map_of_mem hc) hidle hregistered
  exact hloop.mono fun y s' o hy => hy.2

/-- **Stream settlement.** Let a stream start in any reachable router, and let none of
its candidates be dropped from then on. Whatever else happens, its notes are accepted
at every moment: no provider is contacted once a chunk was delivered, and probes and
slots are given back one by one, to where they were taken from. When it has ended,
however it did, nothing is held, and its usage and its cost were recorded once if a
chunk was delivered, and never otherwise. -/
theorem stream_settled {p p' p'' : Pool Γ} (hp : (system S).Reach Machine.free p) {i chunks : ℕ}
    {r : CompletionRequest} {preferred : Option String} {d : Option ℚ} {hist : List (Event Γ)}
    (hi : p.tasks[i]? = some ⟨.stream r preferred d chunks, .ready, hist⟩)
    (hstep : (program S).step p (.start i) = some p')
    {z : List (Machine.Step (Pool Γ) (Move Γ Op))} (hrun : (system S).Run p' z p'')
    (hspares : ∀ e ∈ z, Spares (planNames S r preferred d p.state) e.source e.label) :
    ∃ x : Account, Accepts Accounts {} ((program S).notes i (⟨p, .start i, p'⟩ :: z)) x ∧
      ∀ o hist, p''.tasks[i]? = some ⟨.stream r preferred d chunks, .done o, hist⟩ → x.Settled ∧
        (((∃ n ∈ (program S).notes i (⟨p, .start i, p'⟩ :: z), DeliversChunk n) ∧
            Once Records ((program S).notes i (⟨p, .start i, p'⟩ :: z))) ∨
          ((∀ n ∈ (program S).notes i (⟨p, .start i, p'⟩ :: z), ¬ DeliversChunk n) ∧
            ∀ n ∈ (program S).notes i (⟨p, .start i, p'⟩ :: z), ¬ Records n)) := by
  obtain rfl : hist = [] := Program.hist_of_ready (fun _ => rfl) hp _ (List.mem_of_getElem? hi) rfl
  have htame := tame_retains (S := S) (planNames S r preferred d p.state)
  have hscoped := htame.scoped_reach hp
  obtain ⟨x, hx, hat⟩ := htame.accepted hscoped hi hstep hrun hspares (leads_stream (consistent_reach hp))
  refine ⟨x, hx, fun o hist hdone => ?_⟩
  obtain ⟨s, hsettled⟩ := hat.ended hdone
  exact ⟨hsettled, records_iff hx hsettled⟩

instance (names : List String) (p : Pool Γ) : (m : Move Γ Op) → Decidable (Spares names p m)
  | .op (.dropProvider name) => inferInstanceAs (Decidable (name ∉ names))
  | .op (.setProvider _ _) | .op (.tick _) | .op (.provider _ _) | .op (.report _ _ _ _) | .op (.policies _)
  | .op (.modelGate _) | .spawn _ | .start _ | .resume _ _ | .crash _ _ _ => inferInstanceAs (Decidable True)

/-- A stream of `a` is about to start. -/
def streamingPool : Pool Γ :=
  ⟨RouterState.init plainSetup single, [⟨.stream greeting none none 2, .ready, []⟩]⟩

theorem streamingPool_reach : (system plainSetup).Reach Machine.free streamingPool :=
  .step (s := ⟨RouterState.init plainSetup single, []⟩) (i := .spawn (.stream greeting none none 2))
    (.start ⟨⟨single, rfl⟩, rfl⟩) ⟨rfl, trivial⟩ trivial

/-- The client leaves at the next chunk it is given. -/
def leaving : Oracle Γ
  | .call (.yieldChunk _) => .error .generatorExit
  | q => upstream none q

/-- How a `stream` has ended. -/
def streamEnd : (c : Call) → Status Γ c → Option (Except Exc Unit)
  | .stream _ _ _ _, .done o => some o
  | _, _ => none

/-- A stream whose client leaves at the first chunk. -/
theorem stream_settled_left :
    ∃ (l : List (Note Γ)) (x : Account), Accepts Accounts {} l x ∧ x.Settled ∧
      (((∃ n ∈ l, DeliversChunk n) ∧ Once Records l) ∨
        ((∀ n ∈ l, ¬ DeliversChunk n) ∧ ∀ n ∈ l, ¬ Records n)) := by
  have hrun : (((program plainSetup).step streamingPool (.start 0)).bind fun p' =>
      (program plainSetup).replay (Spares (planNames plainSetup greeting none none streamingPool.state)) p'
        [.resume 0 leaving, .resume 0 leaving, .resume 0 leaving, .resume 0 leaving]).any
      (fun p => p.tasks[0]?.any fun t =>
        (streamEnd t.child t.status).any fun o => decide (o = .error .generatorExit)) = true := by
    decide +kernel
  obtain ⟨p'', hp'', htest⟩ := Machine.exists_of_any hrun
  obtain ⟨p', hstep, hreplay⟩ := Option.bind_eq_some_iff.mp hp''
  obtain ⟨z, hz, hspares⟩ : ∃ z, (system plainSetup).Run p' z p'' ∧
      ∀ e ∈ z, Spares (planNames plainSetup greeting none none streamingPool.state) e.source e.label :=
    Program.exists_run_of_replay hreplay
  obtain ⟨⟨c, st, hist⟩, ht, hend⟩ := Machine.exists_of_any htest
  obtain ⟨o, ho, -⟩ := Machine.exists_of_any hend
  obtain ⟨t, ht', hchild⟩ : ∃ t, p''.tasks[0]? = some t ∧ t.child = .stream greeting none none 2 := by
    obtain ⟨t₁, ht₁, hchild₁⟩ := Program.child_step (j := 0) (fun _ => rfl) hstep
      (t := ⟨.stream greeting none none 2, .ready, []⟩) rfl
    obtain ⟨t₂, ht₂, hchild₂⟩ := Program.child_run (fun _ => rfl) hz ht₁
    exact ⟨t₂, ht₂, hchild₂.trans hchild₁⟩
  obtain rfl := Option.some.inj (ht'.symm.trans ht)
  obtain rfl : c = .stream greeting none none 2 := hchild
  obtain ⟨x, hx, hsettled⟩ := stream_settled streamingPool_reach rfl hstep hz hspares
  cases st with
  | ready => cases ho
  | suspended q k => cases ho
  | done o' => exact ⟨_, x, hx, hsettled o' hist ht⟩

end Router

end Caips.Coreai
