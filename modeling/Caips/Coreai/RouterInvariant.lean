/-
Caips.Coreai.RouterInvariant — what the tasks of a router own and what holds
of the router between any two of their actions.

A request owns the probe `allow` gave it, the concurrency slot it is waiting
with, and the slot it is active on (`Tok`). `Inv M s T` ties the state to the
tokens `T` of all tasks. Which of its parts can be kept depends on what the
outside world does, so it is stated for a `Mode`:

* `fixed`: no provider is added, replaced or dropped. The probes still out are
  exactly the probe tokens, and no breaker counts more of them (`ProbesOk`).
* `careful`: no limiter in use loses its name. The slots of every limiter are
  exactly accounted for (`SlotsOk`).
* `kept`: a request finds the candidates it still needs registered whenever it
  goes on.

A probe names its provider and not its breaker, and an admission both its
provider and its limiter: that is how the code finds the object again, and
what it has to find.
-/
import Caips.Logic.CoroLogic
import Caips.Coreai.PlannerTheorems
import Caips.Coreai.Router

namespace Caips.Coreai

open Caips.Logic Caips.Providers

/-! ## Breakers that admit one probe at a time -/

namespace CircuitBreaker

/-- One probe at a time, and none counted outside of `HALF_OPEN`. -/
structure Single (b : CircuitBreaker) : Prop where
  limit : b.halfOpenMaxCalls = 1
  probes : b.probesInFlight ≤ if b.rawState = .halfOpen then 1 else 0

variable {b : CircuitBreaker} (now : ℚ)

theorem refresh_probes_le (b : CircuitBreaker) :
    (b.refresh now).probesInFlight ≤ b.probesInFlight := by
  rcases b.refresh_cases now with h | ⟨-, h⟩
  · rw [h]
  · rw [h]; exact Nat.zero_le _

theorem Single.refresh (h : b.Single) : (b.refresh now).Single := by
  refine ⟨by rw [refresh_halfOpenMaxCalls, h.limit], ?_⟩
  rcases b.refresh_cases now with hr | ⟨-, hr⟩
  · rw [hr]; exact h.probes
  · rw [hr]; exact Nat.zero_le _

theorem Single.allow (h : b.Single) :
    (b.allow now).2.Single ∧
      (b.allow now).2.probesInFlight ≤ b.probesInFlight + if (b.allow now).1 then 1 else 0 := by
  have hr := h.refresh now
  have hle := refresh_probes_le now b
  rcases b.allow_cases now with ⟨-, ha⟩ | ⟨hs, hlt, ha⟩ | ⟨-, -, ha⟩ | ⟨-, ha⟩
  · rw [ha]; exact ⟨hr, by simpa using Nat.le_succ_of_le hle⟩
  · rw [ha]
    rw [h.limit] at hlt
    exact ⟨⟨hr.limit, by simpa [hs] using hlt⟩, by simpa using hle⟩
  · rw [ha]; exact ⟨hr, by simpa using hle⟩
  · rw [ha]; exact ⟨hr, by simpa using hle⟩

/-- What a method that settles an admission leaves: one probe less, if any was
counted. -/
def Settles (b b' : CircuitBreaker) : Prop :=
  b'.Single ∧ b'.probesInFlight ≤ b.probesInFlight - 1

theorem Single.release (h : b.Single) : b.Settles b.release := by
  have hp := h.probes
  unfold CircuitBreaker.release
  split
  · rename_i hs
    rw [if_pos hs] at hp
    exact ⟨⟨h.limit, by simpa [hs] using Nat.le_succ_of_le hp⟩, le_refl _⟩
  · rename_i hs
    rw [if_neg hs] at hp
    exact ⟨h, by omega⟩

theorem Single.recordSuccess (h : b.Single) : b.Settles (b.recordSuccess now) := by
  have hr := h.refresh now
  have hp := hr.probes
  have hle := refresh_probes_le now b
  rcases b.recordSuccess_cases now with ⟨hs, hb⟩ | ⟨hs, hb⟩ | ⟨hs, hb⟩
  · rw [hb]
    rw [hs, if_neg (by simp)] at hp
    exact ⟨hr, by omega⟩
  · rw [hb]
    rw [hs, if_pos rfl] at hp
    exact ⟨⟨hr.limit, by simpa using Nat.sub_le_sub_right hp 1⟩,
      by simpa using Nat.sub_le_sub_right hle 1⟩
  · rw [hb]
    rw [hs, if_neg (by simp)] at hp
    exact ⟨⟨hr.limit, by simpa using hp⟩, by simpa using Nat.le_trans hp (Nat.zero_le _)⟩

theorem Single.recordFailure (h : b.Single) (later : ℚ) :
    b.Settles (b.recordFailure now later) := by
  have hr := h.refresh now
  have hp := hr.probes
  unfold CircuitBreaker.recordFailure
  dsimp only
  split
  · rename_i hs
    rw [hs, if_neg (by simp)] at hp
    exact ⟨hr, by omega⟩
  · exact ⟨⟨hr.limit, by simp [open', changed]⟩, by simp [open', changed]⟩
  · rename_i hs
    rw [hs, if_neg (by simp)] at hp
    split
    · exact ⟨⟨hr.limit, by simp [open', changed]⟩, by simp [open', changed]⟩
    · exact ⟨⟨hr.limit, by simpa [hs] using hp⟩, by simpa using Nat.le_trans hp (Nat.zero_le _)⟩

theorem Single.allow_of_halfOpen (h : b.Single) (hs : b.state now = .halfOpen)
    (h0 : b.probesInFlight = 0) : (b.allow now).1 = true := by
  have hle := refresh_probes_le now b
  have hlimit := (h.refresh now).limit
  rw [h0] at hle
  unfold CircuitBreaker.state at hs
  unfold CircuitBreaker.allow
  dsimp only
  rw [hs]
  dsimp only
  rw [if_pos (by omega)]

end CircuitBreaker

namespace Router

open RouterState

/-! ## Tokens and modes -/

/-- What a task can own. -/
inductive Tok where
  | probe (ticket : Nat) (name : String)
  | slot (name : String) (limiter : Nat)
  | active (name : String) (limiter ticket : Nat)
  deriving DecidableEq

/-- The probe a token stands for. -/
def Tok.probe? : Tok → Option (Nat × String)
  | probe t n => some (t, n)
  | _ => none

/-- The admission a token stands for. -/
def Tok.active? : Tok → Option (Nat × Nat)
  | active _ l t => some (t, l)
  | _ => none

/-- The slot the owner of the token has, and the name it will give it back
under. -/
def Tok.holder? : Tok → Option (String × Nat)
  | probe _ _ => none
  | slot n l => some (n, l)
  | active n l _ => some (n, l)

@[simp] theorem probe_probes (t : Nat) (n : String) (T : Multiset Tok) :
    (Tok.probe t n ::ₘ T).filterMap Tok.probe? = (t, n) ::ₘ T.filterMap Tok.probe? :=
  Multiset.filterMap_cons_some _ _ _ rfl

@[simp] theorem probe_holders (t : Nat) (n : String) (T : Multiset Tok) :
    (Tok.probe t n ::ₘ T).filterMap Tok.holder? = T.filterMap Tok.holder? :=
  Multiset.filterMap_cons_none _ _ rfl

@[simp] theorem probe_actives (t : Nat) (n : String) (T : Multiset Tok) :
    (Tok.probe t n ::ₘ T).filterMap Tok.active? = T.filterMap Tok.active? :=
  Multiset.filterMap_cons_none _ _ rfl

@[simp] theorem slot_probes (n : String) (l : Nat) (T : Multiset Tok) :
    (Tok.slot n l ::ₘ T).filterMap Tok.probe? = T.filterMap Tok.probe? :=
  Multiset.filterMap_cons_none _ _ rfl

@[simp] theorem slot_holders (n : String) (l : Nat) (T : Multiset Tok) :
    (Tok.slot n l ::ₘ T).filterMap Tok.holder? = (n, l) ::ₘ T.filterMap Tok.holder? :=
  Multiset.filterMap_cons_some _ _ _ rfl

@[simp] theorem slot_actives (n : String) (l : Nat) (T : Multiset Tok) :
    (Tok.slot n l ::ₘ T).filterMap Tok.active? = T.filterMap Tok.active? :=
  Multiset.filterMap_cons_none _ _ rfl

@[simp] theorem active_probes (n : String) (l t : Nat) (T : Multiset Tok) :
    (Tok.active n l t ::ₘ T).filterMap Tok.probe? = T.filterMap Tok.probe? :=
  Multiset.filterMap_cons_none _ _ rfl

@[simp] theorem active_holders (n : String) (l t : Nat) (T : Multiset Tok) :
    (Tok.active n l t ::ₘ T).filterMap Tok.holder? = (n, l) ::ₘ T.filterMap Tok.holder? :=
  Multiset.filterMap_cons_some _ _ _ rfl

@[simp] theorem active_actives (n : String) (l t : Nat) (T : Multiset Tok) :
    (Tok.active n l t ::ₘ T).filterMap Tok.active? = (t, l) ::ₘ T.filterMap Tok.active? :=
  Multiset.filterMap_cons_some _ _ _ rfl

/-- What the outside world refrains from. -/
structure Mode where
  fixed : Prop := False
  careful : Prop := False
  kept : Prop := False

/-- The task is an `embed` call. -/
def Call.isEmbed : Call → Bool
  | .embed _ _ _ => true
  | _ => false

/-- A request for a completion goes on in a kept registry. -/
def Mode.keeps (M : Mode) (c : Call) : Prop := M.kept ∧ c.isEmbed = false

/-- The task finds its candidates registered. -/
def Mode.sure (M : Mode) (c : Call) : Prop := M.fixed ∨ M.keeps c

/-- The object a table has under a name. -/
def ref (table : Dict String Nat) (name : String) : Nat := (table.get? name).getD 0

theorem ref_of_get? {table : Dict String Nat} {name : String} {b : Nat}
    (h : table.get? name = some b) : ref table name = b := by rw [ref, h]; rfl

/-! ## The invariant -/

/-- The breakers and their ledger, given the probes in flight. -/
structure ProbesOk (s : RouterState) (P : Multiset (Nat × String)) : Prop where
  held : ∀ x ∈ P, x.2 ∈ s.breakers.keys
  outstanding : s.probes.outstanding = P.map fun x => (x.1, ref s.breakers x.2)
  exact : s.probes.Exact
  single : ∀ b, (s.breakerAt b).Single
  bound : ∀ b, (s.breakerAt b).probesInFlight ≤ (s.probes.outstanding.map Prod.snd).count b

/-- The limiters and their ledger, given who has a slot and who is active. -/
structure SlotsOk (s : RouterState) (H : Multiset (String × Nat)) (A : Multiset (Nat × Nat)) :
    Prop where
  held : ∀ x ∈ H, s.limiters.get? x.1 = some x.2
  outstanding : s.admitted.outstanding = A
  exact : s.admitted.Exact
  room : ∀ l, (s.limiterAt l).slots + (H.map Prod.snd).count l =
    (s.limiterAt l).config.concurrentRequests
  active : ∀ l, (s.limiterAt l).activeRequests = (A.map Prod.snd).count l

/-- The invariant of the router, given the tokens of all tasks. -/
structure Inv (M : Mode) (s : RouterState) (T : Multiset Tok) : Prop where
  consistent : Consistent s
  made : ∀ n l, s.limiters.get? n = some l → l < s.limitersMade
  probes : M.fixed → ProbesOk s (T.filterMap Tok.probe?)
  slots : M.careful → SlotsOk s (T.filterMap Tok.holder?) (T.filterMap Tok.active?)

/-! ## Changes that do not matter -/

/-- The router without its breakers, health and statistics and without what no
part of the invariant mentions. -/
def bare (s : RouterState) : RouterState :=
  { s with
    now := 0, random := [], health := Dict.empty, providerStats := Dict.empty
    breakerAt := fun _ => newBreaker {} "", breakersMade := 0, usageAt := fun _ => {}
    usagesMade := 0, cache := none, policies := none, modelGate := fun _ => none, aliases := Dict.empty
    modelAliases := Dict.empty, policyRr := Dict.empty, rrIndex := 0, requestCount := 0
    failoverCount := 0, hedgeCount := 0, hedgeWins := 0, totalRetries := 0, totalFailures := 0
    modelStats := Dict.empty, streamsEstimated := Dict.empty }

/-- `s'` differs from `s` in nothing that matters; a breaker may have been
read. -/
structure Same (s s' : RouterState) : Prop where
  frame : bare s' = bare s
  health : s'.health.keys = s.health.keys
  providerStats : s'.providerStats.keys = s.providerStats.keys
  breaker : ∀ b, (s'.breakerAt b).probesInFlight ≤ (s.breakerAt b).probesInFlight ∧
    ((s.breakerAt b).Single → (s'.breakerAt b).Single)

namespace Same

variable {s s' : RouterState}

theorem providers_eq (h : Same s s') : s'.providers = s.providers := congrArg (·.providers) h.frame

theorem limiters_eq (h : Same s s') : s'.limiters = s.limiters := congrArg (·.limiters) h.frame

theorem breakers_eq (h : Same s s') : s'.breakers = s.breakers := congrArg (·.breakers) h.frame

theorem limiterAt_eq (h : Same s s') : s'.limiterAt = s.limiterAt := congrArg (·.limiterAt) h.frame

theorem limitersMade_eq (h : Same s s') : s'.limitersMade = s.limitersMade :=
  congrArg (·.limitersMade) h.frame

theorem probes_eq (h : Same s s') : s'.probes = s.probes := congrArg (·.probes) h.frame

theorem admitted_eq (h : Same s s') : s'.admitted = s.admitted := congrArg (·.admitted) h.frame

theorem focus_eq (h : Same s s') : s'.focus = s.focus := congrArg (·.focus) h.frame

instance : Std.Refl Same := ⟨fun _ => ⟨rfl, rfl, rfl, fun _ => ⟨le_refl _, id⟩⟩⟩

instance : IsTrans RouterState Same where
  trans := by
    intro s t u hst htu
    refine ⟨htu.frame.trans hst.frame, htu.health.trans hst.health,
      htu.providerStats.trans hst.providerStats, fun b => ?_⟩
    exact ⟨(htu.breaker b).1.trans (hst.breaker b).1, (htu.breaker b).2 ∘ (hst.breaker b).2⟩

theorem of_frame (hf : bare s' = bare s) (hh : s'.health = s.health)
    (hp : s'.providerStats = s.providerStats) (hb : s'.breakerAt = s.breakerAt) : Same s s' :=
  ⟨hf, by rw [hh], by rw [hp], fun b => by rw [hb]; exact ⟨le_refl _, id⟩⟩

theorem of_peeks (h : Peeks s s') : Same s s' := by
  have hframe := congrArg bare h.frame
  refine ⟨hframe, by rw [h.health_eq], by rw [h.providerStats_eq], fun b => ?_⟩
  rcases h.breaker b with hb | hb
  · rw [hb]; exact ⟨le_refl _, id⟩
  · rw [hb]; exact ⟨CircuitBreaker.refresh_probes_le _ _, fun hs => hs.refresh _⟩

end Same

theorem Same.consistent {s s' : RouterState} (hs : Same s s') (h : Consistent s) :
    Consistent s' := by
  obtain ⟨hb, hl, hh, hp⟩ := h
  refine ⟨?_, ?_, ?_, ?_⟩
  · rw [hs.breakers_eq, hs.providers_eq]; exact hb
  · rw [hs.limiters_eq, hs.providers_eq]; exact hl
  · rw [hs.health, hs.providers_eq]; exact hh
  · rw [hs.providerStats, hs.providers_eq]; exact hp

theorem Inv.same {M : Mode} {s s' : RouterState} {T : Multiset Tok} (h : Inv M s T)
    (hs : Same s s') : Inv M s' T where
  consistent := hs.consistent h.consistent
  made := by rw [hs.limiters_eq, hs.limitersMade_eq]; exact h.made
  probes hf := by
    obtain ⟨hheld, hout, hexact, hsingle, hbound⟩ := h.probes hf
    refine ⟨?_, ?_, ?_, fun b => (hs.breaker b).2 (hsingle b), fun b => ?_⟩
    · rw [hs.breakers_eq]; exact hheld
    · rw [hs.probes_eq, hs.breakers_eq]; exact hout
    · rw [hs.probes_eq]; exact hexact
    · rw [hs.probes_eq]; exact (hs.breaker b).1.trans (hbound b)
  slots hc := by
    obtain ⟨hheld, hout, hexact, hroom, hactive⟩ := h.slots hc
    refine ⟨?_, ?_, ?_, ?_, ?_⟩
    · rw [hs.limiters_eq]; exact hheld
    · rw [hs.admitted_eq]; exact hout
    · rw [hs.admitted_eq]; exact hexact
    · rw [hs.limiterAt_eq]; exact hroom
    · rw [hs.limiterAt_eq]; exact hactive

/-! ## Bookkeeping -/

section Books

variable {name : String} {α β : Type}

/-- Code that keeps books on `name`: nothing it changes matters, and it raises
nothing if `name` is registered. -/
structure Books (name : String) (m : Routing α) : Prop where
  keeps : Sync.Keeps Same m
  total : ∀ s, Consistent s → name ∈ s.providers.keys → ∃ a, (m s).1 = .ok a

theorem Books.bind {m : Routing α} {k : α → Routing β} (hm : Books name m)
    (hk : ∀ a, Books name (k a)) : Books name (m >>= k) where
  keeps := .bind hm.keeps fun a => (hk a).keeps
  total s hs hn := by
    obtain ⟨a, ha⟩ := hm.total s hs hn
    have hsame := hm.keeps s
    rw [Sync.bind_run_ok ha]
    exact (hk a).total _ (hsame.consistent hs) (hsame.providers_eq ▸ hn)

theorem Books.pure (a : α) : Books name (Pure.pure a) := ⟨.pure a, fun _ _ _ => ⟨a, rfl⟩⟩

/-- Code that looks an entry of a table up and then changes it. -/
theorem Books.entry {ν : Type} {table : RouterState → Dict String ν}
    {f : ν → RouterState → RouterState}
    (ht : ∀ s, Consistent s → name ∈ s.providers.keys → name ∈ (table s).keys)
    (hf : ∀ v s, (table s).get? name = some v → Same s (f v s)) :
    Books name (Sync.reads (fun s => lookup (table s) name) >>= fun v => Sync.update (f v)) where
  keeps s := by
    rw [Sync.bind_run, Sync.reads_run]
    cases hv : lookup (table s) name with
    | ok v => exact hf v s (get?_of_lookup hv)
    | error e => exact Std.Refl.refl s
  total s hs hn := by
    obtain ⟨v, hv⟩ := Dict.mem_keys.mp (ht s hs hn)
    exact ⟨(), by rw [Sync.bind_run, Sync.reads_run, lookup_of_get? hv]; rfl⟩

theorem books_onStats (f : ProviderStats → ProviderStats) : Books name (onStats name f) :=
  .entry (fun _ hs hn => (hs.providerStats name).mpr hn) fun v _ hv =>
    ⟨rfl, rfl, Dict.keys_set_of_mem _ (Dict.mem_keys.mpr ⟨v, hv⟩), fun _ => ⟨le_refl _, id⟩⟩

theorem books_recordHealth (ok : Bool) : Books name (recordHealth name ok) :=
  .entry (fun _ hs hn => (hs.health name).mpr hn) fun v _ hv =>
    ⟨rfl, Dict.keys_set_of_mem _ (Dict.mem_keys.mpr ⟨v, hv⟩), rfl, fun _ => ⟨le_refl _, id⟩⟩

theorem books_recordSuccess (costUsd latencyMs : ℚ) :
    Books name (recordSuccess name costUsd latencyMs) :=
  (books_onStats _).bind fun _ => (books_recordHealth _).bind fun _ => books_onStats _

theorem books_recordError (kind : ErrorKind) (status : Option Nat) :
    Books name (recordError name kind status) := by
  refine (books_onStats _).bind fun _ => .bind ?_ fun _ => books_onStats _
  unfold recordIllness
  split
  · exact books_recordHealth _
  · exact .pure _

theorem books_countLocalRateLimit : Books name (countLocalRateLimit name) := books_onStats _

end Books

/-! ## Probes -/

section Probes

variable {s : RouterState} {P : Multiset (Nat × String)} {name : String} {b : Nat}
  {c : CircuitBreaker}

/-- Another breaker in the place of `b`, with the ledger `l`. -/
theorem ProbesOk.replace (h : ProbesOk s P) {l : Ledger Nat} {P' : Multiset (Nat × String)}
    (hheld : ∀ x ∈ P', x.2 ∈ s.breakers.keys)
    (hout : l.outstanding = P'.map fun x => (x.1, ref s.breakers x.2)) (hexact : l.Exact)
    (hc : c.Single) (hb : c.probesInFlight ≤ (l.outstanding.map Prod.snd).count b)
    (hother : ∀ d ≠ b, (s.probes.outstanding.map Prod.snd).count d =
      (l.outstanding.map Prod.snd).count d) :
    ProbesOk { s with breakerAt := Function.update s.breakerAt b c, probes := l } P' where
  held := hheld
  outstanding := hout
  exact := hexact
  single d := by
    by_cases hd : d = b
    · subst hd; simpa using hc
    · simpa [hd] using h.single d
  bound d := by
    by_cases hd : d = b
    · subst hd; simpa using hb
    · have hle := h.bound d
      rw [hother d hd] at hle
      simpa [hd] using hle

theorem ProbesOk.calm (h : ProbesOk s P) (hc : c.Single)
    (hle : c.probesInFlight ≤ (s.breakerAt b).probesInFlight) :
    ProbesOk { s with breakerAt := Function.update s.breakerAt b c } P :=
  h.replace h.held h.outstanding h.exact hc (hle.trans (h.bound b)) fun _ _ => rfl

/-- An admission. -/
theorem ProbesOk.take (h : ProbesOk s P) (hn : s.breakers.get? name = some b) (hc : c.Single)
    (hle : c.probesInFlight ≤ (s.breakerAt b).probesInFlight + 1) :
    ProbesOk { s with
        breakerAt := Function.update s.breakerAt b c, probes := (s.probes.take b).2 }
      (((s.probes.take b).1, name) ::ₘ P) := by
  refine h.replace ?_ ?_ (h.exact.take b) hc ?_ ?_
  · intro x hx
    rcases Multiset.mem_cons.mp hx with rfl | hx
    · exact Dict.mem_keys.mpr ⟨b, hn⟩
    · exact h.held x hx
  · rw [Ledger.outstanding_take, Multiset.map_cons, h.outstanding, ref_of_get? hn]
  · rw [Ledger.outstanding_take, Multiset.map_cons, Multiset.count_cons_self]
    exact hle.trans (Nat.succ_le_succ (h.bound b))
  · intro d hd
    rw [Ledger.outstanding_take, Multiset.map_cons, Multiset.count_cons_of_ne hd]

/-- The end of an admission, settled with the breaker it came from. -/
theorem ProbesOk.settle {t : Nat} (h : ProbesOk s ((t, name) ::ₘ P))
    (hn : s.breakers.get? name = some b) (hc : (s.breakerAt b).Settles c) :
    ProbesOk { s with
        breakerAt := Function.update s.breakerAt b c, probes := s.probes.giveBack t b } P := by
  have hmem : (t, b) ∈ s.probes.outstanding := by
    rw [h.outstanding, Multiset.map_cons, ref_of_get? hn]
    exact Multiset.mem_cons_self _ _
  have hout := Ledger.outstanding_giveBack b hmem
  have hbound := h.bound b
  refine h.replace (fun x hx => h.held x (Multiset.mem_cons_of_mem hx)) ?_ (h.exact.giveBack hmem)
    hc.1 ?_ ?_
  · have hall := h.outstanding
    rw [hout, Multiset.map_cons, ref_of_get? hn] at hall
    exact (Multiset.cons_inj_right _).mp hall
  · rw [hout, Multiset.map_cons, Multiset.count_cons_self] at hbound
    have hle := hc.2
    omega
  · intro d hd
    rw [hout, Multiset.map_cons, Multiset.count_cons_of_ne hd]

end Probes

section Probes

variable {M : Mode} {s : RouterState} {T U : Multiset Tok} {name : String} {b t : Nat}

/-- A change of breakers and their ledger. -/
theorem Inv.withProbes (h : Inv M s T) {f : Nat → CircuitBreaker} {l : Ledger Nat}
    (hh : U.filterMap Tok.holder? = T.filterMap Tok.holder?)
    (ha : U.filterMap Tok.active? = T.filterMap Tok.active?)
    (hp : M.fixed → ProbesOk s (T.filterMap Tok.probe?) →
      ProbesOk { s with breakerAt := f, probes := l } (U.filterMap Tok.probe?)) :
    Inv M { s with breakerAt := f, probes := l } U where
  consistent := ⟨h.consistent.1, h.consistent.2, h.consistent.3, h.consistent.4⟩
  made := h.made
  probes hf := hp hf (h.probes hf)
  slots hc := by
    obtain ⟨hheld, hout, hexact, hroom, hactive⟩ := h.slots hc
    rw [hh, ha]
    exact ⟨hheld, hout, hexact, hroom, hactive⟩

/-- An admission gives its task a probe. -/
theorem Inv.allow_some (h : Inv M s T) (hn : s.breakers.get? name = some b)
    (ha : (s.allow b).1 = some t) : Inv M (s.allow b).2 ({Tok.probe t name} + T) := by
  unfold RouterState.allow at ha ⊢
  dsimp only at ha ⊢
  split at ha
  · rename_i hadm
    rw [if_pos hadm]
    obtain rfl := Option.some.inj ha
    refine h.withProbes (U := {Tok.probe _ name} + T) (by simp) (by simp) fun hf hok => ?_
    have hallow := (hok.single b).allow s.now
    rw [if_pos hadm] at hallow
    rw [Multiset.singleton_add, probe_probes]
    exact hok.take hn hallow.1 hallow.2
  · exact absurd ha (by simp)

theorem Inv.allow_none (h : Inv M s T) (ha : (s.allow b).1 = none) : Inv M (s.allow b).2 T := by
  unfold RouterState.allow at ha ⊢
  dsimp only at ha ⊢
  split at ha
  · exact absurd ha (by simp)
  · rename_i hadm
    rw [if_neg hadm]
    refine h.withProbes (l := s.probes) rfl rfl fun hf hok => ?_
    have hallow := (hok.single b).allow s.now
    rw [if_neg hadm] at hallow
    exact hok.calm hallow.1 hallow.2

/-- A method that settles an admission takes the probe back. In a registry
that changes the breaker need not be the right one, and the ledger is not
accounted for. -/
theorem Inv.settle (h : Inv M s ({Tok.probe t name} + T))
    (hn : M.fixed → s.breakers.get? name = some b) {f : CircuitBreaker → CircuitBreaker}
    (hf : ∀ c : CircuitBreaker, c.Single → c.Settles (f c)) : Inv M (s.settle b t f) T := by
  refine h.withProbes (by simp) (by simp) fun hfix hok => ?_
  rw [Multiset.singleton_add, probe_probes] at hok
  exact hok.settle (hn hfix) (hf _ (hok.single b))

end Probes

/-! ## Slots -/

section Slots

variable {s : RouterState} {H H' : Multiset (String × Nat)} {A A' : Multiset (Nat × Nat)}
  {name : String} {l t : Nat} {f : ProviderLimiter → ProviderLimiter}

/-- A method of the limiter `l`, with the ledger `g` after it. -/
theorem SlotsOk.method (h : SlotsOk s H A) {g : Ledger Nat}
    (hheld : ∀ x ∈ H', s.limiters.get? x.1 = some x.2) (hout : g.outstanding = A')
    (hexact : g.Exact)
    (hroom : (f (s.limiterAt l)).slots + (H'.map Prod.snd).count l =
      (f (s.limiterAt l)).config.concurrentRequests)
    (hactive : (f (s.limiterAt l)).activeRequests = (A'.map Prod.snd).count l)
    (hother : ∀ k ≠ l, (H'.map Prod.snd).count k = (H.map Prod.snd).count k ∧
      (A'.map Prod.snd).count k = (A.map Prod.snd).count k) :
    SlotsOk { s.onLimiter l f with admitted := g } H' A' where
  held := hheld
  outstanding := hout
  exact := hexact
  room k := by
    by_cases hk : k = l
    · subst hk; simpa [onLimiter] using hroom
    · have hroom := h.room k
      rw [← (hother k hk).1] at hroom
      simpa [onLimiter, hk] using hroom
  active k := by
    by_cases hk : k = l
    · subst hk; simpa [onLimiter] using hactive
    · have hactive := h.active k
      rw [← (hother k hk).2] at hactive
      simpa [onLimiter, hk] using hactive

theorem SlotsOk.idle (h : SlotsOk s H A) (hs : (f (s.limiterAt l)).slots = (s.limiterAt l).slots)
    (ha : (f (s.limiterAt l)).activeRequests = (s.limiterAt l).activeRequests)
    (hc : (f (s.limiterAt l)).config = (s.limiterAt l).config) :
    SlotsOk (s.onLimiter l f) H A :=
  h.method (g := s.admitted) h.held h.outstanding h.exact (by rw [hs, hc]; exact h.room l)
    (by rw [ha]; exact h.active l) fun _ _ => ⟨rfl, rfl⟩

/-- A waiter is given a free slot of the limiter its name stands for. -/
theorem SlotsOk.takeSlot (h : SlotsOk s H A) (hn : s.limiters.get? name = some l)
    (hfree : 0 < (s.limiterAt l).slots) :
    SlotsOk (s.onLimiter l .takeSlot) ((name, l) ::ₘ H) A := by
  have hroom := h.room l
  refine h.method (g := s.admitted) ?_ h.outstanding h.exact ?_ (h.active l) fun k hk => ⟨?_, rfl⟩
  · intro x hx
    rcases Multiset.mem_cons.mp hx with rfl | hx
    · exact hn
    · exact h.held x hx
  · rw [Multiset.map_cons, Multiset.count_cons_self, ProviderLimiter.slots_takeSlot,
      ProviderLimiter.config_takeSlot]
    omega
  · rw [Multiset.map_cons, Multiset.count_cons_of_ne hk]

theorem SlotsOk.abandon (h : SlotsOk s ((name, l) ::ₘ H) A) (tokens : ℚ) :
    SlotsOk (s.onLimiter l (·.abandon tokens)) H A := by
  have hroom := h.room l
  rw [Multiset.map_cons, Multiset.count_cons_self] at hroom
  refine h.method (f := (·.abandon tokens)) (g := s.admitted)
    (fun x hx => h.held x (Multiset.mem_cons_of_mem hx)) h.outstanding h.exact ?_ (h.active l)
    fun k hk => ⟨?_, rfl⟩
  · rw [ProviderLimiter.slots_abandon, ProviderLimiter.config_abandon]
    omega
  · rw [Multiset.map_cons, Multiset.count_cons_of_ne hk]

theorem SlotsOk.letIn (h : SlotsOk s ((name, l) ::ₘ H) A) (waited : ℚ) :
    SlotsOk (s.letIn l waited).2 ((name, l) ::ₘ H) (((s.letIn l waited).1, l) ::ₘ A) := by
  refine h.method (g := (s.admitted.take l).2) h.held ?_ (h.exact.take l) (h.room l) ?_
    fun k hk => ⟨rfl, ?_⟩
  · rw [Ledger.outstanding_take, h.outstanding]
    rfl
  · rw [Multiset.map_cons, Multiset.count_cons_self, ProviderLimiter.activeRequests_letIn,
      h.active l]
  · rw [Multiset.map_cons, Multiset.count_cons_of_ne hk]

/-- A release by the name the limiter still has. -/
theorem SlotsOk.release (h : SlotsOk s ((name, l) ::ₘ H) ((t, l) ::ₘ A)) :
    SlotsOk (s.limiterRelease name (some t)) H A := by
  have hn : s.limiters.get? name = some l := h.held _ (Multiset.mem_cons_self _ _)
  have hroom : (s.limiterAt l).slots + ((H.map Prod.snd).count l + 1) =
      (s.limiterAt l).config.concurrentRequests := by simpa using h.room l
  have hactive : (s.limiterAt l).activeRequests = (A.map Prod.snd).count l + 1 := by
    simpa using h.active l
  have hmem : (t, l) ∈ s.admitted.outstanding := by
    rw [h.outstanding]
    exact Multiset.mem_cons_self _ _
  have hout := Ledger.outstanding_giveBack l hmem
  have hrel := ProviderLimiter.release_of_active (l := s.limiterAt l) (by omega)
  unfold limiterRelease
  rw [hn]
  refine h.method (g := s.admitted.giveBack t l)
    (fun x hx => h.held x (Multiset.mem_cons_of_mem hx)) ?_ (h.exact.giveBack hmem) ?_ ?_
    fun k hk => ⟨?_, ?_⟩
  · rw [h.outstanding] at hout
    exact ((Multiset.cons_inj_right _).mp hout).symm
  · rw [hrel]
    show (s.limiterAt l).slots + 1 + _ = (s.limiterAt l).config.concurrentRequests
    omega
  · rw [hrel]
    show (s.limiterAt l).activeRequests - 1 = _
    omega
  · rw [Multiset.map_cons, Multiset.count_cons_of_ne hk]
  · rw [Multiset.map_cons, Multiset.count_cons_of_ne hk]

end Slots

section Slots

variable {M : Mode} {s : RouterState} {T U : Multiset Tok} {name : String} {l t : Nat}

/-- A change of limiters and their ledger. -/
theorem Inv.withSlots (h : Inv M s T) {f : Nat → ProviderLimiter} {g : Ledger Nat}
    (hp : U.filterMap Tok.probe? = T.filterMap Tok.probe?)
    (hs : M.careful → SlotsOk s (T.filterMap Tok.holder?) (T.filterMap Tok.active?) →
      SlotsOk { s with limiterAt := f, admitted := g } (U.filterMap Tok.holder?)
        (U.filterMap Tok.active?)) :
    Inv M { s with limiterAt := f, admitted := g } U where
  consistent := ⟨h.consistent.1, h.consistent.2, h.consistent.3, h.consistent.4⟩
  made := h.made
  probes hf := by
    obtain ⟨hheld, hout, hexact, hsingle, hbound⟩ := h.probes hf
    rw [hp]
    exact ⟨hheld, hout, hexact, hsingle, hbound⟩
  slots hc := hs hc (h.slots hc)

theorem Inv.idle (h : Inv M s T) {f : ProviderLimiter → ProviderLimiter}
    (hs : (f (s.limiterAt l)).slots = (s.limiterAt l).slots)
    (ha : (f (s.limiterAt l)).activeRequests = (s.limiterAt l).activeRequests)
    (hc : (f (s.limiterAt l)).config = (s.limiterAt l).config) : Inv M (s.onLimiter l f) T :=
  h.withSlots (g := s.admitted) rfl fun _ hok => hok.idle hs ha hc

theorem Inv.takeSlot (h : Inv M s T)
    (hn : M.careful → s.limiters.get? name = some l ∧ 0 < (s.limiterAt l).slots) :
    Inv M (s.onLimiter l .takeSlot) ({Tok.slot name l} + T) := by
  refine h.withSlots (g := s.admitted) (by simp) fun hc hok => ?_
  rw [Multiset.singleton_add, slot_holders, slot_actives]
  exact hok.takeSlot (hn hc).1 (hn hc).2

theorem Inv.abandon (h : Inv M s ({Tok.slot name l} + T)) (tokens : ℚ) :
    Inv M (s.onLimiter l (·.abandon tokens)) T := by
  refine h.withSlots (g := s.admitted) (by simp) fun _ hok => ?_
  rw [Multiset.singleton_add, slot_holders, slot_actives] at hok
  exact hok.abandon tokens

theorem Inv.letIn (h : Inv M s ({Tok.slot name l} + T)) (waited : ℚ) :
    Inv M (s.letIn l waited).2 ({Tok.active name l (s.letIn l waited).1} + T) := by
  refine h.withSlots (U := {Tok.active name l (s.letIn l waited).1} + T) (by simp)
    fun _ hok => ?_
  rw [Multiset.singleton_add, slot_holders, slot_actives] at hok
  rw [Multiset.singleton_add, active_holders, active_actives]
  exact hok.letIn waited

theorem limiterRelease_eq (s : RouterState) (name : String) (t : Option Nat) :
    ∃ f led, s.limiterRelease name t = { s with limiterAt := f, admitted := led } := by
  unfold limiterRelease
  split
  · exact ⟨s.limiterAt, s.admitted, rfl⟩
  · split
    · exact ⟨_, _, rfl⟩
    · exact ⟨_, s.admitted, rfl⟩

/-- The tokens `X` are those of a request that was admitted with this ticket.
Without a limiter there is no ticket, which no careful registry lets happen. -/
inductive Admitted (M : Mode) (name : String) : Option Nat → Multiset Tok → Prop
  | active (l t : Nat) : Admitted M name (some t) {Tok.active name l t}
  | free : ¬ M.careful → Admitted M name none 0

/-- A request gives back what it was admitted with. -/
theorem Inv.limiterRelease {ticket : Option Nat} {X : Multiset Tok} (h : Inv M s (X + T))
    (hX : Admitted M name ticket X) : Inv M (s.limiterRelease name ticket) T := by
  obtain ⟨f, led, heq⟩ := limiterRelease_eq s name ticket
  have hinv : Inv M { s with limiterAt := f, admitted := led } T := by
    refine h.withSlots ?_ fun hc hok => ?_
    · cases hX <;> simp
    · cases hX with
      | active l t =>
        rw [Multiset.singleton_add, active_holders, active_actives] at hok
        have hrel := hok.release
        rw [heq] at hrel
        exact hrel
      | free hcare => exact absurd hc hcare
  rw [heq]
  exact hinv

theorem Inv.active_mem {X : Multiset Tok} (h : Inv M s (X + T)) {ticket : Option Nat}
    (hX : Admitted M name ticket X) (hc : M.careful) : name ∈ s.providers.keys := by
  rw [← h.consistent.limiters]
  cases hX with
  | active l t =>
    exact Dict.mem_keys.mpr ⟨l, (h.slots hc).held (name, l) (by simp)⟩
  | free hcare => exact absurd hc hcare

end Slots

/-! ## The outside world -/

section World

variable {M : Mode} {s : RouterState} {T : Multiset Tok} {S : Setup} {name : String} {p : Provider}

theorem actives_le_holders (T : Multiset Tok) :
    (T.filterMap Tok.active?).map Prod.snd ≤ (T.filterMap Tok.holder?).map Prod.snd := by
  induction T using Multiset.induction with
  | empty => exact le_refl _
  | cons x T ih =>
    cases x with
    | probe t n => simpa using ih
    | slot n l => simpa using ih.trans (Multiset.le_cons_self _ l)
    | active n l t => simpa using ih

/-- The limiters after a new name was registered. -/
theorem SlotsOk.register {H : Multiset (String × Nat)} {A : Multiset (Nat × Nat)}
    (h : SlotsOk s H A) (hle : A.map Prod.snd ≤ H.map Prod.snd)
    (hmade : ∀ n l, s.limiters.get? n = some l → l < s.limitersMade)
    (hn : name ∉ s.limiters.keys) : SlotsOk (s.register S name) H A := by
  have hzero : (H.map Prod.snd).count s.limitersMade = 0 := by
    rw [Multiset.count_eq_zero]
    intro hm
    obtain ⟨x, hx, heq⟩ := Multiset.mem_map.mp hm
    exact absurd heq (Nat.ne_of_lt (hmade x.1 x.2 (h.held x hx)))
  have hzero' : (A.map Prod.snd).count s.limitersMade = 0 :=
    Nat.le_zero.mp (hzero ▸ Multiset.count_le_of_le _ hle)
  refine ⟨fun x hx => ?_, h.outstanding, h.exact, fun l => ?_, fun l => ?_⟩
  · have hne : name ≠ x.1 := by
      rintro rfl
      exact hn (Dict.mem_keys.mpr ⟨x.2, h.held x hx⟩)
    exact (Dict.get?_set_ne _ _ hne).trans (h.held x hx)
  · show (Function.update s.limiterAt s.limitersMade _ l).slots + _ = _
    by_cases hl : l = s.limitersMade
    · subst hl
      simp [hzero, RouterState.register, ProviderLimiter.init]
    · simpa [hl, RouterState.register] using h.room l
  · show (Function.update s.limiterAt s.limitersMade _ l).activeRequests = _
    by_cases hl : l = s.limitersMade
    · subst hl
      simp [hzero', ProviderLimiter.init]
    · simpa [hl] using h.active l

/-- The breakers after a new name was registered, with no probe in flight. -/
theorem ProbesOk.register (h : ProbesOk s 0) : ProbesOk (s.register S name) 0 := by
  refine ⟨fun x hx => absurd hx (Multiset.notMem_zero _), h.outstanding, h.exact, fun b => ?_,
    fun b => ?_⟩
  · show (Function.update s.breakerAt s.breakersMade _ b).Single
    by_cases hb : b = s.breakersMade
    · subst hb
      rw [Function.update_self]
      exact ⟨rfl, Nat.zero_le _⟩
    · rw [Function.update_of_ne hb]; exact h.single b
  · show (Function.update s.breakerAt s.breakersMade _ b).probesInFlight ≤ _
    by_cases hb : b = s.breakersMade
    · subst hb
      rw [Function.update_self]
      exact Nat.zero_le _
    · rw [Function.update_of_ne hb]; exact h.bound b

/-- Adding a provider, or replacing one. -/
theorem Inv.setProvider (h : Inv M s T) (hfix : M.fixed → T = 0) : Inv M (s.setProvider S name p) T := by
  have hcons := h.consistent.setProvider S name p
  unfold RouterState.setProvider at hcons ⊢
  dsimp only at hcons ⊢
  split
  · rename_i hc
    rw [if_pos hc] at hcons
    refine ⟨hcons, h.made, fun hf => ?_, fun hc => ?_⟩
    · obtain ⟨hheld, hout, hexact, hsingle, hbound⟩ := h.probes hf
      exact ⟨hheld, hout, hexact, hsingle, hbound⟩
    · obtain ⟨hheld, hout, hexact, hroom, hactive⟩ := h.slots hc
      exact ⟨hheld, hout, hexact, hroom, hactive⟩
  · rename_i hc
    rw [if_neg hc] at hcons
    have hnew : name ∉ s.limiters.keys := by
      rw [h.consistent.limiters]
      exact not_contains hc
    refine ⟨hcons, fun n l hl => ?_, fun hf => ?_, fun hcare => ?_⟩
    · show l < s.limitersMade + 1
      by_cases hn : name = n
      · subst hn
        have hl' : (s.limiters.set name s.limitersMade).get? name = some l := hl
        rw [Dict.get?_set_self] at hl'
        rw [← Option.some.inj hl']
        exact Nat.lt_succ_self _
      · have hl' : (s.limiters.set name s.limitersMade).get? n = some l := hl
        rw [Dict.get?_set_ne _ _ hn] at hl'
        exact Nat.lt_succ_of_lt (h.made n l hl')
    · have hprobes := h.probes hf
      rw [hfix hf] at hprobes ⊢
      have hreg : ProbesOk (s.register S name) 0 := hprobes.register
      obtain ⟨hheld, hout, hexact, hsingle, hbound⟩ := hreg
      exact ⟨hheld, hout, hexact, hsingle, hbound⟩
    · obtain ⟨hheld, hout, hexact, hroom, hactive⟩ :=
        (h.slots hcare).register (S := S) (actives_le_holders T) h.made hnew
      exact ⟨hheld, hout, hexact, hroom, hactive⟩

/-- Dropping a provider none of whose slots is taken. -/
theorem Inv.dropProvider (h : Inv M s T) (hfix : ¬ M.fixed)
    (hfree : M.careful → ∀ l ∈ s.limiters.get? name,
      (s.limiterAt l).slots = (s.limiterAt l).config.concurrentRequests) :
    Inv M (s.dropProvider name) T := by
  refine ⟨h.consistent.dropProvider name, fun n l hl => ?_, fun hf => absurd hf hfix, fun hc => ?_⟩
  · have hl' : (s.limiters.pop name).get? n = some l := hl
    by_cases hn : name = n
    · subst hn; rw [Dict.get?_pop_self] at hl'; cases hl'
    · rw [Dict.get?_pop_ne _ hn] at hl'; exact h.made n l hl'
  · have hok := h.slots hc
    refine ⟨fun x hx => ?_, hok.outstanding, hok.exact, hok.room, hok.active⟩
    have hx' := hok.held x hx
    have hne : name ≠ x.1 := by
      rintro rfl
      have hroom := hok.room x.2
      have hpos : 0 < ((T.filterMap Tok.holder?).map Prod.snd).count x.2 :=
        Multiset.count_pos.mpr (Multiset.mem_map_of_mem Prod.snd hx)
      have hslots := hfree hc x.2 hx'
      omega
    exact (Dict.get?_pop_ne _ hne).trans hx'

theorem Inv.turnTo (h : Inv M s T) (i : Nat) (names : List String) : Inv M (s.turnTo i names) T :=
  ⟨⟨h.consistent.1, h.consistent.2, h.consistent.3, h.consistent.4⟩, h.made,
    fun hf => ⟨(h.probes hf).1, (h.probes hf).2, (h.probes hf).3, (h.probes hf).4, (h.probes hf).5⟩,
    fun hc => ⟨(h.slots hc).1, (h.slots hc).2, (h.slots hc).3, (h.slots hc).4, (h.slots hc).5⟩⟩

end World

end Router

end Caips.Coreai
