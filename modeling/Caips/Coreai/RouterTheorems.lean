/-
Caips.Coreai.RouterTheorems — what holds in every reachable pool of a router's
calls, for any interleaving.

The contract of `RouterContract` is kept by every task (`holds_body`), so every
pool the event loop reaches by moves a mode allows is good (`sound`).
-/
import Caips.Coreai.RouterRequests

namespace Caips.Coreai

open Caips.Logic Caips.Providers

namespace Router

open RouterState

/-! ## The moves of a mode -/

/-- The moves a mode allows in a pool. A router as a whole does not crash. -/
def Allows (M : Mode) (p : Pool Γ) : Move Γ Op → Prop
  | .op (.setProvider _ _) => ¬ M.fixed
  | .op (.dropProvider name) => ¬ M.fixed ∧ (M.careful → ∀ l ∈ p.state.limiters.get? name,
      (p.state.limiterAt l).slots = (p.state.limiterAt l).config.concurrentRequests)
  | .start i => M.kept → ∀ t ∈ p.tasks[i]?, ∀ n ∈ candidates t.child [], n ∈ p.state.providers.keys
  | .resume i a => p.AtResume i a fun me q r =>
    (M.keeps me.2 → Unbroken me q p.state r) ∧
      (M.careful → ¬ M.fixed → Granted me p.state q r)
  | .crash _ _ _ => False
  | _ => True

variable {S : Setup} {M : Mode}

theorem fixed_own_congr {s s' : RouterState} (hf : s'.focus = s.focus) (h : ¬ M.fixed) (j : Nat) :
    ownOf M j s' = ownOf M j s :=
  Prod.ext (congrFun hf j) (funext fun hfix => absurd hfix h)

theorem setProvider_focus (s : RouterState) (name : String) (q : Provider) :
    (s.setProvider S name q).focus = s.focus := by
  unfold RouterState.setProvider
  dsimp only
  split <;> rfl

variable {s : RouterState} {init : RouterState → Prop}

/-- A provider object changes its attributes. -/
theorem Inv.provider {T : Multiset Tok} {name : String} {q old : Provider}
    (h : Inv M s T) (hold : s.providers.get? name = some old) :
    Inv M { s with providers := s.providers.set name q } T ∧
      (s.providers.set name q).keys = s.providers.keys := by
  have hkeys := Dict.keys_set_of_mem q (Dict.mem_keys.mpr ⟨old, hold⟩)
  refine ⟨⟨?_, h.made, fun hfix => ?_, fun hc => ?_⟩, hkeys⟩
  · obtain ⟨hb, hl, hh, hp⟩ := h.consistent
    rw [← hkeys] at hb hl hh hp
    exact ⟨hb, hl, hh, hp⟩
  · obtain ⟨hheld, hout, hexact, hsingle, hbound⟩ := h.probes hfix
    exact ⟨hheld, hout, hexact, hsingle, hbound⟩
  · obtain ⟨hheld, hout, hexact, hroom, hactive⟩ := h.slots hc
    exact ⟨hheld, hout, hexact, hroom, hactive⟩

/-- The operations of the outside world a mode allows keep the invariant, and
leave every task its own. -/
theorem op_sound {p : Pool Γ} {o : Op} (hG : Allows M p (.op o))
    (hs : applyOp S o p.state = some s) {T₀ : Multiset Tok} (h₀ : Inv M p.state T₀) :
    (∀ j, ownOf M j s = ownOf M j p.state) ∧ ∀ T, Inv M p.state T → Inv M s T := by
  have hframe : ∀ s' : RouterState, some s' = some s → Same p.state s' →
      (∀ j, ownOf M j s = ownOf M j p.state) ∧ ∀ T, Inv M p.state T → Inv M s T := by
    rintro s' heq hsame
    obtain rfl := Option.some.inj heq
    refine ⟨fun j => ?_, fun T h => h.same hsame⟩
    simp only [ownOf, hsame.focus_eq, hsame.breakers_eq, hsame.providers_eq, hsame.limiters_eq]
  cases o with
  | tick d =>
    simp only [applyOp] at hs
    split at hs
    · exact hframe _ hs (.of_frame rfl rfl rfl rfl)
    · cases hs
  | provider name q =>
    simp only [applyOp] at hs
    split at hs
    · rename_i old hold
      split at hs
      · obtain rfl := Option.some.inj hs
        refine ⟨fun j => ?_, fun T h => (h.provider hold).1⟩
        simp only [ownOf, (h₀.provider hold).2]
      · cases hs
    · cases hs
  | report u i o m => exact hframe _ hs (.of_frame rfl rfl rfl rfl)
  | policies q => exact hframe _ hs (.of_frame rfl rfl rfl rfl)
  | modelGate g => exact hframe _ hs (.of_frame rfl rfl rfl rfl)
  | setProvider name q =>
    obtain rfl := Option.some.inj hs
    exact ⟨fixed_own_congr (setProvider_focus _ _ _) hG, fun T h => h.setProvider fun hf => absurd hf hG⟩
  | dropProvider name =>
    obtain rfl := Option.some.inj hs
    obtain ⟨hfix, hfree⟩ := hG
    exact ⟨fixed_own_congr rfl hfix, fun T h => h.dropProvider hfix hfree⟩

/-- **Soundness.** From states with the invariant the contract is kept by all
tasks, for every order of the moves the mode allows. -/
theorem sound (hinit : ∀ s, init s → Inv M s 0) :
    (contract S M).Sound init (Allows M) where
  start := hinit
  body i c _ := holds_body c
  enter p c s _ _ hs := by
    cases c with
    | leg name r d a t => cases hs
    | route r n d =>
      obtain rfl := Option.some.inj hs
      exact ⟨trivial, fun _ => rfl, fun T h => (zero_add T).symm ▸ h⟩
    | stream r n d k =>
      obtain rfl := Option.some.inj hs
      exact ⟨trivial, fun _ => rfl, fun T h => (zero_add T).symm ▸ h⟩
    | embed x m n =>
      obtain rfl := Option.some.inj hs
      exact ⟨trivial, fun _ => rfl, fun T h => (zero_add T).symm ▸ h⟩
  op p o s hp hG hs := by
    obtain ⟨l, -, hinv, -⟩ := hp
    exact op_sound hG hs hinv
  reboot s s' T _ hs := by cases hs
  begins p i t _ ht _ hG hk := by
    rcases hG with hG | ⟨a, n, hG⟩
    · exact hG hk t ht
    · exact hG.elim
  rely p i a t q k _ ht hq hans hG := by
    rcases hG with hG | ⟨n, hG⟩
    · have hresume : p.AtResume i a fun me q r =>
          (M.keeps me.2 → Unbroken me q p.state r) ∧
            (M.careful → ¬ M.fixed → Granted me p.state q r) := hG
      obtain ⟨hkept, hcare⟩ := hresume.of ht hq
      refine ⟨?_, hkept, hcare⟩
      cases q with
      | call q => exact hans
      | wait m hs => trivial
      | join h => trivial
    · exact hG.elim

/-! ## Where runs start -/

theorem inv_blank : Inv M (blank S) 0 where
  consistent := by
    refine ⟨fun _ => Iff.rfl, fun _ => Iff.rfl, fun _ => Iff.rfl, fun _ => Iff.rfl⟩
  made := fun n l h => by cases h
  probes _ := by
    refine ⟨fun x hx => absurd hx (Multiset.notMem_zero _), rfl, Ledger.exact_empty, fun b => ?_,
      fun b => Nat.zero_le _⟩
    exact ⟨rfl, Nat.zero_le _⟩
  slots _ := by
    refine ⟨fun x hx => absurd hx (Multiset.notMem_zero _), rfl, Ledger.exact_empty, fun l => ?_,
      fun l => rfl⟩
    rfl

theorem inv_fresh (h : Fresh S s) : Inv M s 0 := by
  obtain ⟨providers, hs⟩ := h
  have hfold : ∀ (l : List (String × Provider)) (s : RouterState), Inv M s 0 →
      Inv M (l.foldl (fun s p => s.setProvider S p.1 p.2) s) 0 := by
    intro l
    induction l with
    | nil => exact fun s h => h
    | cons x l ih =>
      exact fun s h => ih _ (h.setProvider fun _ => rfl)
  rw [hs]
  exact (hfold providers _ inv_blank).same (.of_frame rfl rfl rfl rfl)

theorem no_crash {p p' : Pool Γ} {i n : Nat} {a : Oracle Γ}
    (h : ((program S).machine init).step p (.crash i a n) p') : False := by
  obtain ⟨hstep, -⟩ := h
  simp only [Program.step, Option.bind_eq_bind, Option.bind_eq_some_iff] at hstep
  obtain ⟨t, -, x, -, s, hs, -⟩ := hstep
  cases hs

/-- A mode that keeps no candidates restricts the changes of the registry, and what comes back of an
admission. -/
theorem allows_of_step {p p' : Pool Γ} {m : Move Γ Op} (hkept : ¬M.kept)
    (hstep : ((program S).machine init).step p m p')
    (hset : ∀ name q, m = .op (.setProvider name q) → ¬M.fixed)
    (hdrop : ∀ name, m = .op (.dropProvider name) → ¬M.fixed ∧ (M.careful → ∀ l ∈ p.state.limiters.get? name,
      (p.state.limiterAt l).slots = (p.state.limiterAt l).config.concurrentRequests))
    (hresume : ∀ i a, m = .resume i a →
      p.AtResume i a fun me q r => M.careful → ¬M.fixed → Granted me p.state q r) : Allows M p m := by
  cases m with
  | spawn c => trivial
  | start i => exact fun hk => absurd hk hkept
  | resume i a =>
    exact ((hresume i a rfl).imp fun me q r hr => ⟨fun hk => absurd hk.1 hkept, hr⟩ :
      p.AtResume i a fun me q r => (M.keeps me.2 → Unbroken me q p.state r) ∧
        (M.careful → ¬M.fixed → Granted me p.state q r))
  | crash i a n => exact no_crash hstep
  | op o =>
    cases o with
    | setProvider name q => exact hset name q rfl
    | dropProvider name => exact hdrop name rfl
    | tick d => trivial
    | provider name q => trivial
    | report u i o m => trivial
    | policies q => trivial
    | modelGate g => trivial

/-! ## Probes -/

/-- No provider is added, replaced or dropped. -/
def FixedRegistry (_ : Pool Γ) : Move Γ Op → Prop
  | .op (.setProvider _ _) => False
  | .op (.dropProvider _) => False
  | _ => True

instance (p : Pool Γ) : (m : Move Γ Op) → Decidable (FixedRegistry p m)
  | .op (.setProvider _ _) | .op (.dropProvider _) => inferInstanceAs (Decidable False)
  | .op (.tick _) | .op (.provider _ _) | .op (.report _ _ _ _) | .op (.policies _) | .op (.modelGate _) | .spawn _
  | .start _ | .resume _ _ | .crash _ _ _ => inferInstanceAs (Decidable True)

/-- Every admission of a breaker was settled once, on that breaker; no probe is
counted, and a half-open breaker admits the next call. -/
structure Settled (s : RouterState) : Prop where
  once : ∀ e ∈ s.probes.entries, e.returns = [e.resource]
  none : ∀ b, (s.breakerAt b).probesInFlight = 0
  admits : ∀ b, (s.breakerAt b).state s.now = .halfOpen → ((s.breakerAt b).allow s.now).1 = true

theorem good_of_fixed {p : Pool Γ} (hp : (system S).Reach FixedRegistry p) :
    (contract S { fixed := True }).Good p := by
  refine (sound fun s hs => inv_fresh hs).good (hp.mono_step fun p m p' hstep hG => ?_)
  refine allows_of_step id hstep ?_ ?_ fun _ _ _ => Pool.AtResume.intro fun _ _ _ hc => hc.elim
  · rintro name q rfl
    exact hG.elim
  · rintro name rfl
    exact hG.elim

/-- What a finished task of a fixed registry still owns: the probe of the
embedding call it was cancelled at, if there is one. -/
theorem done_tokens {i : Nat} {t : Task Γ} {own : Own { fixed := True }} {h : Multiset Tok}
    (hok : (contract S { fixed := True }).TaskOk i own t h) (hdone : t.isDone = true) :
    (t.child.isEmbed = true → t.hist.any isLost = true → ∃ n name, h = {Tok.probe n name}) ∧
      ((t.child.isEmbed = true → t.hist.any isLost = false) → h = 0) := by
  obtain ⟨c, status, hist⟩ := t
  obtain ⟨-, hpost⟩ := hok
  cases status with
  | ready => cases hdone
  | suspended q k => cases hdone
  | done o =>
    change (if c.isEmbed then _ else _) at hpost
    cases hc : c.isEmbed with
    | true =>
      rw [hc] at hpost
      obtain ⟨-, hfix⟩ := hpost
      have hfix := hfix trivial
      refine ⟨fun _ hl => ?_, fun hl => ?_⟩
      · rw [hl] at hfix
        exact hfix
      · rw [hl rfl] at hfix
        exact hfix
    | false =>
      rw [hc] at hpost
      refine ⟨fun h => by simp at h, fun _ => hpost.1.none_of_sure (.inl trivial)⟩

/-- **Probes are settled exactly once, unless an embedding call is cancelled.**
In a fixed registry no admission is settled twice or on a wrong breaker. Once
every call has ended, all of them are settled and no breaker is locked exactly
if no embedding call was cancelled while it waited for its provider. -/
theorem probes_settled {p : Pool Γ} (hp : (system S).Reach FixedRegistry p) :
    p.state.probes.Exact ∧ (p.unfinished = [] →
      (Settled p.state ↔
        ∀ t ∈ p.tasks, t.child.isEmbed = true → t.hist.any isLost = false)) := by
  obtain ⟨l, hl, hinv, hok⟩ := good_of_fixed hp
  have hprobes := hinv.probes trivial
  refine ⟨hprobes.exact, fun hend => ⟨fun hset t ht hc => ?_, fun hlost => ?_⟩⟩
  all_goals
    have htoken : ∀ x ∈ l, (x.1.child.isEmbed = true → x.1.hist.any isLost = true →
          ∃ n name, x.2 = {Tok.probe n name}) ∧
        ((x.1.child.isEmbed = true → x.1.hist.any isLost = false) → x.2 = 0) := by
      intro x hx
      obtain ⟨i, hi⟩ := List.mem_iff_getElem?.mp hx
      have hmem : x.1 ∈ p.tasks := hl ▸ List.mem_map_of_mem hx
      refine done_tokens (hok i x hi) ?_
      by_contra hdone
      have hun : x.1 ∈ p.unfinished := List.mem_filter.mpr ⟨hmem, by simpa using hdone⟩
      rw [hend] at hun
      exact List.not_mem_nil hun
  · -- a probe that is out would be unsettled
    rw [← hl] at ht
    obtain ⟨x, hx, rfl⟩ := List.mem_map.mp ht
    by_contra hany
    obtain ⟨n, name, hprobe⟩ := (htoken x hx).1 hc (by simpa using hany)
    have hout := hprobes.outstanding
    rw [Ledger.outstanding_eq_zero hset.once] at hout
    have hin : Tok.probe n name ∈ (l.map Prod.snd).sum :=
      Contract.mem_tokens hx (by rw [hprobe]; exact Multiset.mem_singleton_self _)
    have hfilter : (n, name) ∈ (l.map Prod.snd).sum.filterMap Tok.probe? :=
      (Multiset.mem_filterMap _ _).mpr ⟨_, hin, rfl⟩
    rw [Multiset.map_eq_zero.mp hout.symm] at hfilter
    exact Multiset.notMem_zero _ hfilter
  · have hzero : (l.map Prod.snd).sum = 0 := by
      refine List.sum_eq_zero fun h hh => ?_
      obtain ⟨x, hx, rfl⟩ := List.mem_map.mp hh
      exact (htoken x hx).2 (hlost x.1 (hl ▸ List.mem_map_of_mem hx))
    rw [hzero] at hprobes
    have hnone : ∀ b, (p.state.breakerAt b).probesInFlight = 0 := by
      intro b
      have hbound := hprobes.bound b
      rw [hprobes.outstanding] at hbound
      exact Nat.le_zero.mp hbound
    exact ⟨hprobes.exact.all_returned hprobes.outstanding, hnone,
      fun b hb => (hprobes.single b).allow_of_halfOpen _ hb (hnone b)⟩

/-- A router without cache and retries, whose breakers open at the first
failure, with the embedding provider `a`. -/
def plainSetup : Setup where
  config := { enableCache := false, enableRetry := false, circuitFailureThreshold := 1
              threshold_pos := Calls.one_failure_pos }

/-- The pool of that router before any call. -/
def plainPool (providers : List (String × Provider)) : Pool Γ :=
  ⟨RouterState.init plainSetup providers, []⟩

theorem plainPool_reach {G : Pool Γ → Move Γ Op → Prop} (providers : List (String × Provider)) :
    (system plainSetup).Reach G (plainPool providers) := .start ⟨⟨providers, rfl⟩, rfl⟩

/-- Every call to the outside is answered with a result, or with the exception
`e`; everything else is interrupted. -/
def upstream (e : Option Exc) : Oracle Γ
  | .call (.slotLocked _) => .ok false
  | .call (.slot _ _) => .ok ()
  | .call (.sleep _) => .ok ()
  | .call .closeStream => .ok ()
  | .call (.yieldChunk _) => .ok ()
  | .call (.complete _ _ _ _) => e.elim (.ok (default : CompletionResponse)) .error
  | .call (.firstChunk _ _ _ _) => e.elim (.ok "text") .error
  | .call (.nextChunk _) => .error (e.getD .stopAsyncIteration)
  | .call (.embed _ _ _ _ _) => e.elim (.ok ⟨[], 0, ""⟩) .error
  | .wait _ _ => .error .cancelled
  | .join _ => .error .cancelled

def serverError : Exc := .upstream { status := some 500 }

/-- An embedding call fails and opens the breaker of `a`; a second one, let in
as a probe, ends with `e`. -/
def embedTwice (e : Option Exc) : List (Move Γ Op) :=
  [.spawn (.embed ["text"] none none), .start 0, .resume 0 (upstream (some serverError)),
    .op (.tick 30), .spawn (.embed ["text"] none none), .start 1, .resume 1 (upstream e)]

/-- Embedding calls are made to `a`. -/
def embedder : List (String × Provider) := [("a", { name := "a", supportsEmbeddings := true })]

/-- A second embedding call that succeeds closes the breaker again. -/
theorem probes_settled_embed :
    ∃ p : Pool Γ, p.tasks.length = 2 ∧ p.state.probes.Exact ∧ Settled p.state := by
  have hrun : ((program plainSetup).replay FixedRegistry (plainPool embedder) (embedTwice none)).any
      (fun p => decide (p.tasks.length = 2) && p.unfinished.isEmpty &&
        p.tasks.all fun t => !t.hist.any isLost) = true := by decide +kernel
  obtain ⟨p, hp, htest⟩ := Machine.exists_of_any hrun
  have hreach := Program.replay_reach (plainPool_reach embedder) hp
  simp only [Bool.and_eq_true, decide_eq_true_eq, List.isEmpty_iff, List.all_eq_true,
    Bool.not_eq_true'] at htest
  obtain ⟨⟨hlen, hend⟩, hlost⟩ := htest
  obtain ⟨hexact, hiff⟩ := probes_settled hreach
  exact ⟨p, hlen, hexact, (hiff hend).mpr fun t ht _ => hlost t ht⟩

/-- Both calls have ended, but the second was cancelled while it waited for its
provider: its probe is never settled, and the half-open breaker admits no call
any more. -/
theorem probe_lost :
    ∃ p : Pool Γ, (system plainSetup).Reach FixedRegistry p ∧ p.unfinished = [] ∧
      ¬ Settled p.state ∧ (p.state.breakerAt 0).state p.state.now = .halfOpen ∧
      (p.state.breakerAt 0).probesInFlight = 1 ∧
      ((p.state.breakerAt 0).allow p.state.now).1 = false := by
  have hrun : ((program plainSetup).replay FixedRegistry (plainPool embedder)
      (embedTwice (some .cancelled))).any (fun p => p.unfinished.isEmpty &&
        decide ((p.state.breakerAt 0).state p.state.now = .halfOpen) &&
        decide ((p.state.breakerAt 0).probesInFlight = 1) &&
        !((p.state.breakerAt 0).allow p.state.now).1) = true := by decide +kernel
  obtain ⟨p, hp, htest⟩ := Machine.exists_of_any hrun
  simp only [Bool.and_eq_true, decide_eq_true_eq, List.isEmpty_iff, Bool.not_eq_true'] at htest
  obtain ⟨⟨⟨hend, hstate⟩, hprobe⟩, hallow⟩ := htest
  refine ⟨p, Program.replay_reach (plainPool_reach embedder) hp, hend, fun hset => ?_, hstate, hprobe,
    hallow⟩
  rw [hset.none 0] at hprobe
  cases hprobe

end Router

end Caips.Coreai
