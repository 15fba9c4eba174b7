/-
Caips.Coreai.RouterFailover — failover against its reference semantics.

The candidate loop of `route` is compared with what each candidate comes to
(`Turn`): an exception where its breaker refuses, else the outcome of the call
after its retries. The run of a request falls into the turns of its candidates,
in the order of the plan (`Tries`), and how it ends depends on their outcomes
alone (`Resolves`): the first success after failures of a failover kind, the
first other failure, the sole candidate's error, or the list of all failures.
The names are looked up again after every await, so this is about a registry
that does not change meanwhile.
-/
import Caips.Coreai.RouterConfinement

namespace Caips.Coreai

open Caips.Logic Caips.Providers

namespace Router

open RouterState

variable {S : Setup}

/-! ## A registry that does not change -/

/-- The same names are registered, with the same breakers and limiters. -/
structure Frozen (s s' : RouterState) : Prop where
  names : s'.providers.keys = s.providers.keys
  breakers : s'.breakers = s.breakers
  limiters : s'.limiters = s.limiters
  health : s'.health.keys = s.health.keys
  providerStats : s'.providerStats.keys = s.providerStats.keys

theorem frozen_refl (s : RouterState) : Frozen s s := ⟨rfl, rfl, rfl, rfl, rfl⟩

theorem Frozen.trans {s s' s'' : RouterState} (h : Frozen s s') (h' : Frozen s' s'') : Frozen s s'' :=
  ⟨h'.names.trans h.names, h'.breakers.trans h.breakers, h'.limiters.trans h.limiters,
    h'.health.trans h.health, h'.providerStats.trans h.providerStats⟩

variable {s s' : RouterState}

theorem Quiet.frozen (h : Quiet s s') : Frozen s s' :=
  ⟨congrArg Dict.keys h.providers, h.breakers, h.limiters, h.health, h.providerStats⟩

theorem Frozen.consistent (h : Frozen s s') (hs : Consistent s) :
    Consistent s' where
  breakers := by rw [h.breakers, h.names]; exact hs.breakers
  limiters := by rw [h.limiters, h.names]; exact hs.limiters
  health := by rw [h.health, h.names]; exact hs.health
  providerStats := by rw [h.providerStats, h.names]; exact hs.providerStats

/-- The world of a task while the registry does not change. -/
abbrev frozen (S : Setup) : Coro.Env Γ := (program S).world Frozen

theorem frozen_of_exec {α : Type} {φ : Ask Γ → Prop} {c c' : Async α}
    {l : Trail Γ} (hc : Scope φ c) (h : Coro.Exec (frozen S) c s l c' s') : Frozen s s' :=
  (h.within (N := Frozen) frozen_refl (fun _ _ _ => Frozen.trans)
    (fun _ _ _ _ => Program.world_step) (hc.mono (fun _ => id) fun _ _ => Quiet.frozen)).2.1

/-! ## Turns -/

/-- A candidate's turn: its breaker refuses it, which counts as an exception, or
it is called and comes to what the call comes to after its retries. -/
inductive Turn (E : Coro.Env Γ) (S : Setup) (deadline : Deadline) (attempts : Nat)
    (c : String × CompletionRequest) (s : RouterState) :
    Trail Γ → Except Exc CompletionResponse → RouterState → Prop
  | refused {l : Trail Γ} {b : Nat} {e : Exc} {s' : RouterState} :
      Coro.Runs E (allowCandidate c.1) s l (.ok (b, .error e)) s' →
      Turn E S deadline attempts c s l (.error e) s'
  | called {l l' : Trail Γ} {b probe : Nat} {s₁ s' : RouterState}
      {x : Except Exc CompletionResponse} :
      Coro.Runs E (allowCandidate c.1) s l (.ok (b, .ok probe)) s₁ →
      Coro.Runs E (callProvider S c.1 c.2 deadline attempts probe) s₁ l' x s' →
      Turn E S deadline attempts c s (l' ++ l) x s'

/-- From the state `s`, the candidates of a plan have their turns one after the
other, up to one of them, and come to these outcomes. -/
inductive Tries (E : Coro.Env Γ) (S : Setup) (deadline : Deadline) :
    List (String × CompletionRequest) → RouterState → Trail Γ →
      List (Except Exc CompletionResponse) → RouterState → Prop
  | stop {plan : List (String × CompletionRequest)} {s s' : RouterState} :
      Quiet s s' → Tries E S deadline plan s [] [] s'
  | turn {c : String × CompletionRequest} {plan : List (String × CompletionRequest)}
      {s s₀ s₁ s' : RouterState} {l l' : Trail Γ} {x : Except Exc CompletionResponse}
      {xs : List (Except Exc CompletionResponse)} :
      Quiet s s₀ → Turn E S deadline (attemptsFor S plan.isEmpty) c s₀ l x s₁ →
      Tries E S deadline plan s₁ l' xs s' → Tries E S deadline (c :: plan) s (l' ++ l) (x :: xs) s'

/-! ## The reference -/

/-- A failure after which another provider is tried. -/
def FailsOver (e : Exc) : Prop :=
  e.isException = true ∧ (classify e).kind ≠ .deadline ∧ (classify e).failover = true

/-- A response in whose metadata the candidates that failed before are named. -/
def failedOver (names : List String) (response : CompletionResponse) : CompletionResponse :=
  if names.isEmpty then response
  else { response with metadata := response.metadata.set "failed_over_from" (.names names) }

/-- How a request ends, by what its candidates came to. -/
inductive Resolves (plan : List (String × CompletionRequest)) :
    List (Except Exc CompletionResponse) → Except Exc CompletionResponse → Prop
  | returned {failed : List Exc} {response : CompletionResponse} :
      (∀ e ∈ failed, FailsOver e) →
      Resolves plan (failed.map .error ++ [.ok response])
        (.ok (failedOver ((plan.map Prod.fst).take failed.length) response))
  | raised {failed : List Exc} {e : Exc} :
      (∀ e ∈ failed, FailsOver e) → ¬ FailsOver e →
      Resolves plan (failed.map .error ++ [.error e]) (.error e)
  | sole {c : String × CompletionRequest} {e : Exc} :
      plan = [c] → FailsOver e → Resolves plan [.error e] (.error e)
  | exhausted {failed : List Exc} {wait : Option ℚ} :
      plan.length ≠ 1 → failed.length = plan.length → (∀ e ∈ failed, FailsOver e) →
      Resolves plan (failed.map .error) (.error (.allProvidersUnavailable
        ((plan.map Prod.fst).zip (failed.map fun e => (classify e).kind)) wait))

/-! ## The candidate loop -/

/-- How the loop ends from the progress `g` on, one candidate at a time. -/
inductive LoopEnds (single : Bool) : List (String × CompletionRequest) → Progress →
    List (Except Exc CompletionResponse) → Except Exc CompletionResponse → Prop
  | returned {c : String × CompletionRequest} {plan : List (String × CompletionRequest)}
      {g : Progress} {response : CompletionResponse} :
      LoopEnds single (c :: plan) g [.ok response] (.ok (annotate g response))
  | raised {c : String × CompletionRequest} {plan : List (String × CompletionRequest)}
      {g : Progress} {e : Exc} : ¬ FailsOver e →
      LoopEnds single (c :: plan) g [.error e] (.error e)
  | next {c : String × CompletionRequest} {plan : List (String × CompletionRequest)} {g : Progress}
      {e : Exc} {xs : List (Except Exc CompletionResponse)} {o : Except Exc CompletionResponse} :
      FailsOver e → LoopEnds single plan (g.add c.1 e) xs o →
      LoopEnds single (c :: plan) g (.error e :: xs) o
  | sole {g : Progress} {e : Exc} : single = true → g.lastExc = some e →
      LoopEnds single [] g [] (.error e)
  | exhausted {g : Progress} {wait : Option ℚ} : ¬ (single = true ∧ g.lastExc.isSome = true) →
      LoopEnds single [] g [] (.error (.allProvidersUnavailable g.failures wait))

theorem goesOn_iff {e : Exc} (hfailover : S.config.enableFailover = true) :
    (!e.isException || givesUp S e) = false ↔ FailsOver e := by
  unfold FailsOver givesUp
  rw [hfailover]
  simp

section Loop

variable {s s' : RouterState} {l : Trail Γ} {deadline : Deadline} {i : Nat} {single : Bool}

theorem Turn.frozen {attempts : Nat} {c : String × CompletionRequest}
    {x : Except Exc CompletionResponse} (h : Turn (frozen S) S deadline attempts c s l x s') :
    Frozen s s' := by
  cases h with
  | refused h => exact frozen_of_exec (φ := fun _ => True) scope_allowCandidate h
  | called h h' =>
    exact (frozen_of_exec (φ := fun _ => True) scope_allowCandidate h).trans
      (frozen_of_exec (scope_callProvider (φ := fun _ => True) (fun _ _ => trivial)
        fun _ _ => trivial) h')

theorem Tries.of_quiet {plan : List (String × CompletionRequest)} {s₀ : RouterState}
    {xs : List (Except Exc CompletionResponse)} (hs : Quiet s s₀)
    (h : Tries (frozen S) S deadline plan s₀ l xs s') : Tries (frozen S) S deadline plan s l xs s' := by
  cases h with
  | stop h => exact .stop (hs.trans h)
  | turn h hturn hrest => exact .turn (hs.trans h) hturn hrest

variable {g : Progress} {name : String} {r : CompletionRequest}

theorem loopEnds_exhausted {o : Except Exc CompletionResponse}
    (h : Coro.Runs (frozen S) (exhausted i single g) s l o s') :
    LoopEnds single [] g [] o ∧ l = [] ∧ Quiet s s' := by
  replace h := runs_update h
  have hquiet : Quiet s (s.turnTo i []) := ⟨rfl, rfl, rfl, rfl, rfl, rfl⟩
  split at h
  · rename_i e hlast
    obtain ⟨rfl, rfl, rfl⟩ := Coro.Runs.of_fail h
    exact ⟨.sole rfl hlast, rfl, hquiet⟩
  · rename_i hnot
    replace h := runs_reads (a := (s.turnTo i []).soonestRetryAfter) rfl h
    obtain ⟨rfl, rfl, rfl⟩ := Coro.Runs.of_fail h
    refine ⟨.exhausted ?_, rfl, hquiet⟩
    rintro ⟨hsingle, hlast⟩
    obtain ⟨e, he⟩ := Option.isSome_iff_exists.mp hlast
    exact hnot e hsingle he

/-- The breaker of a registered candidate admits it, or refuses it with a
`CircuitOpenError`. -/
theorem runs_allowCandidate {o : Except Exc (Nat × Except Exc Nat)}
    (hs : Consistent s) (hname : name ∈ s.providers.keys)
    (h : Coro.Runs (frozen S) (allowCandidate name) s l o s') :
    ∃ b, (∃ wait, o = .ok (b, .error (.circuitOpen name wait))) ∨ ∃ probe, o = .ok (b, .ok probe) := by
  obtain ⟨b, hb⟩ := Dict.mem_keys.mp ((hs.breakers name).mpr hname)
  unfold allowCandidate at h
  replace h := runs_reads (lookup_of_get? hb) h
  replace h := runs_yields h
  refine ⟨b, ?_⟩
  split at h
  · obtain ⟨rfl, -⟩ := Coro.Runs.of_ret h
    exact .inr ⟨_, rfl⟩
  · replace h := runs_reads rfl h
    obtain ⟨rfl, -⟩ := Coro.Runs.of_ret h
    exact .inl ⟨_, rfl⟩

theorem runs_succeed {response : CompletionResponse}
    {o : Except Exc CompletionResponse} (hs : Consistent s)
    (hname : name ∈ s.providers.keys)
    (h : Coro.Runs (frozen S) (succeed S name r response g) s l o s') :
    o = .ok (annotate g response) ∧ l = [] ∧ Quiet s s' := by
  have hcache : Quiet s (cacheResponse S name r response s) := quiet_cacheResponse S s r response
  replace h := runs_update h
  have hrecord : Books name (recordSuccess name (annotate g response).costUsd (annotate g response).latencyMs) :=
    books_recordSuccess _ _
  obtain ⟨u, hu⟩ := hrecord.total _ (hcache.consistent hs) (by rw [hcache.providers]; exact hname)
  have hstats := @quiet_recordSuccess name (annotate g response).costUsd (annotate g response).latencyMs
    (cacheResponse S name r response s)
  rcases Coro.Runs.of_sync_bind h with ⟨e, he, -⟩ | ⟨u', -, h⟩
  · cases hu.symm.trans he
  · replace h := runs_update h
    obtain ⟨rfl, rfl, rfl⟩ := Coro.Runs.of_ret h
    exact ⟨rfl, rfl, (hcache.trans hstats).trans ⟨rfl, rfl, rfl, rfl, rfl, rfl⟩⟩

theorem runs_countFailover {α : Type} {isLast : Bool} {k : Unit → Async α} {o : Except Exc α}
    (h : Coro.Runs (frozen S) (countFailover isLast >>= k) s l o s') :
    ∃ s₁, Quiet s s₁ ∧ Coro.Runs (frozen S) (k ()) s₁ l o s' := by
  cases isLast with
  | true => exact ⟨s, quiet_refl s, h⟩
  | false => exact ⟨{ s with failoverCount := s.failoverCount + 1 },
      ⟨rfl, rfl, rfl, rfl, rfl, rfl⟩, runs_update h⟩

/-- After a failed call the loop raises it, or counts a failover and goes on. -/
theorem runs_goOn {α : Type} (hfailover : S.config.enableFailover = true) {e : Exc} {isLast : Bool}
    {k : Async α} {o : Except Exc α}
    (h : Coro.Runs (frozen S) (do
      Coro.when (!e.isException || givesUp S e) (Coro.fail e)
      countFailover isLast
      k) s l o s') :
    (¬ FailsOver e ∧ o = .error e ∧ l = [] ∧ s' = s) ∨
      (FailsOver e ∧ ∃ s₁, Quiet s s₁ ∧ Coro.Runs (frozen S) k s₁ l o s') := by
  rcases Coro.Runs.of_bind h with ⟨e', rfl, hwhen⟩ | ⟨u, s₁, l₁, l₂, hwhen, rfl, hrest⟩
  · rcases Coro.Runs.of_when hwhen with ⟨hgives, hfail⟩ | ⟨-, ho, -⟩
    · obtain ⟨heq, rfl, rfl⟩ := Coro.Runs.of_fail hfail
      refine .inl ⟨?_, by rw [Except.error.inj heq], rfl, rfl⟩
      rw [← goesOn_iff hfailover, hgives]
      nofun
    · cases ho
  · rcases Coro.Runs.of_when hwhen with ⟨-, hfail⟩ | ⟨hgoes, -, rfl, rfl⟩
    · obtain ⟨heq, -⟩ := Coro.Runs.of_fail hfail
      cases heq
    · rw [List.append_nil]
      exact .inr ⟨(goesOn_iff hfailover).mp hgoes, runs_countFailover hrest⟩

theorem partnerOf_off {rest : List (String × CompletionRequest)} : partnerOf false r name g rest = none := by
  cases rest with
  | nil => rfl
  | cons next rest => simp [partnerOf]

theorem tries_routeLoop (hfailover : S.config.enableFailover = true) :
    ∀ {plan : List (String × CompletionRequest)} {g : Progress} {s : RouterState}
      {l : Trail Γ} {o : Except Exc CompletionResponse}, g.skip = [] → Consistent s →
      (∀ c ∈ plan, c.1 ∈ s.providers.keys) →
      Coro.Runs (frozen S) (routeLoop S i r deadline false single plan g) s l o s' →
      ∃ xs s₁, Tries (frozen S) S deadline plan s l xs s₁ ∧ LoopEnds single plan g xs o
  | [], g, s, l, o, hskip, hs, hplan, h => by
      obtain ⟨hends, rfl, hquiet⟩ := loopEnds_exhausted h
      exact ⟨[], s', .stop hquiet, hends⟩
  | (name, req) :: rest, g, s, l, o, hskip, hs, hplan, h => by
      unfold routeLoop at h
      rw [hskip] at h
      replace h := runs_update h
      set s₀ := s.turnTo i (name :: (rest.map Prod.fst).filter fun n => !([] : List String).contains n)
      have hquiet : Quiet s s₀ := ⟨rfl, rfl, rfl, rfl, rfl, rfl⟩
      have hs₀ := hquiet.consistent hs
      have hkeys : ∀ c ∈ (name, req) :: rest, c.1 ∈ s₀.providers.keys := hplan
      rcases Coro.Runs.of_bind h with ⟨e, -, hallow⟩ | ⟨⟨b, x⟩, s₁, l₁, l₂, hallow, rfl, h⟩
      · obtain ⟨b, ⟨wait, ho⟩ | ⟨probe, ho⟩⟩ :=
          runs_allowCandidate hs₀ (hkeys _ List.mem_cons_self) hallow <;> cases ho
      cases x with
      | error e =>
        have hturn : Turn (frozen S) S deadline (attemptsFor S rest.isEmpty) (name, req) s₀ l₁
          (.error e) s₁ := .refused hallow
        have hfrozen := hturn.frozen
        obtain ⟨xs, s₂, htries, hends⟩ := tries_routeLoop hfailover (g := g.add name e) hskip
          (hfrozen.consistent hs₀)
          (fun c hc => hfrozen.names ▸ hkeys c (List.mem_cons_of_mem _ hc)) h
        refine ⟨_, s₂, .turn hquiet hturn htries, .next ?_ hends⟩
        obtain ⟨b', ⟨wait, ho⟩ | ⟨probe, ho⟩⟩ :=
          runs_allowCandidate hs₀ (hkeys _ List.mem_cons_self) hallow
        · cases ho
          exact ⟨rfl, fun hkind => (by cases hkind), rfl⟩
        · cases ho
      | ok probe =>
        dsimp only at h
        rw [partnerOf_off] at h
        obtain ⟨x, s₂, l₃, l₄, hcall, rfl, hrest⟩ := Coro.Runs.of_handle h
        have hturn : Turn (frozen S) S deadline (attemptsFor S rest.isEmpty) (name, req) s₀
          (l₃ ++ l₁) x s₂ := .called hallow hcall
        have hfrozen := hturn.frozen
        have hs₂ := hfrozen.consistent hs₀
        rw [List.append_assoc]
        cases x with
        | ok response =>
          obtain ⟨rfl, rfl, hend⟩ :=
            runs_succeed hs₂ (hfrozen.names ▸ hkeys _ List.mem_cons_self) hrest
          exact ⟨_, s', .turn hquiet hturn (.stop hend), .returned⟩
        | error e =>
          rcases runs_goOn hfailover hrest with ⟨hover, rfl, rfl, rfl⟩ | ⟨hover, s₃, hcount, hrest⟩
          · exact ⟨_, s', .turn hquiet hturn (.stop (quiet_refl s')), .raised hover⟩
          · obtain ⟨xs, s₄, htries, hends⟩ := tries_routeLoop hfailover (g := g.add name e) hskip
              (hcount.consistent hs₂)
              (fun c hc => by
                rw [hcount.providers, hfrozen.names]
                exact hkeys c (List.mem_cons_of_mem _ hc)) hrest
            exact ⟨_, s₄, .turn hquiet hturn (htries.of_quiet hcount), .next hover hends⟩

end Loop

/-! ## From the loop to the reference -/

/-- The progress after these failures. -/
def Progress.addAll (g : Progress) (failed : List (String × Exc)) : Progress :=
  failed.foldl (fun g x => g.add x.1 x.2) g

theorem Progress.addAll_failures (failed : List (String × Exc)) :
    ∀ g : Progress, (g.addAll failed).failures =
      g.failures ++ failed.map fun x => (x.1, (classify x.2).kind) := by
  induction failed with
  | nil => exact fun g => (List.append_nil _).symm
  | cons x failed ih =>
    intro g
    show ((g.add x.1 x.2).addAll failed).failures = _
    rw [ih]
    exact List.append_assoc _ _ _

theorem Progress.addAll_skip (failed : List (String × Exc)) :
    ∀ g : Progress, (g.addAll failed).skip = g.skip := by
  induction failed with
  | nil => exact fun g => rfl
  | cons x failed ih => exact fun g => ih (g.add x.1 x.2)

variable {plan : List (String × CompletionRequest)} {o : Except Exc CompletionResponse}

/-- The failures of a loop that it goes on after, and how it ends after them. -/
theorem LoopEnds.failed {single : Bool} {g : Progress}
    {xs : List (Except Exc CompletionResponse)}
    (h : LoopEnds single plan g xs o) :
    ∃ failed : List (String × Exc), (∀ x ∈ failed, FailsOver x.2) ∧
      failed.map Prod.fst = (plan.map Prod.fst).take failed.length ∧
      ((∃ response, xs = (failed.map fun x => .error x.2) ++ [.ok response] ∧
          o = .ok (annotate (g.addAll failed) response)) ∨
        (∃ e, ¬ FailsOver e ∧ xs = (failed.map fun x => .error x.2) ++ [.error e] ∧ o = .error e) ∨
        (failed.length = plan.length ∧ xs = (failed.map fun x => .error x.2) ∧
          LoopEnds single [] (g.addAll failed) [] o)) := by
  induction h with
  | returned => exact ⟨[], by simp, rfl, .inl ⟨_, rfl, rfl⟩⟩
  | raised hover => exact ⟨[], by simp, rfl, .inr (.inl ⟨_, hover, rfl, rfl⟩)⟩
  | sole hsingle hlast => exact ⟨[], by simp, rfl, .inr (.inr ⟨rfl, rfl, .sole hsingle hlast⟩)⟩
  | exhausted hnot => exact ⟨[], by simp, rfl, .inr (.inr ⟨rfl, rfl, .exhausted hnot⟩)⟩
  | @next c plan g e xs o hover _ ih =>
    obtain ⟨failed, hall, hnames, hend⟩ := ih
    refine ⟨(c.1, e) :: failed, ?_, ?_, ?_⟩
    · intro x hx
      rcases List.mem_cons.mp hx with rfl | hx
      · exact hover
      · exact hall x hx
    · rw [List.map_cons, hnames]
      rfl
    · rcases hend with ⟨response, rfl, rfl⟩ | ⟨e', hover', rfl, rfl⟩ | ⟨hlen, rfl, hend⟩
      · exact .inl ⟨response, rfl, rfl⟩
      · exact .inr (.inl ⟨e', hover', rfl, rfl⟩)
      · exact .inr (.inr ⟨congrArg Nat.succ hlen, rfl, hend⟩)

theorem annotate_addAll {failed : List (String × Exc)} {response : CompletionResponse} :
    annotate (Progress.addAll {} failed) response = failedOver (failed.map Prod.fst) response := by
  unfold annotate failedOver
  rw [Progress.addAll_failures, Progress.addAll_skip]
  cases failed with
  | nil => rfl
  | cons x failed => simp [Function.comp_def]

/-- **The loop and the reference.** How the candidate loop ends is what the
outcomes of the candidates say. -/
theorem LoopEnds.resolves {xs : List (Except Exc CompletionResponse)}
    (h : LoopEnds (plan.length == 1) plan {} xs o) : Resolves plan xs o := by
  obtain ⟨failed, hall, hnames, hend⟩ := h.failed
  have hall' : ∀ e ∈ failed.map Prod.snd, FailsOver e := by
    intro e he
    obtain ⟨x, hx, rfl⟩ := List.mem_map.mp he
    exact hall x hx
  have herrors : (failed.map fun x => (.error x.2 : Except Exc CompletionResponse)) =
      (failed.map Prod.snd).map .error := by
    rw [List.map_map]
    rfl
  have hlength : (failed.map Prod.snd).length = failed.length := List.length_map _
  rw [herrors] at hend
  rcases hend with ⟨response, rfl, rfl⟩ | ⟨e, hover, rfl, rfl⟩ | ⟨hlen, rfl, hend⟩
  · rw [annotate_addAll, hnames, ← hlength]
    exact .returned hall'
  · exact .raised hall' hover
  · have hlast : plan.length = 1 → ∃ c x, plan = [c] ∧ failed = [x] := by
      intro hone
      obtain ⟨c, rfl⟩ := List.length_eq_one_iff.mp hone
      obtain ⟨x, rfl⟩ := List.length_eq_one_iff.mp (hlen.trans hone)
      exact ⟨c, x, rfl, rfl⟩
    cases hend with
    | sole hsingle hexc =>
      obtain ⟨c, x, rfl, rfl⟩ := hlast (beq_iff_eq.mp hsingle)
      obtain rfl := Option.some.inj hexc
      exact .sole rfl (hall x List.mem_cons_self)
    | exhausted hnot =>
      have hmany : plan.length ≠ 1 := by
        intro hone
        obtain ⟨c, x, rfl, rfl⟩ := hlast hone
        exact hnot ⟨rfl, rfl⟩
      have hfailures : (Progress.addAll {} failed).failures =
          (plan.map Prod.fst).zip ((failed.map Prod.snd).map fun e => (classify e).kind) := by
        rw [hlen, ← List.length_map (f := Prod.fst), List.take_length] at hnames
        rw [Progress.addAll_failures, ← hnames, List.map_map, List.zip_map']
        rfl
      rw [hfailures]
      exact .exhausted hmany (hlength.trans hlen) hall'

/-! ## Requests -/

theorem tame_frozen : (program S).Tame (fun _ _ => True) Frozen FixedRegistry where
  refl := frozen_refl
  trans _ _ _ := Frozen.trans
  body i c := Coro.Within.mono (fun _ => id) (fun _ _ => Quiet.frozen) (scope_body i c)
  reboot _ := rfl
  enter c s s' h := by
    cases c with
    | leg n r d a t => cases h
    | _ => rw [← Option.some.inj h]; exact frozen_refl s
  op p o s' hG h := by
    cases o with
    | setProvider n q => exact hG.elim
    | dropProvider n => exact hG.elim
    | tick d =>
      simp only [applyOp, Option.ite_none_right_eq_some] at h
      rw [← Option.some.inj h.2]
      exact ⟨rfl, rfl, rfl, rfl, rfl⟩
    | provider n q =>
      simp only [applyOp] at h
      split at h
      · rename_i old hold
        rw [Option.ite_none_right_eq_some] at h
        rw [← Option.some.inj h.2]
        exact ⟨Dict.keys_set_of_mem _ (Dict.mem_keys.mpr ⟨_, hold⟩), rfl, rfl, rfl, rfl⟩
      · cases h
    | report u i o m =>
      rw [← Option.some.inj h]
      exact ⟨rfl, rfl, rfl, rfl, rfl⟩
    | policies q =>
      rw [← Option.some.inj h]
      exact ⟨rfl, rfl, rfl, rfl, rfl⟩
    | modelGate g =>
      rw [← Option.some.inj h]
      exact ⟨rfl, rfl, rfl, rfl, rfl⟩

theorem consistent_reach {p : Pool Γ} (hp : (system S).Reach Machine.free p) : Consistent p.state := by
  have hgood : (contract S {}).Good p :=
    (sound (M := {}) fun s hs => inv_fresh hs).good (hp.mono_step fun p m p' hstep _ => by
      refine allows_of_step id hstep (fun _ _ _ => id) (fun _ _ => ⟨id, fun hc => hc.elim⟩) ?_
      exact fun _ _ _ => Pool.AtResume.intro fun _ _ _ hc => hc.elim)
  obtain ⟨l, -, hinv, -⟩ := hgood
  exact Inv.consistent hinv

/-- What is left of a prepared request that is not hedged. -/
theorem runs_prepared (hfailover : S.config.enableFailover = true) {i : Nat}
    {r r' : CompletionRequest} {preferred : Option String} {d : Option ℚ} {deadline : Deadline}
    {l : Trail Γ}
    (hs : Consistent s)
    (hplan : (prepare S r preferred d s).1 = .ok (r', deadline, plan))
    (hhedge : (prepare S r preferred d s).2.hedgeDelay S r' preferred = .ok none)
    (h : Coro.Runs (frozen S) (route S i r preferred d) s l o s') :
    (∃ hit, o = .ok (cacheHit hit) ∧
      (cacheLookup (prepare S r preferred d s).2 (plan.headD ("", r')).1
        (plan.headD ("", r')).2.model r').1 = some hit) ∨
      ∃ xs s₁, Tries (frozen S) S deadline plan (prepare S r preferred d s).2 l xs s₁ ∧
        Resolves plan xs o := by
  rcases Coro.Runs.of_sync_bind h with ⟨e, he, -⟩ | ⟨x, hx, h⟩
  · cases hplan.symm.trans he
  obtain rfl := Except.ok.inj (hplan.symm.trans hx)
  have hprepare := quiet_prepare S r preferred d s
  have hcandidates := plans_prepare S r preferred d s hs rfl
  rw [hplan] at hcandidates
  generalize (prepare S r preferred d s).2 = s₀ at h hhedge hprepare
  dsimp only at h
  replace h := runs_yields h
  have hcache := @quiet_cacheLookup (plan.headD ("", r')).1 s₀ (plan.headD ("", r')).2.model r'
  split at h
  · rename_i hit hlookup
    obtain ⟨rfl, -⟩ := Coro.Runs.of_ret h
    exact .inl ⟨hit, rfl, hlookup⟩
  · have hdelay : (cacheLookup s₀ (plan.headD ("", r')).1 (plan.headD ("", r')).2.model r').2.hedgeDelay S
        r' preferred = .ok none := by
      rw [← hhedge]
      unfold cacheLookup
      split
      · split <;> rfl
      · rfl
    replace h := runs_reads hdelay h
    have hquiet := hprepare.trans hcache
    obtain ⟨xs, s₁, htries, hends⟩ := tries_routeLoop hfailover rfl (hquiet.consistent hs)
      (fun c hc => by
        rw [hquiet.providers]
        exact (hcandidates.serves c hc).mem_keys) h
    exact .inr ⟨xs, s₁, htries.of_quiet hcache, hends.resolves⟩

/-- **Failover.** Let a request start in any state of a router with failover, and
let no provider be added or removed meanwhile. If the screen gave it candidates
and it is not hedged, then it ends with a cache hit, or the candidates had their
turns in the order of the plan and it ends as the reference says by what they
came to. -/
theorem failover_reference (hfailover : S.config.enableFailover = true) {p p' p'' : Pool Γ}
    (hp : (system S).Reach Machine.free p) {i : Nat} {r r' : CompletionRequest}
    {preferred : Option String} {d : Option ℚ} {l hist : List (Event Γ)}
    (hi : p.tasks[i]? = some ⟨.route r preferred d, .ready, l⟩)
    (hstep : (program S).step p (.start i) = some p')
    {z : List (Machine.Step (Pool Γ) (Move Γ Op))} (hrun : (system S).Run p' z p'')
    (hfixed : ∀ e ∈ z, FixedRegistry e.source e.label)
    {deadline : Deadline} {plan : List (String × CompletionRequest)}
    (hplan : (prepare S r preferred d p.state).1 = .ok (r', deadline, plan))
    (hhedge : (prepare S r preferred d p.state).2.hedgeDelay S r' preferred = .ok none)
    {o : Except Exc CompletionResponse}
    (hdone : p''.tasks[i]? = some ⟨.route r preferred d, .done o, hist⟩) :
    (∃ hit, o = .ok (cacheHit hit) ∧
      (cacheLookup (prepare S r preferred d p.state).2 (plan.headD ("", r')).1
        (plan.headD ("", r')).2.model r').1 = some hit) ∨
      ∃ trail xs s, hist = trail.events ∧
        Tries (frozen S) S deadline plan (prepare S r preferred d p.state).2 trail xs s ∧
        Resolves plan xs o := by
  obtain rfl : l = [] := Program.hist_of_ready (fun _ => rfl) hp _ (List.mem_of_getElem? hi) rfl
  obtain ⟨t, trail, ht, -, ⟨s, ⟨hhist, c, hc, hexec⟩, -⟩, -⟩ :=
    tame_frozen.traced_from (tame_frozen.scoped_reach hp) hi hstep hrun hfixed
  obtain rfl := Option.some.inj (hdone.symm.trans ht)
  obtain rfl := Option.some.inj hc
  rcases runs_prepared hfailover (consistent_reach hp) hplan hhedge hexec with hhit | ⟨xs, s₁, htries⟩
  · exact .inl hhit
  · exact .inr ⟨trail, xs, s₁, hhist, htries⟩

def pair : List (String × Provider) := [("a", { name := "a" }), ("b", { name := "b" })]

/-- How a `route` has ended. -/
def routed : (c : Call) → Status Γ c → Option (Except Exc CompletionResponse)
  | .route _ _ _, .done o => some o
  | _, _ => none

/-- A response before which these candidates failed. -/
def FailedOverFrom (names : List String) : Except Exc CompletionResponse → Bool
  | .ok response => response.metadata.get? "failed_over_from" = some (.names names)
  | .error _ => false

theorem failover_reference_second :
    ∃ (r' : CompletionRequest) (deadline : Deadline) (plan : List (String × CompletionRequest))
      (o : Except Exc CompletionResponse) (hist : List (Event Γ)), FailedOverFrom ["a"] o = true ∧
      ((∃ hit, o = .ok (cacheHit hit) ∧
        (cacheLookup (prepare plainSetup greeting none none (RouterState.init plainSetup pair)).2
          (plan.headD ("", r')).1 (plan.headD ("", r')).2.model r').1 = some hit) ∨
        ∃ trail xs s, hist = trail.events ∧ Tries (frozen plainSetup) plainSetup deadline plan
          (prepare plainSetup greeting none none (RouterState.init plainSetup pair)).2 trail xs s ∧
          Resolves plan xs o) := by
  have hprepare : ((prepare plainSetup greeting none none (RouterState.init plainSetup pair)).1.toOption.any
      fun x => (prepare plainSetup greeting none none (RouterState.init plainSetup pair)).2.hedgeDelay
        plainSetup x.1 none = .ok none) = true := by decide +kernel
  have hrun : (((program plainSetup).step
      ⟨RouterState.init plainSetup pair, [⟨.route greeting none none, .ready, []⟩]⟩ (.start 0)).bind
      fun p' => (program plainSetup).replay FixedRegistry p'
        [.resume 0 (upstream none), .resume 0 (upstream (some (.upstream { status := some 503 }))),
          .resume 0 (upstream none), .resume 0 (upstream none)]).any
      (fun p => p.tasks[0]?.any fun t => (routed t.child t.status).any (FailedOverFrom ["a"])) = true := by
    decide +kernel
  obtain ⟨⟨r', deadline, plan⟩, hx, hhedge⟩ := Machine.exists_of_any hprepare
  have hplan : (prepare plainSetup greeting none none (RouterState.init plainSetup pair)).1 =
      .ok (r', deadline, plan) := by
    cases hp : (prepare plainSetup greeting none none (RouterState.init plainSetup pair)).1 with
    | ok x => rw [hp] at hx; exact congrArg _ (Option.some.inj hx)
    | error e => rw [hp] at hx; cases hx
  have hstart : (system plainSetup).Reach Machine.free
      ⟨RouterState.init plainSetup pair, [⟨.route greeting none none, .ready, []⟩]⟩ :=
    .step (i := Move.spawn (.route greeting none none)) (plainPool_reach pair) ⟨rfl, trivial⟩ trivial
  obtain ⟨p'', hp'', htest⟩ := Machine.exists_of_any hrun
  obtain ⟨p', hstep, hreplay⟩ := Option.bind_eq_some_iff.mp hp''
  obtain ⟨z, hz, hfixed⟩ : ∃ z, (system plainSetup).Run p' z p'' ∧ ∀ e ∈ z, FixedRegistry e.source e.label :=
    Program.exists_run_of_replay hreplay
  obtain ⟨⟨c, st, hist⟩, ht, hrouted⟩ := Machine.exists_of_any htest
  obtain ⟨o, ho, hfailed⟩ := Machine.exists_of_any hrouted
  obtain ⟨t, ht', hchild⟩ : ∃ t, p''.tasks[0]? = some t ∧ t.child = .route greeting none none := by
    obtain ⟨t₁, ht₁, hchild₁⟩ := Program.child_step (j := 0) (fun _ => rfl) hstep
      (t := ⟨.route greeting none none, .ready, []⟩) rfl
    obtain ⟨t₂, ht₂, hchild₂⟩ := Program.child_run (fun _ => rfl) hz ht₁
    exact ⟨t₂, ht₂, hchild₂.trans hchild₁⟩
  obtain rfl := Option.some.inj (ht'.symm.trans ht)
  obtain rfl : c = .route greeting none none := hchild
  cases st with
  | ready => cases ho
  | suspended q k => cases ho
  | done o' =>
    obtain rfl := Option.some.inj ho
    exact ⟨r', deadline, plan, _, hist, hfailed, failover_reference rfl hstart rfl hstep hz hfixed hplan
      (of_decide_eq_true hhedge) ht⟩

end Router

end Caips.Coreai
