/-
Caips.Coreai.BreakerObservers — what reading a breaker does to the calls
that come after it.

`state` is a property with an effect: the first reading after the reset
timeout moves the stored state from `OPEN` to `HALF_OPEN`. Everything that
only looks (`would_allow`, and through it `explain`, `/readyz` and the
provider list; `snapshot`) has this effect too. `allow`, `record_success`
and `record_failure` make the same move themselves before they decide
anything, so no observer can change what they do. `release` and
`retry_after` look at the stored state as it is. For `release` this makes no
difference, because the move leaves no probe to give back. For `retry_after`
it does: a breaker whose timeout has passed answers 0 seconds if nobody has
looked at it, and `None` if somebody has.

So a history of calls answers the same with and without its observers
exactly when no observer that makes the move is followed, before anything
else makes it, by `retry_after` (`answers_eq_iff`); what `allow` and `state`
answer is always the same (`decisions_undisturbed`).
-/
import Caips.Coreai.CircuitBreakerTheorems

namespace Caips.Coreai

/-! ## Histories -/

/-- A method call on a breaker, with the clock readings it takes. -/
inductive BreakerCall where
  | allow (now : ℚ)
  | recordSuccess (now : ℚ)
  | recordFailure (now later : ℚ)
  | release
  | retryAfter (now : ℚ)
  | state (now : ℚ)
  deriving DecidableEq

/-- What a call can return. -/
inductive Answer where
  | admitted (yes : Bool)
  | wait (seconds : Option ℚ)
  | state (s : CircuitState)
  deriving DecidableEq

/-- An answer of `allow` or `state`. -/
def Answer.isDecision : Answer → Bool
  | .admitted _ | .state _ => true
  | .wait _ => false

/-- A look at a breaker whose answer goes elsewhere. `explain` and `/readyz`
peek with `would_allow`; the provider list peeks and then reads the state. -/
inductive Observer where
  | state (now : ℚ)
  | wouldAllow (now : ℚ)
  | snapshot (now later : ℚ)
  deriving DecidableEq

/-- One entry of a breaker's history. -/
inductive Entry where
  | call (c : BreakerCall)
  | observe (o : Observer)
  deriving DecidableEq

namespace BreakerCall

/-- The value returned, if the method returns one. -/
def answer (b : CircuitBreaker) : BreakerCall → Option Answer
  | .allow now => some (.admitted (b.allow now).1)
  | .retryAfter now => some (.wait (b.retryAfter now))
  | .state now => some (.state (b.state now))
  | .recordSuccess _ | .recordFailure _ _ | .release => none

/-- The object after the call. -/
def after (b : CircuitBreaker) : BreakerCall → CircuitBreaker
  | .allow now => (b.allow now).2
  | .recordSuccess now => b.recordSuccess now
  | .recordFailure now later => b.recordFailure now later
  | .release => b.release
  | .retryAfter _ => b
  | .state now => b.refresh now

def readings : BreakerCall → List ℚ
  | .allow now | .recordSuccess now | .retryAfter now | .state now => [now]
  | .recordFailure now later => [now, later]
  | .release => []

end BreakerCall

namespace Observer

/-- The object the observer leaves. -/
def after (b : CircuitBreaker) : Observer → CircuitBreaker
  | .state now => b.refresh now
  | .wouldAllow now => (b.wouldAllow now).2
  | .snapshot now later => (b.snapshot now later).2

/-- When the observer reads the property `state`. -/
def now : Observer → ℚ
  | .state now | .wouldAllow now | .snapshot now _ => now

/-- The clock readings of the observer, in order. -/
def readings : Observer → List ℚ
  | .state now | .wouldAllow now => [now]
  | .snapshot now later => [now, later]

end Observer

namespace Entry

def readings : Entry → List ℚ
  | .call c => c.readings
  | .observe o => o.readings

def isCall : Entry → Bool
  | .call _ => true
  | .observe _ => false

/-- Whether the entry is a call of `release`. -/
def isRelease : Entry → Bool
  | .call .release => true
  | _ => false

/-- Whether the entry is a call of `retry_after`. -/
def isRetryAfter : Entry → Bool
  | .call (.retryAfter _) => true
  | _ => false

end Entry

namespace CircuitBreaker

/-- The answers a history gets. -/
def answers (b : CircuitBreaker) : List Entry → List Answer
  | [] => []
  | .call c :: l => (c.answer b).toList ++ answers (c.after b) l
  | .observe o :: l => answers (o.after b) l

/-- All clock readings of a history, in order. -/
def readings (l : List Entry) : List ℚ := l.flatMap Entry.readings

/-- The clock of a history never goes back. -/
def Ordered (l : List Entry) : Prop := (readings l).Pairwise (· ≤ ·)

instance (l : List Entry) : Decidable (Ordered l) := inferInstanceAs (Decidable (List.Pairwise _ _))

/-- The history without its observers. -/
def unobserved (l : List Entry) : List Entry := l.filter Entry.isCall

/-- The breaker is stored as `OPEN` although its timeout has passed: the next
reading of `state` moves it. -/
def due (b : CircuitBreaker) (now : ℚ) : Prop :=
  b.rawState = .open ∧ b.resetTimeout ≤ now - b.openedAt

instance (b : CircuitBreaker) (now : ℚ) : Decidable (b.due now) :=
  inferInstanceAs (Decidable (_ ∧ _))

/-- The first call of the history that is not `release` is `retry_after`. -/
def retryNext (l : List Entry) : Bool :=
  (((unobserved l).dropWhile Entry.isRelease).head?.map Entry.isRetryAfter).getD false

/-- No observer of the history makes the move with `retry_after` as the next
call to look at the state. -/
def Undisturbed (b : CircuitBreaker) : List Entry → Prop
  | [] => True
  | .call c :: l => Undisturbed (c.after b) l
  | .observe o :: l => (b.due o.now → retryNext l = false) ∧ Undisturbed (o.after b) l

/-- Whether a history is undisturbed can be computed along it. -/
instance decidableUndisturbed (b : CircuitBreaker) (l : List Entry) :
    Decidable (Undisturbed b l) :=
  match l with
  | [] => .isTrue trivial
  | .call c :: l => decidableUndisturbed (c.after b) l
  | .observe o :: l =>
    have := decidableUndisturbed (o.after b) l
    inferInstanceAs (Decidable (_ ∧ _))

/-! ## The move and the calls after it -/

theorem refresh_of_due {b : CircuitBreaker} {t : ℚ} (h : b.due t) :
    b.refresh t = { b with rawState := .halfOpen, probesInFlight := 0 } := by
  unfold refresh
  exact if_pos h

theorem refresh_of_not_due {b : CircuitBreaker} {t : ℚ} (h : ¬ b.due t) : b.refresh t = b := by
  unfold refresh
  exact if_neg h

@[simp] theorem observer_after (b : CircuitBreaker) (o : Observer) : o.after b = b.refresh o.now := by
  cases o with
  | state now => rfl
  | wouldAllow now => exact wouldAllow_snd b now
  | snapshot now later => rfl

theorem due_of_le (b : CircuitBreaker) {t t' : ℚ} (h : t ≤ t') :
    b.due t' ↔ b.due t ∨ (b.refresh t).due t' := by
  by_cases ht : b.due t
  · have : b.due t' := ⟨ht.1, by linarith [ht.2]⟩
    simp [ht, this]
  · simp [ht, refresh_of_not_due ht]

/-- `allow`, the settlements and `state` do not see an earlier move. -/
theorem reads_refresh (b : CircuitBreaker) {t : ℚ} {c : BreakerCall}
    (hrel : (Entry.call c).isRelease = false) (hret : (Entry.call c).isRetryAfter = false)
    (ht : ∀ r ∈ c.readings, t ≤ r) :
    c.answer (b.refresh t) = c.answer b ∧ c.after (b.refresh t) = c.after b := by
  cases c with
  | allow now =>
    have h := b.refresh_of_le (ht now (by simp [BreakerCall.readings]))
    simp [BreakerCall.answer, BreakerCall.after, allow, h]
  | recordSuccess now =>
    have h := b.refresh_of_le (ht now (by simp [BreakerCall.readings]))
    simp [BreakerCall.answer, BreakerCall.after, recordSuccess, h]
  | recordFailure now later =>
    have h := b.refresh_of_le (ht now (by simp [BreakerCall.readings]))
    simp [BreakerCall.answer, BreakerCall.after, recordFailure, h]
  | state now =>
    have h := b.refresh_of_le (ht now (by simp [BreakerCall.readings]))
    simp [BreakerCall.answer, BreakerCall.after, state, h]
  | release => simp [Entry.isRelease] at hrel
  | retryAfter now => simp [Entry.isRetryAfter] at hret

@[simp] theorem due_release (b : CircuitBreaker) (t : ℚ) : b.release.due t ↔ b.due t := by
  unfold release due
  split
  · next h => simp [h]
  · rfl

theorem release_refresh (b : CircuitBreaker) (t : ℚ) :
    (b.refresh t).release = b.release.refresh t := by
  by_cases h : b.due t
  · have hopen : b.release = b := by simp [release, h.1]
    rw [hopen, refresh_of_due h]
    simp [release]
  · rw [refresh_of_not_due h, refresh_of_not_due (by simpa using h)]

theorem retryAfter_refresh (b : CircuitBreaker) (t now : ℚ) :
    (b.refresh t).retryAfter now = b.retryAfter now ↔ ¬ b.due t := by
  by_cases h : b.due t
  · simp [refresh_of_due h, retryAfter, h, h.1]
  · simp [refresh_of_not_due h, h]

/-! ## Histories with and without observers -/

variable {l : List Entry}

theorem ordered_cons {e : Entry} :
    Ordered (e :: l) ↔
      e.readings.Pairwise (· ≤ ·) ∧ Ordered l ∧ ∀ r ∈ e.readings, ∀ r' ∈ readings l, r ≤ r' := by
  simp [Ordered, readings, List.pairwise_append]

@[simp] theorem unobserved_observe (o : Observer) (l : List Entry) :
    unobserved (.observe o :: l) = unobserved l := rfl

@[simp] theorem unobserved_call (c : BreakerCall) (l : List Entry) :
    unobserved (.call c :: l) = .call c :: unobserved l := rfl

@[simp] theorem retryNext_observe (o : Observer) (l : List Entry) :
    retryNext (.observe o :: l) = retryNext l := rfl

@[simp] theorem retryNext_release (l : List Entry) :
    retryNext (.call .release :: l) = retryNext l := rfl

@[simp] theorem retryNext_retryAfter (now : ℚ) (l : List Entry) :
    retryNext (.call (.retryAfter now) :: l) = true := rfl

theorem retryNext_reads {c : BreakerCall} (hrel : (Entry.call c).isRelease = false)
    (hret : (Entry.call c).isRetryAfter = false) (l : List Entry) :
    retryNext (.call c :: l) = false := by
  simp [retryNext, hrel, hret]

/-- What the induction carries: the observed run may be one move ahead of the
run without observers. -/
def AheadAnswers (l : List Entry) : Prop :=
  ∀ (b : CircuitBreaker) (t : ℚ), (∀ r ∈ readings l, t ≤ r) →
    (answers (b.refresh t) l = answers b (unobserved l) ↔
      (b.due t → retryNext l = false) ∧ Undisturbed (b.refresh t) l)

/-- A reading before all others at which nothing is due. -/
theorem exists_not_due (b : CircuitBreaker) (h : Ordered l) :
    ∃ t, (∀ r ∈ readings l, t ≤ r) ∧ ¬ b.due t := by
  have hearly : ∃ t, ∀ r ∈ readings l, t ≤ r := by
    cases hr : readings l with
    | nil => exact ⟨0, by simp⟩
    | cons r rs =>
      unfold Ordered at h
      rw [hr, List.pairwise_cons] at h
      exact ⟨r, by simpa using h.1⟩
  obtain ⟨t, ht⟩ := hearly
  refine ⟨min t (b.openedAt + b.resetTimeout - 1), fun r hr => min_le_of_left_le (ht r hr), ?_⟩
  intro hd
  have := min_le_right t (b.openedAt + b.resetTimeout - 1)
  linarith [hd.2]

theorem AheadAnswers.same (hl : AheadAnswers l) (h : Ordered l)
    (b : CircuitBreaker) : answers b l = answers b (unobserved l) ↔ Undisturbed b l := by
  obtain ⟨t, ht, hd⟩ := b.exists_not_due h
  have := hl b t ht
  rw [refresh_of_not_due hd] at this
  simpa [hd] using this

theorem aheadAnswers (h : Ordered l) : AheadAnswers l := by
  induction l with
  | nil => intro b t _; simp [answers, unobserved, Undisturbed, retryNext]
  | cons e l ih =>
    obtain ⟨-, hl, hel⟩ := ordered_cons.mp h
    specialize ih hl
    intro b t ht
    have hte : ∀ r ∈ e.readings, t ≤ r := fun r hr => ht r (by simp [readings, hr])
    have htl : ∀ r ∈ readings l, t ≤ r := fun r hr => by
      refine ht r ?_
      simp only [readings, List.flatMap_cons, List.mem_append]
      exact .inr hr
    cases e with
    | observe o =>
      have hnow : o.now ∈ o.readings := by cases o <;> simp [Observer.now, Observer.readings]
      have hto : t ≤ o.now := hte o.now hnow
      have ho := ih b o.now (hel o.now hnow)
      simp only [answers, Undisturbed, observer_after, retryNext_observe, b.refresh_of_le hto]
      rw [unobserved_observe, ho, b.due_of_le hto]
      tauto
    | call c =>
      rw [unobserved_call]
      simp only [answers, Undisturbed]
      cases hrel : (Entry.call c).isRelease with
      | true =>
        obtain rfl : c = .release := by cases c <;> simp_all [Entry.isRelease]
        have hb := ih b.release t htl
        simpa [BreakerCall.answer, BreakerCall.after, release_refresh] using hb
      | false =>
        cases hret : (Entry.call c).isRetryAfter with
        | true =>
          obtain ⟨now, rfl⟩ : ∃ now, c = .retryAfter now := by
            cases c <;> simp_all [Entry.isRetryAfter]
          have hb := ih b t htl
          have hret := b.retryAfter_refresh t now
          simp only [BreakerCall.answer, BreakerCall.after, Option.toList_some,
            List.singleton_append, List.cons.injEq, Answer.wait.injEq, retryNext_retryAfter]
          rw [hret, hb]
          simp +contextual
        | false =>
          obtain ⟨hans, haft⟩ := b.reads_refresh hrel hret hte
          rw [hans, haft, List.append_cancel_left_eq, ih.same hl, retryNext_reads hrel hret]
          simp

/-- A history of calls gets the same answers with and without its observers
exactly if no observer that makes the time-based move is followed by
`retry_after` before another call makes it. -/
theorem answers_eq_iff (b : CircuitBreaker) {l : List Entry} (h : Ordered l) :
    answers b l = answers b (unobserved l) ↔ Undisturbed b l :=
  (aheadAnswers h).same h b

/-- The example breaker: one failure opens it, for 30 seconds. -/
def example30 : CircuitBreaker where
  name := "openai"
  failureThreshold := 1
  resetTimeout := 30
  halfOpenMaxCalls := 1
  rawState := .closed
  failures := 0
  openedAt := 0
  probesInFlight := 0
  totalOpened := 0
  changes := []
  threshold_pos := Calls.one_failure_pos

/-- With the probe admitted before `retry_after` is asked, the observers of the
same history do not show. -/
theorem answers_eq_iff_probed :
    answers example30 [.call (.recordFailure 0 0), .observe (.wouldAllow 30),
        .observe (.state 30), .call (.allow 31), .call (.retryAfter 31)] =
      answers example30 [.call (.recordFailure 0 0), .call (.allow 31),
        .call (.retryAfter 31)] :=
  (answers_eq_iff example30 (by decide +kernel)).mpr (by decide +kernel)

/-- One look at the breaker when its timeout has passed, and `retry_after`
answers `None` where it answered 0. -/
theorem observer_disturbs :
    CircuitBreaker.init "openai" 1 30 1 = .ok example30 ∧
    answers example30 [.call (.recordFailure 0 0), .observe (.wouldAllow 30),
        .call (.retryAfter 31)] = [.wait none] ∧
    answers example30 (unobserved [.call (.recordFailure 0 0), .observe (.wouldAllow 30),
        .call (.retryAfter 31)]) = [.wait (some 0)] := by
  decide +kernel

/-! ## What observers never change -/

theorem ordered_filter (h : Ordered l) (p : Entry → Bool) :
    Ordered (l.filter p) :=
  h.sublist (List.Sublist.flatMap List.filter_sublist _)

/-- Without `retry_after` nothing can be disturbed. -/
theorem undisturbed_of_no_retryAfter (h : ∀ e ∈ l, e.isRetryAfter = false)
    (b : CircuitBreaker) : Undisturbed b l := by
  induction l generalizing b with
  | nil => trivial
  | cons e l ih =>
    have hl : ∀ e ∈ l, e.isRetryAfter = false := fun e he => h e (by simp [he])
    cases e with
    | call c => exact ih hl _
    | observe o =>
      refine ⟨fun _ => ?_, ih hl _⟩
      have hmem : ∀ e ∈ (unobserved l).dropWhile Entry.isRelease, e.isRetryAfter = false :=
        fun e he => hl e (List.mem_of_mem_filter (List.dropWhile_subset _ he))
      unfold retryNext
      cases hd : (unobserved l).dropWhile Entry.isRelease with
      | nil => rfl
      | cons e' l' => simpa using hmem e' (by simp [hd])

/-- Only `retry_after` answers with a `wait`, and it changes nothing. -/
theorem filter_answers (b : CircuitBreaker) (l : List Entry) :
    (answers b l).filter Answer.isDecision =
      answers b (l.filter fun e => !e.isRetryAfter) := by
  induction l generalizing b with
  | nil => rfl
  | cons e l ih =>
    cases e with
    | observe o => simpa [answers, Entry.isRetryAfter] using ih _
    | call c =>
      cases c with
      | allow now => exact congrArg (_ :: ·) (ih _)
      | state now => exact congrArg (_ :: ·) (ih _)
      | retryAfter now => exact ih _
      | recordSuccess now => exact ih _
      | recordFailure now later => exact ih _
      | release => exact ih _

/-- No observer changes an answer of `allow` or `state`, whenever it looks. -/
theorem decisions_undisturbed (b : CircuitBreaker) {l : List Entry} (h : Ordered l) :
    (answers b l).filter Answer.isDecision =
      (answers b (unobserved l)).filter Answer.isDecision := by
  have hordered := ordered_filter h fun e => !e.isRetryAfter
  have heq := ((aheadAnswers hordered).same hordered b).mpr (undisturbed_of_no_retryAfter (by simp) b)
  have hcomm : unobserved (l.filter fun e => !e.isRetryAfter) =
      (unobserved l).filter fun e => !e.isRetryAfter := by
    simp [unobserved, List.filter_filter, Bool.and_comm]
  rw [filter_answers, filter_answers, heq, hcomm]

theorem decisions_undisturbed_looked :
    (answers example30 [.call (.recordFailure 0 0), .observe (.wouldAllow 30),
        .call (.retryAfter 31), .call (.allow 31)]).filter Answer.isDecision =
      (answers example30 [.call (.recordFailure 0 0), .call (.retryAfter 31),
        .call (.allow 31)]).filter Answer.isDecision :=
  decisions_undisturbed example30 (by decide +kernel)

end CircuitBreaker

end Caips.Coreai
