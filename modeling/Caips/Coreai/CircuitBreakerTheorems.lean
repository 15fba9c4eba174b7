/-
Caips.Coreai.CircuitBreakerTheorems — what the calls through one breaker
can and cannot do to it.

The counter `_probes_in_flight` has no identity: a settlement of any call
acts on it, whenever the call was admitted. Two results say exactly when
that goes wrong.

* `halfOpen_bound`: while the breaker is half-open, at most
  `half_open_max_calls` probes of the current period are in flight, in every
  run in which no other call gives back a live probe's slot
  (`stealsProbe`); and after the first step that does, some continuation
  breaks the bound.
* `recovery_by_probe`: all steps of a run leave the recovery decision to the
  probes of the current period exactly when none of them is a decisive
  stale outcome (`decisiveStale`).

Both rest on `calls_inv`, the bookkeeping invariant of the calls in flight:
ids are distinct, no call is admitted while the breaker is open, and in a
half-open period every call admitted since the last opening is a probe.
-/
import Caips.Coreai.CircuitBreaker
import Mathlib.Data.Set.Finite.Lemmas
import Mathlib.Tactic.Linarith

namespace Caips.Coreai

open Caips.Logic

/-! ## The breaker alone -/

namespace CircuitBreaker

theorem refresh_cases (b : CircuitBreaker) (now : ℚ) :
    b.refresh now = b ∨
      (b.rawState = .open ∧
        b.refresh now = { b with rawState := .halfOpen, probesInFlight := 0 }) := by
  unfold refresh
  split
  · next h => exact .inr ⟨h.1, rfl⟩
  · exact .inl rfl

@[simp] theorem refresh_totalOpened (b : CircuitBreaker) (now : ℚ) :
    (b.refresh now).totalOpened = b.totalOpened := by
  unfold refresh; split <;> rfl

@[simp] theorem refresh_openedAt (b : CircuitBreaker) (now : ℚ) :
    (b.refresh now).openedAt = b.openedAt := by
  unfold refresh; split <;> rfl

@[simp] theorem refresh_halfOpenMaxCalls (b : CircuitBreaker) (now : ℚ) :
    (b.refresh now).halfOpenMaxCalls = b.halfOpenMaxCalls := by
  unfold refresh; split <;> rfl

@[simp] theorem refresh_failures (b : CircuitBreaker) (now : ℚ) :
    (b.refresh now).failures = b.failures := by
  unfold refresh; split <;> rfl

@[simp] theorem refresh_failureThreshold (b : CircuitBreaker) (now : ℚ) :
    (b.refresh now).failureThreshold = b.failureThreshold := by
  unfold refresh; split <;> rfl

theorem refresh_of_ne_open {b : CircuitBreaker} (h : b.rawState ≠ .open) (now : ℚ) :
    b.refresh now = b := by
  rcases b.refresh_cases now with hb | ⟨ho, _⟩
  · exact hb
  · exact absurd ho h

theorem state_eq (b : CircuitBreaker) (now : ℚ) : b.state now = (b.refresh now).rawState := rfl

@[simp] theorem wouldAllow_snd (b : CircuitBreaker) (now : ℚ) :
    (b.wouldAllow now).2 = b.refresh now := by
  unfold wouldAllow
  cases h : (b.refresh now).rawState <;> simp [h]

@[simp] theorem refresh_refresh (b : CircuitBreaker) (now : ℚ) :
    (b.refresh now).refresh now = b.refresh now := by
  rcases b.refresh_cases now with h | ⟨-, h⟩
  · rw [h, h]
  · rw [h]
    exact refresh_of_ne_open (by simp) now

theorem refresh_of_le (b : CircuitBreaker) {now later : ℚ} (h : now ≤ later) :
    (b.refresh now).refresh later = b.refresh later := by
  unfold refresh
  by_cases hopen : b.rawState = .open ∧ b.resetTimeout ≤ now - b.openedAt
  · have hlater : b.rawState = .open ∧ b.resetTimeout ≤ later - b.openedAt :=
      ⟨hopen.1, by linarith [hopen.2]⟩
    rw [if_pos hopen, if_pos hlater, if_neg (by simp)]
  · rw [if_neg hopen]

/-- Everything `allow` can do. -/
theorem allow_cases (b : CircuitBreaker) (now : ℚ) :
    ((b.refresh now).rawState = .closed ∧ b.allow now = (true, b.refresh now)) ∨
    ((b.refresh now).rawState = .halfOpen ∧
      (b.refresh now).probesInFlight < b.halfOpenMaxCalls ∧
      b.allow now = (true, { b.refresh now with
        probesInFlight := (b.refresh now).probesInFlight + 1 })) ∨
    ((b.refresh now).rawState = .halfOpen ∧
      b.halfOpenMaxCalls ≤ (b.refresh now).probesInFlight ∧
      b.allow now = (false, b.refresh now)) ∨
    ((b.refresh now).rawState = .open ∧ b.allow now = (false, b.refresh now)) := by
  unfold allow
  cases hst : (b.refresh now).rawState with
  | closed => exact .inl ⟨rfl, by simp [hst]⟩
  | «open» => exact .inr (.inr (.inr ⟨rfl, by simp [hst]⟩))
  | halfOpen =>
    by_cases hp : (b.refresh now).probesInFlight < b.halfOpenMaxCalls
    · exact .inr (.inl ⟨rfl, hp, by simp [hst, hp]⟩)
    · exact .inr (.inr (.inl ⟨rfl, Nat.le_of_not_lt hp, by simp [hst, hp]⟩))

/-- Everything `record_success` can do. -/
theorem recordSuccess_cases (b : CircuitBreaker) (now : ℚ) :
    ((b.refresh now).rawState = .open ∧ b.recordSuccess now = b.refresh now) ∨
    ((b.refresh now).rawState = .halfOpen ∧
      b.recordSuccess now = { b.refresh now with
        probesInFlight := (b.refresh now).probesInFlight - 1, rawState := .closed
        failures := 0, changes := (b.refresh now).changes ++ ["closed"] }) ∨
    ((b.refresh now).rawState = .closed ∧
      b.recordSuccess now = { b.refresh now with rawState := .closed, failures := 0 }) := by
  unfold recordSuccess
  cases hst : (b.refresh now).rawState with
  | «open» => exact .inl ⟨rfl, by simp [hst]⟩
  | halfOpen => exact .inr (.inl ⟨rfl, by simp [hst, changed]⟩)
  | closed => exact .inr (.inr ⟨rfl, by simp [hst]⟩)

@[simp] theorem open'_rawState (b : CircuitBreaker) (now : ℚ) : (b.open' now).rawState = .open :=
  rfl

@[simp] theorem open'_totalOpened (b : CircuitBreaker) (now : ℚ) :
    (b.open' now).totalOpened = b.totalOpened + 1 := rfl

/-- Everything `record_failure` can do to the state and the opening count. -/
theorem recordFailure_cases (b : CircuitBreaker) (now later : ℚ) :
    ((b.refresh now).rawState = .open ∧ b.recordFailure now later = b.refresh now) ∨
    (((b.refresh now).rawState = .halfOpen ∨
        ((b.refresh now).rawState = .closed ∧ b.failureThreshold ≤ b.failures + 1)) ∧
      (b.recordFailure now later).rawState = .open ∧
      (b.recordFailure now later).totalOpened = b.totalOpened + 1) ∨
    ((b.refresh now).rawState = .closed ∧ b.failures + 1 < b.failureThreshold ∧
      b.recordFailure now later = { b.refresh now with failures := b.failures + 1 }) := by
  unfold recordFailure
  cases hst : (b.refresh now).rawState with
  | «open» => exact .inl ⟨rfl, by simp [hst]⟩
  | halfOpen => exact .inr (.inl ⟨.inl rfl, by simp [hst], by simp [hst]⟩)
  | closed =>
    by_cases hf : b.failureThreshold ≤ b.failures + 1
    · exact .inr (.inl ⟨.inr ⟨rfl, hf⟩, by simp [hst, hf], by simp [hst, hf]⟩)
    · exact .inr (.inr ⟨rfl, Nat.lt_of_not_le hf, by simp [hst, hf]⟩)

end CircuitBreaker

/-! ## The calls in flight -/

namespace Calls

variable {s : Calls}

theorem start_rawState (h : s.start) : s.breaker.rawState = .closed := by
  obtain ⟨⟨name, threshold, reset, probes, hb⟩, _⟩ := h
  simp only [CircuitBreaker.init] at hb
  split at hb
  · rw [← Except.ok.inj hb]
  · cases hb

/-- Bookkeeping of the calls in flight. -/
structure Inv (s : Calls) : Prop where
  ids_nodup : (s.inFlight.map Call.id).Nodup
  opened_le : ∀ c ∈ s.inFlight, c.opened ≤ s.breaker.totalOpened
  open_stale : s.breaker.rawState = .open → ∀ c ∈ s.inFlight, c.opened < s.breaker.totalOpened
  half_probe : s.breaker.rawState = .halfOpen →
    ∀ c ∈ s.inFlight, c.opened = s.breaker.totalOpened → c.probe = true

theorem Inv.refresh (h : s.Inv) (now : ℚ) :
    Inv { s with breaker := s.breaker.refresh now } := by
  rcases s.breaker.refresh_cases now with hb | ⟨ho, hb⟩
  · rw [hb]; exact h
  · refine ⟨h.ids_nodup, ?_, ?_, ?_⟩
    · simpa using h.opened_le
    · simp [hb]
    · intro _ c hc heq
      have hlt := h.open_stale ho c hc
      simp only [CircuitBreaker.refresh_totalOpened] at heq
      omega

/-- Dropping calls keeps the bookkeeping when the breaker moves to `CLOSED`, or
opens, or keeps its state. -/
theorem Inv.settle (h : s.Inv) {b : CircuitBreaker} {now : ℚ} (p : Call → Bool)
    (hb : (b.rawState = .open ∧ b.totalOpened = s.breaker.totalOpened + 1) ∨
      (b.totalOpened = s.breaker.totalOpened ∧
        (b.rawState = .closed ∨ b.rawState = s.breaker.rawState))) :
    Inv { breaker := b, now := now, inFlight := s.inFlight.filter p } := by
  have hmem : ∀ c ∈ s.inFlight.filter p, c ∈ s.inFlight := fun c hc => (List.mem_filter.mp hc).1
  have hnd : ((s.inFlight.filter p).map Call.id).Nodup :=
    h.ids_nodup.sublist (List.filter_sublist.map Call.id)
  rcases hb with ⟨ho, ht⟩ | ⟨ht, hs⟩
  · refine ⟨hnd, fun c hc => ?_, fun _ c hc => ?_, fun hh => ?_⟩
    · have := h.opened_le c (hmem c hc); simp only; omega
    · have := h.opened_le c (hmem c hc); simp only; omega
    · simp only [ho] at hh; cases hh
  · refine ⟨hnd, fun c hc => ?_, fun ho c hc => ?_, fun hh c hc heq => ?_⟩
    · simpa only [ht] using h.opened_le c (hmem c hc)
    · rcases hs with hs | hs <;> simp only [hs] at ho
      · cases ho
      · simpa only [ht] using h.open_stale ho c (hmem c hc)
    · simp only [ht] at heq
      rcases hs with hs | hs <;> simp only [hs] at hh
      · cases hh
      · exact h.half_probe hh c (hmem c hc) heq

variable {id : Nat} {op : Op}

theorem find_eq_none : s.find id = none ↔ id ∉ s.inFlight.map Call.id := by
  simp [find, List.find?_eq_none]

/-- A freshly admitted call keeps the bookkeeping. -/
theorem Inv.admitted (h : s.Inv) (hid : s.find id = none)
    {b : CircuitBreaker} {now : ℚ} (ht : b.totalOpened = s.breaker.totalOpened)
    (hs : b.rawState = s.breaker.rawState) (ho : b.rawState ≠ .open) :
    Inv { breaker := b, now := now
          inFlight := ⟨id, b.totalOpened, decide (b.rawState = .halfOpen)⟩ :: s.inFlight } := by
  refine ⟨?_, ?_, fun h' => absurd h' ho, ?_⟩
  · simpa using ⟨by simpa using find_eq_none.mp hid, h.ids_nodup⟩
  · simp only [List.mem_cons, forall_eq_or_imp]
    exact ⟨Nat.le_refl _, fun c hc => by simpa only [ht] using h.opened_le c hc⟩
  · simp only [List.mem_cons, forall_eq_or_imp]
    intro hh
    refine ⟨fun _ => by simpa using hh, fun c hc heq => ?_⟩
    exact h.half_probe (hs ▸ hh) c hc (by simpa only [ht] using heq)

/-- What one operation is, read back from the step function. -/
theorem step_cases {s t : Calls} (h : s.step op = some t) :
    (∃ id now, op = .allow id now ∧ s.now ≤ now ∧ s.find id = none ∧
      t = { breaker := (s.breaker.allow now).2, now := now
            inFlight := if (s.breaker.allow now).1 then
              ⟨id, (s.breaker.allow now).2.totalOpened,
                decide ((s.breaker.allow now).2.rawState = .halfOpen)⟩ :: s.inFlight
              else s.inFlight }) ∨
    (∃ id o now later c, op = .settle id o now later ∧ s.now ≤ now ∧ now ≤ later ∧
      s.find id = some c ∧
      t = { breaker := s.breaker.settle o now later, now := later
            inFlight := s.inFlight.filter fun c => c.id != id }) ∨
    (∃ now, op = .observe now ∧ s.now ≤ now ∧
      t = { s with breaker := s.breaker.refresh now, now := now }) := by
  cases op with
  | allow id now =>
    simp only [step] at h
    split at h
    · next hc => cases h; exact .inl ⟨id, now, rfl, hc.1, hc.2, rfl⟩
    · cases h
  | settle id o now later =>
    simp only [step] at h
    split at h
    · next hc =>
      obtain ⟨c, hfind⟩ := Option.ne_none_iff_exists'.mp hc.2.2
      cases h
      exact .inr (.inl ⟨id, o, now, later, c, rfl, hc.1, hc.2.1, hfind, rfl⟩)
    · cases h
  | observe now =>
    simp only [step] at h
    split at h
    · next hc => cases h; exact .inr (.inr ⟨now, rfl, hc, rfl⟩)
    · cases h

/-- The bookkeeping is an invariant. -/
theorem Inv.step {s t : Calls} (h : s.Inv) (hst : s.step op = some t) : t.Inv := by
  rcases step_cases hst with ⟨id, now, rfl, _, hid, rfl⟩ |
    ⟨id, o, now, later, c, rfl, _, _, _, rfl⟩ | ⟨now, rfl, _, rfl⟩
  · have hr := h.refresh now
    rcases s.breaker.allow_cases now with ⟨hs, ha⟩ | ⟨hs, _, ha⟩ | ⟨_, _, ha⟩ | ⟨_, ha⟩
    · simp only [ha, if_true]
      exact hr.admitted hid rfl rfl (by simp [hs])
    · simp only [ha, if_true]
      exact hr.admitted hid rfl rfl (by simp [hs])
    · simp only [ha]
      exact ⟨hr.1, hr.2, hr.3, hr.4⟩
    · simp only [ha]
      exact ⟨hr.1, hr.2, hr.3, hr.4⟩
  · have hr := h.refresh now
    cases o with
    | success =>
      refine hr.settle _ ?_
      rcases s.breaker.recordSuccess_cases now with ⟨_, hb⟩ | ⟨_, hb⟩ | ⟨_, hb⟩ <;>
        simp [CircuitBreaker.settle, hb]
    | failure =>
      refine hr.settle _ ?_
      rcases s.breaker.recordFailure_cases now later with ⟨_, hb⟩ | ⟨_, ho, ht⟩ | ⟨_, _, hb⟩
      · simp [CircuitBreaker.settle, hb]
      · exact .inl ⟨ho, by simpa [CircuitBreaker.settle] using ht⟩
      · simp [CircuitBreaker.settle, hb]
    | released =>
      refine h.settle _ (.inr ?_)
      simp only [CircuitBreaker.settle, CircuitBreaker.release]
      split <;> simp
  · have hr := h.refresh now
    exact ⟨hr.1, hr.2, hr.3, hr.4⟩

theorem calls_inv {G : Calls → Op → Prop} (h : machine.Reach G s) : s.Inv := by
  refine h.invariant (I := Inv) (fun s hs => ?_) (fun s op t hi hst _ => hi.step hst)
  exact ⟨by simp [hs.2], by simp [hs.2], by simp [hs.2], by simp [hs.2]⟩

/-! ## The half-open probe bound -/

/-- While the breaker is half-open (stored, or on the next reading of its
state), its live probes are at most `half_open_max_calls`. -/
def HalfOpenBound (s : Calls) : Prop :=
  ∀ now, s.now ≤ now → s.breaker.state now = .halfOpen →
    s.liveProbes ≤ s.breaker.halfOpenMaxCalls

/-- A call that is not a probe of the current half-open period gives back a
slot while the counter still counts one of that period's. -/
def stealsProbe (s : Calls) : Op → Bool
  | .settle id .released _ _ =>
    match s.find id with
    | some c => !s.live c && decide (s.breaker.rawState = .halfOpen) &&
        decide (0 < s.breaker.probesInFlight)
    | none => false
  | _ => false

/-- The counter is the number of live probes. -/
structure ProbeInv (s : Calls) : Prop where
  calls : s.Inv
  count : s.breaker.rawState = .halfOpen → s.liveProbes = s.breaker.probesInFlight
  le_max : s.breaker.rawState = .halfOpen →
    s.breaker.probesInFlight ≤ s.breaker.halfOpenMaxCalls

theorem live_congr {s t : Calls} (h : s.breaker.totalOpened = t.breaker.totalOpened) :
    s.live = t.live := by
  funext c; simp only [live, h]

theorem liveProbes_of_open (h : s.Inv) (ho : s.breaker.rawState = .open) :
    s.liveProbes = 0 := by
  rw [liveProbes, List.countP_eq_zero]
  intro c hc
  have := h.open_stale ho c hc
  simp only [live, Bool.and_eq_true, decide_eq_true_eq, not_and]
  omega

theorem ProbeInv.refresh (h : s.ProbeInv) (now : ℚ) :
    ProbeInv { s with breaker := s.breaker.refresh now } := by
  refine ⟨h.calls.refresh now, ?_, ?_⟩ <;>
    rcases s.breaker.refresh_cases now with hb | ⟨ho, hb⟩
  · rw [hb]; exact h.count
  · intro _
    have h0 := liveProbes_of_open h.calls ho
    rw [liveProbes, live_congr (t := s) (by simp), hb]
    exact h0
  · rw [hb]; exact h.le_max
  · simp [hb]

/-- Removing the call with a given id from a list of distinct ids takes exactly
that call out of every count. -/
theorem countP_filter_id (p : Call → Bool) :
    ∀ {l : List Call} {c : Call}, (l.map Call.id).Nodup → (l.find? fun c => c.id == id) = some c →
      (l.filter fun c => c.id != id).countP p + (if p c then 1 else 0) = l.countP p
  | [], _, _, h => by simp at h
  | d :: l, c, hnd, h => by
      simp only [List.map_cons, List.nodup_cons] at hnd
      by_cases hd : d.id = id
      · simp only [List.find?_cons, hd, beq_self_eq_true, Option.some.injEq] at h
        subst h
        have hrest : (l.filter fun c => c.id != id) = l := by
          refine List.filter_eq_self.mpr fun c hc => ?_
          simp only [bne_iff_ne, ne_eq]
          rintro rfl
          exact hnd.1 (hd ▸ List.mem_map_of_mem hc)
        simp [hd, hrest, List.countP_cons]
      · have hne : (d.id == id) = false := by simpa using hd
        simp only [List.find?_cons, hne] at h
        have ih := countP_filter_id p hnd.2 h
        simp only [List.filter_cons, bne, hne, Bool.not_false, if_true, List.countP_cons]
        simp only [bne] at ih
        omega

theorem ProbeInv.step {s t : Calls} (h : s.ProbeInv) (hst : s.step op = some t)
    (hg : ¬ s.stealsProbe op = true) : t.ProbeInv := by
  have hinv := h.calls.step hst
  rcases step_cases hst with ⟨id, now, rfl, _, hid, rfl⟩ |
    ⟨id, o, now, later, c, rfl, _, _, hfind, rfl⟩ | ⟨now, rfl, _, rfl⟩
  · have hr := h.refresh now
    rcases s.breaker.allow_cases now with ⟨hs, ha⟩ | ⟨hs, hp, ha⟩ | ⟨_, _, ha⟩ | ⟨_, ha⟩
    · refine ⟨hinv, ?_, ?_⟩ <;> simp [ha, hs]
    · have hcount := hr.count hs
      refine ⟨hinv, fun _ => ?_, fun _ => ?_⟩
      · simp only [liveProbes, ha, if_true] at hcount ⊢
        rw [List.countP_cons]
        exact congrArg₂ (· + ·) hcount (if_pos (by simp [live, hs]))
      · simp only [ha, CircuitBreaker.refresh_halfOpenMaxCalls]
        omega
    · refine ⟨hinv, ?_, ?_⟩ <;> simp only [ha]
      · exact hr.count
      · exact hr.le_max
    · refine ⟨hinv, ?_, ?_⟩ <;> simp only [ha]
      · exact hr.count
      · exact hr.le_max
  · cases o with
    | success =>
      -- a recorded outcome leaves the half-open state
      refine ⟨hinv, ?_, ?_⟩ <;>
        rcases s.breaker.recordSuccess_cases now with ⟨ho, hb⟩ | ⟨_, hb⟩ | ⟨_, hb⟩ <;>
        simp [CircuitBreaker.settle, *]
    | failure =>
      refine ⟨hinv, ?_, ?_⟩ <;>
        rcases s.breaker.recordFailure_cases now later with ⟨ho, hb⟩ | ⟨_, ho, _⟩ | ⟨hc, _, hb⟩ <;>
        simp [CircuitBreaker.settle, *]
    | released =>
      have hrel := countP_filter_id s.live h.calls.ids_nodup hfind
      refine ⟨hinv, fun hh => ?_, fun hh => ?_⟩ <;>
        simp only [CircuitBreaker.settle, CircuitBreaker.release] at hh ⊢ <;>
        split at hh <;> rename_i hraw
      · have hcount := h.count hraw
        simp only [hraw, if_true, liveProbes] at hcount ⊢
        change List.countP s.live _ = _
        by_cases hl : s.live c = true
        · simp only [hl, if_true] at hrel; omega
        · have hp : s.breaker.probesInFlight = 0 := by
            simp only [stealsProbe, hfind, hraw, Bool.and_eq_true, decide_eq_true_eq,
              Bool.not_eq_true'] at hg
            simp only [Bool.not_eq_true] at hl
            simp only [hl, true_and] at hg
            omega
          simp only [hl] at hrel
          simp only [Bool.false_eq_true, if_false] at hrel
          omega
      · exact absurd hh hraw
      · have := h.le_max hraw
        simp only [hraw, if_true]
        omega
      · exact absurd hh hraw
  · have hr := h.refresh now
    exact ⟨hinv, hr.count, hr.le_max⟩

theorem probe_inv (h : machine.Reach (fun s op => ¬ s.stealsProbe op = true) s) :
    s.ProbeInv := by
  refine h.invariant (I := ProbeInv) (fun s hs => ?_) (fun s op t hi hst hg => hi.step hst hg)
  exact ⟨calls_inv (.start (G := Machine.free) hs), by simp [start_rawState hs],
    by simp [start_rawState hs]⟩

theorem not_halfOpenBound (hs : s.breaker.rawState = .halfOpen)
    (hlt : s.breaker.halfOpenMaxCalls < s.liveProbes) : ¬ s.HalfOpenBound := by
  intro hb
  have hstate : s.breaker.state s.now = .halfOpen := by
    rw [CircuitBreaker.state_eq, CircuitBreaker.refresh_of_ne_open (by simp [hs]), hs]
  have := hb s.now le_rfl hstate
  omega

/-- Once fewer slots are counted than probes are live, admitting new calls fills
the difference: the bound can be broken from here. Induction on the free
slots. -/
theorem exists_unbounded : ∀ (n : Nat) (s : Calls), s.breaker.rawState = .halfOpen →
    s.breaker.probesInFlight < s.liveProbes →
    s.breaker.halfOpenMaxCalls - s.breaker.probesInFlight = n →
    ∃ l t, machine.Run s l t ∧ ¬ t.HalfOpenBound
  | 0, s, hs, hlt, hn => ⟨[], s, .nil s, not_halfOpenBound hs (by omega)⟩
  | n + 1, s, hs, hlt, hn => by
      obtain ⟨id, hid⟩ := Infinite.exists_notMem_finset (s.inFlight.map Call.id).toFinset
      have hfind : s.find id = none := find_eq_none.mpr (by simpa using hid)
      have hr := CircuitBreaker.refresh_of_ne_open (b := s.breaker) (by simp [hs]) s.now
      have hmax : s.breaker.probesInFlight < s.breaker.halfOpenMaxCalls := by omega
      let t : Calls :=
        { breaker := { s.breaker with probesInFlight := s.breaker.probesInFlight + 1 }
          now := s.now
          inFlight := ⟨id, s.breaker.totalOpened, true⟩ :: s.inFlight }
      have hst : s.step (.allow id s.now) = some t := by
        simp [step, hfind, CircuitBreaker.allow, hr, hs, hmax, t]
      have hcount : t.liveProbes = s.liveProbes + 1 := by
        rw [liveProbes, List.countP_cons]
        exact congrArg₂ (· + ·) rfl (if_pos (by simp [live, t]))
      obtain ⟨l, u, hrun, hu⟩ := exists_unbounded n t hs
        (by rw [hcount]; exact Nat.succ_lt_succ hlt) (by simp only [t]; omega)
      exact ⟨_, u, (Machine.Run.single hst).append hrun, hu⟩

/-- A stolen slot leaves fewer counted slots than live probes. -/
theorem lt_liveProbes_of_stealsProbe {s t : Calls} (h : s.ProbeInv)
    (hst : s.step op = some t) (hg : s.stealsProbe op = true) :
    t.breaker.rawState = .halfOpen ∧ t.breaker.probesInFlight < t.liveProbes := by
  rcases step_cases hst with ⟨_, _, rfl, _, _, rfl⟩ | ⟨id, o, now, later, c, rfl, _, _, hfind, rfl⟩ |
    ⟨_, rfl, _, rfl⟩
  · simp [stealsProbe] at hg
  · cases o with
    | success => simp [stealsProbe] at hg
    | failure => simp [stealsProbe] at hg
    | released =>
      simp only [stealsProbe, hfind, Bool.and_eq_true, Bool.not_eq_true', decide_eq_true_eq] at hg
      obtain ⟨⟨hl, hraw⟩, hp⟩ := hg
      have hrel := countP_filter_id s.live h.calls.ids_nodup hfind
      have hcount := h.count hraw
      simp only [hl, Bool.false_eq_true, if_false] at hrel
      simp only [CircuitBreaker.settle, CircuitBreaker.release, hraw, if_true, liveProbes]
      refine ⟨trivial, ?_⟩
      change _ < List.countP s.live _
      rw [liveProbes] at hcount
      omega
  · simp [stealsProbe] at hg

theorem ProbeInv.bound (h : s.ProbeInv) : s.HalfOpenBound := by
  intro now _ hs
  have hr := h.refresh now
  rw [liveProbes, live_congr (t := { s with breaker := s.breaker.refresh now }) (by simp)]
  exact (hr.count hs).trans_le (by simpa using hr.le_max hs)

/-- **The half-open probe bound, and exactly what it depends on.** In every state
of every run in which no other call has given back a live probe's slot, the live
probes do not exceed `half_open_max_calls`; and any step from there that does
give one back leads to a state from which the run can go on to break the
bound. -/
theorem halfOpen_bound {s : Calls}
    (h : machine.Reach (fun s op => ¬ s.stealsProbe op = true) s) :
    s.HalfOpenBound ∧
      ∀ op t, s.step op = some t → s.stealsProbe op = true →
        ∃ l u, machine.Run t l u ∧ ¬ u.HalfOpenBound := by
  refine ⟨(probe_inv h).bound, fun op t hst hg => ?_⟩
  obtain ⟨hraw, hlt⟩ := lt_liveProbes_of_stealsProbe (probe_inv h) hst hg
  exact exists_unbounded _ t hraw hlt rfl

theorem one_failure_pos : 1 ≤ 1 := le_rfl

/-- The breaker of the examples below: one failure opens it for 30 seconds,
one probe at a time. -/
def oneFailure : Calls where
  breaker :=
    { name := "openai", failureThreshold := 1, resetTimeout := 30, halfOpenMaxCalls := 1
      rawState := .closed, failures := 0, openedAt := 0, probesInFlight := 0
      totalOpened := 0, changes := [], threshold_pos := one_failure_pos }
  now := 0
  inFlight := []

theorem oneFailure_start : oneFailure.start := ⟨⟨"openai", 1, 30, 1, rfl⟩, rfl⟩

/-- A failure opens the breaker; after the timeout a probe is admitted and another call refused, and the
probe's success closes it. -/
theorem halfOpen_bound_probe :
    oneFailure.start ∧ ∃ s t,
      Machine.exec step oneFailure [.allow 1 0, .settle 1 .failure 1 1, .allow 2 31, .allow 3 31] = some s ∧
      s.breaker.rawState = .halfOpen ∧ s.liveProbes = s.breaker.halfOpenMaxCalls ∧ s.HalfOpenBound ∧
      s.step (.settle 2 .success 32 32) = some t ∧ t.breaker.rawState = .closed ∧ t.HalfOpenBound := by
  refine ⟨oneFailure_start, ?_⟩
  obtain ⟨s, hs, htest⟩ := Machine.exists_of_any
    (show (Machine.exec step oneFailure [.allow 1 0, .settle 1 .failure 1 1, .allow 2 31, .allow 3 31]).any (fun s =>
      decide (s.breaker.rawState = .halfOpen ∧ s.liveProbes = s.breaker.halfOpenMaxCalls) &&
        (s.step (.settle 2 .success 32 32)).any fun t => t.breaker.rawState = .closed) = true by decide +kernel)
  obtain ⟨hfull, hnext⟩ := (Bool.and_eq_true _ _).mp htest
  obtain ⟨hhalf, hprobes⟩ := of_decide_eq_true hfull
  obtain ⟨t, ht, hclosed⟩ := Machine.exists_of_any hnext
  have hreach : machine.Reach (fun s op => ¬ s.stealsProbe op = true) s :=
    (Machine.run_steps (P := machine.start) hs).reach oneFailure_start (by decide +kernel)
  exact ⟨s, t, hs, hhalf, hprobes, (halfOpen_bound hreach).1, ht, of_decide_eq_true hclosed,
    (halfOpen_bound (.step hreach ht (by simp [stealsProbe]))).1⟩

/-- Two calls are admitted while closed; the second fails and opens the circuit;
after the timeout a probe is admitted; the first call is released and its slot
goes to a second probe. -/
theorem halfOpen_bound_broken :
    oneFailure.start ∧
      ∃ s, Machine.exec step oneFailure
          [.allow 1 0, .allow 2 0, .settle 2 .failure 1 1, .allow 3 31,
            .settle 1 .released 32 32, .allow 4 33] = some s ∧
        ¬ s.HalfOpenBound := by
  refine ⟨oneFailure_start, ?_⟩
  have hrun : (Machine.exec step oneFailure
      [.allow 1 0, .allow 2 0, .settle 2 .failure 1 1, .allow 3 31,
        .settle 1 .released 32 32, .allow 4 33]).any (fun s =>
      decide (s.breaker.rawState = .halfOpen ∧ s.breaker.halfOpenMaxCalls < s.liveProbes)) =
      true := by decide +kernel
  obtain ⟨s, hs, hp⟩ := Machine.exists_of_any hrun
  simp only [decide_eq_true_eq] at hp
  exact ⟨s, hs, not_halfOpenBound hp.1 hp.2⟩

/-! ## Who decides recovery -/

/-- What a step may do to the recovery decision: only a probe of the current
half-open period closes or reopens a half-open breaker, and the outcome of a
call admitted before the breaker last opened changes neither the state nor the
opening time. -/
structure RecoveryByProbe (s : Calls) (op : Op) (t : Calls) : Prop where
  closes : (s.seen op).rawState = .halfOpen → t.breaker.rawState = .closed →
    ∃ id now later c, op = .settle id .success now later ∧ s.find id = some c ∧ s.live c = true
  reopens : (s.seen op).rawState = .halfOpen → t.breaker.rawState = .open →
    ∃ id now later c, op = .settle id .failure now later ∧ s.find id = some c ∧ s.live c = true
  stale_harmless : ∀ id o now later c, op = .settle id o now later → s.find id = some c →
    s.stale c = true →
    t.breaker.rawState = (s.seen op).rawState ∧ t.breaker.openedAt = s.breaker.openedAt

/-- A stale outcome that decides: success or failure of a call admitted before
the breaker last opened, reported while the breaker is half-open; or a failure
of such a call that completes the failure count of a closed breaker. -/
def decisiveStale (s : Calls) (op : Op) : Bool :=
  match op with
  | .settle id o _ _ =>
    match s.find id with
    | some c => s.stale c &&
        (decide (o ≠ .released ∧ (s.seen op).rawState = .halfOpen) ||
          decide (o = .failure ∧ (s.seen op).rawState = .closed ∧
            s.breaker.failureThreshold ≤ s.breaker.failures + 1))
    | none => false
  | _ => false

theorem live_or_stale (h : s.Inv) (now : ℚ)
    (hs : (s.breaker.refresh now).rawState = .halfOpen) {c : Call}
    (hc : s.find id = some c) : s.live c = true ∨ s.stale c = true := by
  have hmem : c ∈ s.inFlight := List.mem_of_find?_eq_some hc
  have hle := h.opened_le c hmem
  rcases Nat.lt_or_eq_of_le hle with hlt | heq
  · exact .inr (by simpa [stale] using hlt)
  · have hp := (h.refresh now).half_probe hs c hmem (by simpa using heq)
    exact .inl (by simp [live, hp, heq])

/-- On a reachable state, a step leaves the recovery to the current probes
exactly when it is not a decisive stale outcome. -/
theorem recoveryByProbe_iff {s t : Calls} (h : s.Inv) (hst : s.step op = some t) :
    s.RecoveryByProbe op t ↔ ¬ s.decisiveStale op = true := by
  rcases step_cases hst with ⟨id, now, rfl, _, hid, rfl⟩ |
    ⟨id, o, now, later, c, rfl, _, _, hfind, rfl⟩ | ⟨now, rfl, _, rfl⟩
  · refine iff_of_true ⟨fun hs hc => ?_, fun hs ho => ?_, by simp⟩ (by simp [decisiveStale]) <;>
      simp only [seen] at hs <;>
      rcases s.breaker.allow_cases now with ⟨_, ha⟩ | ⟨_, _, ha⟩ | ⟨_, _, ha⟩ | ⟨_, ha⟩ <;>
      simp_all
  · have hls := fun hs => live_or_stale h now hs hfind
    cases o with
    | released =>
      have hrel : (s.breaker.settle .released now later).rawState = s.breaker.rawState ∧
          (s.breaker.settle .released now later).openedAt = s.breaker.openedAt := by
        simp only [CircuitBreaker.settle, CircuitBreaker.release]
        split <;> exact ⟨rfl, rfl⟩
      refine iff_of_true ⟨fun hs hc => ?_, fun hs ho => ?_, ?_⟩ (by simp [decisiveStale, hfind])
      · simp only [seen] at hs; simp only [hrel.1, hs] at hc; cases hc
      · simp only [seen] at hs; simp only [hrel.1, hs] at ho; cases ho
      · intro _ _ _ _ _ heq _ _
        cases heq
        exact ⟨hrel.1, hrel.2⟩
    | success =>
      rcases s.breaker.recordSuccess_cases now with ⟨hs, hb⟩ | ⟨hs, hb⟩ | ⟨hs, hb⟩
      · refine iff_of_true ⟨?_, ?_, ?_⟩ ?_ <;>
          simp [decisiveStale, seen, hfind, hs, hb, CircuitBreaker.settle]
      · by_cases hstale : s.stale c = true
        · refine iff_of_false (fun hr => ?_) (by simp [decisiveStale, seen, hfind, hs, hstale])
          have := (hr.stale_harmless id .success now later c rfl hfind hstale).1
          simp [seen, hs, hb, CircuitBreaker.settle] at this
        · have hlive := (hls hs).resolve_right hstale
          refine iff_of_true ⟨fun _ _ => ⟨id, now, later, c, rfl, hfind, hlive⟩, ?_, ?_⟩ ?_
          · simp [hb, CircuitBreaker.settle]
          · intro _ _ _ _ d heq hd hds
            cases heq
            exact absurd (Option.some.inj (hfind.symm.trans hd) ▸ hds) hstale
          · simp [decisiveStale, hfind, hstale]
      · refine iff_of_true ⟨?_, ?_, ?_⟩ ?_ <;>
          simp [decisiveStale, seen, hfind, hs, hb, CircuitBreaker.settle]
    | failure =>
      rcases s.breaker.recordFailure_cases now later with ⟨hs, hb⟩ | ⟨hs, ho, _⟩ | ⟨hs, hf, hb⟩
      · refine iff_of_true ⟨?_, ?_, ?_⟩ ?_ <;>
          simp [decisiveStale, seen, hfind, hs, hb, CircuitBreaker.settle]
      · by_cases hstale : s.stale c = true
        · refine iff_of_false (fun hr => ?_) ?_
          · have := (hr.stale_harmless id .failure now later c rfl hfind hstale).1
            simp only [CircuitBreaker.settle, ho, seen] at this
            rcases hs with hs | ⟨hs, _⟩ <;> simp [hs] at this
          · rcases hs with hs | ⟨hs, hf⟩ <;> simp [decisiveStale, seen, *]
        · refine iff_of_true ⟨?_, fun hh _ => ?_, ?_⟩ (by simp [decisiveStale, hfind, hstale])
          · simp [CircuitBreaker.settle, ho]
          · exact ⟨id, now, later, c, rfl, hfind, (hls hh).resolve_right hstale⟩
          · intro _ _ _ _ d heq hd hds
            cases heq
            exact absurd (Option.some.inj (hfind.symm.trans hd) ▸ hds) hstale
      · refine iff_of_true ⟨?_, ?_, ?_⟩ ?_ <;>
          simp [decisiveStale, seen, hfind, hs, hb, CircuitBreaker.settle, hf]
  · refine iff_of_true ⟨fun hs hc => ?_, fun hs ho => ?_, by simp⟩ (by simp [decisiveStale])
    · simp only [seen] at hs; simp only [hs] at hc; cases hc
    · simp only [seen] at hs; simp only [hs] at ho; cases ho

/-- **Recovery is decided by the current probes, exactly when no stale outcome
is decisive.** For every run of calls through a breaker: all its steps leave the
recovery decision to the probes of the current half-open period if and only if
none of them is a decisive stale outcome. -/
theorem recovery_by_probe {s t : Calls} {l : List (Machine.Step Calls Op)}
    (h : machine.Run s l t) (hs : machine.start s) :
    (∀ e ∈ l, e.source.RecoveryByProbe e.label e.target) ↔
      ∀ e ∈ l, ¬ e.source.decisiveStale e.label = true :=
  h.steps_iff (P := RecoveryByProbe) (C := fun s op => ¬ s.decisiveStale op = true)
    (fun _ _ _ hr hst => recoveryByProbe_iff (calls_inv hr) hst) hs

/-- The breaker opens under two calls; the one still in flight fails, a first probe fails and a second one
succeeds. -/
def probedTwice : List Op :=
  [.allow 1 0, .allow 2 0, .settle 2 .failure 1 1, .settle 1 .failure 2 2, .allow 3 31, .settle 3 .failure 32 32,
    .allow 4 62, .settle 4 .success 63 63]

theorem recovery_by_probe_twice : ∃ t l, machine.Run oneFailure l t ∧ l.map Machine.Step.label = probedTwice ∧
    l.map (fun e => e.target.breaker.rawState) =
      [.closed, .closed, .open, .open, .halfOpen, .open, .halfOpen, .closed] ∧
    ∀ e ∈ l, e.source.RecoveryByProbe e.label e.target := by
  obtain ⟨t, ht, -⟩ := Machine.exists_of_any
    (show (Machine.exec step oneFailure probedTwice).any (fun _ => true) = true by decide +kernel)
  have hrun : machine.Run oneFailure (Machine.steps step oneFailure probedTwice) t := Machine.run_steps ht
  exact ⟨t, _, hrun, Machine.labels_steps ht, by decide +kernel,
    (recovery_by_probe hrun oneFailure_start).mpr (by decide +kernel)⟩

/-- A call admitted before the circuit opened succeeds after the reset timeout:
its success closes the circuit, and no probe was ever admitted. -/
theorem recovery_by_stale_success : oneFailure.start ∧
    ∃ s t, Machine.exec step oneFailure [.allow 1 0, .allow 2 0, .settle 2 .failure 1 1] = some s ∧
      s.step (.settle 1 .success 31 31) = some t ∧
      ¬ s.RecoveryByProbe (.settle 1 .success 31 31) t := by
  refine ⟨oneFailure_start, ?_⟩
  have hrun : (Machine.exec step oneFailure
      [.allow 1 0, .allow 2 0, .settle 2 .failure 1 1]).any (fun s =>
      (s.step (.settle 1 .success 31 31)).any fun _ =>
        s.decisiveStale (.settle 1 .success 31 31)) = true := by decide +kernel
  obtain ⟨s, hs, hnext⟩ := Machine.exists_of_any hrun
  obtain ⟨t, ht, hdec⟩ := Machine.exists_of_any hnext
  have hreach := Machine.exec_reach (Machine.Reach.start (m := machine) oneFailure_start) hs
  exact ⟨s, t, hs, ht, fun hr => (recoveryByProbe_iff (calls_inv hreach) ht).mp hr hdec⟩

end Calls

end Caips.Coreai
