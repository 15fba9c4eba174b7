/-
Caips.Api.MiddlewareTheorems — what the rate limit of the HTTP API lets
through, and what its `Retry-After` is worth.

§1 reads one request: after the sweep a client is refused for a full table, or
its window decides (`check_cases`).

§2 is about clocks that do not go back. The table is shared, but a sweep takes
away only windows that no longer count (`thinned_sweep`), so every row goes on
holding the admissions of the last minute of its client. `limits_kept` reads off
the bound, and that a client that is in the table is decided by its own
admissions alone.

§3 is about any clock. A refused client that waits for as long as it was told is
admitted exactly when `Honest` holds: the header is the time left rounded DOWN,
so the oldest request must be a whole number of seconds old.
-/
import Caips.Api.Middleware
import Caips.Logic.Window

namespace Caips.Api

open Caips.Logic

/-! ## §1 One request -/

namespace RateLimitMiddleware

open Traffic (allowed)

/-- The window of a client; one that is not in the table has an empty one. -/
def log (m : RateLimitMiddleware) (clientKey : String) : List ℚ := (m.windows.get? clientKey).getD []

variable {m : RateLimitMiddleware} {k : String} {w : List ℚ}

theorem log_of_none (h : m.windows.get? k = none) : m.log k = [] := by
  simp [log, h]

theorem log_of_some (h : m.windows.get? k = some w) :
    m.log k = w := by
  simp [log, h]

theorem rpm_sweep (m : RateLimitMiddleware) (now cutoff : ℚ) : (m.sweep now cutoff).rpm = m.rpm := by
  unfold sweep
  split <;> rfl

theorem size_sweep_le (m : RateLimitMiddleware) (now cutoff : ℚ) :
    (m.sweep now cutoff).windows.size ≤ m.windows.size := by
  unfold sweep
  split
  · exact le_refl _
  · exact Dict.size_filter_le _ _

variable {now cutoff : ℚ}

theorem of_get?_sweep (h : (m.sweep now cutoff).windows.get? k = some w) : m.windows.get? k = some w := by
  unfold sweep at h
  split at h
  · exact h
  · rw [Dict.get?_filter] at h
    exact (Option.filter_eq_some_iff.mp h).1

theorem get?_sweep_eq_none (h : m.windows.get? k = some w) :
    (m.sweep now cutoff).windows.get? k = none ↔
      m.lastSweep ≤ now - 60 ∧ ∀ t ∈ w.getLast?, t ≤ cutoff := by
  unfold sweep sweepIntervalS
  by_cases hdue : now - m.lastSweep < 60
  · have hlate : ¬ m.lastSweep ≤ now - 60 := by linarith
    simp [hdue, h, hlate]
  · have hpast : m.lastSweep ≤ now - 60 := by linarith
    simp [hdue, hpast, Dict.get?_filter, h, Option.filter_eq_none_iff, Option.all_eq_true]

theorem size_sweep_lt (h : m.windows.get? k = some w) (hnone : (m.sweep now cutoff).windows.get? k = none) :
    (m.sweep now cutoff).windows.size < m.windows.size := by
  unfold sweep at hnone ⊢
  split at hnone
  · simp [h] at hnone
  · rename_i hdue
    rw [Dict.get?_filter, h, Option.filter_eq_none_iff] at hnone
    rw [if_neg hdue]
    exact List.length_filter_lt_length_iff_exists.mpr ⟨(k, w), Dict.mem_entries.mpr h, hnone w rfl⟩

theorem thinned_sweep (m : RateLimitMiddleware) (now : ℚ) (k : String) :
    Window.Thinned 60 now (m.log k) ((m.sweep now (now - 60)).log k) := by
  unfold log
  cases hrow : m.windows.get? k with
  | none =>
    have hnone : (m.sweep now (now - 60)).windows.get? k = none :=
      Option.eq_none_iff_forall_ne_some.mpr fun w hw => nomatch hrow.symm.trans (of_get?_sweep hw)
    rw [hnone]
    exact .same
  | some w =>
    cases hswept : (m.sweep now (now - 60)).windows.get? k with
    | none =>
      refine .forgotten fun t ht => ?_
      have hold := ((get?_sweep_eq_none hrow).mp hswept).2 t ht
      linarith
    | some w' =>
      obtain rfl := Option.some.inj (hrow.symm.trans (of_get?_sweep hswept))
      exact .same

/-- The table is full, or the client's window decides. -/
theorem check_cases (m : RateLimitMiddleware) (clientKey : String) (now : ℚ) :
    ((m.sweep now (now - 60)).windows.get? clientKey = none ∧
      maxClients ≤ (m.sweep now (now - 60)).windows.size ∧
      m.checkRateLimit clientKey now = (.ok (false, 60), m.sweep now (now - 60))) ∨
    (((m.sweep now (now - 60)).windows.get? clientKey = none →
        (m.sweep now (now - 60)).windows.size < maxClients) ∧
      m.checkRateLimit clientKey now = (m.sweep now (now - 60)).admitClient clientKey
        (Window.recent 60 ((m.sweep now (now - 60)).log clientKey) now) now) := by
  unfold checkRateLimit log
  dsimp only
  cases hrow : (m.sweep now (now - 60)).windows.get? clientKey with
  | none =>
    by_cases hfull : maxClients ≤ (m.sweep now (now - 60)).windows.size
    · exact .inl (by simp [hfull])
    · exact .inr (by simp [hfull, not_le.mp hfull, Window.recent])
  | some w => exact .inr (by simp [Window.recent_eq_dropWhile])

theorem admit_cases (m : RateLimitMiddleware) (clientKey : String) (window : List ℚ) (now : ℚ) :
    (m.rpm ≤ window.length ∧ allowed (m.admitClient clientKey window now).1 = false ∧
      (m.admitClient clientKey window now).2 = { m with windows := m.windows.set clientKey window }) ∨
    ((window.length : ℤ) < m.rpm ∧ allowed (m.admitClient clientKey window now).1 = true ∧
      (m.admitClient clientKey window now).2 = { m with windows := m.windows.set clientKey (window ++ [now]) }) := by
  unfold admitClient
  by_cases hfull : m.rpm ≤ window.length
  · rw [if_pos hfull]
    cases window <;> exact .inl ⟨hfull, rfl, rfl⟩
  · rw [if_neg hfull]
    exact .inr ⟨not_le.mp hfull, rfl, rfl⟩

theorem admit_allowed_iff (m : RateLimitMiddleware) (clientKey : String) (window : List ℚ) (now : ℚ) :
    allowed (m.admitClient clientKey window now).1 = true ↔ (window.length : ℤ) < m.rpm := by
  rcases m.admit_cases clientKey window now with ⟨hfull, hno, -⟩ | ⟨hroom, hyes, -⟩
  · simp [hno, hfull]
  · simp [hyes, hroom]

theorem passed_iff (m : RateLimitMiddleware) (clientKey : String) (now : ℚ) :
    (m.dispatch clientKey now).1 = .passed ↔ allowed (m.checkRateLimit clientKey now).1 = true := by
  unfold dispatch
  rcases m.checkRateLimit clientKey now with ⟨_ | ⟨_ | _, q⟩, m'⟩ <;> simp [allowed]

theorem log_set_self (m : RateLimitMiddleware) (k : String) (w : List ℚ) :
    log { m with windows := m.windows.set k w } k = w := by simp [log]

theorem log_set_ne (m : RateLimitMiddleware) {k k' : String} (w : List ℚ) (h : k ≠ k') :
    log { m with windows := m.windows.set k w } k' = m.log k' := by simp [log, Dict.get?_set_ne _ _ h]

theorem size_set_le (w : List ℚ) (hsize : m.windows.size ≤ maxClients)
    (hnew : m.windows.get? k = none → m.windows.size < maxClients) :
    (m.windows.set k w).size ≤ maxClients := by
  cases hrow : m.windows.get? k with
  | none => exact (Dict.size_set_le _ _ _).trans (hnew hrow)
  | some w' => exact (Dict.size_set_of_some w hrow).le.trans hsize

end RateLimitMiddleware

/-! ## §2 The limits -/

namespace Traffic

open RateLimitMiddleware

/-- When the requests of a client were admitted. -/
def times (s : Traffic) (clientKey : String) : List ℚ :=
  (s.admitted.filter fun a => decide (a.1 = clientKey)).map Prod.snd

/-- Every window holds the admissions of the last minute of its client, and they keep the limit. -/
structure Inv (s : Traffic) : Prop where
  bounded : s.limiter.windows.size ≤ maxClients
  holds : ∀ k, Window.Holds 60 (s.times k) (s.limiter.log k) s.now
  sparse : ∀ k, Window.Sparse s.limiter.rpm.toNat 60 (s.times k)

variable {s : Traffic}

theorem Inv.of_start (h : s.start) : s.Inv := by
  obtain ⟨rpm, hlimiter, hadmitted⟩ := h
  have htimes (k : String) : s.times k = [] := by simp [times, hadmitted]
  have hlog (k : String) : s.limiter.log k = [] := by simp [log, hlimiter]
  constructor
  · simp [hlimiter, Dict.size, Dict.empty]
  · intro k
    rw [htimes, hlog]
    exact Window.holds_nil
  · intro k
    rw [htimes]
    exact Window.sparse_nil

theorem Inv.sweep (h : s.Inv) {now : ℚ} (hle : s.now ≤ now) :
    Inv { limiter := s.limiter.sweep now (now - 60), now := now, admitted := s.admitted } where
  bounded := (size_sweep_le _ _ _).trans h.bounded
  holds := fun k => (thinned_sweep s.limiter now k).holds ((h.holds k).later hle)
  sparse := by
    rw [rpm_sweep]
    exact h.sparse

/-- A request that is refused leaves its window trimmed. -/
theorem Inv.refused (h : s.Inv) {k : String}
    (hnew : s.limiter.windows.get? k = none → s.limiter.windows.size < maxClients) :
    Inv { s with limiter := { s.limiter with
      windows := s.limiter.windows.set k (Window.recent 60 (s.limiter.log k) s.now) } } where
  bounded := size_set_le _ h.bounded hnew
  holds := by
    intro k'
    by_cases hk : k = k'
    · subst hk
      rw [log_set_self]
      exact (h.holds k).trim
    · rw [log_set_ne _ _ hk]
      exact h.holds k'
  sparse := h.sparse

theorem times_concat (s : Traffic) (limiter : RateLimitMiddleware) (now : ℚ) (k k' : String) :
    times { limiter := limiter, now := now, admitted := s.admitted ++ [(k, now)] } k' =
      s.times k' ++ if k = k' then [now] else [] := by
  by_cases hk : k = k' <;> simp [times, hk]

/-- A request that is let through had room in its window, and is added to it. -/
theorem Inv.admitted (h : s.Inv) {k : String}
    (hnew : s.limiter.windows.get? k = none → s.limiter.windows.size < maxClients)
    (hroom : ((Window.recent 60 (s.limiter.log k) s.now).length : ℤ) < s.limiter.rpm) :
    Inv { s with
      limiter := { s.limiter with
        windows := s.limiter.windows.set k (Window.recent 60 (s.limiter.log k) s.now ++ [s.now]) }
      admitted := s.admitted ++ [(k, s.now)] } where
  bounded := size_set_le _ h.bounded hnew
  holds := by
    intro k'
    rw [times_concat]
    by_cases hk : k = k'
    · subst hk
      rw [if_pos rfl, log_set_self]
      exact (h.holds k).trim.admitted
    · rw [if_neg hk, log_set_ne _ _ hk, List.append_nil]
      exact h.holds k'
  sparse := by
    intro k'
    rw [times_concat]
    by_cases hk : k = k'
    · subst hk
      rw [if_pos rfl]
      exact (h.sparse k).admitted (h.holds k) (by omega)
    · rw [if_neg hk, List.append_nil]
      exact h.sparse k'

/-- **One request keeps the invariant.** -/
theorem Inv.step {s s' : Traffic} {r : Request} (h : s.Inv) (hle : s.now ≤ r.now) (hstep : s.step r = some s') :
    s'.Inv := by
  have hswept := h.sweep hle
  obtain rfl := Option.some.inj hstep
  rcases s.limiter.check_cases r.clientKey r.now with ⟨-, -, hcheck⟩ | ⟨hnew, hcheck⟩
  · rw [hcheck]
    exact hswept
  · rw [hcheck]
    rcases (s.limiter.sweep r.now (r.now - 60)).admit_cases r.clientKey
      (Window.recent 60 ((s.limiter.sweep r.now (r.now - 60)).log r.clientKey) r.now) r.now with
      ⟨-, hno, hleft⟩ | ⟨hroom, hyes, hleft⟩
    · rw [hleft, hno]
      exact hswept.refused hnew
    · rw [hleft, hyes]
      exact hswept.admitted hnew hroom

theorem inv_of_reach (h : machine.Reach forward s) : s.Inv :=
  h.invariant (fun _ => Inv.of_start) fun _ _ _ hs hstep hle => hs.step hle hstep

theorem Inv.tracked (h : s.Inv) {k : String} {now : ℚ} (hle : s.now ≤ now)
    (htracked : s.limiter.windows.contains k = true) :
    (s.limiter.dispatch k now).1 = .passed ↔
      ((s.times k).countP fun a => now - a < 60 : ℤ) < s.limiter.rpm := by
  obtain ⟨w, hw⟩ := Option.isSome_iff_exists.mp htracked
  rw [passed_iff]
  rcases s.limiter.check_cases k now with ⟨hnone, hfull, -⟩ | ⟨-, hcheck⟩
  · have hlt := size_sweep_lt hw hnone
    have hbound := h.bounded
    omega
  · rw [hcheck, admit_allowed_iff, rpm_sweep, ((h.sweep hle).holds k).length_recent]
    rfl

theorem countP_times (s : Traffic) (k : String) (p : ℚ → Bool) :
    (s.times k).countP p = s.admitted.countP fun a => decide (a.1 = k) && p a.2 := by
  unfold times
  rw [List.countP_map, List.countP_filter]
  exact List.countP_congr fun a _ => by simp [and_comm]

/-- **The limit of a client.** Whatever the clients do, in every half-open minute at most `rpm`
requests of one client are admitted, and the table stays within its bound; and a request of
a client in the table is let through exactly when fewer than `rpm` of its requests were
admitted in the last 60 seconds, whoever else is in the table and whatever was swept. -/
theorem limits_kept {s : Traffic} (h : machine.Reach forward s) (hrpm : 1 ≤ s.limiter.rpm) :
    s.limiter.windows.size ≤ maxClients ∧
    (∀ k t, (s.admitted.countP fun a => decide (a.1 = k) && decide (t ≤ a.2 ∧ a.2 < t + 60) : ℤ) ≤ s.limiter.rpm) ∧
    ∀ k now, s.now ≤ now → s.limiter.windows.contains k = true →
      ((s.limiter.dispatch k now).1 = .passed ↔
        (s.admitted.countP fun a => decide (a.1 = k) && decide (now - a.2 < 60) : ℤ) < s.limiter.rpm) := by
  have hinv := inv_of_reach h
  refine ⟨hinv.bounded, fun k t => ?_, fun k now hle htracked => ?_⟩
  · have hsparse := hinv.sparse k t
    rw [countP_times] at hsparse
    omega
  · rw [hinv.tracked hle htracked, countP_times]

end Traffic

/-! ## §3 `Retry-After` -/

namespace RateLimitMiddleware

open Traffic (allowed)

/-- What no clock can break: the table keeps its bound, a window keeps the limit. -/
structure Shape (m : RateLimitMiddleware) : Prop where
  bounded : m.windows.size ≤ maxClients
  fits : ∀ k w, m.windows.get? k = some w → w = [] ∨ (w.length : ℤ) ≤ m.rpm

variable {m : RateLimitMiddleware}

theorem Shape.sweep (h : m.Shape) (now cutoff : ℚ) : (m.sweep now cutoff).Shape where
  bounded := (size_sweep_le _ _ _).trans h.bounded
  fits := by
    intro k w hw
    rw [rpm_sweep]
    exact h.fits k w (of_get?_sweep hw)

variable {k : String}

theorem Shape.set (h : m.Shape) {w : List ℚ}
    (hnew : m.windows.get? k = none → m.windows.size < maxClients) (hw : w = [] ∨ (w.length : ℤ) ≤ m.rpm) :
    Shape { m with windows := m.windows.set k w } where
  bounded := size_set_le w h.bounded hnew
  fits := by
    intro k' w' hw'
    by_cases hk : k = k'
    · subst hk
      rw [Dict.get?_set_self] at hw'
      exact Option.some.inj hw' ▸ hw
    · rw [Dict.get?_set_ne _ _ hk] at hw'
      exact h.fits k' w' hw'

theorem Shape.recent (h : m.Shape) (k : String) (now : ℚ) :
    Window.recent 60 (m.log k) now = [] ∨ ((Window.recent 60 (m.log k) now).length : ℤ) ≤ m.rpm := by
  have hle : (Window.recent 60 (m.log k) now).length ≤ (m.log k).length :=
    (List.dropWhile_sublist _).length_le
  cases hrow : m.windows.get? k with
  | none => exact .inl (by simp [log_of_none hrow, Window.recent])
  | some w =>
    rw [log_of_some hrow] at hle ⊢
    rcases h.fits k w hrow with rfl | hfits
    · exact .inl rfl
    · exact .inr (by omega)

theorem Shape.check (h : m.Shape) (k : String) (now : ℚ) :
    (m.checkRateLimit k now).2.Shape := by
  have hswept := h.sweep now (now - 60)
  rcases m.check_cases k now with ⟨-, -, hcheck⟩ | ⟨hnew, hcheck⟩
  · rw [hcheck]
    exact hswept
  · rw [hcheck]
    rcases (m.sweep now (now - 60)).admit_cases k (Window.recent 60 ((m.sweep now (now - 60)).log k) now) now with
      ⟨-, -, hleft⟩ | ⟨hroom, -, hleft⟩
    · rw [hleft]
      exact hswept.set hnew (hswept.recent k now)
    · rw [hleft]
      refine hswept.set hnew (.inr ?_)
      rw [List.length_append, List.length_singleton]
      push_cast
      omega

theorem shape_of_reach {s : Traffic} (h : Traffic.machine.Reach Machine.free s) : s.limiter.Shape := by
  refine h.invariant (I := fun s => s.limiter.Shape) ?_ ?_
  · rintro s ⟨rpm, hlimiter, -⟩
    rw [hlimiter]
    exact ⟨by simp [Dict.size, Dict.empty], nofun⟩
  · intro s r t hs hstep _
    obtain rfl := Option.some.inj hstep
    exact hs.check r.clientKey r.now

/-- When a client that is refused, and comes back after the seconds it was told, is let through.

With a full window: its oldest counted request is a whole number of seconds old; or (which
takes a clock that has gone back) the sweep that is due by then takes its window away. With
a full table: something can be admitted at all, and the sweep that is due by then, unless
the last one lies in the future, finds a client whose last request does not. -/
def Honest (m : RateLimitMiddleware) (clientKey : String) (now : ℚ) : Prop :=
  let swept := m.sweep now (now - 60)
  match swept.windows.get? clientKey with
  | none => 1 ≤ m.rpm ∧ m.lastSweep ≤ now ∧ ∃ k w, swept.windows.get? k = some w ∧ ∀ t ∈ w.getLast?, t ≤ now
  | some window =>
    ∀ oldest ∈ (Window.recent 60 window now).head?,
      (∃ n : ℤ, now - oldest = n) ∨
      swept.lastSweep ≤ now + ⌊60 - (now - oldest)⌋ - 60 ∧
        ∀ t ∈ window.getLast?, t ≤ now + ⌊60 - (now - oldest)⌋ - 60

theorem lastSweep_sweep_le_iff (m : RateLimitMiddleware) (now cutoff : ℚ) :
    (m.sweep now cutoff).lastSweep ≤ now ↔ m.lastSweep ≤ now := by
  unfold sweep sweepIntervalS
  split
  · rfl
  · have hle : m.lastSweep ≤ now := by linarith
    simp [hle]

/-- A full table. -/
theorem honest_table (h : m.Shape) {now : ℚ}
    (hnone : (m.sweep now (now - 60)).windows.get? k = none)
    (hfull : maxClients ≤ (m.sweep now (now - 60)).windows.size) :
    allowed ((m.sweep now (now - 60)).checkRateLimit k (now + 60)).1 = true ↔ m.Honest k now := by
  have hhonest : m.Honest k now ↔ 1 ≤ m.rpm ∧ m.lastSweep ≤ now ∧
      ∃ k' w, (m.sweep now (now - 60)).windows.get? k' = some w ∧ ∀ t ∈ w.getLast?, t ≤ now := by
    simp only [Honest, hnone]
  rw [hhonest, ← m.lastSweep_sweep_le_iff now (now - 60), ← m.rpm_sweep now (now - 60)]
  have hbound := (h.sweep now (now - 60)).bounded
  generalize m.sweep now (now - 60) = swept at *
  have hcutoff : now + 60 - 60 = now := by ring
  rcases swept.check_cases k (now + 60) with ⟨-, hstill, hcheck⟩ | ⟨hnew, hcheck⟩
  · rw [hcheck]
    refine iff_of_false Bool.false_ne_true ?_
    rintro ⟨-, hsweep, k', w, hw, hold⟩
    have hgone : (swept.sweep (now + 60) (now + 60 - 60)).windows.get? k' = none :=
      (get?_sweep_eq_none hw).mpr ⟨by linarith, by simpa [hcutoff] using hold⟩
    have hlt := size_sweep_lt hw hgone
    omega
  · have hgone : (swept.sweep (now + 60) (now + 60 - 60)).windows.get? k = none :=
      Option.eq_none_iff_forall_ne_some.mpr fun w hw => by cases hnone.symm.trans (of_get?_sweep hw)
    have hempty : ((Window.recent 60 ([] : List ℚ) (now + 60)).length : ℤ) = 0 := rfl
    have hroom := hnew hgone
    rw [hcheck, admit_allowed_iff, rpm_sweep, log_of_none hgone, hempty]
    refine ⟨fun hrpm => ⟨by omega, ?_⟩, fun hrpm => by omega⟩
    -- the sweep found somebody, for there is room now
    have hdue : ¬ now + 60 - swept.lastSweep < 60 := by
      intro hearly
      have hsame : swept.sweep (now + 60) (now + 60 - 60) = swept := if_pos hearly
      rw [hsame] at hroom
      omega
    refine ⟨by linarith, ?_⟩
    have hlt : (swept.windows.filter fun w => !(w.getLast?.all fun t => t ≤ now + 60 - 60)).size <
        swept.windows.size := by
      have hsize : (swept.sweep (now + 60) (now + 60 - 60)).windows.size =
          (swept.windows.filter fun w => !(w.getLast?.all fun t => t ≤ now + 60 - 60)).size := by
        simp [sweep, sweepIntervalS, hdue]
      omega
    obtain ⟨⟨k', w⟩, hmem, hold⟩ := List.length_filter_lt_length_iff_exists.mp hlt
    refine ⟨k', w, Dict.mem_entries.mp hmem, ?_⟩
    simpa [hcutoff, Option.all_eq_true] using hold

/-- A client whose window is full comes back: its oldest request no longer counts by then, or
its window has been swept away. -/
theorem return_iff (hsize : m.windows.size ≤ maxClients)
    {oldest later : ℚ} {rest : List ℚ} (hrow : m.windows.get? k = some (oldest :: rest))
    (hlength : ((oldest :: rest).length : ℤ) = m.rpm) :
    allowed (m.checkRateLimit k later).1 = true ↔
      60 ≤ later - oldest ∨ m.lastSweep ≤ later - 60 ∧ ∀ t ∈ (oldest :: rest).getLast?, t ≤ later - 60 := by
  rcases m.check_cases k later with ⟨hnone, hfull, -⟩ | ⟨-, hcheck⟩
  · have hlt := size_sweep_lt hrow hnone
    omega
  · rw [hcheck, admit_allowed_iff, rpm_sweep, ← hlength]
    cases hafter : (m.sweep later (later - 60)).windows.get? k with
    | none =>
      rw [log_of_none hafter]
      exact iff_of_true (by simp [Window.recent]) (.inr ((get?_sweep_eq_none hrow).mp hafter))
    | some window =>
      obtain rfl := Option.some.inj ((of_get?_sweep hafter).symm.trans hrow)
      rw [log_of_some hafter]
      unfold Window.recent
      by_cases hpast : 60 ≤ later - oldest
      · have hle : (rest.dropWhile fun t => decide (60 ≤ later - t)).length ≤ rest.length :=
          (List.dropWhile_sublist _).length_le
        rw [List.dropWhile_cons_of_pos (by simpa using hpast), List.length_cons]
        exact iff_of_true (by omega) (.inl hpast)
      · rw [List.dropWhile_cons_of_neg (by simpa using hpast)]
        refine iff_of_false (lt_irrefl _) ?_
        rintro (hpast' | hdue)
        · exact hpast hpast'
        · exact nomatch hafter.symm.trans ((get?_sweep_eq_none hrow).mpr hdue)

/-- The time left is cut to whole seconds, so it is over after them when it is whole. -/
theorem whole_iff (now oldest : ℚ) :
    60 ≤ now + ⌊60 - (now - oldest)⌋ - oldest ↔ ∃ n : ℤ, now - oldest = n := by
  have hle := Int.floor_le (60 - (now - oldest))
  constructor
  · intro h
    exact ⟨60 - ⌊60 - (now - oldest)⌋, by push_cast; linarith⟩
  · rintro ⟨n, hn⟩
    have hexact : ⌊60 - (now - oldest)⌋ = 60 - n := by
      rw [hn]
      exact_mod_cast Int.floor_intCast (60 - n)
    rw [hexact]
    push_cast
    linarith

/-- A full window. -/
theorem honest_window (h : m.Shape) {now oldest : ℚ} {window rest : List ℚ}
    (hrow : (m.sweep now (now - 60)).windows.get? k = some window)
    (hrecent : Window.recent 60 window now = oldest :: rest)
    (hfull : m.rpm ≤ (oldest :: rest).length) :
    allowed (checkRateLimit { m.sweep now (now - 60) with
        windows := (m.sweep now (now - 60)).windows.set k (oldest :: rest) }
      k (now + ⌊60 - (now - oldest)⌋)).1 = true ↔ m.Honest k now := by
  have hhonest : m.Honest k now ↔ (∃ n : ℤ, now - oldest = n) ∨
      (m.sweep now (now - 60)).lastSweep ≤ now + ⌊60 - (now - oldest)⌋ - 60 ∧
        ∀ t ∈ window.getLast?, t ≤ now + ⌊60 - (now - oldest)⌋ - 60 := by
    simp [Honest, hrow, hrecent]
  have hlength : ((oldest :: rest).length : ℤ) = m.rpm := by
    have hshape := (h.sweep now (now - 60)).recent k now
    have hfits : ((oldest :: rest).length : ℤ) ≤ m.rpm := by
      rw [rpm_sweep] at hshape
      simpa [log, hrow, hrecent] using hshape
    omega
  -- trimming leaves the end of the window as it was
  have hlast : (oldest :: rest).getLast? = window.getLast? := by
    obtain ⟨old, hold⟩ : oldest :: rest <:+ window := hrecent ▸ List.dropWhile_suffix _
    rw [← hold, List.getLast?_append]
    simp [List.getLast?_cons]
  rw [hhonest, ← hlast, ← whole_iff]
  refine return_iff ?_ (Dict.get?_set_self _ _ _) (hlength.trans (m.rpm_sweep now (now - 60)).symm)
  exact (Dict.size_set_of_some _ hrow).le.trans (h.sweep now (now - 60)).bounded

theorem young_of_recent {window rest : List ℚ} {oldest now : ℚ} (h : Window.recent 60 window now = oldest :: rest) :
    now - oldest < 60 := by
  have hhead : (Window.recent 60 window now).head? = some oldest := by rw [h]; rfl
  have hyoung := List.head?_dropWhile_not (fun t => decide (60 ≤ now - t)) window
  unfold Window.recent at hhead
  rw [hhead] at hyoung
  simpa using hyoung

theorem dispatch_snd (m : RateLimitMiddleware) (k : String) (now : ℚ) :
    (m.dispatch k now).2 = (m.checkRateLimit k now).2 := by
  unfold dispatch
  rcases m.checkRateLimit k now with ⟨_ | ⟨_ | _, q⟩, m'⟩ <;> rfl

/-- **What a `Retry-After` is worth.** After any requests, a client that is refused and comes
back after exactly the seconds it was told, nobody having come in between, is let through
if and only if the refusal was an honest one. -/
theorem retry_after_honest {s : Traffic} (h : Traffic.machine.Reach Machine.free s) {k : String} {now retryAfter : ℚ}
    (hrefused : (s.limiter.checkRateLimit k now).1 = .ok (false, retryAfter)) :
    (s.limiter.dispatch k now).1 = .refused (refusal retryAfter) ∧
    (((s.limiter.dispatch k now).2.dispatch k (now + truncate retryAfter)).1 = .passed ↔
      s.limiter.Honest k now) := by
  have hshape := shape_of_reach h
  constructor
  · unfold dispatch
    rcases hcheck : s.limiter.checkRateLimit k now with ⟨answer, m⟩
    rw [hcheck] at hrefused
    obtain rfl : answer = .ok (false, retryAfter) := hrefused
    rfl
  · rw [passed_iff, dispatch_snd]
    rcases s.limiter.check_cases k now with ⟨hnone, hfull, hcheck⟩ | ⟨-, hcheck⟩
    · rw [hcheck] at hrefused ⊢
      obtain rfl : retryAfter = 60 := (Prod.ext_iff.mp (Except.ok.inj hrefused)).2.symm
      have hsixty : ((truncate (60 : ℚ) : ℤ) : ℚ) = 60 := by
        rw [truncate_of_nonneg (by norm_num)]
        norm_num
      rw [hsixty]
      exact honest_table hshape hnone hfull
    · rw [hcheck] at hrefused ⊢
      unfold admitClient at hrefused ⊢
      split at hrefused
      · rename_i hfull
        rw [if_pos hfull]
        cases hrecent : Window.recent 60 ((s.limiter.sweep now (now - 60)).log k) now with
        | nil =>
          rw [hrecent] at hrefused
          cases hrefused
        | cons oldest rest =>
          rw [hrecent] at hrefused hfull
          have hyoung := young_of_recent hrecent
          have hleft : max (60 - (now - oldest)) 0 = 60 - (now - oldest) := max_eq_left (by linarith)
          obtain rfl : retryAfter = 60 - (now - oldest) := by
            rw [← hleft]
            exact (Prod.ext_iff.mp (Except.ok.inj hrefused)).2.symm
          rw [truncate_of_nonneg (by linarith)]
          cases hrow : (s.limiter.sweep now (now - 60)).windows.get? k with
          | none =>
            rw [log_of_none hrow] at hrecent
            cases hrecent
          | some window =>
            rw [log_of_some hrow] at hrecent
            rw [rpm_sweep] at hfull
            exact honest_window hshape hrow hrecent hfull
      · cases hrefused

end RateLimitMiddleware

/-! ## One request a minute -/

namespace Traffic

/-- A limit of one request a minute, before the first request. -/
def quiet : Traffic where
  limiter := { rpm := 1 }
  now := 0
  admitted := []

/-- The first request of a client. -/
theorem first_request : ∃ s, machine.Reach forward s ∧ s.now = 0 ∧ s.limiter.rpm = 1 ∧
    s.limiter.windows.contains "a" = true ∧ (s.limiter.dispatch "a" 1).1 ≠ .passed ∧
    (s.limiter.checkRateLimit "a" 1).1 = .ok (false, 59) ∧
    (s.limiter.checkRateLimit "a" (1 / 2)).1 = .ok (false, 119 / 2) ∧
    ((s.limiter.dispatch "a" (1 / 2)).2.dispatch "a" (1 / 2 + 59)).1 ≠ .passed := by
  have hrun : (Machine.exec (fun s r => if forward s r then step s r else none) quiet [⟨"a", 0⟩]).any
      (fun s => decide (s.now = 0 ∧ s.limiter.rpm = 1 ∧
        s.limiter.windows.contains "a" = true ∧ (s.limiter.dispatch "a" 1).1 ≠ .passed ∧
        (s.limiter.checkRateLimit "a" 1).1 = .ok (false, 59) ∧
        (s.limiter.checkRateLimit "a" (1 / 2)).1 = .ok (false, 119 / 2) ∧
        ((s.limiter.dispatch "a" (1 / 2)).2.dispatch "a" (1 / 2 + 59)).1 ≠ .passed)) = true := by
    decide +kernel
  obtain ⟨s, hexec, hs⟩ := Machine.exists_of_any hrun
  have hstart : machine.Reach forward quiet := .start ⟨1, rfl, rfl⟩
  exact ⟨s, Machine.exec_reach_guarded hstart hexec, of_decide_eq_true hs⟩

theorem limits_kept_once : ∃ s, machine.Reach forward s ∧ s.limiter.windows.size ≤ maxClients ∧
    (s.admitted.countP fun a => decide (a.1 = "a") && decide (0 ≤ a.2 ∧ a.2 < 0 + 60) : ℤ) ≤ 1 ∧
    ¬ (s.admitted.countP fun a => decide (a.1 = "a") && decide (1 - a.2 < 60) : ℤ) < 1 := by
  obtain ⟨s, hreach, hnow, hrpm, htracked, hrefused, -⟩ := first_request
  obtain ⟨hsize, hsparse, hdecided⟩ := limits_kept hreach hrpm.ge
  rw [hrpm] at hsparse hdecided
  have hle : s.now ≤ 1 := by
    rw [hnow]
    norm_num
  exact ⟨s, hreach, hsize, hsparse "a" 0, (hdecided "a" 1 hle htracked).not.mp hrefused⟩

/-- A whole second later the client is told 59 seconds. -/
theorem retry_after_honest_whole : ∃ s, machine.Reach Machine.free s ∧
    (s.limiter.dispatch "a" 1).1 = .refused (RateLimitMiddleware.refusal 59) ∧
    (((s.limiter.dispatch "a" 1).2.dispatch "a" (1 + truncate (59 : ℚ))).1 = .passed ↔
      s.limiter.Honest "a" 1) := by
  obtain ⟨s, hreach, -, -, -, -, hwhole, -⟩ := first_request
  have hfree : machine.Reach Machine.free s := hreach.mono fun _ _ _ => trivial
  exact ⟨s, hfree, RateLimitMiddleware.retry_after_honest hfree hwhole⟩

/-- Half a second later the client is told 59 seconds too, and comes back too early. -/
theorem told_too_early : ∃ s, machine.Reach forward s ∧ s.now ≤ 1 / 2 ∧
    (s.limiter.checkRateLimit "a" (1 / 2)).1 = .ok (false, 119 / 2) ∧
    ((s.limiter.dispatch "a" (1 / 2)).2.dispatch "a" (1 / 2 + truncate (119 / 2 : ℚ))).1 ≠ .passed := by
  obtain ⟨s, hreach, hnow, -, -, -, -, hhalf, hearly⟩ := first_request
  have hle : s.now ≤ 1 / 2 := by
    rw [hnow]
    norm_num
  have htold : truncate (119 / 2 : ℚ) = 59 := by decide +kernel
  rw [htold]
  exact ⟨s, hreach, hle, hhalf, hearly⟩

end Traffic

end Caips.Api
