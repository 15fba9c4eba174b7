/-
Caips.Coreai.CacheTheorems — `MemoryCache` is a bounded map of leases that
gives up the least recently used one.

A run of the cache is told as a history of leases: what was put, what lookups
found, what was deleted, and for every `set` which keys its eviction loop
popped. Expired entries that are purged, and lookups that find nothing, are no
part of it: whether a lease still runs is a matter of the clock. `follows` is
the simulation: after every run the entries of the store follow the history.
What the class is for then holds of the history (`memoryCache_refines`).
-/
import Caips.Coreai.Cache
import Caips.Logic.Leases
import Caips.Logic.Machine
import Mathlib.Algebra.Order.Field.Rat
import Mathlib.Tactic.Linarith

namespace Caips.Coreai

open Caips.Logic LeaseEvent

variable {κ ν : Type} [DecidableEq κ]

/-! ## Runs of a cache -/

/-- A cache, the last clock reading, and the history of its leases. -/
structure CacheRun (κ ν : Type) where
  cache : MemoryCache κ ν
  now : ℚ
  history : List (LeaseEvent κ ν ℚ)

/-- The calls, with the clock readings they take. -/
inductive CacheOp (κ ν : Type) where
  | get (k : κ) (now : ℚ)
  | set (k : κ) (v : ν) (ttlSeconds : ℤ) (now later : ℚ)
  | delete (k : κ)
  | clear

namespace CacheRun

/-- One call. `none` when the clock would go back. -/
def step (s : CacheRun κ ν) : CacheOp κ ν → Option (CacheRun κ ν)
  | .get k now =>
    if s.now ≤ now then
      let r := s.cache.get k now
      some { cache := r.2, now := now
             history := if r.1.isSome then .hit k :: s.history else s.history }
    else none
  | .set k v ttlSeconds now later =>
    if s.now ≤ now ∧ now ≤ later then
      match s.cache.set k v ttlSeconds now later with
      | .error _ => some s
      | .ok cache =>
        let out := (s.cache.stored k v ttlSeconds.toNat now later).overflow
        let e := if ttlSeconds = 0 then .remove k else .put k v (MemoryCache.expiry now ttlSeconds.toNat) out
        some { cache := cache, now := later, history := e :: s.history }
    else none
  | .delete k => some { s with cache := s.cache.delete k, history := .remove k :: s.history }
  | .clear => some { s with cache := s.cache.clear, history := .clear :: s.history }

/-- The runs of a cache constructed with this size limit. -/
def machine (maxEntries : ℤ) : Machine (CacheRun κ ν) (CacheOp κ ν) :=
  .ofFun (fun s => MemoryCache.init maxEntries = .ok s.cache ∧ s.history = []) step

end CacheRun

namespace MemoryCache

/-! ## What a call does to the entries -/

theorem entries_touch (c : MemoryCache κ ν) (k : κ) (v : ν × ℚ) :
    (c.touch k v).store.entries = (c.store.entries.filter fun e => decide (e.1 ≠ k)) ++ [(k, v)] :=
  c.store.entries_setLast k v

theorem entries_purgeExpired (c : MemoryCache κ ν) (now : ℚ) :
    (c.purgeExpired now).store.entries = c.store.entries.filter fun e => !decide (e.2.2 ≤ now) :=
  c.store.entries_pop_filter _

theorem entries_evict (c : MemoryCache κ ν) :
    c.evict.store.entries = c.store.entries.drop (c.store.entries.length - c.maxEntries) := by
  have := c.store.entries_pop_take (c.store.keys.length - c.maxEntries)
  simpa [evict, overflow, Dict.keys] using this

omit [DecidableEq κ] in
theorem overflow_eq (c : MemoryCache κ ν) :
    c.overflow = (c.store.entries.take (c.store.entries.length - c.maxEntries)).map Prod.fst := by
  simp [overflow, Dict.keys, List.map_take]

@[simp] theorem maxEntries_stored (c : MemoryCache κ ν) (k : κ) (v : ν) (ttl : Nat) (now later : ℚ) :
    (c.stored k v ttl now later).maxEntries = c.maxEntries := by
  unfold stored
  dsimp only
  split <;> rfl

theorem set_natCast (c : MemoryCache κ ν) (k : κ) (v : ν) (ttl : ℕ) (now later : ℚ) :
    c.set k v ttl now later =
      if ttlLimit ≤ ttl then .error "int too large to convert to float" else .ok (c.write k v ttl now later) := by
  have hnonneg : ¬ ((ttl : ℕ) : ℤ) < 0 := by omega
  simp only [set, validateTtl, if_neg hnonneg, Int.toNat_natCast]
  split <;> rfl

theorem set_error (c : MemoryCache κ ν) (k : κ) (v : ν) {ttlSeconds : ℤ} (now later : ℚ) (h : ttlSeconds < 0) :
    ∃ e, c.set k v ttlSeconds now later = .error e := by
  simp only [set, validateTtl, if_pos h]
  exact ⟨_, rfl⟩

/-- A lookup finds what is stored and has not run out, and moves it to the end. -/
theorem get_cases (c : MemoryCache κ ν) (k : κ) (now : ℚ) :
    (∃ v expiry, (k, v, expiry) ∈ c.store.entries ∧ now < expiry ∧
      c.get k now = (some v, c.touch k (v, expiry))) ∨
    (∃ v expiry, (k, v, expiry) ∈ c.store.entries ∧ expiry ≤ now ∧
      c.get k now = (none, { c with store := c.store.pop k })) ∨
    ((∀ e ∈ c.store.entries, e.1 ≠ k) ∧ c.get k now = (none, c)) := by
  unfold get
  cases hk : c.store.get? k with
  | none =>
    refine .inr (.inr ⟨?_, rfl⟩)
    rintro ⟨k', e⟩ he rfl
    rw [Dict.mem_entries.mp he] at hk
    cases hk
  | some e =>
    obtain ⟨v, expiry⟩ := e
    by_cases hle : expiry ≤ now
    · exact .inr (.inl ⟨v, expiry, Dict.mem_entries.mpr hk, hle, if_pos hle⟩)
    · exact .inl ⟨v, expiry, Dict.mem_entries.mpr hk, not_le.mp hle, if_neg hle⟩

/-! ## One call follows the history -/

section Calls

variable {c : MemoryCache κ ν} {h : List (LeaseEvent κ ν ℚ)} {now₀ now later : ℚ}

/-- The cache holds the running leases of the history, and no more entries than
it may. -/
structure FollowsHistory (c : MemoryCache κ ν) (h : List (LeaseEvent κ ν ℚ)) (now : ℚ) : Prop where
  follows : Follows h now c.store.entries
  size_le : c.store.size ≤ c.maxEntries

theorem FollowsHistory.of_le (hc : c.FollowsHistory h now) (hnow : now ≤ later) :
    c.FollowsHistory h later := ⟨hc.follows.later hnow, hc.size_le⟩

theorem followsHistory_get (hc : c.FollowsHistory h now) (k : κ) :
    (c.get k now).2.FollowsHistory (if (c.get k now).1.isSome then .hit k :: h else h) now := by
  rcases c.get_cases k now with ⟨v, expiry, hmem, -, hget⟩ | ⟨v, expiry, hmem, hle, hget⟩ | ⟨-, hget⟩
  · rw [hget]
    have hfollows := hc.follows.hit hmem
    rw [← entries_touch] at hfollows
    refine ⟨by simpa using hfollows, ?_⟩
    have hsize := hc.size_le
    have hset := (c.store.pop k).size_set_le k (v, expiry)
    have hpop : (c.store.pop k).size < c.store.size :=
      List.length_filter_lt_length_iff_exists.mpr ⟨_, hmem, by simp⟩
    show ((c.store.pop k).set k (v, expiry)).size ≤ c.maxEntries
    omega
  · rw [hget]
    have hkeep := hc.follows.keep (fun e => decide (e.1 ≠ k)) fun e he hk => by
      have hek : e.1 = k := by simpa using hk
      have hsame := List.inj_on_of_nodup_map c.store.nodup hmem he hek.symm
      rwa [← hsame]
    exact ⟨hkeep, le_trans (c.store.size_pop_le k) hc.size_le⟩
  · rw [hget]
    exact ⟨by simpa using hc.follows, hc.size_le⟩

theorem followsHistory_delete (hc : c.FollowsHistory h now) (k : κ) :
    (c.delete k).FollowsHistory (.remove k :: h) now :=
  ⟨hc.follows.remove k, le_trans (c.store.size_pop_le k) hc.size_le⟩

theorem followsHistory_clear (c : MemoryCache κ ν) (h : List (LeaseEvent κ ν ℚ)) (now : ℚ) :
    c.clear.FollowsHistory (.clear :: h) now :=
  ⟨Follows.clear h now, Nat.zero_le _⟩

/-- Before the eviction loop a store that is too large has one entry too many,
and all its leases run. -/
theorem stored_spec (hc : c.FollowsHistory h now₀) (hnow : now₀ ≤ now) (hlater : now ≤ later)
    (k : κ) (v : ν) (ttl : Nat) :
    Follows (.put k v (expiry now ttl) [] :: h) later (c.stored k v ttl now later).store.entries ∧
    ((c.stored k v ttl now later).store.entries.length ≤ c.maxEntries ∨
      (c.stored k v ttl now later).store.entries.length = c.maxEntries + 1 ∧
        ∀ e ∈ (c.stored k v ttl now later).store.entries, later < e.2.2) := by
  have hput := (hc.follows.later hnow).put k v (expiry now ttl)
  rw [← entries_touch] at hput
  replace hput := hput.later hlater
  have hsize : (c.touch k (v, expiry now ttl)).store.entries.length ≤ c.maxEntries + 1 := by
    have hset := (c.store.pop k).size_set_le k (v, expiry now ttl)
    have hpop := c.store.size_pop_le k
    have hle := hc.size_le
    show ((c.store.pop k).set k (v, expiry now ttl)).size ≤ _
    omega
  unfold stored
  by_cases hfull : c.maxEntries < (c.touch k (v, expiry now ttl)).store.keys.length
  · have hpurged : ∀ e ∈ ((c.touch k (v, expiry now ttl)).purgeExpired later).store.entries,
        later < e.2.2 := by
      intro e he
      rw [entries_purgeExpired] at he
      simpa using (List.mem_filter.mp he).2
    have hkeep := hput.keep (fun e => !decide (e.2.2 ≤ later)) fun e _ hexp => by simpa using hexp
    rw [← entries_purgeExpired] at hkeep
    dsimp only
    rw [if_pos (show (c.touch k (v, expiry now ttl)).maxEntries < _ from hfull)]
    refine ⟨hkeep, ?_⟩
    have hle : ((c.touch k (v, expiry now ttl)).purgeExpired later).store.entries.length ≤
        c.maxEntries + 1 := by
      rw [entries_purgeExpired]
      exact le_trans (List.length_filter_le _ _) hsize
    rcases Nat.lt_or_ge c.maxEntries
        ((c.touch k (v, expiry now ttl)).purgeExpired later).store.entries.length with hlt | hge
    · exact .inr ⟨by omega, hpurged⟩
    · exact .inl hge
  · dsimp only
    rw [if_neg (show ¬ (c.touch k (v, expiry now ttl)).maxEntries < _ from hfull)]
    refine ⟨hput, .inl ?_⟩
    simpa [Dict.keys] using hfull

theorem followsHistory_write (hc : c.FollowsHistory h now₀) (hnow : now₀ ≤ now) (hlater : now ≤ later)
    (k : κ) (v : ν) {ttl : Nat} (httl : ttl ≠ 0) :
    (c.write k v ttl now later).FollowsHistory
      (.put k v (expiry now ttl) (c.stored k v ttl now later).overflow :: h) later := by
  obtain ⟨hfollows, hlen⟩ := stored_spec hc hnow hlater k v ttl
  have hmax := c.maxEntries_stored k v ttl now later
  rw [write, if_neg httl]
  rw [← List.take_append_drop
    ((c.stored k v ttl now later).store.entries.length - (c.stored k v ttl now later).maxEntries)
    (c.stored k v ttl now later).store.entries] at hfollows
  refine ⟨?_, ?_⟩
  · rw [entries_evict, overflow_eq]
    exact hfollows.evict
  · show (c.stored k v ttl now later).evict.store.entries.length ≤ (c.stored k v ttl now later).maxEntries
    rw [entries_evict, List.length_drop, hmax]
    omega

/-- Which keys `set` pops: none while no more leases run than the cache has room
for, else the one whose last use is longest ago. -/
theorem overflow_spec (hc : c.FollowsHistory h now₀) (hnow : now₀ ≤ now) (hlater : now ≤ later)
    (k : κ) (v : ν) (ttl : Nat) :
    if Set.ncard {k' | Unexpired (.put k v (expiry now ttl) [] :: h) later k'} ≤ c.maxEntries then
      (c.stored k v ttl now later).overflow = []
    else
      ∃ k₀, (c.stored k v ttl now later).overflow = [k₀] ∧
        Unexpired (.put k v (expiry now ttl) [] :: h) later k₀ ∧
        ∀ k', Unexpired (.put k v (expiry now ttl) [] :: h) later k' → k' ≠ k₀ →
          lastUse k₀ (.put k v (expiry now ttl) [] :: h) < lastUse k' (.put k v (expiry now ttl) [] :: h) := by
  obtain ⟨hfollows, hlen⟩ := stored_spec hc hnow hlater k v ttl
  rw [overflow_eq, maxEntries_stored]
  generalize (c.stored k v ttl now later).store.entries = l at hfollows hlen
  rcases hlen with hle | ⟨hlen, hlive⟩
  · rw [if_pos (le_trans hfollows.ncard_le hle), Nat.sub_eq_zero_of_le hle]
    rfl
  · rw [if_neg (by rw [hfollows.ncard hlive]; omega), hlen, Nat.add_sub_cancel_left]
    cases l with
    | nil => simp at hlen
    | cons e l =>
      have hall := hfollows.unexpired_eq hlive
      refine ⟨e.1, rfl, ?_, ?_⟩
      · have he : e.1 ∈ {k' | Unexpired (.put k v (expiry now ttl) [] :: h) later k'} := by
          rw [hall]
          simp
        exact he
      · intro k' hk' hne
        have hmem : k' ∈ {k' | k' ∈ (e :: l).map Prod.fst} := hall ▸ hk'
        obtain ⟨e', he', rfl⟩ := List.mem_map.mp hmem
        rcases List.mem_cons.mp he' with rfl | he'
        · exact absurd rfl hne
        · exact (List.pairwise_cons.mp hfollows.sorted).1 e' he'

end Calls

/-- `get` returns what is stored and has not run out. -/
theorem get_eq_some_iff (c : MemoryCache κ ν) (k : κ) (now : ℚ) (v : ν) :
    (c.get k now).1 = some v ↔ ∃ expiry, (k, v, expiry) ∈ c.store.entries ∧ now < expiry := by
  have hsame : ∀ {e e' : ν × ℚ}, (k, e) ∈ c.store.entries → (k, e') ∈ c.store.entries → e = e' :=
    fun he he' => by
      have heq := List.inj_on_of_nodup_map c.store.nodup he he' rfl
      exact (Prod.mk.inj heq).2
  rcases c.get_cases k now with ⟨w, expiry, hmem, hlt, hget⟩ | ⟨w, expiry, hmem, hle, hget⟩ | ⟨hnone, hget⟩
  · rw [hget, Option.some.injEq]
    constructor
    · intro hw
      subst hw
      exact ⟨expiry, hmem, hlt⟩
    · intro hv
      obtain ⟨expiry', hmem', -⟩ := hv
      exact (Prod.mk.inj (hsame hmem hmem')).1
  · rw [hget]
    refine ⟨nofun, ?_⟩
    intro hv
    obtain ⟨expiry', hmem', hlt⟩ := hv
    have heq := (Prod.mk.inj (hsame hmem hmem')).2
    exact absurd (heq ▸ hle) (not_le.mpr hlt)
  · rw [hget]
    refine ⟨nofun, ?_⟩
    intro hv
    obtain ⟨expiry, hmem, -⟩ := hv
    exact absurd rfl (hnone _ hmem)

end MemoryCache

namespace CacheRun

/-! ## Every run -/

/-- What every run keeps. -/
structure Inv (maxEntries : ℤ) (s : CacheRun κ ν) : Prop where
  max_eq : (s.cache.maxEntries : ℤ) = maxEntries
  follows : s.cache.FollowsHistory s.history s.now

variable {maxEntries : ℤ}

theorem inv_start {s : CacheRun κ ν} (h : (machine maxEntries).start s) :
    s.Inv maxEntries := by
  obtain ⟨hinit, hhist⟩ := h
  unfold MemoryCache.init at hinit
  split at hinit
  · cases hinit
  · have hcache := Except.ok.inj hinit
    refine ⟨?_, ?_⟩
    · rw [← hcache]
      show ((maxEntries.toNat : ℕ) : ℤ) = maxEntries
      omega
    · rw [hhist, ← hcache]
      exact ⟨follows_nil, Nat.zero_le _⟩

theorem inv_step {s t : CacheRun κ ν} {o : CacheOp κ ν} (hs : s.Inv maxEntries)
    (h : s.step o = some t) : t.Inv maxEntries := by
  cases o with
  | get k now =>
    simp only [step, Option.ite_none_right_eq_some, Option.some.injEq] at h
    obtain ⟨hnow, rfl⟩ := h
    have hmax : (s.cache.get k now).2.maxEntries = s.cache.maxEntries := by
      unfold MemoryCache.get
      split
      · rfl
      · split <;> rfl
    refine ⟨?_, MemoryCache.followsHistory_get (hs.follows.of_le hnow) k⟩
    rw [hmax]
    exact hs.max_eq
  | set k v ttlSeconds now later =>
    simp only [step, Option.ite_none_right_eq_some] at h
    obtain ⟨⟨hnow, hlater⟩, h⟩ := h
    by_cases hneg : ttlSeconds < 0
    · obtain ⟨e, he⟩ := s.cache.set_error k v now later hneg
      rw [he] at h
      obtain rfl := Option.some.inj h
      exact hs
    · obtain ⟨ttl, rfl⟩ := Int.eq_ofNat_of_zero_le (not_lt.mp hneg)
      rw [MemoryCache.set_natCast] at h
      by_cases hlimit : MemoryCache.ttlLimit ≤ ttl
      · rw [if_pos hlimit] at h
        obtain rfl := Option.some.inj h
        exact hs
      · rw [if_neg hlimit] at h
        obtain rfl := Option.some.inj h
        by_cases hzero : ttl = 0
        · subst hzero
          refine ⟨hs.max_eq, ?_⟩
          exact (MemoryCache.followsHistory_delete hs.follows k).of_le (le_trans hnow hlater)
        · have hmax : (s.cache.write k v ttl now later).maxEntries = s.cache.maxEntries := by
            rw [MemoryCache.write, if_neg hzero]
            exact s.cache.maxEntries_stored k v _ now later
          have hwrite := MemoryCache.followsHistory_write hs.follows hnow hlater k v hzero
          refine ⟨?_, ?_⟩
          · show ((s.cache.write k v ttl now later).maxEntries : ℤ) = maxEntries
            rw [hmax]
            exact hs.max_eq
          · show (s.cache.write k v ttl now later).FollowsHistory _ later
            rw [if_neg (by exact_mod_cast hzero), Int.toNat_natCast]
            exact hwrite
  | delete k =>
    obtain rfl := Option.some.inj h
    exact ⟨hs.max_eq, MemoryCache.followsHistory_delete hs.follows k⟩
  | clear =>
    obtain rfl := Option.some.inj h
    exact ⟨hs.max_eq, MemoryCache.followsHistory_clear _ _ _⟩

theorem inv_reach {s : CacheRun κ ν}
    (h : (machine maxEntries).Reach Machine.free s) : s.Inv maxEntries :=
  h.invariant (fun _ => inv_start) fun _ _ _ hs hstep _ => inv_step hs hstep

/-- After every run of a cache: it has at most `max_entries` entries; `get`
returns what the key was last put with, if the clock is before the expiry of that
and it has been neither deleted nor pushed out since, and nothing otherwise; and the
next `set` leaves everything as it was where its ttl is too large for a float, and
else puts its value until the double nearest to the clock plus the ttl, and pushes a
key out only if it would leave more than `max_entries` unexpired leases, and then the
one whose last use is longest ago. -/
theorem memoryCache_refines {maxEntries : ℤ} {s : CacheRun κ ν}
    (h : (machine maxEntries).Reach Machine.free s) :
    (s.cache.store.size : ℤ) ≤ maxEntries ∧
    (∀ (k : κ) (now : ℚ) (v : ν), s.now ≤ now →
      ((s.cache.get k now).1 = some v ↔
        ∃ ls, Kept s.history k ls ∧ ls.value = v ∧ now < ls.expiry)) ∧
    ∀ (k : κ) (v : ν) (ttl : ℕ) (now later : ℚ) (t : CacheRun κ ν), 0 < ttl →
      s.step (.set k v ttl now later) = some t →
      let before := .put k v (nearestDouble (now + nearestDouble ttl)) [] :: s.history
      if MemoryCache.ttlLimit ≤ ttl then t = s
      else ∃ out, t.history = .put k v (nearestDouble (now + nearestDouble ttl)) out :: s.history ∧
        if (Set.ncard {k' | Unexpired before later k'} : ℤ) ≤ maxEntries then out = []
        else ∃ k₀, out = [k₀] ∧ Unexpired before later k₀ ∧
          ∀ k', Unexpired before later k' → k' ≠ k₀ → lastUse k₀ before < lastUse k' before := by
  have hinv := inv_reach h
  have hmax := hinv.max_eq
  refine ⟨?_, ?_, ?_⟩
  · have hsize := hinv.follows.size_le
    omega
  · intro k now v hnow
    rw [MemoryCache.get_eq_some_iff]
    exact (hinv.follows.of_le hnow).follows.find
  · intro k v ttl now later t httl ht
    simp only [step, Option.ite_none_right_eq_some] at ht
    obtain ⟨⟨hnow, hlater⟩, ht⟩ := ht
    have hpos : (ttl : ℤ) ≠ 0 := by omega
    rw [MemoryCache.set_natCast] at ht
    dsimp only
    by_cases hlimit : MemoryCache.ttlLimit ≤ ttl
    · rw [if_pos hlimit] at ht ⊢
      exact (Option.some.inj ht).symm
    · rw [if_neg hlimit] at ht ⊢
      simp only [hpos, if_false, Int.toNat_natCast, Option.some.injEq] at ht
      refine ⟨(s.cache.stored k v ttl now later).overflow, by rw [← ht]; rfl, ?_⟩
      have hspec := MemoryCache.overflow_spec hinv.follows hnow hlater k v ttl
      rw [← hmax]
      simp only [Nat.cast_le]
      exact hspec

/-- Two entries fit, the first is used again, and a third comes. -/
theorem memoryCache_refines_third : ∃ s : CacheRun String Nat,
    (machine 2).Reach Machine.free s ∧ s.cache.store.size ≤ 2 ∧
      ((s.cache.get "b" 4).1 = some 2 ↔
        ∃ ls, Kept s.history "b" ls ∧ ls.value = 2 ∧ 4 < ls.expiry) ∧
      (s.cache.get "a" 4).1 = some 1 ∧ (s.cache.get "b" 4).1 = none := by
  have hrun : (Machine.exec step (⟨{ maxEntries := 2 }, 0, []⟩ : CacheRun String Nat)
      [.set "a" 1 10 0 0, .set "b" 2 10 1 1, .get "a" 2, .set "c" 3 10 3 3]).any
      (fun s => decide (s.now = 3 ∧ (s.cache.get "a" 4).1 = some 1 ∧
        (s.cache.get "b" 4).1 = none)) = true := by
    decide +kernel
  obtain ⟨s, hexec, hs⟩ := Machine.exists_of_any hrun
  obtain ⟨hnow, ha, hb⟩ := of_decide_eq_true hs
  have hstart : (machine 2).Reach Machine.free
      (⟨{ maxEntries := 2 }, 0, []⟩ : CacheRun String Nat) := .start ⟨rfl, rfl⟩
  have hreach : (machine 2).Reach Machine.free s := Machine.exec_reach hstart hexec
  obtain ⟨hsize, hget, -⟩ := memoryCache_refines hreach
  have hle : s.now ≤ 4 := by linarith
  exact ⟨s, hreach, by exact_mod_cast hsize, hget "b" 4 2 hle, ha, hb⟩

/-- A value put for one second at 0.2 is gone at 1.2, the double nearest to the sum, although the double
1.2 is less than a second after the double 0.2. -/
theorem gone_early : ∃ s : CacheRun String Nat, (machine 1).Reach Machine.free s ∧
    Machine.exec step ⟨{ maxEntries := 1 }, 0, []⟩
      [.set "a" 1 1 (3602879701896397 / 2 ^ 54) (3602879701896397 / 2 ^ 54)] = some s ∧
    IsDouble (3602879701896397 / 2 ^ 54) ∧ IsDouble (5404319552844595 / 2 ^ 52) ∧
    (s.cache.get "a" (5404319552844595 / 2 ^ 52)).1 = none ∧
    (5404319552844595 / 2 ^ 52 : ℚ) - 3602879701896397 / 2 ^ 54 < 1 := by
  have hrun : (Machine.exec step (⟨{ maxEntries := 1 }, 0, []⟩ : CacheRun String Nat)
      [.set "a" 1 1 (3602879701896397 / 2 ^ 54) (3602879701896397 / 2 ^ 54)]).any
      (fun s => decide ((s.cache.get "a" (5404319552844595 / 2 ^ 52)).1 = none)) = true := by
    decide +kernel
  obtain ⟨s, hexec, hs⟩ := Machine.exists_of_any hrun
  have hstart : (machine 1).Reach Machine.free (⟨{ maxEntries := 1 }, 0, []⟩ : CacheRun String Nat) :=
    .start ⟨rfl, rfl⟩
  refine ⟨s, Machine.exec_reach hstart hexec, hexec, ?_, ?_, of_decide_eq_true hs, ?_⟩
  · decide +kernel
  · decide +kernel
  · norm_num

end CacheRun

end Caips.Coreai
