/-
Caips.Logic.Bucket — what a token bucket promises when those who draw on it
are charged at once, wait until the level has recovered, and may give their
charge back while they wait.

A `Bucket` keeps every charge with the level it found. A charge is COVERED
at the moment the refill alone would have paid for it (`dueAt`); giving it
back raises the level for those who come later, and changes nothing for
those whose waits are already computed. So the number that matters for the
charges from `j` on is

  the level `j` found + what was given back of older charges since,

and `Sound` says of it, for every `j`:

* the level never exceeds it, plus the refill since, less the charges from
  `j` on that are still held (`level_le`);
* the held charges from `j` to `k` fit into it, plus the refill until `k`
  is covered (`covered`).

`admitted_le` is the rate law that follows: charges that are let through no
earlier than they are covered obey capacity and rate in every window that
begins while that number still fits the capacity. Nothing in this file knows
what is being verified.
-/
import Mathlib.Algebra.Order.Field.Basic
import Mathlib.Algebra.Order.BigOperators.Group.Finset
import Mathlib.Algebra.BigOperators.Intervals
import Mathlib.Data.Finset.Max
import Mathlib.Order.Interval.Finset.Nat
import Mathlib.Tactic.FieldSimp
import Mathlib.Tactic.Linarith
import Mathlib.Tactic.Ring

namespace Caips.Logic

/-- One charge: when it was made, the level it found, its weight, and, once
it was given back, the number of charges made by then. -/
structure Charge (K : Type*) where
  time : K
  before : K
  weight : K
  returned : Option ℕ := none
  deriving DecidableEq

/-- A bucket with the history of its charges. -/
structure Bucket (K : Type*) where
  capacity : K
  rate : K
  level : K
  last : K
  count : ℕ
  charge : ℕ → Charge K

variable {K : Type*} [Field K]

namespace Charge

/-- The weight while it is not given back. -/
def held (c : Charge K) : K := if c.returned.isNone then c.weight else 0

/-- The weight if it was given back after charge `j` and before charge `k`. -/
def returnedWithin (c : Charge K) (j k : ℕ) : K :=
  match c.returned with
  | some n => if j < n ∧ n ≤ k then c.weight else 0
  | none => 0

theorem held_of_none {c : Charge K} (h : c.returned = none) : c.held = c.weight := by
  simp [held, h]

theorem returnedWithin_of_none {c : Charge K} (h : c.returned = none) (j k : ℕ) :
    c.returnedWithin j k = 0 := by
  simp [returnedWithin, h]

/-- When the refill has paid for the charge. -/
def dueAt [LinearOrder K] (c : Charge K) (rate : K) : K :=
  if c.weight ≤ c.before then c.time else c.time + (c.weight - c.before) / rate

end Charge

namespace Bucket

/-- What was given back of the charges older than `j`, between `j` and `k`. -/
def returned (b : Bucket K) (j k : ℕ) : K :=
  ∑ i ∈ Finset.range j, (b.charge i).returnedWithin j k

/-- The charges from `j` on, before `n`, that are held. -/
def held (b : Bucket K) (j n : ℕ) : K := ∑ i ∈ Finset.Ico j n, (b.charge i).held

/-- What the charges from `j` to `k` have to draw on by time `t`: the level `j`
found, what was given back of older charges between the two, and the refill. -/
def supply (b : Bucket K) (j k : ℕ) (t : K) : K :=
  (b.charge j).before + b.returned j k + b.rate * (t - (b.charge j).time)

variable {b : Bucket K}

theorem returned_self (j : ℕ) : b.returned j j = 0 := by
  refine Finset.sum_eq_zero fun i _ => ?_
  unfold Charge.returnedWithin
  cases (b.charge i).returned with
  | none => rfl
  | some m => exact if_neg (by omega)

variable [LinearOrder K]

/-! ## Operations -/

/-- The level after the refill until `now`. -/
def refilled (b : Bucket K) (now : K) : K := min b.capacity (b.level + (now - b.last) * b.rate)

/-- Charge `weight` at `now`, whatever the level is. -/
def take (b : Bucket K) (weight now : K) : Bucket K :=
  { b with
    level := b.refilled now - weight
    last := now
    count := b.count + 1
    charge := Function.update b.charge b.count { time := now, before := b.refilled now, weight } }

/-- Give charge `i` back. -/
def giveBack (b : Bucket K) (i : ℕ) : Bucket K :=
  { b with
    level := min b.capacity (b.level + (b.charge i).weight)
    charge := Function.update b.charge i { b.charge i with returned := some b.count } }

@[simp] theorem count_take (b : Bucket K) (w now : K) : (b.take w now).count = b.count + 1 := rfl

@[simp] theorem rate_take (b : Bucket K) (w now : K) : (b.take w now).rate = b.rate := rfl

@[simp] theorem last_take (b : Bucket K) (w now : K) : (b.take w now).last = now := rfl

theorem charge_take (b : Bucket K) (w now : K) :
    (b.take w now).charge b.count = { time := now, before := b.refilled now, weight := w } := by
  simp [take]

theorem charge_take_of_lt (b : Bucket K) (w now : K) {i : ℕ} (h : i < b.count) :
    (b.take w now).charge i = b.charge i := by
  simp [take, h.ne]

@[simp] theorem count_giveBack (b : Bucket K) (i : ℕ) : (b.giveBack i).count = b.count := rfl

@[simp] theorem rate_giveBack (b : Bucket K) (i : ℕ) : (b.giveBack i).rate = b.rate := rfl

@[simp] theorem last_giveBack (b : Bucket K) (i : ℕ) : (b.giveBack i).last = b.last := rfl

theorem charge_giveBack (b : Bucket K) (i : ℕ) :
    (b.giveBack i).charge i = { b.charge i with returned := some b.count } := by
  simp [giveBack]

theorem charge_giveBack_of_ne (b : Bucket K) {i k : ℕ} (h : k ≠ i) :
    (b.giveBack i).charge k = b.charge k := by
  simp [giveBack, h]

@[simp] theorem before_giveBack (b : Bucket K) (i k : ℕ) :
    ((b.giveBack i).charge k).before = (b.charge k).before := by
  by_cases h : k = i
  · subst h; simp [charge_giveBack]
  · rw [charge_giveBack_of_ne b h]

@[simp] theorem time_giveBack (b : Bucket K) (i k : ℕ) :
    ((b.giveBack i).charge k).time = (b.charge k).time := by
  by_cases h : k = i
  · subst h; simp [charge_giveBack]
  · rw [charge_giveBack_of_ne b h]

@[simp] theorem weight_giveBack (b : Bucket K) (i k : ℕ) :
    ((b.giveBack i).charge k).weight = (b.charge k).weight := by
  by_cases h : k = i
  · subst h; simp [charge_giveBack]
  · rw [charge_giveBack_of_ne b h]

@[simp] theorem dueAt_giveBack (b : Bucket K) (i k : ℕ) (rate : K) :
    ((b.giveBack i).charge k).dueAt rate = (b.charge k).dueAt rate := by
  simp [Charge.dueAt]

/-! ## What a charge finds -/

theorem returnedWithin_mono {c : Charge K} (h : 0 ≤ c.weight) (j : ℕ) {k n : ℕ} (hk : k ≤ n) :
    c.returnedWithin j k ≤ c.returnedWithin j n := by
  unfold Charge.returnedWithin
  cases c.returned with
  | none => exact le_refl 0
  | some m =>
    dsimp only
    split_ifs with h₁ h₂
    · exact le_refl _
    · omega
    · exact h
    · exact le_refl _

theorem refilled_le (b : Bucket K) (now : K) : b.refilled now ≤ b.level + (now - b.last) * b.rate :=
  min_le_right _ _

theorem returned_take (b : Bucket K) (w now : K) {j : ℕ} (hj : j ≤ b.count) (k : ℕ) :
    (b.take w now).returned j k = b.returned j k := by
  refine Finset.sum_congr rfl fun i hi => ?_
  rw [charge_take_of_lt b w now (lt_of_lt_of_le (Finset.mem_range.mp hi) hj)]

theorem held_take (b : Bucket K) (w now : K) (j : ℕ) {n : ℕ} (hn : n ≤ b.count) :
    (b.take w now).held j n = b.held j n := by
  refine Finset.sum_congr rfl fun i hi => ?_
  rw [charge_take_of_lt b w now (lt_of_lt_of_le (Finset.mem_Ico.mp hi).2 hn)]

theorem held_take_last (b : Bucket K) (w now : K) {j : ℕ} (hj : j ≤ b.count) :
    (b.take w now).held j (b.count + 1) = b.held j b.count + w := by
  unfold Bucket.held
  rw [Finset.sum_Ico_succ_top hj, charge_take]
  exact congrArg (· + w) (held_take b w now j le_rfl)

theorem supply_take (b : Bucket K) (w now : K) {j : ℕ} (hj : j < b.count) (k : ℕ) (t : K) :
    (b.take w now).supply j k t = b.supply j k t := by
  unfold supply
  rw [charge_take_of_lt b w now hj, returned_take b w now hj.le, rate_take]

/-! ## What a charge and a return change -/

theorem returned_giveBack {i : ℕ} (hheld : (b.charge i).returned = none) (j : ℕ)
    {k : ℕ} (hk : k < b.count) : (b.giveBack i).returned j k = b.returned j k := by
  refine Finset.sum_congr rfl fun m _ => ?_
  by_cases hm : m = i
  · subst hm
    rw [charge_giveBack, Charge.returnedWithin_of_none hheld]
    exact if_neg (by omega)
  · rw [charge_giveBack_of_ne b hm]

theorem returned_giveBack_of_le (b : Bucket K) {i j : ℕ} (h : j ≤ i) (k : ℕ) :
    (b.giveBack i).returned j k = b.returned j k := by
  refine Finset.sum_congr rfl fun m hm => ?_
  rw [charge_giveBack_of_ne b (by have := Finset.mem_range.mp hm; omega)]

theorem returned_giveBack_of_lt {i j : ℕ} (hheld : (b.charge i).returned = none)
    (h : i < j) (hj : j < b.count) :
    (b.giveBack i).returned j b.count = b.returned j b.count + (b.charge i).weight := by
  have hmem : i ∈ Finset.range j := Finset.mem_range.mpr h
  unfold returned
  rw [← Finset.add_sum_erase _ _ hmem, ← Finset.add_sum_erase (Finset.range j) _ hmem,
    charge_giveBack, Charge.returnedWithin_of_none hheld, zero_add, add_comm]
  have hrest : ∀ m ∈ (Finset.range j).erase i,
      ((b.giveBack i).charge m).returnedWithin j b.count = (b.charge m).returnedWithin j b.count :=
    fun m hm => by rw [charge_giveBack_of_ne b (Finset.ne_of_mem_erase hm)]
  rw [Finset.sum_congr rfl hrest]
  exact congrArg _ (if_pos ⟨hj, le_rfl⟩)

theorem held_giveBack_of_lt (b : Bucket K) {i j : ℕ} (h : i < j) (n : ℕ) :
    (b.giveBack i).held j n = b.held j n := by
  refine Finset.sum_congr rfl fun m hm => ?_
  rw [charge_giveBack_of_ne b (by have := (Finset.mem_Ico.mp hm).1; omega)]

theorem held_giveBack {i j n : ℕ} (hheld : (b.charge i).returned = none)
    (h : j ≤ i) (hn : i < n) : (b.giveBack i).held j n = b.held j n - (b.charge i).weight := by
  have hmem : i ∈ Finset.Ico j n := Finset.mem_Ico.mpr ⟨h, hn⟩
  have hrest : ∀ m ∈ (Finset.Ico j n).erase i, ((b.giveBack i).charge m).held = (b.charge m).held :=
    fun m hm => by rw [charge_giveBack_of_ne b (Finset.ne_of_mem_erase hm)]
  unfold held
  rw [← Finset.add_sum_erase _ _ hmem, ← Finset.add_sum_erase (Finset.Ico j n) _ hmem,
    Finset.sum_congr rfl hrest, charge_giveBack, Charge.held_of_none hheld]
  simp [Charge.held]

/-! ## The invariant -/

/-- What holds of a bucket through all charges and returns. -/
structure Sound (b : Bucket K) : Prop where
  rate_pos : 0 < b.rate
  weight_nonneg : ∀ i, 0 ≤ (b.charge i).weight
  level_le : ∀ j < b.count, b.level ≤ b.supply j b.count b.last - b.held j b.count
  covered : ∀ j k, j ≤ k → k < b.count →
    b.held j (k + 1) ≤ b.supply j k ((b.charge k).dueAt b.rate)

namespace Sound

theorem empty {b : Bucket K} (hrate : 0 < b.rate) (hcount : b.count = 0)
    (hw : ∀ i, 0 ≤ (b.charge i).weight) : b.Sound where
  rate_pos := hrate
  weight_nonneg := hw
  level_le := fun j hj => by omega
  covered := fun j k _ hk => by omega

end Sound

variable [IsStrictOrderedRing K]

theorem held_giveBack_le {i : ℕ} (hw : 0 ≤ (b.charge i).weight)
    (hheld : (b.charge i).returned = none) (j n : ℕ) : (b.giveBack i).held j n ≤ b.held j n := by
  by_cases hji : j ≤ i
  · by_cases hn : i < n
    · rw [held_giveBack hheld hji hn]
      exact sub_le_self _ hw
    · refine le_of_eq (Finset.sum_congr rfl fun m hm => ?_)
      rw [charge_giveBack_of_ne b (by have := (Finset.mem_Ico.mp hm).2; omega)]
  · exact (held_giveBack_of_lt b (not_le.mp hji) n).le

theorem returned_mono (hw : ∀ i, 0 ≤ (b.charge i).weight) (j : ℕ) {k n : ℕ}
    (hk : k ≤ n) : b.returned j k ≤ b.returned j n :=
  Finset.sum_le_sum fun i _ => returnedWithin_mono (hw i) j hk

theorem dueAt_spec {c : Charge K} {rate : K} (h : 0 < rate) :
    c.weight - c.before ≤ rate * (c.dueAt rate - c.time) := by
  unfold Charge.dueAt
  split_ifs with hle
  · simpa using hle
  · rw [add_sub_cancel_left, mul_div_cancel₀ _ h.ne']

namespace Sound

variable {b : Bucket K}

theorem refilled_le_supply (h : b.Sound) {j : ℕ} (hj : j < b.count) (now : K) :
    b.refilled now ≤ b.supply j b.count now - b.held j b.count := by
  have hlevel := h.level_le j hj
  have hrefill := refilled_le b now
  unfold supply at hlevel ⊢
  linarith

/-- A charge keeps the invariant. -/
theorem take (h : b.Sound) {w : K} (hw : 0 ≤ w) (now : K) : (b.take w now).Sound where
  rate_pos := h.rate_pos
  weight_nonneg := by
    intro i
    by_cases hi : i = b.count
    · subst hi
      rw [charge_take]
      exact hw
    · simpa [Bucket.take, hi] using h.weight_nonneg i
  level_le := by
    intro j hj
    show b.refilled now - w ≤ _
    rw [count_take, last_take, held_take_last b w now (by simpa using Nat.lt_succ_iff.mp hj)]
    rcases Nat.lt_succ_iff_lt_or_eq.mp hj with hlt | rfl
    · have hfound := h.refilled_le_supply hlt now
      have hmore := returned_mono h.weight_nonneg j (Nat.le_succ b.count)
      rw [supply_take b w now hlt]
      unfold supply at hfound ⊢
      linarith
    · have hback := returned_mono (j := b.count) h.weight_nonneg (Nat.le_succ b.count)
      rw [returned_self] at hback
      unfold supply Bucket.held
      rw [charge_take, returned_take b w now le_rfl]
      simpa using hback
  covered := by
    intro j k hjk hk
    rcases Nat.lt_succ_iff_lt_or_eq.mp hk with hlt | rfl
    · rw [held_take b w now j hlt, supply_take b w now (lt_of_le_of_lt hjk hlt), rate_take,
        charge_take_of_lt b w now hlt]
      exact h.covered j k hjk hlt
    · have hdue := dueAt_spec (c := (b.take w now).charge b.count) h.rate_pos
      rw [rate_take, held_take_last b w now hjk]
      rw [charge_take] at hdue ⊢
      dsimp only at hdue
      rcases hjk.lt_or_eq with hlt | rfl
      · have hfound := h.refilled_le_supply hlt now
        rw [supply_take b w now hlt]
        unfold supply at hfound ⊢
        linarith
      · unfold supply Bucket.held
        rw [charge_take, returned_take b w now le_rfl, returned_self, Finset.Ico_self,
          Finset.sum_empty, rate_take]
        dsimp only
        linarith

/-- Giving a charge back keeps the invariant: older charges have more to draw
on, the charge itself and what came before it have less to pay for. -/
theorem giveBack (h : b.Sound) {i : ℕ} (hi : i < b.count) (hheld : (b.charge i).returned = none) :
    (b.giveBack i).Sound where
  rate_pos := h.rate_pos
  weight_nonneg := fun k => by simpa using h.weight_nonneg k
  level_le := by
    intro j hj
    have hlevel := h.level_le j hj
    have hraised : (b.giveBack i).level ≤ b.level + (b.charge i).weight := min_le_right _ _
    unfold supply at hlevel ⊢
    simp only [before_giveBack, time_giveBack, rate_giveBack, last_giveBack, count_giveBack]
    by_cases hij : i < j
    · have hback := returned_giveBack_of_lt hheld hij hj
      have hsame := held_giveBack_of_lt b hij b.count
      linarith
    · have hback := returned_giveBack_of_le b (not_lt.mp hij) b.count
      have hless := held_giveBack hheld (not_lt.mp hij) hi
      linarith
  covered := by
    intro j k hjk hk
    have hcovered := h.covered j k hjk hk
    unfold supply at hcovered ⊢
    rw [rate_giveBack, dueAt_giveBack, before_giveBack, time_giveBack, returned_giveBack hheld j hk]
    have hless := held_giveBack_le (h.weight_nonneg i) hheld j (k + 1)
    linarith

/-! ## The rate law -/

/-- The weights of held charges that are due by `t`, all at `j` or newer. -/
theorem sum_weight_le (h : b.Sound) {S : Finset ℕ} {j k : ℕ} (hmem : k ∈ S)
    (hS : ∀ i ∈ S, j ≤ i ∧ i ≤ k ∧ (b.charge i).returned = none) (hk : k < b.count) {t : K}
    (hdue : (b.charge k).dueAt b.rate ≤ t) :
    ∑ i ∈ S, (b.charge i).weight ≤ b.supply j k t := by
  have hheld : ∑ i ∈ S, (b.charge i).weight = ∑ i ∈ S, (b.charge i).held :=
    Finset.sum_congr rfl fun i hi => (Charge.held_of_none (hS i hi).2.2).symm
  have hsub : S ⊆ Finset.Ico j (k + 1) := by
    intro i hi
    obtain ⟨hji, hik, -⟩ := hS i hi
    exact Finset.mem_Ico.mpr ⟨hji, Nat.lt_succ_of_le hik⟩
  have hnonneg : ∀ i ∈ Finset.Ico j (k + 1), i ∉ S → 0 ≤ (b.charge i).held := by
    intro i _ _
    unfold Charge.held
    split_ifs
    · exact h.weight_nonneg i
    · exact le_refl 0
  have hcovered := h.covered j k (hS k hmem).1 hk
  have hrefill := mul_le_mul_of_nonneg_left hdue h.rate_pos.le
  calc ∑ i ∈ S, (b.charge i).weight
      = ∑ i ∈ S, (b.charge i).held := hheld
    _ ≤ b.held j (k + 1) := Finset.sum_le_sum_of_subset_of_nonneg hsub hnonneg
    _ ≤ b.supply j k ((b.charge k).dueAt b.rate) := hcovered
    _ ≤ b.supply j k t := by unfold supply; linarith

/-- **Rate law.** Charges `S` that are held and due by `t` obey capacity and
rate from `s` to `t`, when the supply of the oldest of them still fits the
capacity at `s`. -/
theorem admitted_le (h : b.Sound) (hcapacity : 0 ≤ b.capacity) {S : Finset ℕ} {s t : K} (hst : s ≤ t)
    (hS : ∀ i ∈ S, i < b.count ∧ (b.charge i).returned = none ∧ (b.charge i).dueAt b.rate ≤ t)
    (hfits : ∀ j ∈ S, ∀ k ∈ S, (∀ i ∈ S, j ≤ i ∧ i ≤ k) → b.supply j k s ≤ b.capacity) :
    ∑ i ∈ S, (b.charge i).weight ≤ b.capacity + b.rate * (t - s) := by
  rcases S.eq_empty_or_nonempty with rfl | hne
  · have hrefill := mul_nonneg h.rate_pos.le (sub_nonneg.mpr hst)
    rw [Finset.sum_empty]
    exact add_nonneg hcapacity hrefill
  · have hbounds : ∀ i ∈ S, S.min' hne ≤ i ∧ i ≤ S.max' hne :=
      fun i hi => ⟨S.min'_le i hi, S.le_max' i hi⟩
    have hmax := hS _ (S.max'_mem hne)
    have hsum := h.sum_weight_le (S.max'_mem hne)
      (fun i hi => ⟨(hbounds i hi).1, (hbounds i hi).2, (hS i hi).2.1⟩) hmax.1 hmax.2.2
    have hsupply := hfits _ (S.min'_mem hne) _ (S.max'_mem hne) hbounds
    unfold supply at hsum hsupply
    linarith

end Sound

end Bucket

end Caips.Logic
