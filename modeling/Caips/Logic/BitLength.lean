/-
Caips.Logic.BitLength — how many bits an integer has, and what arithmetic adds to them.

A sum has one bit more than the longer operand, a product the bits of both, and what
is divided or rounded to tens keeps its bits, up to one. A power has as many bits as
the exponent times those of the base. Nothing in this file knows what is being verified.
-/
import Caips.Logic.Rounding
import Mathlib.Data.Nat.Size
import Mathlib.Data.Rat.Floor

namespace Caips.Logic

/-- `int.bit_length()` -/
def bitLength (z : ℤ) : ℕ := z.natAbs.size

variable {a b : ℤ} {m n : ℕ}

theorem bitLength_le_iff : bitLength a ≤ n ↔ a.natAbs < 2 ^ n := Nat.size_le

theorem bitLength_pow_le_iff : bitLength (a ^ m) ≤ n ↔ a.natAbs ^ m < 2 ^ n := by
  rw [bitLength_le_iff, Int.natAbs_pow]

theorem bitLength_mono (h : a.natAbs ≤ b.natAbs) : bitLength a ≤ bitLength b := Nat.size_le_size h

@[simp] theorem bitLength_neg (a : ℤ) : bitLength (-a) = bitLength a := by simp [bitLength]

@[simp] theorem bitLength_abs (a : ℤ) : bitLength |a| = bitLength a := by
  rw [bitLength, Int.natAbs_abs, bitLength]

theorem bitLength_le_succ (h : a.natAbs ≤ 2 * b.natAbs) (hb : bitLength b ≤ n) : bitLength a ≤ n + 1 := by
  rw [bitLength_le_iff] at hb ⊢
  calc a.natAbs ≤ 2 * b.natAbs := h
    _ < 2 * 2 ^ n := by omega
    _ = 2 ^ (n + 1) := by rw [pow_succ, mul_comm]

theorem bitLength_add_le (ha : bitLength a ≤ n) (hb : bitLength b ≤ n) : bitLength (a + b) ≤ n + 1 := by
  rw [bitLength_le_iff] at ha hb ⊢
  have hadd := Int.natAbs_add_le a b
  rw [pow_succ]
  omega

theorem bitLength_sub_le (ha : bitLength a ≤ n) (hb : bitLength b ≤ n) : bitLength (a - b) ≤ n + 1 := by
  rw [sub_eq_add_neg]
  exact bitLength_add_le ha (by simpa using hb)

theorem bitLength_mul_le (ha : bitLength a ≤ m) (hb : bitLength b ≤ n) : bitLength (a * b) ≤ m + n := by
  rw [bitLength_le_iff] at ha hb ⊢
  rw [Int.natAbs_mul, pow_add]
  exact Nat.mul_lt_mul'' ha hb

theorem bitLength_fdiv_le (a b : ℤ) : bitLength (a.fdiv b) ≤ bitLength a :=
  bitLength_mono (Int.natAbs_fdiv_le_natAbs a b)

theorem bitLength_fmod_le (a : ℤ) (hb : b ≠ 0) : bitLength (a.fmod b) ≤ bitLength b := by
  apply bitLength_mono
  obtain hpos | hneg := lt_or_gt_of_ne hb.symm
  · have hnonneg := Int.fmod_nonneg_of_pos a hpos
    have hlt := Int.fmod_lt_of_pos a hpos
    omega
  · have hpos : 0 < -b := by omega
    have hnonneg := Int.fmod_nonneg_of_pos (-a) hpos
    have hlt := Int.fmod_lt_of_pos (-a) hpos
    rw [Int.neg_fmod_neg] at hnonneg hlt
    omega

theorem bitLength_pow_le (ha : bitLength a ≤ m) (hn : 0 < n) : bitLength (a ^ n) ≤ m * n := by
  rw [bitLength_le_iff] at ha
  rw [bitLength_pow_le_iff, pow_mul]
  exact Nat.pow_lt_pow_left ha hn.ne'

/-- A number rounded to a multiple of another is at most twice as large. -/
theorem natAbs_nearestEven_mul_le (a : ℤ) {t : ℤ} (ht : 0 < t) :
    (nearestEven ((a : ℚ) / t) * t).natAbs ≤ 2 * a.natAbs := by
  have hpos : (0 : ℚ) < t := by exact_mod_cast ht
  have hnear := abs_nearestEven_sub_le ((a : ℚ) / t)
  generalize nearestEven ((a : ℚ) / t) = q at hnear ⊢
  by_cases hq : q = 0
  · simp [hq]
  · have hone : (1 : ℚ) ≤ |(q : ℚ)| := by
      rw [← Int.cast_abs]
      exact_mod_cast Int.one_le_abs hq
    have habs : |(q : ℚ)| ≤ 2 * |(a : ℚ) / t| := by
      have htriangle := abs_sub_abs_le_abs_sub (q : ℚ) (a / t)
      linarith
    rw [abs_div, abs_of_pos hpos, ← mul_div_assoc, le_div_iff₀ hpos] at habs
    have hcast : |q * t| ≤ 2 * |a| := by
      rw [abs_mul, abs_of_pos ht]
      exact_mod_cast habs
    rw [Int.abs_eq_natAbs, Int.abs_eq_natAbs] at hcast
    exact_mod_cast hcast

end Caips.Logic
