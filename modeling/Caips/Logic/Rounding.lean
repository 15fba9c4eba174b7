/-
Caips.Logic.Rounding — rounding to a number of digits, where halves go to the
even neighbour, truncation, and the rounding of doubles.

`nearestDouble` is what an operation on doubles makes of its exact result: 53
digits, or fewer where the last one would lie behind the place `2 ^ -1074`. It
knows no infinity. It is monotone, and leaves alone what has few enough digits.
Nothing in this file knows what is being verified.
-/
import Mathlib.Algebra.Order.Archimedean.Basic
import Mathlib.Algebra.Order.Field.Basic
import Mathlib.Algebra.Order.Field.Power
import Mathlib.Algebra.Order.Field.Rat
import Mathlib.Algebra.Order.Floor.Ring
import Mathlib.Tactic.FieldSimp
import Mathlib.Tactic.Linarith
import Mathlib.Tactic.NormNum

namespace Caips.Logic

variable {K : Type*} [Field K] [LinearOrder K] [FloorRing K]

/-- The nearest integer, and of two the even one. -/
def nearestEven (x : K) : ℤ :=
  if x - ⌊x⌋ < 1 / 2 ∨ x - ⌊x⌋ = 1 / 2 ∧ ⌊x⌋ % 2 = 0 then ⌊x⌋ else ⌊x⌋ + 1

/-- `round(x, digits)`. -/
def roundTo (digits : ℕ) (x : K) : K := nearestEven (x * 10 ^ digits) / 10 ^ digits

/-- `int(x)`. -/
def truncate (x : K) : ℤ := if 0 ≤ x then ⌊x⌋ else ⌈x⌉

variable {x : K} {n : ℤ}

theorem truncate_of_nonneg (h : 0 ≤ x) : truncate x = ⌊x⌋ := if_pos h

theorem le_nearestEven (h : (n : K) ≤ x) : n ≤ nearestEven x := by
  have hfloor := Int.le_floor.mpr h
  unfold nearestEven
  split <;> omega

variable [IsStrictOrderedRing K]

theorem abs_nearestEven_sub_le (x : K) : |(nearestEven x : K) - x| ≤ 1 / 2 := by
  have hle := Int.floor_le x
  have hlt := Int.lt_floor_add_one x
  rw [abs_le]
  unfold nearestEven
  split_ifs with h
  · rcases h with h | h
    · constructor <;> linarith
    · constructor <;> linarith [h.1]
  · have hge : 1 / 2 ≤ x - ⌊x⌋ := not_lt.mp fun hl => h (.inl hl)
    push_cast
    constructor <;> linarith

theorem nearestEven_intCast (n : ℤ) : nearestEven (n : K) = n := by
  simp [nearestEven]

/-- An integer above a number stays above the rounded number. -/
theorem nearestEven_le (h : x ≤ n) : nearestEven x ≤ n := by
  have hle := Int.floor_le x
  unfold nearestEven
  split
  · next hdown => exact_mod_cast hle.trans h
  · next hup =>
      have hne : x ≠ ⌊x⌋ := by
        intro heq
        exact hup (.inl (by rw [← heq]; norm_num))
      have hlt : (⌊x⌋ : K) < n := lt_of_lt_of_le (lt_of_le_of_ne hle (Ne.symm hne)) h
      have : ⌊x⌋ < n := by exact_mod_cast hlt
      omega

theorem nearestEven_lt (h : x < n - 1 / 2) : nearestEven x < n := by
  have herror := abs_le.mp (abs_nearestEven_sub_le x)
  have hlt : (nearestEven x : K) < n := by linarith
  exact_mod_cast hlt

theorem nearestEven_eq (h : |x - n| < 1 / 2) : nearestEven x = n := by
  have herror := abs_le.mp (abs_nearestEven_sub_le x)
  have hnear := abs_lt.mp h
  have hlt : (nearestEven x : K) < (n + 1 : ℤ) := by push_cast; linarith
  have hgt : ((n - 1 : ℤ) : K) < nearestEven x := by push_cast; linarith
  have hle : nearestEven x < n + 1 := by exact_mod_cast hlt
  have hge : n - 1 < nearestEven x := by exact_mod_cast hgt
  omega

theorem nearestEven_mono {x y : K} (h : x ≤ y) : nearestEven x ≤ nearestEven y := by
  rcases (Int.floor_mono h).lt_or_eq with hlt | heq
  · have hx : nearestEven x ≤ ⌊x⌋ + 1 := nearestEven_le (by push_cast; exact (Int.lt_floor_add_one x).le)
    have hy : ⌊y⌋ ≤ nearestEven y := le_nearestEven (Int.floor_le y)
    omega
  · unfold nearestEven
    rw [← heq]
    split_ifs with hx hy hy
    · exact le_rfl
    · omega
    · -- what is rounded down above is so below
      refine absurd ?_ hx
      rcases hy with hy | ⟨hy, heven⟩
      · exact .inl (by linarith)
      · rcases h.lt_or_eq with hlt | rfl
        · exact .inl (by linarith)
        · exact .inr ⟨hy, heven⟩
    · exact le_rfl

theorem nearestEven_neg (x : K) : nearestEven (-x) = -nearestEven x := by
  by_cases hint : x = ⌊x⌋
  · rw [hint, ← Int.cast_neg, nearestEven_intCast, nearestEven_intCast]
  · have hfloor : ⌊-x⌋ = -⌊x⌋ - 1 := by
      have hlt := lt_of_le_of_ne (Int.floor_le x) (Ne.symm hint)
      have hgt := Int.lt_floor_add_one x
      rw [Int.floor_eq_iff]
      push_cast
      constructor <;> linarith
    unfold nearestEven
    rw [hfloor]
    push_cast
    rcases lt_trichotomy (x - ⌊x⌋) (1 / 2) with hlt | heq | hgt
    · rw [if_neg (by rintro (h | ⟨h, -⟩) <;> linarith), if_pos (.inl hlt)]
      omega
    · have hhalf : -x - (-(⌊x⌋ : K) - 1) = 1 / 2 := by linarith
      rw [hhalf, heq]
      simp only [lt_irrefl, true_and, false_or]
      split_ifs <;> omega
    · rw [if_pos (.inl (by linarith)), if_neg (by rintro (h | ⟨h, -⟩) <;> linarith)]
      omega

/-! ## Doubles -/

/-- The place of the first digit of a positive number. -/
def firstPlace (x : ℚ) : ℤ :=
  let k : ℤ := x.num.natAbs.log2 - x.den.log2
  if 2 ^ k ≤ |x| then k else k - 1

/-- The place of the last digit a double near the number has. -/
def lastPlace (x : ℚ) : ℤ := max (firstPlace x - 52) (-1074)

/-- The double nearest to a number. -/
def nearestDouble (x : ℚ) : ℚ := nearestEven (x / 2 ^ lastPlace x) * 2 ^ lastPlace x

theorem firstPlace_spec {x : ℚ} (hx : 0 < x) : 2 ^ firstPlace x ≤ x ∧ x < 2 ^ (firstPlace x + 1) := by
  have hnum : x.num.natAbs ≠ 0 := Int.natAbs_ne_zero.mpr (Rat.num_ne_zero.mpr hx.ne')
  have hfrac : x = (x.num.natAbs : ℚ) / x.den := by
    rw [Nat.cast_natAbs, abs_of_pos (Rat.num_pos.mpr hx), Rat.num_div_den]
  have hpos := x.den_pos
  unfold firstPlace
  dsimp only
  rw [abs_of_pos hx]
  generalize x.num.natAbs = n at hnum hfrac ⊢
  generalize x.den = d at hfrac hpos ⊢
  have hden : (0 : ℚ) < d := by exact_mod_cast hpos
  have hn : (2 : ℚ) ^ n.log2 ≤ n := by exact_mod_cast Nat.log2_self_le hnum
  have hn' : (n : ℚ) < 2 ^ (n.log2 + 1) := by exact_mod_cast Nat.lt_log2_self
  have hd : (2 : ℚ) ^ d.log2 ≤ d := by exact_mod_cast Nat.log2_self_le hpos.ne'
  have hd' : (d : ℚ) < 2 ^ (d.log2 + 1) := by exact_mod_cast Nat.lt_log2_self
  have habove : x < 2 ^ ((n.log2 : ℤ) - d.log2 + 1) := by
    rw [sub_add_eq_add_sub, zpow_sub₀ two_ne_zero, zpow_natCast, lt_div_iff₀ (by positivity), hfrac,
      div_mul_eq_mul_div, div_lt_iff₀ hden]
    exact mul_lt_mul (by exact_mod_cast hn') hd (by positivity) (by positivity)
  have hbelow : (2 : ℚ) ^ ((n.log2 : ℤ) - d.log2 - 1) < x := by
    rw [sub_sub, zpow_sub₀ two_ne_zero, zpow_natCast, div_lt_iff₀ (by positivity), hfrac, div_mul_eq_mul_div,
      lt_div_iff₀ hden]
    exact mul_lt_mul' hn (by exact_mod_cast hd') hden.le (lt_of_lt_of_le (by positivity) hn)
  split
  · next hle => exact ⟨hle, habove⟩
  · next hlt => exact ⟨hbelow.le, by rw [sub_add_cancel]; exact not_le.mp hlt⟩

theorem firstPlace_mono {x y : ℚ} (hx : 0 < x) (h : x ≤ y) : firstPlace x ≤ firstPlace y := by
  have hlt : (2 : ℚ) ^ firstPlace x < 2 ^ (firstPlace y + 1) :=
    ((firstPlace_spec hx).1.trans h).trans_lt (firstPlace_spec (hx.trans_le h)).2
  have := (zpow_lt_zpow_iff_right₀ (by norm_num : (1 : ℚ) < 2)).mp hlt
  omega

theorem lastPlace_spec {x : ℚ} (hx : 0 < x) :
    (lastPlace x = -1074 ∨ 2 ^ (lastPlace x + 52) ≤ x) ∧ x < 2 ^ (lastPlace x + 53) := by
  obtain ⟨hle, hlt⟩ := firstPlace_spec hx
  unfold lastPlace
  refine ⟨?_, hlt.trans_le (zpow_le_zpow_right₀ (by norm_num) (by omega))⟩
  rcases le_total (firstPlace x - 52) (-1074) with h | h
  · exact .inl (max_eq_right h)
  · right
    rwa [max_eq_left h, sub_add_cancel]

@[simp] theorem nearestDouble_zero : nearestDouble 0 = 0 := by
  simp [nearestDouble, nearestEven]

theorem nearestDouble_neg (x : ℚ) : nearestDouble (-x) = -nearestDouble x := by
  have hplace : lastPlace (-x) = lastPlace x := by simp [lastPlace, firstPlace]
  rw [nearestDouble, nearestDouble, hplace, neg_div, nearestEven_neg]
  push_cast
  ring

theorem nearestDouble_nonneg {x : ℚ} (h : 0 ≤ x) : 0 ≤ nearestDouble x := by
  have hint : (0 : ℤ) ≤ nearestEven (x / 2 ^ lastPlace x) := le_nearestEven (by push_cast; positivity)
  have hcast : (0 : ℚ) ≤ nearestEven (x / 2 ^ lastPlace x) := by exact_mod_cast hint
  exact mul_nonneg hcast (by positivity)

theorem nearestDouble_mono_of_pos {x y : ℚ} (hx : 0 < x) (h : x ≤ y) : nearestDouble x ≤ nearestDouble y := by
  have hplace : lastPlace x ≤ lastPlace y := max_le_max_right _ (by linarith [firstPlace_mono hx h])
  unfold nearestDouble
  rcases hplace.lt_or_eq with hlt | heq
  · -- the larger number has all its digits before the place of the smaller one's first
    have hfull := (lastPlace_spec (hx.trans_le h)).1.resolve_left (by unfold lastPlace at hlt ⊢; omega)
    have hpos : (0 : ℚ) < 2 ^ lastPlace x := by positivity
    have hpos' : (0 : ℚ) < 2 ^ lastPlace y := by positivity
    have hbelow : nearestEven (x / 2 ^ lastPlace x) ≤ 2 ^ 53 := by
      refine nearestEven_le ?_
      rw [div_le_iff₀ hpos]
      refine (lastPlace_spec hx).2.le.trans_eq ?_
      rw [zpow_add₀ two_ne_zero]
      norm_num
      ring
    have habove : (2 ^ 52 : ℤ) ≤ nearestEven (y / 2 ^ lastPlace y) := by
      refine le_nearestEven ?_
      rw [le_div_iff₀ hpos']
      rw [zpow_add₀ two_ne_zero] at hfull
      push_cast
      linarith
    have hbelow' : (nearestEven (x / 2 ^ lastPlace x) : ℚ) ≤ 2 ^ 53 := by exact_mod_cast hbelow
    have habove' : (2 ^ 52 : ℚ) ≤ nearestEven (y / 2 ^ lastPlace y) := by exact_mod_cast habove
    have hstep : (2 : ℚ) ^ (lastPlace x + 1) ≤ 2 ^ lastPlace y := zpow_le_zpow_right₀ (by norm_num) (by omega)
    calc (nearestEven (x / 2 ^ lastPlace x) : ℚ) * 2 ^ lastPlace x ≤ 2 ^ 53 * 2 ^ lastPlace x :=
          mul_le_mul_of_nonneg_right hbelow' hpos.le
      _ = 2 ^ 52 * 2 ^ (lastPlace x + 1) := by rw [zpow_add₀ two_ne_zero]; norm_num; ring
      _ ≤ 2 ^ 52 * 2 ^ lastPlace y := mul_le_mul_of_nonneg_left hstep (by norm_num)
      _ ≤ nearestEven (y / 2 ^ lastPlace y) * 2 ^ lastPlace y := mul_le_mul_of_nonneg_right habove' hpos'.le
  · rw [heq]
    have hmono := nearestEven_mono (div_le_div_of_nonneg_right h (by positivity : (0 : ℚ) ≤ 2 ^ lastPlace y))
    exact mul_le_mul_of_nonneg_right (by exact_mod_cast hmono) (by positivity)

theorem nearestDouble_mono : Monotone nearestDouble := by
  intro x y h
  rcases lt_trichotomy x 0 with hx | rfl | hx
  · rcases le_or_gt 0 y with hy | hy
    · have hneg := nearestDouble_nonneg (neg_nonneg.mpr hx.le)
      rw [nearestDouble_neg] at hneg
      exact (neg_nonneg.mp hneg).trans (nearestDouble_nonneg hy)
    · have hmono := nearestDouble_mono_of_pos (neg_pos.mpr hy) (neg_le_neg h)
      rwa [nearestDouble_neg, nearestDouble_neg, neg_le_neg_iff] at hmono
  · rw [nearestDouble_zero]
    exact nearestDouble_nonneg h
  · exact nearestDouble_mono_of_pos hx h

/-- The number is a double. -/
def IsDouble (x : ℚ) : Prop := nearestDouble x = x

instance (x : ℚ) : Decidable (IsDouble x) := inferInstanceAs (Decidable (nearestDouble x = x))

theorem IsDouble.exists_mul {x : ℚ} (h : IsDouble x) (hn : 2 ^ n ≤ x) : ∃ k : ℤ, x = k * 2 ^ (n - 52) := by
  have hpos : 0 < x := lt_of_lt_of_le (by positivity) hn
  have hplace : n - 52 ≤ lastPlace x := by
    have := (zpow_lt_zpow_iff_right₀ (by norm_num : (1 : ℚ) < 2)).mp (hn.trans_lt (lastPlace_spec hpos).2)
    omega
  refine ⟨nearestEven (x / 2 ^ lastPlace x) * 2 ^ (lastPlace x - (n - 52)).toNat, ?_⟩
  push_cast
  rw [mul_assoc, ← zpow_natCast, ← zpow_add₀ two_ne_zero, Int.toNat_of_nonneg (by omega), sub_add_cancel]
  exact h.symm

end Caips.Logic
