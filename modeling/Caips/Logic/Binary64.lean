/-
Caips.Logic.Binary64 — nonnegative floats of 64 bits as rational numbers.

The logical model of `Float` works on unpacked floats: a mantissa is shifted to
its place, and two bits remember what was shifted out. Read as rational numbers
(`value`), rounding is `nearestEven` at the place `2 ^ t` of the last digit, and
a result is at most half of it away (`Rounds`). Sums and quotients of nonnegative
floats are `Rounds` of the exact sum and quotient; what a program relies on
follows from there without a look at bits. There is one such float, the
`nearestDouble`, and so differences are monotone (`value_sub`). Nothing in this
file knows what is being verified.
-/
import Caips.Logic.Rounding
import Mathlib

namespace Caips.Logic.Binary64

open Float.Model Float.Model.UnpackedFloat

/-! ## Rounding to an integer -/

variable {x : ℚ} {em : ExtendedMantissa}

theorem full_le {t : ℤ} (h : 2 ^ (t + 52) ≤ x) : (2 ^ 52 : ℤ) ≤ nearestEven (x / 2 ^ t) := by
  have hpos : (0 : ℚ) < 2 ^ t := by positivity
  apply le_nearestEven
  rw [le_div_iff₀ hpos]
  rw [zpow_add₀ two_ne_zero] at h
  push_cast
  linarith

/-! ## Mantissas with what was shifted out -/

/-- The mantissa and its two bits describe a number: its floor, whether a half or more
is left, and whether anything is left but a half. -/
structure Describes (em : ExtendedMantissa) (x : ℚ) : Prop where
  mantissa : (em.mantissa : ℤ) = ⌊x⌋
  roundBit : em.roundBit = true ↔ 1 / 2 ≤ Int.fract x
  stickyBit : em.stickyBit = true ↔ Int.fract x ≠ 0 ∧ Int.fract x ≠ 1 / 2

theorem Describes.roundedMantissa (h : Describes em x) :
    (em.roundedMantissa : ℤ) = nearestEven x := by
  obtain ⟨m, r, s⟩ := em
  obtain ⟨hm, hr, hs⟩ := h
  dsimp only at hm hr hs
  unfold nearestEven
  rw [Int.self_sub_floor, ← hm]
  cases r <;> cases s <;>
    simp only [ExtendedMantissa.roundedMantissa, ExtendedMantissa.accuracy,
      Accuracy.roundToNearestEven]
  · rw [if_pos (.inl (by simpa using hr))]
  · rw [if_pos (.inl (by simpa using hr))]
  · have hge : 1 / 2 ≤ Int.fract x := hr.mp rfl
    have hhalf : Int.fract x = 1 / 2 := by
      by_contra hne
      exact Bool.false_ne_true (hs.mpr ⟨by intro h0; rw [h0] at hge; norm_num at hge, hne⟩)
    rw [hhalf]
    simp only [lt_self_iff_false, true_and, false_or]
    split <;> push_cast <;> omega
  · have hge : 1 / 2 ≤ Int.fract x := hr.mp rfl
    have hne : Int.fract x ≠ 1 / 2 := (hs.mp rfl).2
    rw [if_neg (by
      rintro (hlt | ⟨heq, -⟩)
      · exact absurd hge (not_le.mpr hlt)
      · exact hne heq)]
    push_cast
    rfl

/-- One digit is shifted out. -/
theorem Describes.shiftRightOne (h : Describes em x) :
    Describes em.shiftRightOne (x / 2) := by
  obtain ⟨m, r, s⟩ := em
  obtain ⟨hm, hr, hs⟩ := h
  dsimp only at hm hr hs
  have hfloor : ⌊x / 2⌋ = ⌊x⌋ / 2 := by exact_mod_cast Int.floor_div_natCast x 2
  have hdigit : ((⌊x⌋ % 2 : ℤ) : ℚ) = ⌊x⌋ - 2 * (⌊x⌋ / 2 : ℤ) := by
    rw [Int.emod_def]
    push_cast
    ring
  have hfract : Int.fract (x / 2) = ((⌊x⌋ % 2 : ℤ) + Int.fract x) / 2 := by
    rw [Int.fract, Int.fract, hfloor, hdigit]
    ring
  have hnonneg := Int.fract_nonneg x
  have hlt := Int.fract_lt_one x
  have hparity : ⌊x⌋ % 2 = ((m % 2 : ℕ) : ℤ) := by rw [← hm]; push_cast; rfl
  rw [hparity] at hfract
  constructor
  · rw [hfloor, ← hm]
    simp [ExtendedMantissa.shiftRightOne]
  · rw [hfract]
    rcases Nat.mod_two_eq_zero_or_one m with h0 | h1
    · simp [ExtendedMantissa.shiftRightOne, h0]
      linarith
    · simp [ExtendedMantissa.shiftRightOne, h1]
      linarith
  · have hsticky : (r || s) = true ↔ Int.fract x ≠ 0 := by
      rw [Bool.or_eq_true, hr, hs]
      constructor
      · rintro (hge | ⟨hne, -⟩)
        · intro h0
          rw [h0] at hge
          norm_num at hge
        · exact hne
      · intro hne
        by_cases hhalf : Int.fract x = 1 / 2
        · exact .inl hhalf.ge
        · exact .inr ⟨hne, hhalf⟩
    change (r || s) = true ↔ _
    rw [hsticky, hfract]
    rcases Nat.mod_two_eq_zero_or_one m with h0 | h1
    · rw [h0]
      push_cast
      constructor
      · intro hne
        exact ⟨fun h => hne (by linarith), fun h => by linarith⟩
      · rintro ⟨h, -⟩ hzero
        exact h (by rw [hzero]; norm_num)
    · rw [h1]
      push_cast
      constructor
      · intro hne
        exact ⟨fun h => by linarith, fun h => hne (by linarith)⟩
      · rintro ⟨-, h⟩ hzero
        exact h (by rw [hzero]; norm_num)

theorem Describes.shiftRight (h : Describes em x) (n : ℕ) :
    Describes (em >>> n) (x / 2 ^ n) := by
  change Describes (n.repeat ExtendedMantissa.shiftRightOne em) _
  induction n with
  | zero => simpa [Nat.repeat] using h
  | succ n ih =>
    rw [pow_succ, ← div_div]
    exact ih.shiftRightOne

theorem describes_exact (m : ℕ) : Describes (.ofMantissaAndAccuracy m .exact) m := by
  constructor <;> simp [ExtendedMantissa.ofMantissaAndAccuracy]

/-- The whole part and the remainder of a quotient describe it. -/
theorem describes_fraction {n d : ℕ} (hd : 0 < d) :
    Describes (.ofMantissaAndAccuracy (n / d) (accuracyOfFraction (n % d) d)) ((n : ℚ) / d) := by
  have hfloor : ⌊(n : ℚ) / d⌋ = ((n / d : ℕ) : ℤ) :=
    (Rat.floor_natCast_div_natCast n d).trans (Int.natCast_div n d).symm
  have hfract : Int.fract ((n : ℚ) / d) = ((n % d : ℕ) : ℚ) / d := Int.fract_div_natCast_eq_div_natCast_mod
  have hd' : (0 : ℚ) < d := by exact_mod_cast hd
  have hzero : ((n % d : ℕ) : ℚ) / d = 0 ↔ n % d = 0 := by
    rw [div_eq_zero_iff, or_iff_left hd'.ne', Nat.cast_eq_zero]
  have hge : 1 / 2 ≤ ((n % d : ℕ) : ℚ) / d ↔ d ≤ 2 * (n % d) := by
    rw [div_le_div_iff₀ two_pos hd', one_mul, mul_comm]
    norm_cast
  have hhalf : ((n % d : ℕ) : ℚ) / d = 1 / 2 ↔ d = 2 * (n % d) := by
    rw [div_eq_div_iff hd'.ne' two_ne_zero, one_mul, mul_comm, eq_comm]
    norm_cast
  rw [← hfract] at hzero hge hhalf
  unfold accuracyOfFraction
  by_cases hr : n % d = 0
  · rw [if_pos hr]
    constructor
    · exact hfloor.symm
    · rw [hge, hr]
      simp [ExtendedMantissa.ofMantissaAndAccuracy, hd.ne']
    · rw [Ne, Ne, hzero]
      simp [ExtendedMantissa.ofMantissaAndAccuracy, hr]
  · rw [if_neg hr]
    rcases Nat.lt_trichotomy (2 * (n % d)) d with hlt | heq | hgt
    · rw [Nat.compare_eq_lt.mpr hlt]
      constructor
      · exact hfloor.symm
      · rw [hge]
        simp [ExtendedMantissa.ofMantissaAndAccuracy, hlt]
      · rw [Ne, Ne, hzero, hhalf]
        simp [ExtendedMantissa.ofMantissaAndAccuracy, hr, hlt.ne']
    · rw [Nat.compare_eq_eq.mpr heq]
      constructor
      · exact hfloor.symm
      · rw [hge]
        simp [ExtendedMantissa.ofMantissaAndAccuracy, heq.ge]
      · rw [Ne, Ne, hzero, hhalf]
        exact ⟨fun h => absurd h Bool.false_ne_true, fun h => absurd heq.symm h.2⟩
    · rw [Nat.compare_eq_gt.mpr hgt]
      constructor
      · exact hfloor.symm
      · rw [hge]
        simp [ExtendedMantissa.ofMantissaAndAccuracy, hgt.le]
      · rw [Ne, Ne, hzero, hhalf]
        simp [ExtendedMantissa.ofMantissaAndAccuracy, hr, hgt.ne]

/-! ## Nonnegative floats -/

/-- The number a float stands for; 0 if it is none. -/
def value : UnpackedFloat → ℚ
  | .finite .positive m e _ => m * 2 ^ e
  | .finite .negative m e _ => -(m * 2 ^ e)
  | _ => 0

/-- The finite floats that are not negative, with the mantissa in its place. -/
inductive Nonneg : UnpackedFloat → Prop
  | zero (s : Sign) : Nonneg (.zero s)
  | finite {m : ℕ} {e : ℤ} (hpos : 0 < m) (hm : m < 2 ^ 53) (he : -1074 ≤ e)
      (hn : 2 ^ 52 ≤ m ∨ e = -1074) : Nonneg (.finite .positive m e hpos)

/-- The float nearest to a number: a multiple of `2 ^ t`, where the number has all 53 digits from
there on, or `t` is as small as can be. -/
structure Rounds (x : ℚ) (r : UnpackedFloat) : Prop where
  nonneg : Nonneg r
  place : ∃ t : ℤ, -1074 ≤ t ∧ (t = -1074 ∨ 2 ^ (t + 52) ≤ x) ∧ value r = nearestEven (x / 2 ^ t) * 2 ^ t

theorem value_nonneg {r : UnpackedFloat} (h : Nonneg r) : 0 ≤ value r := by
  cases h with
  | zero s => simp [value]
  | finite hpos hm he hn => simp only [value]; positivity

/-- The place of the last digit of a number that starts with these digits. -/
def place (m : ℕ) (e : ℤ) : ℤ := Format.binary64.targetExponent (totalExponent m e)

theorem place_eq (m : ℕ) (e : ℤ) : place m e = max (m.log2 + e - 52) (-1074) := by
  simp only [place, Format.targetExponent, totalExponent, Format.mantissaBits, Format.minExponent]
  norm_num
  omega

/-- A rounded mantissa is shifted once more if it has grown a digit. -/
theorem shift_rounded {m : ℕ} {e : ℤ} (he : -1074 ≤ e) (hm : m ≤ 2 ^ 53) :
    ((shiftToTargetExponent Format.binary64 m e .exact).1.mantissa,
      (shiftToTargetExponent Format.binary64 m e .exact).2) =
      if m < 2 ^ 53 then (m, e) else (2 ^ 52, e + 1) := by
  have hplace : Format.binary64.targetExponent (totalExponent m e) = max (m.log2 + e - 52) (-1074) :=
    place_eq m e
  unfold shiftToTargetExponent shiftToExponent
  rw [hplace]
  dsimp only
  by_cases hlt : m < 2 ^ 53
  · have hlog : m.log2 ≤ 52 := by
      by_cases hzero : m = 0
      · simp [hzero]
      · exact Nat.le_of_lt_succ ((Nat.log2_lt hzero).mpr hlt)
    have hshift : (max ((m.log2 : ℤ) + e - 52) (-1074) - e).toNat = 0 := by omega
    rw [if_pos hlt, hshift]
    simp [ExtendedMantissa.ofMantissaAndAccuracy, HShiftRight.hShiftRight, Nat.repeat]
  · have heq : m = 2 ^ 53 := by omega
    have hshift : (max (((2 ^ 53 : ℕ).log2 : ℤ) + e - 52) (-1074) - e).toNat = 1 := by
      rw [Nat.log2_two_pow]
      omega
    rw [if_neg hlt, heq, hshift]
    simp [ExtendedMantissa.ofMantissaAndAccuracy, ExtendedMantissa.shiftRightOne,
      HShiftRight.hShiftRight, Nat.repeat]

section Rounding

variable {m : ℕ} {e : ℤ} {acc : Accuracy} {x : ℚ}

theorem describes_shifted (hx : Describes (.ofMantissaAndAccuracy m acc) (x / 2 ^ e)) (he : e ≤ place m e) :
    Describes (shiftToTargetExponent Format.binary64 m e acc).1 (x / 2 ^ place m e) ∧
      (shiftToTargetExponent Format.binary64 m e acc).2 = place m e := by
  have hshift : e + ((place m e - e).toNat : ℤ) = place m e := by omega
  have hscaled : x / 2 ^ e / 2 ^ (place m e - e).toNat = x / 2 ^ place m e := by
    conv_rhs => rw [← hshift, zpow_add₀ two_ne_zero, zpow_natCast]
    rw [div_div]
  exact ⟨hscaled ▸ hx.shiftRight _, hshift⟩

/-- The number has at most 53 digits before its place. -/
theorem scaled_le (hx : Describes (.ofMantissaAndAccuracy m acc) (x / 2 ^ e)) :
    x / 2 ^ place m e ≤ 2 ^ 53 := by
  have hm : (m : ℤ) = ⌊x / 2 ^ e⌋ := by
    rw [← hx.mantissa]
    cases acc with
    | exact => rfl
    | inexact o => cases o <;> rfl
  have hplace := place_eq m e
  have hlt : x / 2 ^ e < 2 ^ (m.log2 + 1) := by
    have hfloor : x / 2 ^ e < m + 1 := by
      have h := Int.lt_floor_add_one (x / 2 ^ e)
      rw [← hm] at h
      exact_mod_cast h
    have hlog : ((m + 1 : ℕ) : ℚ) ≤ (2 ^ (m.log2 + 1) : ℕ) := by exact_mod_cast Nat.lt_log2_self
    push_cast at hlog
    linarith
  have hpos : (0 : ℚ) < 2 ^ place m e := by positivity
  have hpose : (0 : ℚ) < 2 ^ e := by positivity
  rw [div_le_iff₀ hpos]
  rw [div_lt_iff₀ hpose] at hlt
  calc x ≤ 2 ^ (m.log2 + 1) * 2 ^ e := hlt.le
    _ = (2 : ℚ) ^ ((m.log2 : ℤ) + 1 + e) := by
        rw [zpow_add₀ two_ne_zero, zpow_add₀ two_ne_zero, zpow_natCast, zpow_one, pow_succ]
    _ ≤ (2 : ℚ) ^ (53 + place m e) := zpow_le_zpow_right₀ (by norm_num) (by omega)
    _ = 2 ^ 53 * 2 ^ place m e := by rw [zpow_add₀ two_ne_zero]; norm_num

/-- The number has all its 53 digits, or its place is as small as can be. -/
theorem place_cases (hx : Describes (.ofMantissaAndAccuracy m acc) (x / 2 ^ e)) (he : e ≤ place m e) :
    place m e = -1074 ∨ 2 ^ (place m e + 52) ≤ x := by
  have hplace := place_eq m e
  have hm : (m : ℤ) = ⌊x / 2 ^ e⌋ := by
    rw [← hx.mantissa]
    cases acc with
    | exact => rfl
    | inexact o => cases o <;> rfl
  by_cases hmin : place m e = -1074
  · exact .inl hmin
  · right
    have hzero : m ≠ 0 := by
      rintro rfl
      simp only [Nat.log2_zero] at hplace
      omega
    have hpose : (0 : ℚ) < 2 ^ e := by positivity
    have hle : (2 : ℚ) ^ m.log2 ≤ x / 2 ^ e := by
      have hlog : ((2 ^ m.log2 : ℕ) : ℚ) ≤ (m : ℕ) := by exact_mod_cast Nat.log2_self_le hzero
      have hfloor : (m : ℚ) ≤ x / 2 ^ e := by
        have h := Int.floor_le (x / 2 ^ e)
        rw [← hm] at h
        exact_mod_cast h
      push_cast at hlog
      linarith
    rw [le_div_iff₀ hpose] at hle
    rw [show place m e + 52 = m.log2 + e by omega, zpow_add₀ two_ne_zero, zpow_natCast]
    exact hle

theorem rounds_of_digits {t : ℤ} (hm : m < 2 ^ 53) (he : -1074 ≤ e) (hn : 2 ^ 52 ≤ m ∨ e = -1074)
    (ht : -1074 ≤ t) (hcases : t = -1074 ∨ 2 ^ (t + 52) ≤ x)
    (hvalue : (m : ℚ) * 2 ^ e = nearestEven (x / 2 ^ t) * 2 ^ t) :
    Rounds x (if h : m = 0 then .zero .positive else .finite .positive m e (Nat.pos_of_ne_zero h)) := by
  split
  · next hzero =>
      refine ⟨.zero _, t, ht, hcases, ?_⟩
      rw [← hvalue, hzero]
      simp [value]
  · exact ⟨.finite _ hm he hn, t, ht, hcases, hvalue⟩

/-- Rounding a positive number of which the first digits are known, and where it lies behind them. -/
theorem rounds_roundWithAccuracy (hx : Describes (.ofMantissaAndAccuracy m acc) (x / 2 ^ e))
    (he : e ≤ place m e) : Rounds x (roundWithAccuracy Format.binary64 .positive m e acc) := by
  have hmin : -1074 ≤ place m e := by rw [place_eq]; exact le_max_right _ _
  obtain ⟨hdescribes, hexponent⟩ := describes_shifted hx he
  have hcases := place_cases hx he
  have hrounded := hdescribes.roundedMantissa
  unfold roundWithAccuracy
  dsimp only
  rw [hexponent]
  generalize (shiftToTargetExponent Format.binary64 m e acc).1.roundedMantissa = r at hrounded ⊢
  have hle : r ≤ 2 ^ 53 := by
    have h : nearestEven (x / 2 ^ place m e) ≤ ((2 ^ 53 : ℕ) : ℤ) :=
      nearestEven_le (by push_cast; exact scaled_le hx)
    rw [← hrounded] at h
    exact_mod_cast h
  have hge : 2 ^ 52 ≤ r ∨ place m e = -1074 := by
    rcases hcases with hmin | hfull
    · exact .inr hmin
    · left
      have h := full_le hfull
      rw [← hrounded] at h
      exact_mod_cast h
  have hshift := shift_rounded hmin hle
  generalize shiftToTargetExponent Format.binary64 r (place m e) .exact = final at hshift ⊢
  obtain ⟨⟨mantissa, _, _⟩, exponent⟩ := final
  dsimp only at hshift ⊢
  by_cases hlt : r < 2 ^ 53
  · rw [if_pos hlt] at hshift
    obtain ⟨rfl, rfl⟩ := Prod.mk.inj hshift
    exact rounds_of_digits hlt hmin hge hmin hcases (by rw [← hrounded]; rfl)
  · rw [if_neg hlt] at hshift
    obtain ⟨rfl, rfl⟩ := Prod.mk.inj hshift
    have heq : r = 2 ^ 53 := by omega
    refine rounds_of_digits (by norm_num) (by omega) (.inl le_rfl) hmin hcases ?_
    rw [← hrounded, heq, zpow_add₀ two_ne_zero]
    norm_num
    ring

end Rounding

/-! ## Operations -/

theorem rounds_self {a : UnpackedFloat} (h : Nonneg a) : Rounds (value a) a := by
  cases h with
  | zero s => exact ⟨.zero s, -1074, le_rfl, .inl rfl, by simp [value, nearestEven]⟩
  | @finite m e hpos hm he hn =>
    have hne : (2 : ℚ) ^ e ≠ 0 := by positivity
    refine ⟨.finite hpos hm he hn, e, he, ?_, ?_⟩
    · rcases hn with hn | hn
      · right
        have hcast : ((2 ^ 52 : ℕ) : ℚ) ≤ (m : ℕ) := by exact_mod_cast hn
        rw [add_comm, zpow_add₀ two_ne_zero]
        exact mul_le_mul_of_nonneg_right (by push_cast at hcast; exact_mod_cast hcast) (by positivity)
      · exact .inl hn
    · simp only [value]
      rw [mul_div_cancel_right₀ _ hne]
      have h := nearestEven_intCast (K := ℚ) m
      push_cast at h
      rw [h]
      push_cast
      rfl

theorem log2_shiftLeft {m : ℕ} (hpos : 0 < m) (k : ℕ) : (m <<< k).log2 = m.log2 + k := by
  rw [Nat.shiftLeft_eq, Nat.log2_eq_iff (by positivity)]
  constructor
  · rw [pow_add]
    exact Nat.mul_le_mul_right _ (Nat.log2_self_le hpos.ne')
  · rw [show m.log2 + k + 1 = m.log2 + 1 + k by omega, pow_add]
    exact Nat.mul_lt_mul_of_pos_right Nat.lt_log2_self (by positivity)

theorem shiftLeft_mul (m k : ℕ) (e : ℤ) : ((m <<< k : ℕ) : ℚ) * 2 ^ (e - k) = m * 2 ^ e := by
  rw [Nat.shiftLeft_eq, zpow_sub₀ two_ne_zero, zpow_natCast]
  push_cast
  field_simp

/-- `round`, of any digits. -/
theorem rounds_round {m : ℕ} (hpos : 0 < m) (e : ℤ) :
    Rounds (m * 2 ^ e) (UnpackedFloat.round Format.binary64 .positive m e) := by
  unfold UnpackedFloat.round decreaseExponent
  dsimp only
  change Rounds _ (roundWithAccuracy _ _ (m <<< (e - place m e).toNat) (e - (e - place m e).toNat) _)
  generalize hk : (e - place m e).toNat = k
  have hplace : place (m <<< k) (e - k) = place m e := by
    rw [place_eq, place_eq, log2_shiftLeft hpos]
    push_cast
    congr 1
    omega
  have hscaled : (m * 2 ^ e : ℚ) / 2 ^ (e - k) = (m <<< k : ℕ) := by
    rw [← shiftLeft_mul m k e]
    exact mul_div_cancel_right₀ _ (by positivity)
  refine rounds_roundWithAccuracy ?_ (by rw [hplace]; omega)
  rw [hscaled]
  exact describes_exact _

variable {a b : UnpackedFloat}

/-- A sum is rounded. -/
theorem rounds_add (ha : Nonneg a) (hb : Nonneg b) :
    Rounds (value a + value b) (UnpackedFloat.add Format.binary64 a b) := by
  cases ha with
  | zero s =>
    cases hb with
    | zero s' =>
      have hzero : ∀ s'', Rounds (value (.zero s) + value (.zero s')) (.zero s'') := by
        intro s''
        have h := rounds_self (.zero s'')
        simpa [value] using h
      cases s <;> cases s' <;> exact hzero _
    | finite hpos hm he hn =>
      have h := rounds_self (.finite hpos hm he hn)
      simpa [value, UnpackedFloat.add] using h
  | @finite m e hpos hm he hn =>
    cases hb with
    | zero s =>
      have h := rounds_self (.finite hpos hm he hn)
      simpa [value, UnpackedFloat.add] using h
    | @finite m' e' hpos' hm' he' hn' =>
      have hvalue : value (.finite .positive m e hpos) + value (.finite .positive m' e' hpos') =
          ((m <<< (e - min e e').toNat + m' <<< (e' - min e e').toNat : ℕ) : ℚ) * 2 ^ min e e' := by
        have h := shiftLeft_mul m (e - min e e').toNat e
        have h' := shiftLeft_mul m' (e' - min e e').toNat e'
        rw [show e - ((e - min e e').toNat : ℤ) = min e e' by omega] at h
        rw [show e' - ((e' - min e e').toNat : ℤ) = min e e' by omega] at h'
        simp only [value]
        rw [← h, ← h']
        push_cast
        ring
      have hsum : 0 < m <<< (e - min e e').toNat + m' <<< (e' - min e e').toNat := by
        apply Nat.add_pos_left
        rw [Nat.shiftLeft_eq]
        positivity
      have hadd : UnpackedFloat.add Format.binary64 (.finite .positive m e hpos) (.finite .positive m' e' hpos') =
          UnpackedFloat.round Format.binary64 .positive
            (m <<< (e - min e e').toNat + m' <<< (e' - min e e').toNat) (min e e') := by
        unfold UnpackedFloat.add UnpackedFloat.normalize decreaseExponent
        dsimp only [Sign.apply]
        rw [Int.compare_eq_gt.mpr (by exact_mod_cast hsum)]
        dsimp only
        rw [← Nat.cast_add, Int.toNat_natCast]
      rw [hvalue, hadd]
      exact rounds_round hsum _

/-- A product is rounded. -/
theorem rounds_mul (ha : Nonneg a) (hb : Nonneg b) :
    Rounds (value a * value b) (UnpackedFloat.mul Format.binary64 a b) := by
  cases ha with
  | zero s =>
    cases hb with
    | zero s' => simpa [UnpackedFloat.mul, value] using rounds_self (.zero (s * s'))
    | finite hpos hm he hn => simpa [UnpackedFloat.mul, value] using rounds_self (.zero (s * .positive))
  | @finite m e hpos hm he hn =>
    cases hb with
    | zero s => simpa [UnpackedFloat.mul, value] using rounds_self (.zero (.positive * s))
    | @finite m' e' hpos' hm' he' hn' =>
      have hscaled : (m * 2 ^ e * (m' * 2 ^ e') : ℚ) / 2 ^ (e + e') = (m * m' : ℕ) := by
        rw [zpow_add₀ two_ne_zero]
        push_cast
        field_simp
      simp only [value, UnpackedFloat.mul]
      refine rounds_roundWithAccuracy ?_ ?_
      · rw [hscaled]
        exact describes_exact _
      · rw [place_eq]
        rcases hn with hn | rfl
        · have hlog : 52 ≤ (m * m').log2 :=
            (Nat.le_log2 (by positivity)).mpr (hn.trans (Nat.le_mul_of_pos_right m hpos'))
          omega
        · rcases hn' with hn' | rfl
          · have hlog : 52 ≤ (m * m').log2 :=
              (Nat.le_log2 (by positivity)).mpr (hn'.trans (Nat.le_mul_of_pos_left m' hpos))
            omega
          · omega

/-- The quotient of any digits, of which enough are computed. -/
theorem rounds_quotient {m m' : ℕ} (hpos : 0 < m) (hpos' : 0 < m') (e e' : ℤ) :
    Rounds (m * 2 ^ e / (m' * 2 ^ e'))
      (UnpackedFloat.div Format.binary64 (.finite .positive m e hpos) (.finite .positive m' e' hpos')) := by
  unfold UnpackedFloat.div divCore
  dsimp only
  have htarget : Format.binary64.targetExponent (totalExponent m e - totalExponent m' e') =
      max ((m.log2 + e) - (m'.log2 + e') - 53) (-1074) := by
    simp only [Format.targetExponent, totalExponent, Format.mantissaBits, Format.minExponent]
    norm_num
    omega
  rw [htarget]
  generalize ht : min (e - e') (max ((m.log2 + e) - (m'.log2 + e') - 53) (-1074)) = t
  generalize hk : (e - e' - t).toNat = k
  have hexact : (m * 2 ^ e / (m' * 2 ^ e') : ℚ) / 2 ^ t = ((m <<< k : ℕ) : ℚ) / m' := by
    have h := shiftLeft_mul m k (e - e')
    rw [show e - e' - (k : ℤ) = t by omega, zpow_sub₀ two_ne_zero] at h
    have hne : (m' : ℚ) ≠ 0 := by exact_mod_cast hpos'.ne'
    have hnet : (2 : ℚ) ^ t ≠ 0 := by positivity
    have hnee : (2 : ℚ) ^ e' ≠ 0 := by positivity
    rw [← mul_div_assoc, eq_div_iff hnee] at h
    field_simp
    rw [← h]
    ring
  have hplace : t ≤ place ((m <<< k) / m') t := by
    rw [place_eq]
    by_cases hmin : t ≤ -1074
    · omega
    · have hdigits : 2 ^ 52 ≤ (m <<< k) / m' := by
        rw [Nat.le_div_iff_mul_le hpos', Nat.shiftLeft_eq]
        calc 2 ^ 52 * m' ≤ 2 ^ 52 * 2 ^ (m'.log2 + 1) := Nat.mul_le_mul_left _ Nat.lt_log2_self.le
          _ = 2 ^ (52 + (m'.log2 + 1)) := (pow_add ..).symm
          _ ≤ 2 ^ (m.log2 + k) := Nat.pow_le_pow_right (by norm_num) (by omega)
          _ = 2 ^ m.log2 * 2 ^ k := pow_add ..
          _ ≤ m * 2 ^ k := Nat.mul_le_mul_right _ (Nat.log2_self_le hpos.ne')
      have hlog := (Nat.le_log2 (by omega)).mpr hdigits
      omega
  refine rounds_roundWithAccuracy ?_ hplace
  rw [hexact]
  exact describes_fraction hpos'

theorem rounds_div (ha : Nonneg a) (hb : Nonneg b) (hpos : 0 < value b) :
    Rounds (value a / value b) (UnpackedFloat.div Format.binary64 a b) := by
  cases hb with
  | zero s => simp [value] at hpos
  | @finite m' e' hpos' hm' he' hn' =>
    cases ha with
    | zero s =>
      have h := rounds_self (.zero (s / .positive))
      simpa [value, UnpackedFloat.div] using h
    | @finite m e hpos hm he hn => exact rounds_quotient hpos hpos' e e'

/-! ## What rounding keeps -/

section Bounds

variable {x : ℚ} {r c : UnpackedFloat}

theorem Rounds.error {t : ℤ} (h : value r = nearestEven (x / 2 ^ t) * 2 ^ t) :
    |value r - x| ≤ 2 ^ t / 2 := by
  have hpos : (0 : ℚ) < 2 ^ t := by positivity
  have herror := abs_nearestEven_sub_le (x / 2 ^ t)
  have hscaled : value r - x = (nearestEven (x / 2 ^ t) - x / 2 ^ t) * 2 ^ t := by
    rw [h, sub_mul, div_mul_cancel₀ _ hpos.ne']
  rw [hscaled, abs_mul, abs_of_pos hpos]
  calc |(nearestEven (x / 2 ^ t) : ℚ) - x / 2 ^ t| * 2 ^ t ≤ 1 / 2 * 2 ^ t :=
        mul_le_mul_of_nonneg_right herror hpos.le
    _ = 2 ^ t / 2 := by ring

theorem exists_scaled {m : ℕ} {e t : ℤ} (h : t ≤ e) : ∃ n : ℤ, (m : ℚ) * 2 ^ e = n * 2 ^ t := by
  refine ⟨m * 2 ^ (e - t).toNat, ?_⟩
  push_cast
  rw [mul_assoc, ← zpow_natCast, ← zpow_add₀ two_ne_zero]
  congr 2
  omega

theorem lt_of_place {m : ℕ} {e t : ℤ} (hm : m < 2 ^ 53) (h : e < t) : (m : ℚ) * 2 ^ e < 2 ^ (t + 52) := by
  have hcast : (m : ℚ) < (2 ^ 53 : ℕ) := by exact_mod_cast hm
  push_cast at hcast
  calc (m : ℚ) * 2 ^ e < 2 ^ 53 * 2 ^ e := mul_lt_mul_of_pos_right hcast (by positivity)
    _ = (2 : ℚ) ^ (53 + e) := by rw [zpow_add₀ two_ne_zero]; norm_num
    _ ≤ 2 ^ (t + 52) := zpow_le_zpow_right₀ (by norm_num) (by omega)

/-- A float below a number stays below the rounded number. -/
theorem Rounds.le_value (h : Rounds x r) (hc : Nonneg c) (hle : value c ≤ x) : value c ≤ value r := by
  obtain ⟨t, hmin, hcases, hvalue⟩ := h.place
  have hpos : (0 : ℚ) < 2 ^ t := by positivity
  cases hc with
  | zero s => exact value_nonneg h.nonneg
  | @finite m e hm0 hm he hn =>
    rw [hvalue]
    by_cases hte : t ≤ e
    · obtain ⟨n, hn⟩ := exists_scaled (m := m) hte
      simp only [value] at hle ⊢
      rw [hn] at hle ⊢
      have hint : n ≤ nearestEven (x / 2 ^ t) := le_nearestEven (by rwa [le_div_iff₀ hpos])
      exact mul_le_mul_of_nonneg_right (by exact_mod_cast hint) hpos.le
    · have hfull : (2 : ℚ) ^ (t + 52) ≤ x := by
        rcases hcases with h | h
        · omega
        · exact h
      have hcast : (2 ^ 52 : ℚ) ≤ nearestEven (x / 2 ^ t) := by exact_mod_cast full_le hfull
      calc value (.finite .positive m e hm0) ≤ 2 ^ (t + 52) := (lt_of_place hm (by omega)).le
        _ = 2 ^ 52 * 2 ^ t := by rw [add_comm, zpow_add₀ two_ne_zero]; norm_num
        _ ≤ nearestEven (x / 2 ^ t) * 2 ^ t := mul_le_mul_of_nonneg_right hcast hpos.le

/-- A float above a number stays above the rounded number. -/
theorem Rounds.value_le (h : Rounds x r) (hc : Nonneg c) (hx : 0 ≤ x) (hle : x ≤ value c) :
    value r ≤ value c := by
  obtain ⟨t, hmin, hcases, hvalue⟩ := h.place
  have hpos : (0 : ℚ) < 2 ^ t := by positivity
  rw [hvalue]
  cases hc with
  | zero s =>
    have hzero : x = 0 := le_antisymm hle hx
    have hint := nearestEven_intCast (K := ℚ) 0
    rw [Int.cast_zero] at hint
    simp [hzero, hint, value]
  | @finite m e hm0 hm he hn =>
    simp only [value] at hle ⊢
    by_cases hte : t ≤ e
    · obtain ⟨n, hn⟩ := exists_scaled (m := m) hte
      rw [hn] at hle ⊢
      have hint : nearestEven (x / 2 ^ t) ≤ n := nearestEven_le (by rwa [div_le_iff₀ hpos])
      exact mul_le_mul_of_nonneg_right (by exact_mod_cast hint) hpos.le
    · rcases hcases with h | hfull
      · omega
      · exact absurd (hle.trans_lt (lt_of_place hm (by omega))) (not_lt.mpr hfull)

theorem nonneg_one : Nonneg (.finite .positive (2 ^ 52) (-52) (Nat.two_pow_pos 52)) :=
  .finite _ (by norm_num) (by norm_num) (.inl le_rfl)

theorem value_one : value (.finite .positive (2 ^ 52) (-52) (Nat.two_pow_pos 52)) = 1 := by
  simp only [value]
  norm_num

/-- A number of at most 1 is rounded by at most `1 / 2 ^ 54`, and to at most 1. -/
theorem Rounds.le_one (h : Rounds x r) (hx : 0 ≤ x) (hle : x ≤ 1) :
    value r ≤ 1 ∧ |value r - x| ≤ 1 / 2 ^ 54 := by
  have hone : value r ≤ 1 := by
    have h := h.value_le nonneg_one hx (by rwa [value_one])
    rwa [value_one] at h
  refine ⟨hone, ?_⟩
  rcases hle.lt_or_eq with hlt | rfl
  · obtain ⟨t, hmin, hcases, hvalue⟩ := h.place
    have ht : t ≤ -53 := by
      rcases hcases with rfl | hfull
      · norm_num
      · have hpow : (2 : ℚ) ^ (t + 52) < 2 ^ (0 : ℤ) := by rw [zpow_zero]; exact hfull.trans_lt hlt
        have := (zpow_lt_zpow_iff_right₀ (by norm_num : (1 : ℚ) < 2)).mp hpow
        omega
    calc |value r - x| ≤ 2 ^ t / 2 := Rounds.error hvalue
      _ ≤ 2 ^ (-53 : ℤ) / 2 :=
          div_le_div_of_nonneg_right (zpow_le_zpow_right₀ (by norm_num : (1 : ℚ) ≤ 2) ht) (by norm_num)
      _ = 1 / 2 ^ 54 := by norm_num
  · have hge : 1 ≤ value r := by
      have h := h.le_value nonneg_one (by rw [value_one])
      rwa [value_one] at h
    rw [le_antisymm hone hge]
    norm_num

/-- A sum is rounded by at most its own `2 ^ 53`-th part. -/
theorem Rounds.sum_error {a b : UnpackedFloat} (h : Rounds (value a + value b) r) (ha : Nonneg a)
    (hb : Nonneg b) : |value r - (value a + value b)| ≤ value r / 2 ^ 53 := by
  obtain ⟨t, hmin, hcases, hvalue⟩ := h.place
  have hpos : (0 : ℚ) < 2 ^ t := by positivity
  rcases hcases with ht | hfull
  · -- in the smallest place sums are exact
    have hscaled : ∀ {a : UnpackedFloat}, Nonneg a → ∃ n : ℤ, value a = n * 2 ^ t := by
      intro a ha
      cases ha with
      | zero s => exact ⟨0, by simp [value]⟩
      | finite hpos hm he hn => exact exists_scaled (ht ▸ he)
    obtain ⟨n, hn⟩ := hscaled ha
    obtain ⟨n', hn'⟩ := hscaled hb
    have hsum : value a + value b = ((n + n' : ℤ) : ℚ) * 2 ^ t := by
      rw [hn, hn']
      push_cast
      ring
    have hexact : value r = value a + value b := by
      rw [hvalue, hsum, mul_div_cancel_right₀ _ hpos.ne', nearestEven_intCast]
    rw [hexact, sub_self, abs_zero, ← hexact]
    exact div_nonneg (value_nonneg h.nonneg) (by norm_num)
  · have hcast : (2 ^ 52 : ℚ) ≤ nearestEven ((value a + value b) / 2 ^ t) := by
      exact_mod_cast full_le hfull
    have hge : 2 ^ 52 * 2 ^ t ≤ value r := by
      rw [hvalue]
      exact mul_le_mul_of_nonneg_right hcast hpos.le
    have herror := Rounds.error hvalue
    rw [le_div_iff₀ (by norm_num)]
    linarith

/-- The shares of two floats in their sum lie between 0 and 1 and add up to 1, but for rounding. -/
theorem shares {a b s u v : UnpackedFloat} (ha : Nonneg a) (hb : Nonneg b)
    (hs : Rounds (value a + value b) s) (hpos : 0 < value s) (hu : Rounds (value a / value s) u)
    (hv : Rounds (value b / value s) v) :
    value u ≤ 1 ∧ value v ≤ 1 ∧ |value u + value v - 1| ≤ 1 / 2 ^ 52 := by
  have ha0 := value_nonneg ha
  have hb0 := value_nonneg hb
  have hle : value a ≤ value s := hs.le_value ha (by linarith)
  have hle' : value b ≤ value s := hs.le_value hb (by linarith)
  obtain ⟨hu1, huerror⟩ := hu.le_one (div_nonneg ha0 hpos.le) ((div_le_one hpos).mpr hle)
  obtain ⟨hv1, hverror⟩ := hv.le_one (div_nonneg hb0 hpos.le) ((div_le_one hpos).mpr hle')
  refine ⟨hu1, hv1, ?_⟩
  have hsum : |value a / value s + value b / value s - 1| ≤ 1 / 2 ^ 53 := by
    have hfrac : value a / value s + value b / value s - 1 = -(value s - (value a + value b)) / value s := by
      field_simp
      ring
    rw [hfrac, abs_div, abs_neg, abs_of_pos hpos, div_le_iff₀ hpos]
    have herror := hs.sum_error ha hb
    linarith
  have hsplit : value u + value v - 1 = (value u - value a / value s) + (value v - value b / value s) +
      (value a / value s + value b / value s - 1) := by ring
  rw [hsplit]
  calc |value u - value a / value s + (value v - value b / value s) +
        (value a / value s + value b / value s - 1)|
      ≤ |value u - value a / value s| + |value v - value b / value s| +
          |value a / value s + value b / value s - 1| := abs_add_three _ _ _
    _ ≤ 1 / 2 ^ 54 + 1 / 2 ^ 54 + 1 / 2 ^ 53 := by linarith
    _ = 1 / 2 ^ 52 := by norm_num

/-- Of the floats a number may be rounded to there is one. -/
theorem Rounds.value_eq_nearest (h : Rounds x r) (hx : 0 ≤ x) : value r = nearestDouble x := by
  rcases hx.eq_or_lt with rfl | hpos
  · rw [nearestDouble_zero]
    have hle := h.value_le (.zero .positive) le_rfl le_rfl
    exact le_antisymm hle (value_nonneg h.nonneg)
  · obtain ⟨hfull, hlt⟩ := lastPlace_spec hpos
    obtain ⟨t, hmin, hcases, hvalue⟩ := h.place
    have ht : t ≤ lastPlace x := by
      rcases hcases with rfl | hle
      · exact le_max_right _ _
      · have := (zpow_lt_zpow_iff_right₀ (by norm_num : (1 : ℚ) < 2)).mp (hle.trans_lt hlt)
        omega
    rcases ht.lt_or_eq with hlt' | rfl
    · -- the digits behind the last place are too few to round it the other way
      have hfull := hfull.resolve_left (by omega)
      have hfirst : (2 : ℚ) ^ (lastPlace x + 52) ≤ value r := by
        have hpow : value (.finite .positive (2 ^ 52) (lastPlace x) (Nat.two_pow_pos 52)) =
            2 ^ (lastPlace x + 52) := by
          simp only [value]
          rw [add_comm, zpow_add₀ two_ne_zero]
          norm_num
        have hle := h.le_value (.finite _ (by norm_num) (le_max_right _ _) (.inl le_rfl)) (hpow.trans_le hfull)
        exact hpow ▸ hle
      obtain ⟨n, hn⟩ : ∃ n : ℤ, value r = n * 2 ^ lastPlace x := by
        cases h.nonneg with
        | zero s => exact ⟨0, by simp [value]⟩
        | finite hpos hm he hn =>
          refine exists_scaled ?_
          by_contra hplace
          exact absurd hfirst (not_le.mpr (lt_of_place hm (not_le.mp hplace)))
      have hplace : (0 : ℚ) < 2 ^ lastPlace x := by positivity
      have hnear : |x / 2 ^ lastPlace x - n| < 1 / 2 := by
        have herror := Rounds.error hvalue
        have hstep : (2 : ℚ) ^ (t + 1) ≤ 2 ^ lastPlace x := zpow_le_zpow_right₀ (by norm_num) (by omega)
        rw [zpow_add₀ two_ne_zero, zpow_one] at hstep
        have hscaled : x / 2 ^ lastPlace x - n = -(value r - x) / 2 ^ lastPlace x := by
          rw [hn]
          field_simp
          ring
        rw [hscaled, abs_div, abs_neg, abs_of_pos hplace, div_lt_iff₀ hplace]
        linarith [show (0 : ℚ) < 2 ^ t by positivity]
      rw [hn, nearestDouble, nearestEven_eq hnear]
    · exact hvalue

end Bounds

/-! ## Differences -/

/-- The finite floats, with the mantissa in its place. -/
inductive Placed : UnpackedFloat → Prop
  | zero (s : Sign) : Placed (.zero s)
  | finite (s : Sign) {m : ℕ} {e : ℤ} (hpos : 0 < m) (hm : m < 2 ^ 53) (he : -1074 ≤ e)
      (hn : 2 ^ 52 ≤ m ∨ e = -1074) : Placed (.finite s m e hpos)

theorem Nonneg.placed {a : UnpackedFloat} (h : Nonneg a) : Placed a := by
  cases h with
  | zero s => exact .zero s
  | finite hpos hm he hn => exact .finite _ hpos hm he hn

theorem Placed.neg {a : UnpackedFloat} (h : Placed a) : Placed a.neg := by
  cases h with
  | zero s => exact .zero _
  | finite s hpos hm he hn => exact .finite _ hpos hm he hn

theorem value_zero (s : Sign) : value (.zero s) = 0 := rfl

theorem value_neg (a : UnpackedFloat) : value a.neg = -value a := by
  cases a with
  | finite s m e hpos =>
    cases s with
    | positive => rfl
    | negative => exact (neg_neg _).symm
  | _ => simp [UnpackedFloat.neg, value]

theorem round_negative (m : ℕ) (e : ℤ) :
    UnpackedFloat.round Format.binary64 .negative m e = (UnpackedFloat.round Format.binary64 .positive m e).neg := by
  unfold UnpackedFloat.round roundWithAccuracy
  dsimp only
  split <;> rfl

/-- Rounding a number of any sign. -/
theorem normalize_spec (n e : ℤ) : Placed (UnpackedFloat.normalize Format.binary64 n e .positive) ∧
    value (UnpackedFloat.normalize Format.binary64 n e .positive) = nearestDouble (n * 2 ^ e) := by
  unfold UnpackedFloat.normalize
  rcases lt_trichotomy n 0 with hlt | rfl | hgt
  · rw [Int.compare_eq_lt.mpr hlt]
    dsimp only
    have hrounds := rounds_round (m := (-n).toNat) (by omega) e
    have hcast : (((-n).toNat : ℕ) : ℚ) = -n := by exact_mod_cast Int.toNat_of_nonneg (by omega : 0 ≤ -n)
    rw [round_negative, value_neg, hrounds.value_eq_nearest (by positivity), hcast, neg_mul, nearestDouble_neg,
      neg_neg]
    exact ⟨hrounds.nonneg.placed.neg, rfl⟩
  · exact ⟨.zero _, by simp [value]⟩
  · rw [Int.compare_eq_gt.mpr hgt]
    dsimp only
    have hrounds := rounds_round (m := n.toNat) (by omega) e
    have hcast : ((n.toNat : ℕ) : ℚ) = n := by exact_mod_cast Int.toNat_of_nonneg hgt.le
    rw [hrounds.value_eq_nearest (by positivity), hcast]
    exact ⟨hrounds.nonneg.placed, rfl⟩

theorem Placed.nearest {a : UnpackedFloat} (h : Placed a) : nearestDouble (value a) = value a := by
  have hnonneg : ∀ {b : UnpackedFloat}, Nonneg b → nearestDouble (value b) = value b := fun hb =>
    ((rounds_self hb).value_eq_nearest (value_nonneg hb)).symm
  cases h with
  | zero s => exact hnonneg (.zero s)
  | finite s hpos hm he hn =>
    cases s with
    | positive => exact hnonneg (.finite hpos hm he hn)
    | negative =>
      have h := hnonneg (.finite hpos hm he hn)
      simp only [value] at h ⊢
      rw [nearestDouble_neg, h]

theorem value_apply (s : Sign) (m : ℕ) (e : ℤ) (hpos : 0 < m) :
    value (.finite s m e hpos) = (s.apply m : ℤ) * 2 ^ e := by
  cases s <;> simp [value, Sign.apply]

/-- A difference is rounded. -/
theorem value_sub (ha : Placed a) (hb : Placed b) :
    Placed (UnpackedFloat.sub Format.binary64 a b) ∧
      value (UnpackedFloat.sub Format.binary64 a b) = nearestDouble (value a - value b) := by
  cases ha with
  | zero s =>
    cases hb with
    | zero s' =>
      have hzero : ∀ s'', Placed (.zero s'') ∧ value (.zero s'') = nearestDouble (value (.zero s) - value (.zero s')) :=
        fun s'' => ⟨.zero s'', by simp [value]⟩
      cases s <;> cases s' <;> exact hzero _
    | @finite s' m e hpos hm he hn =>
      have hsub : UnpackedFloat.sub Format.binary64 (.zero s) (.finite s' m e hpos) =
          (UnpackedFloat.finite s' m e hpos).neg := rfl
      have hplaced := (Placed.finite s' hpos hm he hn).neg
      rw [hsub, value_zero, zero_sub, ← value_neg, hplaced.nearest]
      exact ⟨hplaced, rfl⟩
  | @finite s m e hpos hm he hn =>
    have hplaced := Placed.finite s hpos hm he hn
    cases hb with
    | zero s' =>
      have hsub : UnpackedFloat.sub Format.binary64 (.finite s m e hpos) (.zero s') = .finite s m e hpos := rfl
      rw [hsub, value_zero, sub_zero, hplaced.nearest]
      exact ⟨hplaced, rfl⟩
    | @finite s' m' e' hpos' hm' he' hn' =>
      have h := shiftLeft_mul m (e - min e e').toNat e
      have h' := shiftLeft_mul m' (e' - min e e').toNat e'
      rw [show e - ((e - min e e').toNat : ℤ) = min e e' by omega] at h
      rw [show e' - ((e' - min e e').toNat : ℤ) = min e e' by omega] at h'
      have happly : ∀ (s : Sign) (n : ℕ), ((s.apply n : ℤ) : ℚ) = s.apply 1 * n := by
        intro s n
        cases s <;> simp [Sign.apply]
      have hvalue : value (.finite s m e hpos) - value (.finite s' m' e' hpos') =
          ((s.apply (m <<< (e - min e e').toNat) - s'.apply (m' <<< (e' - min e e').toNat) : ℤ) : ℚ) *
            2 ^ min e e' := by
        rw [value_apply, value_apply, Int.cast_sub, happly s m, happly s' m', happly s (m <<< _),
          happly s' (m' <<< _), mul_assoc, mul_assoc, ← h, ← h']
        ring
      rw [hvalue]
      exact normalize_spec _ _

end Caips.Logic.Binary64
