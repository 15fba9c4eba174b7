/-
Caips.Logic.Floats — what a program may rely on of the type `Float`.

`Float` is a packed float; operations unpack, compute and pack again. Packing
keeps a float that is in its place and not too large (`unpack_pack`), so the laws
of `Caips.Logic.Binary64` hold of `Float` where results are finite.
-/
import Caips.Logic.Binary64

namespace Caips.Logic.Binary64

open Float.Model (UnpackedFloat Format)
open Float.Model.UnpackedFloat

/-! ## Packing -/

theorem unpackSign_packComponents {spec : Format} {s : Sign} {exponent : BitVec spec.exponentBits}
    {mantissa : BitVec spec.mantissaBitsWithoutImplicit} :
    unpackSign (packComponents spec s exponent mantissa) = s.toBitVec := by
  ext i hi
  obtain rfl : i = 0 := by omega
  simp [unpackSign, packComponents, BitVec.getLsbD_append, BitVec.getElem_append]

theorem ofBitVec_toBitVec (s : Sign) : Sign.ofBitVec s.toBitVec = s := by cases s <;> rfl

/-- A float of 64 bits, packed and unpacked again. -/
def repack (r : UnpackedFloat) : UnpackedFloat := unpack Format.binary64 (pack Format.binary64 r)

/-- What is unpacked from components. -/
theorem unpack_packComponents (s : Sign) (exponent : BitVec 11) (mantissa : BitVec 52) :
    unpack Format.binary64 (packComponents Format.binary64 s exponent mantissa) =
      if exponent = -1#11 then if mantissa = 0#52 then .infinity s else .notANumber
      else if exponent = 0#11 then
        if h : mantissa = 0#52 then .zero s
        else .finite s mantissa.toNat (-1074) (by simpa [BitVec.toNat_pos, BitVec.pos_iff_ne_zero])
      else .finite s (2 ^ 52 + mantissa.toNat) (exponent.toNat - 1075) (by omega) := by
  have hbias : Format.binary64.exponentBias = 1023 := by decide
  have happend : (1#1 ++ mantissa).toNat = 2 ^ 52 + mantissa.toNat := by
    rw [BitVec.toNat_append, ← Nat.shiftLeft_add_eq_or_of_lt mantissa.isLt]
    rfl
  unfold unpack
  dsimp only
  simp only [unpackMantissa_packComponents, unpackExponent_packComponents, unpackSign_packComponents,
    ofBitVec_toBitVec]
  by_cases hmax : exponent = -1#11
  · rw [if_pos hmax, if_pos hmax]
  · rw [if_neg hmax, if_neg hmax]
    by_cases hzero : exponent = 0#11
    · rw [if_pos hzero, if_pos hzero]
      split
      · rfl
      · simp [hzero, hbias]
    · rw [if_neg hzero, if_neg hzero]
      simp [hbias, happend]

theorem repack_eq (s : Sign) {m : ℕ} (e : ℤ) (hpos : 0 < m) :
    repack (.finite s m e hpos) = unpack Format.binary64
      (if 2 ^ 11 ≤ (e + (1023 : ℕ) + (52 : ℕ)).toNat + 1 then packedInfinity Format.binary64 s
        else if m.log2 + 1 = 53 then
          packComponents Format.binary64 s (BitVec.ofNat 11 (e + (1023 : ℕ) + (52 : ℕ)).toNat) (BitVec.ofNat 52 m)
        else packComponents Format.binary64 s 0#11 (BitVec.ofNat 52 m)) := rfl

/-- Packing keeps a float that is in its place, but for one that is too large. -/
theorem repack_finite {s : Sign} {m : ℕ} {e : ℤ} (hpos : 0 < m) (hm : m < 2 ^ 53) (he : -1074 ≤ e)
    (hn : 2 ^ 52 ≤ m ∨ e = -1074) :
    repack (.finite s m e hpos) = if e ≤ 971 then .finite s m e hpos else .infinity s := by
  have hlog : m.log2 + 1 = 53 ↔ 2 ^ 52 ≤ m := by
    have hlt := (Nat.log2_lt hpos.ne').mpr hm
    rw [← Nat.le_log2 hpos.ne']
    omega
  have hmod : (BitVec.ofNat 52 m).toNat = m % 2 ^ 52 := BitVec.toNat_ofNat m 52
  rw [repack_eq]
  have hover : 2 ^ 11 ≤ (e + (1023 : ℕ) + (52 : ℕ)).toNat + 1 ↔ 971 < e := by omega
  by_cases hmax : 971 < e
  · rw [if_pos (hover.mpr hmax), if_neg (not_le.mpr hmax)]
    exact unpack_packComponents s (-1#11) 0#52
  · rw [if_neg (hover.not.mpr hmax), if_pos (not_lt.mp hmax)]
    by_cases hnormal : 2 ^ 52 ≤ m
    · have hexponent : (BitVec.ofNat 11 (e + (1023 : ℕ) + (52 : ℕ)).toNat).toNat = (e + 1075).toNat := by
        rw [BitVec.toNat_ofNat, Nat.mod_eq_of_lt (by omega)]
        omega
      rw [if_pos (hlog.mpr hnormal), unpack_packComponents, if_neg, if_neg]
      · congr 1
        · omega
        · omega
      · intro h
        have := congrArg BitVec.toNat h
        rw [hexponent] at this
        simp at this
        omega
      · intro h
        have := congrArg BitVec.toNat h
        rw [hexponent] at this
        simp at this
        omega
    · rw [if_neg (hlog.not.mpr hnormal), unpack_packComponents, if_neg (by decide), if_pos rfl, dif_neg]
      · congr 1
        · omega
        · omega
      · intro h
        have := congrArg BitVec.toNat h
        rw [hmod] at this
        simp at this
        omega

variable {r : UnpackedFloat} {a : UnpackedFloat}

/-- What packing makes of a number is a number. -/
theorem repack_ne_notANumber (h : r ≠ .notANumber) : repack r ≠ .notANumber := by
  have hcomponents : ∀ (s : Sign) (exponent : BitVec 11) (mantissa : BitVec 52),
      exponent ≠ -1#11 ∨ mantissa = 0#52 →
      unpack Format.binary64 (packComponents Format.binary64 s exponent mantissa) ≠ .notANumber := by
    intro s exponent mantissa hcases
    rw [unpack_packComponents]
    split
    · next hmax =>
        rw [if_pos (hcases.resolve_left (not_not.mpr hmax))]
        simp
    · split
      · split <;> simp
      · simp
  cases r with
  | notANumber => exact absurd rfl h
  | infinity s => exact hcomponents s (-1#11) 0#52 (.inr rfl)
  | zero s => exact hcomponents s 0#11 0#52 (.inr rfl)
  | finite s m e hpos =>
    rw [repack_eq]
    split
    · exact hcomponents s (-1#11) 0#52 (.inr rfl)
    · next hover =>
        split
        · refine hcomponents _ _ _ (.inl fun hmax => ?_)
          have := congrArg BitVec.toNat hmax
          rw [BitVec.toNat_ofNat, Nat.mod_eq_of_lt (by omega)] at this
          simp at this
          omega
        · exact hcomponents _ _ _ (.inl (by decide))

/-- A float that 64 bits hold: a finite one is in its place, and not too large. -/
inductive Packed : UnpackedFloat → Prop
  | notANumber : Packed .notANumber
  | infinity (s : Sign) : Packed (.infinity s)
  | zero (s : Sign) : Packed (.zero s)
  | finite (s : Sign) {m : ℕ} {e : ℤ} (hpos : 0 < m) (hm : m < 2 ^ 53) (he : -1074 ≤ e) (hle : e ≤ 971)
      (hn : 2 ^ 52 ≤ m ∨ e = -1074) : Packed (.finite s m e hpos)

theorem packComponents_unpack (b : BitVec 64) :
    packComponents Format.binary64 (Sign.ofBitVec (@unpackSign Format.binary64 b))
      (@unpackExponent Format.binary64 b) (@unpackMantissa Format.binary64 b) = b := by
  have hsign : ∀ v : BitVec 1, (Sign.ofBitVec v).toBitVec = v := by decide
  change (Sign.ofBitVec _).toBitVec ++ _ ++ _ = b
  rw [hsign]
  change b.extractLsb' 63 1 ++ b.extractLsb' 52 11 ++ b.extractLsb' 0 52 = b
  have happend : b.extractLsb' 63 1 ++ b.extractLsb' 52 11 = b.extractLsb' 52 12 :=
    BitVec.extractLsb'_append_extractLsb'_eq_extractLsb' rfl
  rw [happend]
  exact @BitVec.extractLsb'_append_extractLsb' 12 52 b

theorem packed_unpack (b : BitVec 64) : Packed (unpack Format.binary64 b) := by
  rw [← packComponents_unpack b, unpack_packComponents]
  generalize Sign.ofBitVec _ = s
  generalize @unpackExponent Format.binary64 b = exponent
  generalize @unpackMantissa Format.binary64 b = mantissa
  have hexponent : exponent.toNat < 2 ^ 11 := exponent.isLt
  have hmantissa : mantissa.toNat < 2 ^ 52 := mantissa.isLt
  split
  · split
    · exact .infinity s
    · exact .notANumber
  · next hmax =>
      split
      · split
        · exact .zero s
        · exact .finite s _ (by omega) le_rfl (by omega) (.inr rfl)
      · next hzero =>
          have hne : exponent.toNat ≠ 2047 := fun h => hmax (BitVec.eq_of_toNat_eq (by simpa using h))
          have hpos : exponent.toNat ≠ 0 := fun h => hzero (BitVec.eq_of_toNat_eq (by simpa using h))
          exact .finite s _ (by omega) (by omega) (by omega) (.inl (by omega))

/-! ## `Float` -/

/-- The float, unpacked. -/
def unpacked (x : Float) : UnpackedFloat := x.toModel.unpack

/-- The number a `Float` stands for; 0 if it is none. -/
def toRat (x : Float) : ℚ := value (unpacked x)

theorem packed_unpacked (x : Float) : Packed (unpacked x) := packed_unpack _

theorem unpacked_add (x y : Float) :
    unpacked (x + y) = repack (UnpackedFloat.add Format.binary64 (unpacked x) (unpacked y)) := rfl

theorem unpacked_div (x y : Float) :
    unpacked (x / y) = repack (UnpackedFloat.div Format.binary64 (unpacked x) (unpacked y)) := rfl

theorem unpacked_mul (x y : Float) :
    unpacked (x * y) = repack (UnpackedFloat.mul Format.binary64 (unpacked x) (unpacked y)) := rfl

theorem unpacked_zero : unpacked 0 = .zero .positive := rfl

theorem isFinite_eq (x : Float) : x.isFinite = (unpacked x).isFinite := rfl

theorem isInf_eq (x : Float) : x.isInf = (unpacked x).isInf := rfl

theorem lt_zero_iff (x : Float) : x < 0 ↔ (unpacked x).lt (.zero .positive) = true := by
  rw [← unpacked_zero]
  exact decide_eq_true_iff

theorem le_zero_iff (x : Float) : x ≤ 0 ↔ (unpacked x).le (.zero .positive) = true := by
  rw [← unpacked_zero]
  exact decide_eq_true_iff

theorem beq_zero_eq (x : Float) : (x == 0) = (unpacked x).beq (.zero .positive) := by
  rw [← unpacked_zero]
  rfl

/-! ## Integers -/

theorem roundWithAccuracy_ne_notANumber (s : Sign) (m : ℕ) (e : ℤ) (acc : Accuracy) :
    roundWithAccuracy Format.binary64 s m e acc ≠ .notANumber := by
  unfold roundWithAccuracy
  dsimp only
  split <;> simp

theorem mul_finite_ne_notANumber (h : a ≠ .notANumber) (s : Sign) (m : ℕ) (e : ℤ)
    (hpos : 0 < m) : UnpackedFloat.mul Format.binary64 a (.finite s m e hpos) ≠ .notANumber := by
  cases a with
  | notANumber => exact absurd rfl h
  | infinity s' => simp [UnpackedFloat.mul]
  | zero s' => simp [UnpackedFloat.mul]
  | finite s' m' e' hpos' => exact roundWithAccuracy_ne_notANumber _ _ _ _

theorem toFloat_ne_notANumber (k : UInt64) : unpacked k.toFloat ≠ .notANumber := by
  refine repack_ne_notANumber ?_
  change UnpackedFloat.normalize Format.binary64 (k.toNat : ℤ) 0 .positive ≠ .notANumber
  unfold UnpackedFloat.normalize
  split
  · exact roundWithAccuracy_ne_notANumber _ _ _ _
  · simp
  · exact roundWithAccuracy_ne_notANumber _ _ _ _

theorem ofScientific_ne_notANumber (m : ℕ) (e : ℤ) :
    UnpackedFloat.ofScientific Format.binary64 m e ≠ .notANumber := by
  unfold UnpackedFloat.ofScientific
  split
  · simp
  · split
    · simp
    · split
      · simp
      · split
        · exact roundWithAccuracy_ne_notANumber _ _ _ _
        · exact roundWithAccuracy_ne_notANumber _ _ _ _

theorem ofNat_ne_notANumber (n : ℕ) : unpacked (.ofNat n) ≠ .notANumber := by
  change unpacked (Float.ofScientific n false 0) ≠ .notANumber
  unfold Float.ofScientific
  split
  · rw [if_neg (by simp), unpacked_mul]
    have hone : unpacked Float.exactlyRepresentablePowersOfTen[0] = .finite .positive (2 ^ 52) (-52) (by norm_num) :=
      rfl
    refine repack_ne_notANumber ?_
    rw [hone]
    exact mul_finite_ne_notANumber (toFloat_ne_notANumber _) _ _ _ _
  · exact repack_ne_notANumber (ofScientific_ne_notANumber n _)

theorem ofInt_isFinite {n : ℤ} (h : (Float.ofInt n).isInf = false) : (Float.ofInt n).isFinite = true := by
  have hne : unpacked (.ofInt n) ≠ .notANumber := by
    cases n with
    | ofNat n => exact ofNat_ne_notANumber n
    | negSucc n =>
      refine repack_ne_notANumber fun hneg => ofNat_ne_notANumber n.succ ?_
      change (unpacked (.ofNat n.succ)).neg = _ at hneg
      cases hn : unpacked (.ofNat n.succ) <;> simp [hn, neg] at hneg ⊢
  rw [isInf_eq] at h
  rw [isFinite_eq]
  cases hn : unpacked (.ofInt n) <;> simp_all [isInf, isFinite]

/-! ## Overflow -/

/-- Half a step between the largest floats. -/
def halfStep : ℚ := 2 ^ 970

/-- The least of the numbers that are too large to be rounded to a float. -/
def overflow : ℚ := (2 ^ 54 - 1) * halfStep

theorem halfStep_pos : 0 < halfStep := by
  unfold halfStep
  positivity

theorem two_zpow_970_add (k : ℕ) : (2 : ℚ) ^ (970 + k : ℤ) = 2 ^ k * halfStep := by
  rw [zpow_add₀ two_ne_zero, zpow_natCast, mul_comm]
  rfl

theorem value_lt_iff {m : ℕ} {e : ℤ} (hpos : 0 < m) (hm : m < 2 ^ 53) (hn : 2 ^ 52 ≤ m ∨ e = -1074) :
    value (.finite .positive m e hpos) < 2 ^ 54 * halfStep ↔ e ≤ 971 := by
  have hlt : (m : ℚ) < 2 ^ 53 := by exact_mod_cast hm
  simp only [value]
  constructor
  · intro h
    by_contra he
    have hfull : (2 : ℚ) ^ 52 ≤ m := by exact_mod_cast hn.resolve_right (by omega)
    have hle : (2 : ℚ) ^ (970 + (2 : ℕ) : ℤ) ≤ 2 ^ e := zpow_le_zpow_right₀ (by norm_num) (by push_cast; omega)
    have hge : (2 : ℚ) ^ 52 * 2 ^ (970 + (2 : ℕ) : ℤ) ≤ m * 2 ^ e :=
      mul_le_mul hfull hle (by positivity) (by positivity)
    rw [two_zpow_970_add] at hge
    linarith
  · intro he
    have hle : (2 : ℚ) ^ e ≤ 2 ^ (970 + (1 : ℕ) : ℤ) := zpow_le_zpow_right₀ (by norm_num) (by push_cast; omega)
    have hprod : (m : ℚ) * 2 ^ e < 2 ^ 53 * 2 ^ (970 + (1 : ℕ) : ℤ) :=
      mul_lt_mul hlt hle (by positivity) (by positivity)
    rw [two_zpow_970_add] at hprod
    linarith

theorem repack_zero (s : Sign) : repack (.zero s) = .zero s := unpack_packComponents s 0#11 0#52

theorem repack_nonneg (h : Nonneg r) :
    repack r = if value r < 2 ^ 54 * halfStep then r else .infinity .positive := by
  cases h with
  | zero s => rw [repack_zero, if_pos (by simp [value, halfStep_pos])]
  | finite hpos hm he hn =>
    rw [repack_finite hpos hm he hn]
    simp only [value_lt_iff hpos hm hn]

/-- A float that is not too large has at most 53 digits up to the largest place. -/
theorem value_le_largest (h : Nonneg r) (hlt : value r < 2 ^ 54 * halfStep) :
    value r ≤ (2 ^ 53 - 1) * (2 * halfStep) := by
  cases h with
  | zero s =>
    simp only [value]
    exact mul_nonneg (by norm_num) (mul_nonneg zero_le_two halfStep_pos.le)
  | @finite m e hpos hm he hn =>
    have hle := (value_lt_iff hpos hm hn).mp hlt
    have hdigits : (m : ℚ) ≤ 2 ^ 53 - 1 := by
      have : ((m + 1 : ℕ) : ℚ) ≤ (2 ^ 53 : ℕ) := by exact_mod_cast hm
      push_cast at this
      linarith
    have hplace : (2 : ℚ) ^ e ≤ 2 ^ (970 + (1 : ℕ) : ℤ) :=
      zpow_le_zpow_right₀ (by norm_num) (by push_cast; omega)
    rw [two_zpow_970_add, pow_one] at hplace
    exact mul_le_mul hdigits hplace (by positivity) (by norm_num)

/-- A half below an even number is rounded to it. -/
theorem even_le_nearestEven {n : ℤ} {y : ℚ} (hn : n % 2 = 0) (h : (n : ℚ) - 1 / 2 ≤ y) : n ≤ nearestEven y := by
  by_cases hle : (n : ℚ) ≤ y
  · exact le_nearestEven hle
  · have hfloor : ⌊y⌋ = n - 1 := by
      rw [Int.floor_eq_iff]
      push_cast
      constructor <;> linarith
    unfold nearestEven
    rw [hfloor]
    split
    · next hdown =>
        push_cast at hdown
        rcases hdown with hlt | ⟨-, heven⟩
        · linarith
        · omega
    · omega

/-- The rounded number is too large where the number is, by half a place. -/
theorem Rounds.lt_iff {x : ℚ} (h : Rounds x r) :
    value r < 2 ^ 54 * halfStep ↔ x < overflow := by
  obtain ⟨t, hmin, hcases, hvalue⟩ := h.place
  have herror := abs_le.mp (Rounds.error hvalue)
  have hpos := halfStep_pos
  have hfull : 972 ≤ t → 2 ^ 54 * halfStep ≤ x := by
    intro ht
    have hle : (2 : ℚ) ^ (970 + (54 : ℕ) : ℤ) ≤ 2 ^ (t + 52) :=
      zpow_le_zpow_right₀ (by norm_num) (by push_cast; omega)
    rw [two_zpow_970_add] at hle
    exact hle.trans (hcases.resolve_left (by omega))
  have hplace : ∀ k : ℕ, t ≤ 970 + k → (2 : ℚ) ^ t ≤ 2 ^ k * halfStep := by
    intro k hk
    rw [← two_zpow_970_add]
    exact zpow_le_zpow_right₀ (by norm_num) hk
  have hdigits : ((2 ^ 53 : ℤ) : ℚ) * (2 * halfStep) = 2 ^ 54 * halfStep := by
    push_cast
    ring
  constructor
  · intro hlt
    have hle := value_le_largest h.nonneg hlt
    by_contra hge
    rw [not_lt, overflow] at hge
    rcases lt_trichotomy t 971 with ht | rfl | ht
    · have := hplace 0 (by push_cast; omega)
      linarith
    · -- the place is the largest, and a half is rounded up
      have hscale : (2 : ℚ) ^ (971 : ℤ) = 2 * halfStep := two_zpow_970_add 1
      rw [hscale] at hvalue
      have hup : (2 ^ 53 : ℤ) ≤ nearestEven (x / (2 * halfStep)) := by
        apply even_le_nearestEven (by norm_num)
        rw [le_div_iff₀ (by positivity)]
        push_cast
        linarith
      have hcast : ((2 ^ 53 : ℤ) : ℚ) ≤ nearestEven (x / (2 * halfStep)) := by exact_mod_cast hup
      have hprod := mul_le_mul_of_nonneg_right hcast (by positivity : (0 : ℚ) ≤ 2 * halfStep)
      rw [← hvalue, hdigits] at hprod
      exact absurd hlt (not_lt.mpr hprod)
    · have hone : (2 ^ 52 : ℚ) ≤ nearestEven (x / 2 ^ t) := by
        exact_mod_cast full_le (hcases.resolve_left (by omega))
      have hlarge : (2 : ℚ) ^ (970 + (2 : ℕ) : ℤ) ≤ 2 ^ t :=
        zpow_le_zpow_right₀ (by norm_num) (by push_cast; omega)
      rw [two_zpow_970_add] at hlarge
      have hprod := mul_le_mul hone hlarge (by positivity) (le_trans (by norm_num) hone)
      rw [← hvalue] at hprod
      linarith
  · intro hlt
    rw [overflow] at hlt
    by_contra hge
    rw [not_lt] at hge
    have ht : t ≤ 971 := by
      by_contra ht
      linarith [hfull (by omega)]
    have := hplace 1 (by push_cast; omega)
    linarith

theorem Rounds.repack {x : ℚ} (h : Rounds x r) :
    repack r = if x < overflow then r else .infinity .positive := by
  rw [repack_nonneg h.nonneg]
  simp only [h.lt_iff]

/-! ## Natural numbers -/

variable {n : ℕ}

/-- An integer of 53 digits is rounded to itself. -/
theorem Rounds.value_eq (h : Rounds n r) (hn : n < 2 ^ 53) : value r = n := by
  obtain ⟨t, -, hcases, hvalue⟩ := h.place
  have ht : t ≤ 0 := by
    rcases hcases with rfl | hfull
    · norm_num
    · by_contra hpos
      have hle : (2 : ℚ) ^ (53 : ℤ) ≤ 2 ^ (t + 52) := zpow_le_zpow_right₀ (by norm_num) (by omega)
      have hcast : (n : ℚ) < (2 ^ 53 : ℕ) := by exact_mod_cast hn
      push_cast at hcast
      have hpow : (2 : ℚ) ^ (53 : ℤ) = 2 ^ 53 := by norm_cast
      linarith
  have hscaled : (n : ℚ) / 2 ^ t = (n * 2 ^ (-t).toNat : ℕ) := by
    push_cast
    rw [← zpow_natCast, Int.toNat_of_nonneg (by omega), zpow_neg, div_eq_mul_inv]
  have hround := nearestEven_intCast (K := ℚ) (n * 2 ^ (-t).toNat : ℕ)
  rw [Int.cast_natCast, ← hscaled] at hround
  rw [hvalue, hround, Int.cast_natCast, ← hscaled, div_mul_cancel₀ _ (by positivity)]

theorem rounds_toFloat (hn : n < 2 ^ 53) : Rounds n (unpacked n.toUInt64.toFloat) := by
  have hnat : n.toUInt64.toNat = n := by
    rw [Nat.toUInt64_eq, UInt64.toNat_ofNat', Nat.mod_eq_of_lt (by omega)]
  have hnormalize : Rounds n (UnpackedFloat.normalize Format.binary64 (n : ℤ) 0 .positive) := by
    rcases n.eq_zero_or_pos with rfl | hpos
    · exact rounds_self (.zero .positive)
    · have hround := rounds_round hpos 0
      rw [zpow_zero, mul_one] at hround
      unfold UnpackedFloat.normalize
      rw [compare_gt_iff_gt.mpr (by omega : (n : ℤ) > 0)]
      exact hround
  have hlt : (n : ℚ) < overflow := by
    have hcast : (n : ℚ) < (2 ^ 53 : ℕ) := by exact_mod_cast hn
    push_cast at hcast
    calc (n : ℚ) < 2 ^ 53 := hcast
      _ ≤ (2 ^ 54 - 1) * 1 := by norm_num
      _ ≤ overflow := mul_le_mul_of_nonneg_left (one_le_pow₀ (by norm_num)) (by norm_num)
  change Rounds n (repack (UnpackedFloat.normalize Format.binary64 (n.toUInt64.toNat : ℤ) 0 .positive))
  rw [hnat, hnormalize.repack, if_pos hlt]
  exact hnormalize

/-- An integer is rounded where its decimal numeral is. -/
theorem rounds_ofScientific (hpos : 0 < n) : Rounds n (UnpackedFloat.ofScientific Format.binary64 n 0) := by
  have hshift : UnpackedFloat.ofScientific Format.binary64 n 0 =
      roundWithAccuracy Format.binary64 .positive ((n <<< 53) * 10 ^ 0) (-53 + 0) .exact := by
    have hbits : (0 : ℤ) ≤ 2 ^ Format.binary64.exponentBits := by positivity
    unfold UnpackedFloat.ofScientific
    rw [dif_neg hpos.ne', if_neg (by decide), if_neg (by omega), if_pos le_rfl]
    rfl
  rw [hshift, pow_zero, mul_one, add_zero]
  refine rounds_roundWithAccuracy ?_ ?_
  · have hscaled : (n : ℚ) / (2 : ℚ) ^ (-53 : ℤ) = ((n <<< 53 : ℕ) : ℚ) := by
      rw [Nat.shiftLeft_eq, zpow_neg, div_inv_eq_mul]
      push_cast
      norm_cast
    rw [hscaled]
    exact describes_exact _
  · rw [place_eq, log2_shiftLeft hpos]
    push_cast
    omega

/-- The float of a natural number is the nearest one, unless the number is too large. -/
theorem unpacked_ofNat (n : ℕ) :
    if (n : ℚ) < overflow then Rounds n (unpacked (.ofNat n)) else unpacked (.ofNat n) = .infinity .positive := by
  have hround : ∃ r, unpacked (.ofNat n) = repack r ∧ Rounds n r := by
    change ∃ r, unpacked (Float.ofScientific n false 0) = repack r ∧ _
    unfold Float.ofScientific
    split
    · next hsmall =>
        have hfloat := rounds_toFloat hsmall.1
        have hone : unpacked Float.exactlyRepresentablePowersOfTen[0] = .finite .positive (2 ^ 52) (-52) (by norm_num) :=
          rfl
        rw [if_neg (by simp), unpacked_mul, hone]
        refine ⟨_, rfl, ?_⟩
        have hmul := rounds_mul hfloat.nonneg nonneg_one
        rwa [value_one, mul_one, hfloat.value_eq hsmall.1] at hmul
    · next hlarge =>
        have hpos : 0 < n := by
          by_contra hzero
          exact hlarge ⟨by omega, by norm_num⟩
        exact ⟨_, rfl, rounds_ofScientific hpos⟩
  obtain ⟨r, hr, hrounds⟩ := hround
  rw [hr, hrounds.repack]
  split
  · exact hrounds
  · rfl

theorem Nonneg.isInf (h : Nonneg a) : a.isInf = false := by cases h <;> rfl

theorem isInf_ofNat_iff (n : ℕ) : (Float.ofNat n).isInf = true ↔ overflow ≤ (n : ℚ) := by
  have hfloat := unpacked_ofNat n
  rw [isInf_eq]
  split at hfloat
  · next hlt =>
      rw [hfloat.nonneg.isInf]
      exact iff_of_false Bool.false_ne_true (not_le.mpr hlt)
  · next hge =>
      rw [hfloat]
      exact iff_of_true rfl (not_lt.mp hge)

/-- The float of a natural number is away from it by at most its own `2 ^ 53`-th part. -/
theorem toRat_ofNat_error (h : (n : ℚ) < overflow) : |toRat (.ofNat n) - n| ≤ n / 2 ^ 53 := by
  have hfloat := unpacked_ofNat n
  rw [if_pos h] at hfloat
  by_cases hsmall : n < 2 ^ 53
  · rw [toRat, hfloat.value_eq hsmall, sub_self, abs_zero]
    positivity
  · obtain ⟨t, -, hcases, hvalue⟩ := hfloat.place
    have herror := Rounds.error hvalue
    have hcast : ((2 ^ 53 : ℕ) : ℚ) ≤ n := by exact_mod_cast not_lt.mp hsmall
    push_cast at hcast
    refine herror.trans ?_
    rcases hcases with rfl | hfull
    · have htiny : (2 : ℚ) ^ (-1074 : ℤ) ≤ 1 := zpow_le_one_of_nonpos₀ (by norm_num) (by norm_num)
      rw [le_div_iff₀ (by norm_num)]
      linarith
    · rw [zpow_add₀ two_ne_zero] at hfull
      rw [le_div_iff₀ (by norm_num)]
      norm_num at hfull ⊢
      linarith

theorem toRat_ofNat_nonneg (h : (n : ℚ) < overflow) : 0 ≤ toRat (.ofNat n) := by
  have hlow := (abs_le.mp (toRat_ofNat_error h)).1
  have hcast : (0 : ℚ) ≤ n := Nat.cast_nonneg n
  linarith

/-! ## Shares -/

theorem nonneg_of_not_lt (h : Packed a) (hlt : ¬ a.lt (.zero .positive) = true) :
    a = .notANumber ∨ a = .infinity .positive ∨ Nonneg a := by
  cases h with
  | notANumber => exact .inl rfl
  | infinity s =>
    cases s with
    | positive => exact .inr (.inl rfl)
    | negative => exact absurd rfl hlt
  | zero s => exact .inr (.inr (.zero s))
  | finite s hpos hm he hle hn =>
    cases s with
    | positive => exact .inr (.inr (.finite hpos hm he hn))
    | negative => exact absurd rfl hlt

theorem nonneg_unpacked {x : Float} (hlt : ¬ x < 0) (h : x.isFinite = true) : Nonneg (unpacked x) := by
  rw [lt_zero_iff] at hlt
  rw [isFinite_eq] at h
  rcases nonneg_of_not_lt (packed_unpacked x) hlt with hx | hx | hx
  · rw [hx] at h
    exact absurd h Bool.false_ne_true
  · rw [hx] at h
    exact absurd h Bool.false_ne_true
  · exact hx

theorem Nonneg.isFinite (h : Nonneg a) : a.isFinite = true := by cases h <;> rfl

theorem value_pos_of_not_le (h : Packed a) (hle : ¬ a.le (.zero .positive) = true)
    (hfinite : a.isFinite = true) : 0 < value a := by
  cases h with
  | notANumber => exact absurd hfinite Bool.false_ne_true
  | infinity s => exact absurd hfinite Bool.false_ne_true
  | zero s => exact absurd rfl hle
  | finite s hpos hm he hle' hn =>
    cases s with
    | positive => simp only [value]; positivity
    | negative => exact absurd rfl hle

theorem toRat_pos {x : Float} (hle : ¬ x ≤ 0) (h : x.isFinite = true) : 0 < toRat x :=
  value_pos_of_not_le (packed_unpacked x) ((le_zero_iff x).not.mp hle) h

theorem value_pos_of_beq (h : Nonneg a) (hne : a.beq (.zero .positive) = false) :
    0 < value a := by
  cases h with
  | zero s => exact absurd hne.symm Bool.false_ne_true
  | finite hpos hm he hn => simp only [value]; positivity

theorem repack_notANumber : repack .notANumber = .notANumber := rfl

theorem repack_infinity (s : Sign) : repack (.infinity s) = .infinity s := unpack_packComponents s (-1#11) 0#52

/-- Two floats that are shares of a whole: between 0 and 1, adding up to 1 but for rounding. -/
structure Shares (w v : Float) : Prop where
  finite : w.isFinite = true ∧ v.isFinite = true
  left : 0 ≤ toRat w ∧ toRat w ≤ 1
  right : 0 ≤ toRat v ∧ toRat v ≤ 1
  sum : |toRat w + toRat v - 1| ≤ 1 / 2 ^ 52

section

variable {x y : Float}

theorem add_unpacked (hx : Nonneg (unpacked x)) (hy : Nonneg (unpacked y)) :
    if toRat x + toRat y < overflow then Rounds (toRat x + toRat y) (unpacked (x + y))
    else unpacked (x + y) = .infinity .positive := by
  have hrounds := rounds_add hx hy
  have hrepack := repack_nonneg hrounds.nonneg
  rw [unpacked_add]
  split
  · next hlt =>
      rw [hrepack, if_pos (hrounds.lt_iff.mpr hlt)]
      exact hrounds
  · next hge =>
      rw [hrepack, if_neg (hrounds.lt_iff.not.mpr hge)]

theorem div_unpacked (hx : Nonneg (unpacked x)) (hy : Nonneg (unpacked y)) (hpos : 0 < toRat y)
    (hle : toRat x ≤ toRat y) : Rounds (toRat x / toRat y) (unpacked (x / y)) := by
  have hrounds := rounds_div hx hy hpos
  have hone := (hrounds.le_one (div_nonneg (value_nonneg hx) hpos.le) ((div_le_one hpos).mpr hle)).1
  have hlt : value (UnpackedFloat.div Format.binary64 (unpacked x) (unpacked y)) < 2 ^ 54 * halfStep := by
    refine lt_of_le_of_lt hone ?_
    have : (1 : ℚ) ≤ halfStep := one_le_pow₀ (by norm_num)
    linarith
  rw [unpacked_div, repack_nonneg hrounds.nonneg, if_pos hlt]
  exact hrounds

/-- A finite sum is one of finite floats. -/
theorem nonneg_of_add {a b : UnpackedFloat} (ha : a = .notANumber ∨ a = .infinity .positive ∨ Nonneg a)
    (hb : b = .notANumber ∨ b = .infinity .positive ∨ Nonneg b)
    (h : (repack (UnpackedFloat.add Format.binary64 a b)).isFinite = true) : Nonneg a ∧ Nonneg b := by
  have hnan : ∀ {r : UnpackedFloat}, (repack r).isFinite = true → r ≠ .notANumber := by
    rintro _ hr rfl
    rw [repack_notANumber] at hr
    exact Bool.false_ne_true hr
  have hinf : ∀ {r : UnpackedFloat}, (repack r).isFinite = true → r ≠ .infinity .positive := by
    rintro _ hr rfl
    rw [repack_infinity] at hr
    exact Bool.false_ne_true hr
  rcases ha with rfl | rfl | ha
  · exact absurd rfl (hnan h)
  · rcases hb with rfl | rfl | hb
    · exact absurd rfl (hnan h)
    · exact absurd rfl (hinf h)
    · exact absurd (by cases hb <;> rfl) (hinf h)
  · rcases hb with rfl | rfl | hb
    · exact absurd (by cases ha <;> rfl) (hnan h)
    · exact absurd (by cases ha <;> rfl) (hinf h)
    · exact ⟨ha, hb⟩

/-- A sum of floats that are not negative is finite if they are, and it is not too large. -/
theorem isFinite_add_iff (hx : ¬ x < 0) (hy : ¬ y < 0) :
    (x + y).isFinite = true ↔ x.isFinite = true ∧ y.isFinite = true ∧ toRat x + toRat y < overflow := by
  constructor
  · intro h
    rw [lt_zero_iff] at hx hy
    obtain ⟨hx', hy'⟩ := nonneg_of_add (nonneg_of_not_lt (packed_unpacked x) hx)
      (nonneg_of_not_lt (packed_unpacked y) hy) h
    refine ⟨hx'.isFinite, hy'.isFinite, ?_⟩
    by_contra hlt
    have hsum := add_unpacked hx' hy'
    rw [if_neg hlt] at hsum
    rw [isFinite_eq, hsum] at h
    exact Bool.false_ne_true h
  · rintro ⟨hxf, hyf, hlt⟩
    have h := add_unpacked (nonneg_unpacked hx hxf) (nonneg_unpacked hy hyf)
    rw [if_pos hlt] at h
    exact h.nonneg.isFinite

/-- A quotient by a float that is not finite is no number, or 0. -/
theorem toRat_div_eq_zero {s : Float} (h : s.isFinite = false) : toRat (x / s) = 0 := by
  rw [isFinite_eq] at h
  unfold toRat
  rw [unpacked_div]
  generalize unpacked x = a
  generalize unpacked s = b at h
  cases b with
  | notANumber =>
    have hdiv : UnpackedFloat.div Format.binary64 a .notANumber = .notANumber := by cases a <;> rfl
    rw [hdiv, repack_notANumber]
    rfl
  | infinity s =>
    cases a with
    | notANumber => exact congrArg value repack_notANumber
    | infinity s' => exact congrArg value repack_notANumber
    | zero s' => exact congrArg value (repack_zero _)
    | finite s' m e hpos => exact congrArg value (repack_zero _)
  | zero s => exact absurd h.symm Bool.false_ne_true
  | finite s m e hpos => exact absurd h.symm Bool.false_ne_true

/-- Two numbers that are not negative and not both 0 are turned into shares if their sum is finite. -/
theorem shares_iff (hx : ¬ x < 0) (hy : ¬ y < 0) (hne : (x + y == 0) = false) :
    Shares (x / (x + y)) (y / (x + y)) ↔
      x.isFinite = true ∧ y.isFinite = true ∧ toRat x + toRat y < overflow := by
  rw [← isFinite_add_iff hx hy]
  constructor
  · intro h
    by_contra hinfinite
    have hsum := h.sum
    rw [toRat_div_eq_zero (Bool.eq_false_of_not_eq_true hinfinite),
      toRat_div_eq_zero (Bool.eq_false_of_not_eq_true hinfinite)] at hsum
    norm_num at hsum
  · intro hfinite
    obtain ⟨hxf, hyf, hlt⟩ := (isFinite_add_iff hx hy).mp hfinite
    have hx' := nonneg_unpacked hx hxf
    have hy' := nonneg_unpacked hy hyf
    have hs := add_unpacked hx' hy'
    rw [if_pos hlt] at hs
    have hpos : 0 < toRat (x + y) := value_pos_of_beq hs.nonneg (by rw [← beq_zero_eq]; exact hne)
    have hx0 : 0 ≤ toRat x := value_nonneg hx'
    have hy0 : 0 ≤ toRat y := value_nonneg hy'
    have hu := div_unpacked hx' hs.nonneg hpos (hs.le_value hx' (le_add_of_nonneg_right hy0))
    have hv := div_unpacked hy' hs.nonneg hpos (hs.le_value hy' (le_add_of_nonneg_left hx0))
    obtain ⟨hu1, hv1, hsum⟩ := shares hx' hy' hs hpos hu hv
    exact ⟨⟨hu.nonneg.isFinite, hv.nonneg.isFinite⟩, ⟨value_nonneg hu.nonneg, hu1⟩,
      ⟨value_nonneg hv.nonneg, hv1⟩, hsum⟩

end

/-! ## Order and differences -/

/-- The digits of two floats compare as the numbers do. -/
theorem compare_digits {m m' : ℕ} {e e' : ℤ} (hm : m < 2 ^ 53) (hm' : m' < 2 ^ 53) (he : -1074 ≤ e)
    (he' : -1074 ≤ e') (hn : 2 ^ 52 ≤ m ∨ e = -1074) (hn' : 2 ^ 52 ≤ m' ∨ e' = -1074) :
    (compare e e').then (compare m m') = .lt ↔ (m : ℚ) * 2 ^ e < m' * 2 ^ e' := by
  have hplace : ∀ {m m' : ℕ} {e e' : ℤ}, m < 2 ^ 53 → -1074 ≤ e → (2 ^ 52 ≤ m' ∨ e' = -1074) → e < e' →
      (m : ℚ) * 2 ^ e < m' * 2 ^ e' := by
    intro m m' e e' hm he hn' hlt
    have hfull : ((2 ^ 52 : ℕ) : ℚ) ≤ m' := by exact_mod_cast hn'.resolve_right (by omega)
    push_cast at hfull
    calc (m : ℚ) * 2 ^ e < 2 ^ (e' + 52) := lt_of_place hm hlt
      _ = 2 ^ 52 * 2 ^ e' := by rw [add_comm, zpow_add₀ two_ne_zero]; norm_num
      _ ≤ m' * 2 ^ e' := mul_le_mul_of_nonneg_right hfull (by positivity)
  rw [Ordering.then_eq_lt, Int.compare_eq_lt, Int.compare_eq_eq, Nat.compare_eq_lt]
  rcases lt_trichotomy e e' with hlt | rfl | hgt
  · exact iff_of_true (.inl hlt) (hplace hm he hn' hlt)
  · rw [mul_lt_mul_iff_left₀ (by positivity : (0 : ℚ) < 2 ^ e), Nat.cast_lt]
    simp
  · exact iff_of_false (by omega) (hplace hm' he' hn hgt).not_gt

/-- A number beyond all floats. -/
def limit : ℚ := 2 ^ 54 * halfStep

theorem limit_pos : 0 < limit := mul_pos (by norm_num) halfStep_pos

/-- Where a float lies among the others: at the number it stands for, or beyond all of them. -/
def position : UnpackedFloat → ℚ
  | .infinity .positive => limit
  | .infinity .negative => -limit
  | a => value a

/-- A float is no number, infinite, or a number in its place that is not too large. -/
theorem Packed.cases (h : Packed a) :
    a = .notANumber ∨ (∃ s, a = .infinity s) ∨ Placed a ∧ position a = value a ∧ -limit < value a ∧ value a < limit := by
  have hpos := limit_pos
  cases h with
  | notANumber => exact .inl rfl
  | infinity s => exact .inr (.inl ⟨s, rfl⟩)
  | zero s => exact .inr (.inr ⟨.zero s, rfl, neg_lt_zero.mpr hpos, hpos⟩)
  | @finite s m e hpos' hm he hle hn =>
    have hlt : (m : ℚ) * 2 ^ e < limit := (value_lt_iff hpos' hm hn).mpr hle
    have hvalue : (0 : ℚ) < m * 2 ^ e := by positivity
    refine .inr (.inr ⟨.finite s hpos' hm he hn, rfl, ?_⟩)
    cases s with
    | positive => exact ⟨by simp only [value]; linarith, hlt⟩
    | negative => exact ⟨neg_lt_neg hlt, by simp only [value]; linarith⟩

theorem lt_placed {a b : UnpackedFloat} (ha : Placed a) (hb : Placed b) : a.lt b = true ↔ value a < value b := by
  have hdigits : ∀ {m : ℕ} {e : ℤ}, 0 < m → (0 : ℚ) < m * 2 ^ e := by
    intro m e hpos
    positivity
  cases ha with
  | zero s =>
    cases hb with
    | zero s' => exact iff_of_false Bool.false_ne_true (lt_irrefl 0)
    | finite s' hpos hm he hn =>
      cases s' with
      | positive => exact iff_of_true rfl (hdigits hpos)
      | negative => exact iff_of_false Bool.false_ne_true (neg_lt_zero.mpr (hdigits hpos)).not_gt
  | @finite s m e hpos hm he hn =>
    cases hb with
    | zero s' =>
      cases s with
      | positive => exact iff_of_false Bool.false_ne_true (hdigits hpos).not_gt
      | negative => exact iff_of_true rfl (neg_lt_zero.mpr (hdigits hpos))
    | @finite s' m' e' hpos' hm' he' hn' =>
      cases s with
      | positive =>
        cases s' with
        | positive =>
          refine Iff.trans ?_ (compare_digits hm hm' he he' hn hn')
          simp [UnpackedFloat.lt, UnpackedFloat.compare]
        | negative =>
          refine iff_of_false Bool.false_ne_true (not_lt.mpr ?_)
          simp only [value]
          linarith [hdigits (e := e) hpos, hdigits (e := e') hpos']
      | negative =>
        cases s' with
        | positive =>
          refine iff_of_true rfl ?_
          simp only [value]
          linarith [hdigits (e := e) hpos, hdigits (e := e') hpos']
        | negative =>
          refine Iff.trans ?_ ((compare_digits hm' hm he' he hn' hn).trans neg_lt_neg_iff.symm)
          simp [UnpackedFloat.lt, UnpackedFloat.compare, Ordering.swap_then, Int.compare_swap, Nat.compare_swap]

/-- Floats compare as they lie. -/
theorem Packed.lt_iff {a b : UnpackedFloat} (ha : Packed a) (hb : Packed b) (ha' : a ≠ .notANumber)
    (hb' : b ≠ .notANumber) : a.lt b = true ↔ position a < position b := by
  have hlimit := limit_pos
  rcases ha.cases with rfl | ⟨s, rfl⟩ | ⟨hplaced, hposition, hlow, hhigh⟩
  · exact absurd rfl ha'
  · rcases hb.cases with rfl | ⟨s', rfl⟩ | ⟨hplaced', hposition', hlow', hhigh'⟩
    · exact absurd rfl hb'
    · cases s <;> cases s' <;> first
        | exact iff_of_true rfl (by simp only [position]; linarith)
        | exact iff_of_false Bool.false_ne_true (by simp only [position]; linarith)
    · rw [hposition']
      cases hplaced' <;> cases s <;> first
        | exact iff_of_true rfl hlow'
        | exact iff_of_false Bool.false_ne_true hhigh'.not_gt
  · rcases hb.cases with rfl | ⟨s', rfl⟩ | ⟨hplaced', hposition', hlow', hhigh'⟩
    · exact absurd rfl hb'
    · rw [hposition]
      cases hplaced with
      | zero s => cases s' with
        | positive => exact iff_of_true rfl hhigh
        | negative => exact iff_of_false Bool.false_ne_true hlow.not_gt
      | finite s hpos hm he hn => cases s <;> cases s' <;> first
        | exact iff_of_true rfl hhigh
        | exact iff_of_false Bool.false_ne_true hlow.not_gt
    · rw [hposition, hposition']
      exact lt_placed hplaced hplaced'

/-- Packing moves what is too large to the ends. -/
theorem Placed.repack (h : Placed r) :
    repack r ≠ .notANumber ∧ position (repack r) = max (-limit) (min limit (value r)) := by
  have hlimit := limit_pos
  cases h with
  | zero s =>
    rw [repack_zero, value_zero, min_eq_right hlimit.le, max_eq_right (neg_nonpos.mpr hlimit.le)]
    exact ⟨by simp, rfl⟩
  | @finite s m e hpos hm he hn =>
    have hlt : (m : ℚ) * 2 ^ e < limit ↔ e ≤ 971 := value_lt_iff hpos hm hn
    have hvalue : (0 : ℚ) < m * 2 ^ e := by positivity
    rw [repack_finite hpos hm he hn]
    by_cases hle : e ≤ 971
    · have hbelow := hlt.mpr hle
      rw [if_pos hle]
      refine ⟨by simp, ?_⟩
      cases s with
      | positive => simp only [position, value]; rw [min_eq_right hbelow.le, max_eq_right (by linarith)]
      | negative => simp only [position, value]; rw [min_eq_right (by linarith), max_eq_right (by linarith)]
    · have habove := not_lt.mp (hlt.not.mpr hle)
      rw [if_neg hle]
      refine ⟨by simp, ?_⟩
      cases s with
      | positive => simp only [position, value]; rw [min_eq_left habove, max_eq_right (by linarith)]
      | negative => simp only [position, value]; rw [min_eq_right (by linarith), max_eq_left (by linarith)]

theorem unpacked_sub (x y : Float) :
    unpacked (x - y) = repack (UnpackedFloat.sub Format.binary64 (unpacked x) (unpacked y)) := rfl

theorem lt_iff_unpacked (x y : Float) : x < y ↔ (unpacked x).lt (unpacked y) = true := decide_eq_true_iff

theorem Packed.ne_of_lt {a b : UnpackedFloat} (h : a.lt b = true) : a ≠ .notANumber ∧ b ≠ .notANumber := by
  constructor
  · rintro rfl
    exact Bool.false_ne_true h
  · rintro rfl
    cases a <;> exact Bool.false_ne_true h

theorem Packed.neg_limit_le (h : Packed a) (hne : a ≠ .notANumber) : -limit ≤ position a := by
  have hlimit := limit_pos
  rcases h.cases with rfl | ⟨s, rfl⟩ | ⟨-, hposition, hlow, -⟩
  · exact absurd rfl hne
  · cases s <;> simp only [position] <;> linarith
  · exact hposition ▸ hlow.le

theorem Packed.eq_infinity (h : Packed a) (hne : a ≠ .notANumber) (hle : limit ≤ position a) :
    a = .infinity .positive := by
  have hlimit := limit_pos
  rcases h.cases with rfl | ⟨s, rfl⟩ | ⟨-, hposition, -, hhigh⟩
  · exact absurd rfl hne
  · cases s with
    | positive => rfl
    | negative =>
      simp only [position] at hle
      linarith
  · exact absurd hle (not_le.mpr (hposition ▸ hhigh))

theorem sub_infinity (h : Placed a) (s : Sign) :
    UnpackedFloat.sub Format.binary64 a (.infinity s) = .infinity (-s) := by cases h <;> rfl

theorem infinity_sub (h : Placed a) (s : Sign) :
    UnpackedFloat.sub Format.binary64 (.infinity s) a = .infinity s := by cases h <;> rfl

/-- From a smaller float a smaller one is left, as long as something other than infinity is left of
the larger. -/
theorem position_sub_le {a b w : UnpackedFloat} (ha : Packed a) (hb : Packed b) (hw : Packed w)
    (hle : position a ≤ position b) (ha' : a ≠ .notANumber) (hb' : b ≠ .notANumber)
    (hnum : repack (UnpackedFloat.sub Format.binary64 b w) ≠ .notANumber)
    (hmax : position (repack (UnpackedFloat.sub Format.binary64 b w)) < limit) :
    repack (UnpackedFloat.sub Format.binary64 a w) ≠ .notANumber ∧
      position (repack (UnpackedFloat.sub Format.binary64 a w)) ≤
        position (repack (UnpackedFloat.sub Format.binary64 b w)) := by
  have hlow := (packed_unpack (pack Format.binary64 (UnpackedFloat.sub Format.binary64 b w))).neg_limit_le hnum
  have hbottom : repack (.infinity .negative) ≠ .notANumber ∧ position (repack (.infinity .negative)) ≤
      position (repack (UnpackedFloat.sub Format.binary64 b w)) := by
    rw [repack_infinity]
    exact ⟨nofun, hlow⟩
  have htop : UnpackedFloat.sub Format.binary64 b w ≠ .infinity .positive := by
    intro h
    rw [h, repack_infinity] at hmax
    exact lt_irrefl _ hmax
  have hnan : UnpackedFloat.sub Format.binary64 b w ≠ .notANumber := by
    intro h
    rw [h] at hnum
    exact hnum repack_notANumber
  have hinf : a = .infinity .positive → b = .infinity .positive := by
    rintro rfl
    exact hb.eq_infinity hb' hle
  rcases hw.cases with rfl | ⟨s, rfl⟩ | ⟨hw', -, -⟩
  · exact absurd (by cases b <;> rfl) hnan
  · cases s with
    | negative =>
      -- nothing but infinity or no number is left
      rcases hb.cases with rfl | ⟨s', rfl⟩ | ⟨hb', -⟩
      · exact absurd rfl hb'
      · cases s' with
        | positive => exact absurd rfl htop
        | negative => exact absurd rfl hnan
      · exact absurd (sub_infinity hb' _) htop
    | positive =>
      rcases ha.cases with rfl | ⟨s', rfl⟩ | ⟨ha', -⟩
      · exact absurd rfl ha'
      · cases s' with
        | positive =>
          obtain rfl := hinf rfl
          exact absurd rfl hnan
        | negative => exact hbottom
      · rw [sub_infinity ha']
        exact hbottom
  · rcases ha.cases with rfl | ⟨s', rfl⟩ | ⟨hplaced, hposition, hlow', -⟩
    · exact absurd rfl ha'
    · cases s' with
      | positive =>
        obtain rfl := hinf rfl
        exact absurd (infinity_sub hw' _) htop
      | negative =>
        rw [infinity_sub hw']
        exact hbottom
    · rcases hb.cases with rfl | ⟨s', rfl⟩ | ⟨hplaced', hposition', -⟩
      · exact absurd rfl hb'
      · cases s' with
        | positive => exact absurd (infinity_sub hw' _) htop
        | negative =>
          rw [hposition] at hle
          exact absurd hle (not_le.mpr hlow')
      · rw [hposition, hposition'] at hle
        obtain ⟨hsub, hvalue⟩ := value_sub hplaced hw'
        obtain ⟨hsub', hvalue'⟩ := value_sub hplaced' hw'
        refine ⟨hsub.repack.1, ?_⟩
        rw [hsub.repack.2, hsub'.repack.2, hvalue, hvalue']
        exact max_le_max_left _ (min_le_min_left _ (nearestDouble_mono (sub_le_sub_right hle _)))

theorem compare_swap (a b : UnpackedFloat) : b.compare a = (a.compare b).map Ordering.swap := by
  cases a with
  | notANumber => cases b with
    | infinity s => cases s <;> rfl
    | finite s m e hpos => cases s <;> rfl
    | _ => rfl
  | infinity s => cases s <;> cases b with
    | infinity s => cases s <;> rfl
    | finite s m e hpos => cases s <;> rfl
    | _ => rfl
  | zero s => cases b with
    | infinity s => cases s <;> rfl
    | finite s m e hpos => cases s <;> rfl
    | _ => rfl
  | finite s m e hpos => cases s <;> cases b with
    | infinity s => cases s <;> rfl
    | finite s m e hpos =>
      cases s <;> simp [UnpackedFloat.compare, Ordering.swap_then, Int.compare_swap, Nat.compare_swap]
    | _ => rfl

/-- A float that is at most another is a number and does not lie above it. -/
theorem Packed.of_le {a b : UnpackedFloat} (ha : Packed a) (hb : Packed b) (h : a.le b = true) :
    a ≠ .notANumber ∧ b ≠ .notANumber ∧ position a ≤ position b := by
  have ha' : a ≠ .notANumber := by
    rintro rfl
    exact Bool.false_ne_true h
  have hb' : b ≠ .notANumber := by
    rintro rfl
    cases a <;> exact Bool.false_ne_true h
  refine ⟨ha', hb', not_lt.mp fun hlt => ?_⟩
  rw [← hb.lt_iff ha hb' ha'] at hlt
  unfold UnpackedFloat.lt at hlt
  unfold UnpackedFloat.le at h
  rw [compare_swap] at hlt
  cases hc : a.compare b with
  | none => simp [hc] at h
  | some o => cases o <;> simp [hc] at h hlt

/-- **Differences are monotone**: what is below a bound after a subtraction is so from a smaller float. -/
theorem sub_lt_of_le {a b w t : Float} (hle : a ≤ b) (hlt : b - w < t) : a - w < t := by
  obtain ⟨ha, hb, hposition⟩ := (packed_unpacked a).of_le (packed_unpacked b) (decide_eq_true_iff.mp hle)
  rw [lt_iff_unpacked] at hlt ⊢
  obtain ⟨hdiff, ht⟩ := Packed.ne_of_lt hlt
  rw [(packed_unpacked _).lt_iff (packed_unpacked t) hdiff ht] at hlt
  rw [unpacked_sub] at hdiff hlt
  have htop : position (unpacked t) ≤ limit := by
    have hlimit := limit_pos
    rcases (packed_unpacked t).cases with h | ⟨s, h⟩ | ⟨-, h, -, hhigh⟩
    · exact absurd h ht
    · rw [h]
      cases s <;> simp only [position] <;> linarith
    · exact h ▸ hhigh.le
  obtain ⟨hnum, hbelow⟩ := position_sub_le (packed_unpacked a) (packed_unpacked b) (packed_unpacked w) hposition
    ha hb hdiff (hlt.trans_le htop)
  rw [(packed_unpacked _).lt_iff (packed_unpacked t) (by rwa [unpacked_sub]) ht, unpacked_sub]
  exact hbelow.trans_lt hlt

end Caips.Logic.Binary64
