/-
Caips.Logic.Decimal — numbers with six significant digits, as `f"{x:g}"` writes
them, and numerals and what they denote.

`scale` is the rounding: the six digits as an integer, and the exponent of the
first one. `readNumber_general` says that the numeral denotes exactly the rounded
number (`printed`), so what printing loses is what `scale` loses. Near a number of
six digits it loses nothing (`rounded_near`), and so an integer is printed exactly
where it has six digits, but for zeros at its end (`printed_ofNat_iff`).

Nothing in this file knows what is being verified.
-/
import Caips.Logic.Floats
import Caips.Logic.Text
import Mathlib.Data.Int.Log

namespace Caips.Logic.Decimal

/-! ## Printing -/

/-- The last `k` digits of a number. -/
def digits : ℕ → ℕ → List Char
  | 0, _ => []
  | k + 1, n => digits k (n / 10) ++ [Nat.digitChar (n % 10)]

/-- The exponent, with its sign and at least two digits. -/
def exponentText (e : ℤ) : List Char :=
  'e' :: (if e < 0 then '-' else '+') ::
    (if e.natAbs < 10 then '0' :: Nat.toDigits 10 e.natAbs else Nat.toDigits 10 e.natAbs)

/-- The list without the zeros at its end. -/
def stripZeros (l : List Char) : List Char := (l.reverse.dropWhile (· = '0')).reverse

/-- The digits behind the point, with the point if there are any. -/
def fractionText (l : List Char) : List Char := if stripZeros l = [] then [] else '.' :: stripZeros l

/-- The first six digits of a positive number, rounded, and the exponent of the first. -/
def scale (x : ℚ) : ℕ × ℤ :=
  let e := Int.log 10 x
  let m := (nearestEven (x / 10 ^ (e - 5))).toNat
  if m = 1000000 then (100000, e + 1) else (m, e)

/-- Six digits, with an exponent if the number is large or small. -/
def positiveText (m : ℕ) (e : ℤ) : List Char :=
  let ds := digits 6 m
  if e < -4 ∨ 6 ≤ e then ds.take 1 ++ fractionText (ds.drop 1) ++ exponentText e
  else if 0 ≤ e then ds.take (e.toNat + 1) ++ fractionText (ds.drop (e.toNat + 1))
  else '0' :: fractionText (List.replicate (-e - 1).toNat '0' ++ ds)

/-- `f"{x:g}"`. -/
def general (x : ℚ) : List Char :=
  if x = 0 then ['0']
  else (if x < 0 then ['-'] else []) ++ positiveText (scale |x|).1 (scale |x|).2

/-- The number that is printed, for a positive one. -/
def rounded (x : ℚ) : ℚ := (scale x).1 * 10 ^ ((scale x).2 - 5)

/-- The number that is printed. -/
def printed (x : ℚ) : ℚ := if x = 0 then 0 else if x < 0 then -rounded |x| else rounded x

/-- The integer has six digits at most, but for zeros at its end. -/
def HasSixDigits (n : ℕ) : Prop := ∃ m k, m < 1000000 ∧ n = m * 10 ^ k

/-! ## Reading -/

/-- The number some digits are. -/
def valueOf (l : List Char) : ℕ := Nat.ofDigitChars 10 l 0

def areDigits (l : List Char) : Bool := !l.isEmpty && l.all Char.isDigit

/-- What follows the digits of a numeral. -/
def readExponent : List Char → Option ℤ
  | [] => some 0
  | 'e' :: '-' :: l => if areDigits l then some (-valueOf l) else none
  | 'e' :: '+' :: l => if areDigits l then some (valueOf l) else none
  | 'e' :: l => if areDigits l then some (valueOf l) else none
  | _ => none

/-- The number an unsigned numeral denotes. -/
def readUnsigned (l : List Char) : Option ℚ :=
  let mantissa := l.takeWhile (· ≠ 'e')
  let whole := mantissa.takeWhile (· ≠ '.')
  let fraction := (mantissa.dropWhile (· ≠ '.')).drop 1
  if areDigits whole && fraction.all Char.isDigit then
    (readExponent (l.dropWhile (· ≠ 'e'))).map fun e => (valueOf (whole ++ fraction) : ℚ) * 10 ^ (e - fraction.length : ℤ)
  else none

/-- The number a numeral denotes. -/
def readNumber : List Char → Option ℚ
  | '-' :: l => (readUnsigned l).map (-·)
  | l => readUnsigned l

/-! ## Digits -/

theorem digitChar_isDigit : ∀ n < 10, (Nat.digitChar n).isDigit = true := by decide

theorem digits_isDigit : ∀ (k n : ℕ), ∀ c ∈ digits k n, c.isDigit = true
  | 0, _, _, h => absurd h List.not_mem_nil
  | k + 1, n, c, h => by
      rcases List.mem_append.mp h with h | h
      · exact digits_isDigit k (n / 10) c h
      · rw [List.mem_singleton.mp h]
        exact digitChar_isDigit _ (Nat.mod_lt _ (by omega))

@[simp] theorem length_digits : ∀ k n : ℕ, (digits k n).length = k
  | 0, _ => rfl
  | k + 1, n => by simp [digits, length_digits k]

theorem valueOf_digits : ∀ k n : ℕ, valueOf (digits k n) = n % 10 ^ k
  | 0, n => by simp [digits, valueOf, Nat.mod_one]
  | k + 1, n => by
      have hdigit : n % 10 < 10 := Nat.mod_lt _ (by omega)
      have hrest := valueOf_digits k (n / 10)
      unfold valueOf at hrest ⊢
      rw [digits, Nat.ofDigitChars_append, hrest, Nat.ofDigitChars_cons_digitChar_of_lt_ten hdigit,
        Nat.ofDigitChars_nil, pow_succ', Nat.mod_mul]
      omega

theorem valueOf_append (l r : List Char) : valueOf (l ++ r) = 10 ^ r.length * valueOf l + valueOf r := by
  unfold valueOf
  rw [Nat.ofDigitChars_append, Nat.ofDigitChars_eq_ofDigitChars_zero]

theorem valueOf_zeros (k : ℕ) : valueOf (List.replicate k '0') = 0 := by
  simp [valueOf]

@[simp] theorem valueOf_toDigits (n : ℕ) : valueOf (Nat.toDigits 10 n) = n := by
  simp [valueOf]

theorem stripZeros_append (l : List Char) : ∃ k, l = stripZeros l ++ List.replicate k '0' := by
  refine ⟨(l.reverse.takeWhile (· = '0')).length, ?_⟩
  have hzeros : l.reverse.takeWhile (· = '0') = List.replicate (l.reverse.takeWhile (· = '0')).length '0' := by
    rw [List.eq_replicate_iff]
    exact ⟨rfl, fun c hc => by simpa using Text.of_mem_takeWhile hc⟩
  have hsplit : l.reverse.takeWhile (· = '0') ++ l.reverse.dropWhile (· = '0') = l.reverse :=
    List.takeWhile_append_dropWhile
  rw [stripZeros, ← List.reverse_replicate, ← hzeros, ← List.reverse_append, hsplit, List.reverse_reverse]

theorem isDigit_ne {c : Char} (h : c.isDigit = true) : c ≠ 'e' ∧ c ≠ '.' ∧ c ≠ '-' := by
  refine ⟨?_, ?_, ?_⟩ <;> (rintro rfl; exact absurd h (by decide))

theorem mem_stripZeros {l : List Char} {c : Char} (h : c ∈ stripZeros l) : c ∈ l := by
  obtain ⟨k, hk⟩ := stripZeros_append l
  rw [hk]
  exact List.mem_append_left _ h

/-! ## What a numeral denotes -/

section Read

variable {whole fraction suffix : List Char} {e : ℤ}

/-- The digits of a numeral are found between its marks. -/
theorem split_numeral (hwhole : ∀ c ∈ whole, c.isDigit = true) (hfraction : ∀ c ∈ fraction, c.isDigit = true)
    (hsuffix : ∀ c ∈ suffix.head?, c = 'e') :
    (whole ++ fractionText fraction ++ suffix).takeWhile (· ≠ 'e') = whole ++ fractionText fraction ∧
    (whole ++ fractionText fraction ++ suffix).dropWhile (· ≠ 'e') = suffix ∧
    (whole ++ fractionText fraction).takeWhile (· ≠ '.') = whole ∧
    ((whole ++ fractionText fraction).dropWhile (· ≠ '.')).drop 1 = stripZeros fraction := by
  have hbefore : ∀ c ∈ whole ++ fractionText fraction, decide (c ≠ 'e') = true := by
    intro c hc
    rw [decide_eq_true_eq]
    rcases List.mem_append.mp hc with hc | hc
    · exact (isDigit_ne (hwhole c hc)).1
    · unfold fractionText at hc
      split at hc
      · exact absurd hc List.not_mem_nil
      · rcases List.mem_cons.mp hc with rfl | hc
        · decide
        · exact (isDigit_ne (hfraction c (mem_stripZeros hc))).1
  have hpoint : ∀ c ∈ whole, decide (c ≠ '.') = true := fun c hc => decide_eq_true (isDigit_ne (hwhole c hc)).2.1
  have htake : suffix.takeWhile (· ≠ 'e') = [] := by
    cases suffix with
    | nil => rfl
    | cons c l => simp [hsuffix c rfl]
  have hdrop : suffix.dropWhile (· ≠ 'e') = suffix := by
    cases suffix with
    | nil => rfl
    | cons c l => simp [hsuffix c rfl]
  refine ⟨?_, ?_, ?_, ?_⟩
  · rw [List.takeWhile_append_of_pos hbefore, htake, List.append_nil]
  · rw [List.dropWhile_append_of_pos hbefore, hdrop]
  · rw [List.takeWhile_append_of_pos hpoint]
    unfold fractionText
    split <;> simp
  · rw [List.dropWhile_append_of_pos hpoint]
    unfold fractionText
    split
    · next hnil => simp [hnil]
    · simp

/-- The numeral denotes its digits, with the zeros that are not written. -/
theorem readUnsigned_numeral (hne : whole ≠ []) (hwhole : ∀ c ∈ whole, c.isDigit = true)
    (hfraction : ∀ c ∈ fraction, c.isDigit = true) (hsuffix : ∀ c ∈ suffix.head?, c = 'e')
    (he : readExponent suffix = some e) :
    readUnsigned (whole ++ fractionText fraction ++ suffix) =
      some ((valueOf (whole ++ fraction) : ℚ) * 10 ^ (e - fraction.length : ℤ)) := by
  obtain ⟨hmantissa, hexponent, hpoint, hbehind⟩ := split_numeral hwhole hfraction hsuffix
  have hdigits : (areDigits whole && (stripZeros fraction).all Char.isDigit) = true := by
    rw [Bool.and_eq_true, areDigits, Bool.and_eq_true, List.all_eq_true, List.all_eq_true]
    exact ⟨⟨by simpa using hne, hwhole⟩, fun c hc => hfraction c (mem_stripZeros hc)⟩
  have hvalue : (valueOf (whole ++ stripZeros fraction) : ℚ) * 10 ^ (e - (stripZeros fraction).length : ℤ) =
      valueOf (whole ++ fraction) * 10 ^ (e - fraction.length : ℤ) := by
    obtain ⟨k, hk⟩ := stripZeros_append fraction
    generalize stripZeros fraction = f at hk ⊢
    subst hk
    rw [← List.append_assoc, valueOf_append _ (List.replicate k '0'), valueOf_zeros, List.length_append,
      List.length_replicate]
    have hpow : (10 : ℚ) ^ (e - f.length : ℤ) = 10 ^ k * 10 ^ (e - (f.length + k : ℕ) : ℤ) := by
      rw [← zpow_natCast, ← zpow_add₀ (by norm_num)]
      congr 1
      push_cast
      ring
    rw [hpow]
    push_cast
    ring
  unfold readUnsigned
  dsimp only
  rw [hmantissa, hexponent, hpoint, hbehind, if_pos hdigits, he, Option.map_some, hvalue]

theorem toDigits_isDigit (n : ℕ) : ∀ c ∈ Nat.toDigits 10 n, c.isDigit = true :=
  fun _ hc => Nat.isDigit_of_mem_toDigits (by decide) (by decide) hc

theorem areDigits_toDigits (n : ℕ) : areDigits (Nat.toDigits 10 n) = true := by
  rw [areDigits, Bool.and_eq_true, List.all_eq_true]
  exact ⟨by simp [Nat.toDigits_ne_nil], toDigits_isDigit n⟩

theorem padded_digits (n : ℕ) : areDigits (if n < 10 then '0' :: Nat.toDigits 10 n else Nat.toDigits 10 n) = true ∧
    valueOf (if n < 10 then '0' :: Nat.toDigits 10 n else Nat.toDigits 10 n) = n := by
  have hdigits := areDigits_toDigits n
  split
  · constructor
    · simp only [areDigits, Bool.and_eq_true] at hdigits ⊢
      exact ⟨rfl, by simpa using hdigits.2⟩
    · have hzero := valueOf_append ['0'] (Nat.toDigits 10 n)
      rw [valueOf_toDigits, show valueOf ['0'] = 0 from rfl] at hzero
      simpa using hzero
  · exact ⟨hdigits, valueOf_toDigits n⟩

theorem readExponent_exponentText (e : ℤ) : readExponent (exponentText e) = some e := by
  obtain ⟨hdigits, hvalue⟩ := padded_digits e.natAbs
  unfold exponentText
  by_cases hneg : e < 0
  · rw [if_pos hneg, readExponent, if_pos hdigits, hvalue]
    exact congrArg some (by omega)
  · rw [if_neg hneg, readExponent, if_pos hdigits, hvalue]
    exact congrArg some (by omega)

/-- Six digits and an exponent, read. -/
theorem readUnsigned_positiveText {m : ℕ} (hm : m < 1000000) (e : ℤ) :
    readUnsigned (positiveText m e) = some ((m : ℚ) * 10 ^ (e - 5)) := by
  have hdigit := digits_isDigit 6 m
  have hvalue : valueOf (digits 6 m) = m := (valueOf_digits 6 m).trans (Nat.mod_eq_of_lt hm)
  have htake : ∀ k, ∀ c ∈ (digits 6 m).take k, c.isDigit = true := fun k c hc => hdigit c (List.mem_of_mem_take hc)
  have hdrop : ∀ k, ∀ c ∈ (digits 6 m).drop k, c.isDigit = true := fun k c hc => hdigit c (List.mem_of_mem_drop hc)
  have hne : ∀ k, (digits 6 m).take (k + 1) ≠ [] := by
    intro k hnil
    have hlength := congrArg List.length hnil
    simp at hlength
  unfold positiveText
  dsimp only
  split
  · rw [readUnsigned_numeral (hne 0) (htake 1) (hdrop 1) (by simp [exponentText]) (readExponent_exponentText e),
      List.take_append_drop, hvalue]
    simp
  · next hsmall =>
      split
      · next hpos =>
          have h := @readUnsigned_numeral _ _ [] 0 (hne e.toNat) (htake _) (hdrop (e.toNat + 1)) (by simp) rfl
          rw [List.append_nil, List.take_append_drop, hvalue] at h
          rw [h, List.length_drop, length_digits]
          congr 3
          omega
      · next hneg =>
          have hzeros : ∀ c ∈ List.replicate (-e - 1).toNat '0' ++ digits 6 m, c.isDigit = true := by
            intro c hc
            rcases List.mem_append.mp hc with hc | hc
            · rw [List.eq_of_mem_replicate hc]
              rfl
            · exact hdigit c hc
          have h := @readUnsigned_numeral ['0'] _ [] 0 (by simp) (by simp) hzeros (by simp) rfl
          rw [List.append_nil, List.singleton_append] at h
          rw [h, ← List.append_assoc, ← List.replicate_one, ← List.replicate_add, valueOf_append, valueOf_zeros,
            hvalue, List.length_append, List.length_replicate, length_digits, Nat.mul_zero, Nat.zero_add]
          congr 3
          omega

end Read

/-! ## Six digits -/

section Scale

variable {x : ℚ}

/-- The digits before they are rounded: between 100000 and a million. -/
theorem scaled_bounds (hx : 0 < x) :
    (100000 : ℚ) ≤ x / 10 ^ (Int.log 10 x - 5) ∧ x / 10 ^ (Int.log 10 x - 5) < 1000000 := by
  have hpos : (0 : ℚ) < 10 ^ (Int.log 10 x - 5) := by positivity
  have hle := Int.zpow_log_le_self (by norm_num : 1 < 10) hx
  have hlt := Int.lt_zpow_succ_log_self (by norm_num : 1 < 10) x
  push_cast at hle hlt
  constructor
  · rw [le_div_iff₀ hpos]
    calc (100000 : ℚ) * 10 ^ (Int.log 10 x - 5) = 10 ^ Int.log 10 x := by
          rw [zpow_sub₀ (by norm_num)]
          norm_num
          ring
      _ ≤ x := hle
  · rw [div_lt_iff₀ hpos]
    calc x < 10 ^ (Int.log 10 x + 1) := hlt
      _ = 1000000 * 10 ^ (Int.log 10 x - 5) := by
          rw [zpow_sub₀ (by norm_num), zpow_add₀ (by norm_num)]
          norm_num
          ring

theorem scale_bounds (hx : 0 < x) : 100000 ≤ (scale x).1 ∧ (scale x).1 < 1000000 := by
  obtain ⟨hlow, hhigh⟩ := scaled_bounds hx
  have hge : (100000 : ℤ) ≤ nearestEven (x / 10 ^ (Int.log 10 x - 5)) :=
    le_nearestEven (by exact_mod_cast hlow)
  have hle : nearestEven (x / 10 ^ (Int.log 10 x - 5)) ≤ (1000000 : ℤ) :=
    nearestEven_le (by exact_mod_cast hhigh.le)
  unfold scale
  dsimp only
  split_ifs with h
  · exact ⟨le_rfl, by norm_num⟩
  · constructor <;> dsimp only <;> omega

theorem nearestEven_of_near {y : ℚ} {n : ℤ} (h : |y - n| < 1 / 2) : nearestEven y = n := by
  have hnear := abs_nearestEven_sub_le y
  have hlt : |(nearestEven y : ℚ) - n| < 1 := by
    calc |(nearestEven y : ℚ) - n| = |(nearestEven y - y) + (y - n)| := by ring_nf
      _ ≤ |(nearestEven y : ℚ) - y| + |y - n| := abs_add_le _ _
      _ < 1 := by linarith
  have hint : |nearestEven y - n| < 1 := by exact_mod_cast hlt
  have hzero := Int.abs_lt_one_iff.mp hint
  omega

theorem log_eq {e : ℤ} (hle : (10 : ℚ) ^ e ≤ x) (hlt : x < 10 ^ (e + 1)) : Int.log 10 x = e := by
  have hx : 0 < x := lt_of_lt_of_le (by positivity) hle
  have hlow := (Int.zpow_le_iff_le_log (by norm_num : 1 < 10) hx).mp (by push_cast; exact hle)
  have hhigh := (Int.lt_zpow_iff_log_lt (by norm_num : 1 < 10) hx).mp (by push_cast; exact hlt)
  omega

/-- The powers of ten in terms of the sixth digit. -/
theorem powers (e : ℤ) : (10 : ℚ) ^ e = 100000 * 10 ^ (e - 5) ∧ (10 : ℚ) ^ (e + 1) = 1000000 * 10 ^ (e - 5) ∧
    (10 : ℚ) ^ (e - 1) = 10000 * 10 ^ (e - 5) ∧ (10 : ℚ) ^ (e - 1 - 5) = 10 ^ (e - 5) / 10 := by
  have hshift : ∀ k : ℤ, (10 : ℚ) ^ (k + (e - 5)) = 10 ^ k * 10 ^ (e - 5) := fun k => zpow_add₀ (by norm_num) _ _
  refine ⟨?_, ?_, ?_, ?_⟩
  · rw [show e = 5 + (e - 5) by ring, hshift]
    norm_num
  · rw [show e + 1 = 6 + (e - 5) by ring, hshift]
    norm_num
  · rw [show e - 1 = 4 + (e - 5) by ring, hshift]
    norm_num
  · rw [show e - 1 - 5 = -1 + (e - 5) by ring, hshift]
    norm_num
    ring

/-- A number near one of six digits is rounded to that one. -/
theorem rounded_near {m : ℕ} {e : ℤ} (hm : 100000 ≤ m) (hm' : m < 1000000)
    (hnear : |x - m * 10 ^ (e - 5)| < 10 ^ (e - 5) / 20) : rounded x = m * 10 ^ (e - 5) := by
  obtain ⟨hpow, hnext, hlast, hsixth⟩ := powers e
  have hunit : (0 : ℚ) < 10 ^ (e - 5) := by positivity
  have hm₁ : (100000 : ℚ) ≤ m := by exact_mod_cast hm
  have hm₂ : (m : ℚ) + 1 ≤ 1000000 := by exact_mod_cast hm'
  generalize hu : (10 : ℚ) ^ (e - 5) = u at *
  obtain ⟨hlow, hhigh⟩ := abs_lt.mp hnear
  by_cases hge : 100000 * u ≤ x
  · have hlog : Int.log 10 x = e := log_eq (hpow ▸ hge) (by rw [hnext]; nlinarith)
    have hround : nearestEven (x / u) = m := by
      apply nearestEven_of_near
      have hscaled : x / u - (m : ℤ) = (x - m * u) / u := by
        push_cast
        field_simp
      rw [hscaled, abs_div, abs_of_pos hunit, div_lt_iff₀ hunit]
      linarith
    have hscale : scale x = (m, e) := by
      unfold scale
      dsimp only
      rw [hlog, hu, hround, Int.toNat_natCast, if_neg hm'.ne]
    rw [rounded, hscale, hu]
  · -- Just below a power of ten the digits are rounded up to it.
    have hmin : m = 100000 := by
      by_contra hne
      have hcast : (100001 : ℚ) ≤ m := by exact_mod_cast (by omega : 100001 ≤ m)
      nlinarith
    subst hmin
    push_cast at hlow hhigh hnear
    have hlog : Int.log 10 x = e - 1 :=
      log_eq (by rw [hlast]; linarith) (by rw [sub_add_cancel, hpow]; exact not_le.mp hge)
    have hten : 0 < u / 10 := by linarith
    have hround : nearestEven (x / (u / 10)) = 1000000 := by
      apply nearestEven_of_near
      have hscaled : x / (u / 10) - (1000000 : ℤ) = (x - 100000 * u) / (u / 10) := by
        push_cast
        field_simp
        ring
      rw [hscaled, abs_div, abs_of_pos hten, div_lt_iff₀ hten]
      linarith
    have hscale : scale x = (100000, e) := by
      unfold scale
      dsimp only
      rw [hlog, hsixth, hround, if_pos (by decide), sub_add_cancel]
    rw [rounded, hscale, hu]

end Scale

/-! ## What is printed -/

theorem positiveText_eq_cons (m : ℕ) (e : ℤ) : ∃ c l, positiveText m e = c :: l ∧ c.isDigit = true := by
  obtain ⟨c, l, hl⟩ := List.exists_cons_of_length_eq_add_one (length_digits 6 m)
  have hdigit : c.isDigit = true := digits_isDigit 6 m c (by rw [hl]; exact List.mem_cons_self)
  unfold positiveText
  rw [hl]
  dsimp only
  split
  · exact ⟨c, _, rfl, hdigit⟩
  · split
    · exact ⟨c, _, by rw [List.take_succ_cons]; rfl, hdigit⟩
    · exact ⟨'0', _, rfl, rfl⟩

theorem readNumber_cons {c : Char} (hc : c ≠ '-') (l : List Char) : readNumber (c :: l) = readUnsigned (c :: l) := by
  unfold readNumber
  split
  · next heq => exact absurd (List.cons.inj heq).1 hc
  · rfl

/-- **A numeral denotes the number it was printed for, rounded.** -/
theorem readNumber_general (x : ℚ) : readNumber (general x) = some (printed x) := by
  unfold general printed
  by_cases hzero : x = 0
  · have hread := @readUnsigned_numeral ['0'] [] [] 0 (by simp) (by simp) (by simp) (by simp) rfl
    rw [if_pos hzero, if_pos hzero, readNumber_cons (by decide)]
    simpa [fractionText, stripZeros, valueOf, Nat.ofDigitChars] using hread
  · rw [if_neg hzero, if_neg hzero]
    have hbounds := scale_bounds (abs_pos.mpr hzero)
    have hread := readUnsigned_positiveText hbounds.2 (scale |x|).2
    by_cases hneg : x < 0
    · rw [if_pos hneg, if_pos hneg, List.singleton_append, readNumber, hread]
      rfl
    · rw [if_neg hneg, if_neg hneg, List.nil_append]
      obtain ⟨c, l, hl, hdigit⟩ := positiveText_eq_cons (scale |x|).1 (scale |x|).2
      rw [hl] at hread ⊢
      rw [readNumber_cons (isDigit_ne hdigit).2.2, hread, abs_of_nonneg (not_lt.mp hneg)]
      rfl

/-- What a numeral is written with. -/
def IsNumeral (c : Char) : Prop := c.isDigit = true ∨ c = '-' ∨ c = '+' ∨ c = '.' ∨ c = 'e'

theorem isNumeral_fractionText {l : List Char} (h : ∀ c ∈ l, c.isDigit = true) : ∀ c ∈ fractionText l, IsNumeral c := by
  intro c hc
  unfold fractionText at hc
  split at hc
  · cases hc
  · rcases List.mem_cons.mp hc with rfl | hc
    · simp [IsNumeral]
    · exact .inl (h c (mem_stripZeros hc))

theorem isNumeral_exponentText (e : ℤ) : ∀ c ∈ exponentText e, IsNumeral c := by
  intro c hc
  have hdigits := (padded_digits e.natAbs).1
  rw [areDigits, Bool.and_eq_true, List.all_eq_true] at hdigits
  rcases List.mem_cons.mp hc with rfl | hc
  · simp [IsNumeral]
  · rcases List.mem_cons.mp hc with rfl | hc
    · split <;> simp [IsNumeral]
    · exact .inl (hdigits.2 c hc)

theorem isNumeral_positiveText (m : ℕ) (e : ℤ) : ∀ c ∈ positiveText m e, IsNumeral c := by
  intro c hc
  have hdigit := digits_isDigit 6 m
  have htake : ∀ k, ∀ c ∈ (digits 6 m).take k, IsNumeral c := fun k c hc => .inl (hdigit c (List.mem_of_mem_take hc))
  have hdrop : ∀ k, ∀ c ∈ (digits 6 m).drop k, c.isDigit = true := fun k c hc => hdigit c (List.mem_of_mem_drop hc)
  unfold positiveText at hc
  dsimp only at hc
  split at hc
  · rcases List.mem_append.mp hc with hc | hc
    · rcases List.mem_append.mp hc with hc | hc
      · exact htake 1 c hc
      · exact isNumeral_fractionText (hdrop 1) c hc
    · exact isNumeral_exponentText e c hc
  · split at hc
    · rcases List.mem_append.mp hc with hc | hc
      · exact htake _ c hc
      · exact isNumeral_fractionText (hdrop _) c hc
    · rcases List.mem_cons.mp hc with rfl | hc
      · exact .inl rfl
      · refine isNumeral_fractionText (fun c hc => ?_) c hc
        rcases List.mem_append.mp hc with hc | hc
        · rw [List.eq_of_mem_replicate hc]
          rfl
        · exact hdigit c hc

theorem isNumeral_general (x : ℚ) : ∀ c ∈ general x, IsNumeral c := by
  intro c hc
  unfold general at hc
  split at hc
  · rw [List.mem_singleton.mp hc]
    exact .inl rfl
  · rcases List.mem_append.mp hc with hc | hc
    · split at hc
      · rw [List.mem_singleton.mp hc]
        exact .inr (.inl rfl)
      · cases hc
    · exact isNumeral_positiveText _ _ c hc

/-! ## Integers -/

theorem readNumber_toDigits (n : ℕ) : readNumber (Nat.toDigits 10 n) = some (n : ℚ) := by
  have hne : Nat.toDigits 10 n ≠ [] := Nat.toDigits_ne_nil
  have hread := @readUnsigned_numeral (Nat.toDigits 10 n) [] [] 0 hne (toDigits_isDigit n) (by simp) (by simp) rfl
  have hdigit := toDigits_isDigit n
  have hfraction : fractionText [] = [] := by simp [fractionText, stripZeros]
  rw [hfraction, List.append_nil, List.append_nil, valueOf_toDigits] at hread
  cases hl : Nat.toDigits 10 n with
  | nil => exact absurd hl hne
  | cons c l =>
    rw [hl] at hread hdigit
    rw [readNumber_cons (isDigit_ne (hdigit c List.mem_cons_self)).2.2, hread]
    simp

variable {n : ℕ} {x : ℚ}

theorem hasSixDigits_of_rounded (hx : 0 < x) (h : rounded x = n) : HasSixDigits n := by
  obtain ⟨-, hm⟩ := scale_bounds hx
  unfold rounded at h
  generalize (scale x).1 = m at h hm
  generalize (scale x).2 = e at h
  by_cases he : 5 ≤ e
  · refine ⟨m, (e - 5).toNat, hm, ?_⟩
    have hpow : (10 : ℚ) ^ (e - 5) = (10 ^ (e - 5).toNat : ℕ) := by
      push_cast
      rw [← zpow_natCast, Int.toNat_of_nonneg (by omega)]
    rw [hpow] at h
    exact_mod_cast h.symm
  · refine ⟨n, 0, ?_, by simp⟩
    have hle : (10 : ℚ) ^ (e - 5) ≤ 1 := zpow_le_one_of_nonpos₀ (by norm_num) (by omega)
    have hcast : (n : ℚ) ≤ m := by
      rw [← h]
      exact mul_le_of_le_one_right (Nat.cast_nonneg m) hle
    exact lt_of_le_of_lt (by exact_mod_cast hcast) hm

/-- An integer of six digits at most, as one of exactly six and a power of ten. -/
theorem HasSixDigits.exists_leading (h : HasSixDigits n) (hpos : 0 < n) :
    ∃ (m : ℕ) (e : ℤ), 100000 ≤ m ∧ m < 1000000 ∧ (n : ℚ) = m * 10 ^ (e - 5) := by
  obtain ⟨m, k, hm, rfl⟩ := h
  have hm₀ : m ≠ 0 := by
    rintro rfl
    simp at hpos
  have hlog : Nat.log 10 m ≤ 5 := Nat.lt_succ_iff.mp (Nat.log_lt_of_lt_pow hm₀ hm)
  have hlow := Nat.pow_log_le_self 10 hm₀
  have hhigh := Nat.lt_pow_succ_log_self (by norm_num : 1 < 10) m
  generalize Nat.log 10 m = d at hlog hlow hhigh
  refine ⟨m * 10 ^ (5 - d), k + d, ?_, ?_, ?_⟩
  · calc 100000 = 10 ^ d * 10 ^ (5 - d) := by rw [← pow_add, Nat.add_sub_cancel' hlog]; norm_num
      _ ≤ m * 10 ^ (5 - d) := Nat.mul_le_mul_right _ hlow
  · calc m * 10 ^ (5 - d) < 10 ^ (d + 1) * 10 ^ (5 - d) := Nat.mul_lt_mul_of_pos_right hhigh (by positivity)
      _ = 1000000 := by rw [← pow_add, show d + 1 + (5 - d) = 6 by omega]; norm_num
  · push_cast
    rw [mul_assoc, ← zpow_natCast, ← zpow_natCast, ← zpow_add₀ (by norm_num)]
    congr 2
    omega

theorem rounded_of_close (h : HasSixDigits n) (hpos : 0 < n) (hclose : |x - n| ≤ n / 2 ^ 53) :
    rounded x = n := by
  obtain ⟨m, e, hm, hm', hn⟩ := h.exists_leading hpos
  have hunit : (0 : ℚ) < 10 ^ (e - 5) := by positivity
  have hcast : (m : ℚ) ≤ 1000000 := by exact_mod_cast hm'.le
  rw [hn] at hclose ⊢
  refine rounded_near hm hm' (lt_of_le_of_lt hclose ?_)
  calc (m : ℚ) * 10 ^ (e - 5) / 2 ^ 53 ≤ 1000000 * 10 ^ (e - 5) / 2 ^ 53 := by gcongr
    _ < 10 ^ (e - 5) / 20 := by linarith

theorem printed_of_pos (hx : 0 < x) : printed x = rounded x := by
  rw [printed, if_neg hx.ne', if_neg (not_lt.mpr hx.le)]

theorem hasSixDigits_of_printed (hx : 0 ≤ x) (h : printed x = n) : HasSixDigits n := by
  rcases hx.eq_or_lt with rfl | hpos
  · rw [printed, if_pos rfl] at h
    exact ⟨0, 0, by norm_num, by simpa using h.symm⟩
  · rw [printed_of_pos hpos] at h
    exact hasSixDigits_of_rounded hpos h

/-- **An integer is printed exactly where it has six digits at most.** It is made a float first, which
does not matter: a float is too near to an integer. -/
theorem printed_ofNat_iff (h : (n : ℚ) < Binary64.overflow) :
    printed (Binary64.toRat (.ofNat n)) = n ↔ HasSixDigits n := by
  have hclose := Binary64.toRat_ofNat_error h
  have hnonneg := Binary64.toRat_ofNat_nonneg h
  constructor
  · exact hasSixDigits_of_printed hnonneg
  · intro hsix
    rcases n.eq_zero_or_pos with rfl | hpos
    · have hzero : Binary64.toRat (.ofNat 0) = 0 := by simpa using hclose
      rw [hzero]
      simp [printed]
    · have hcast : (0 : ℚ) < n := by exact_mod_cast hpos
      have hx : 0 < Binary64.toRat (.ofNat n) := by
        have hlow := (abs_le.mp hclose).1
        linarith
      rw [printed_of_pos hx]
      exact rounded_of_close hsix hpos hclose

end Caips.Logic.Decimal
