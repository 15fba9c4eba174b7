/-
Caips.Logic.Bytes — byte strings with fixed-width big-endian fields.

`beBytes` and `beValue` are inverse to each other between the strings of `k`
bytes and the numbers below `256 ^ k`, so a field can be read back and written
back.
-/
import Mathlib.Data.List.Induction
import Mathlib.Data.Nat.Notation
import Mathlib.Tactic.Basic
import Mathlib.Tactic.Ring

namespace Caips.Logic

/-- A byte string. -/
abbrev Bytes := List UInt8

/-- The last `k` bytes of a number, most significant first. -/
def beBytes : ℕ → ℕ → Bytes
  | 0, _ => []
  | k + 1, n => beBytes k (n / 256) ++ [UInt8.ofNat n]

/-- The number a byte string spells, most significant byte first. -/
def beValue (b : Bytes) : ℕ := b.foldl (fun n x => n * 256 + x.toNat) 0

@[simp] theorem length_beBytes (k n : ℕ) : (beBytes k n).length = k := by
  induction k generalizing n with
  | zero => rfl
  | succ k ih => simp [beBytes, ih]

@[simp] theorem beValue_nil : beValue [] = 0 := rfl

@[simp] theorem beValue_concat (b : Bytes) (x : UInt8) : beValue (b ++ [x]) = beValue b * 256 + x.toNat := by
  simp [beValue]

theorem beValue_lt (b : Bytes) : beValue b < 256 ^ b.length := by
  induction b using List.reverseRecOn with
  | nil => simp
  | append_singleton b x ih =>
    have hx := x.toNat_lt
    rw [beValue_concat, List.length_append, List.length_singleton, Nat.pow_succ]
    omega

theorem beValue_beBytes {k n : ℕ} (h : n < 256 ^ k) : beValue (beBytes k n) = n := by
  induction k generalizing n with
  | zero =>
    simp only [Nat.pow_zero] at h
    simp [beBytes]
    omega
  | succ k ih =>
    rw [Nat.pow_succ] at h
    have hdiv : n / 256 < 256 ^ k := by omega
    rw [beBytes, beValue_concat, ih hdiv]
    simp only [UInt8.toNat_ofNat']
    omega

theorem beBytes_beValue (b : Bytes) : beBytes b.length (beValue b) = b := by
  induction b using List.reverseRecOn with
  | nil => rfl
  | append_singleton b x ih =>
    have hx := x.toNat_lt
    have hdiv : (beValue b * 256 + x.toNat) / 256 = beValue b := by omega
    have hlast : UInt8.ofNat (beValue b * 256 + x.toNat) = x := by
      apply UInt8.toNat_inj.mp
      simp only [UInt8.toNat_ofNat']
      omega
    rw [List.length_append, List.length_singleton, beBytes, beValue_concat, hdiv, ih, hlast]

/-- The bytes at positions `i`, …, `i + k - 1`. -/
def slice (b : Bytes) (i k : ℕ) : Bytes := (b.drop i).take k

theorem length_slice {b : Bytes} {i k : ℕ} (h : i + k ≤ b.length) : (slice b i k).length = k := by
  simp [slice]
  omega

theorem slice_append_drop (b : Bytes) (i k : ℕ) : slice b i k ++ b.drop (i + k) = b.drop i := by
  rw [slice, ← List.drop_drop]
  exact List.take_append_drop k (b.drop i)

theorem slice_append {a b c : Bytes} {i k : ℕ} (hi : a.length = i) (hk : b.length = k) :
    slice (a ++ (b ++ c)) i k = b := by
  subst hi hk
  simp [slice]

end Caips.Logic
