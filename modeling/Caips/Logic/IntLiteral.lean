/-
Caips.Logic.IntLiteral — the integers that Python's `int` reads from a text.

The interpreter first turns characters that are not ASCII into ASCII: a space of
any script into a blank and a decimal digit of any script into its digit. Then it
reads blanks, a sign, digits with single underscores between them, and blanks. It
refuses a number with too many digits, whatever its value.
-/
import Mathlib.Data.List.DropRight
import Mathlib.Data.Nat.Digits.Defs

namespace Caips.Logic.IntLiteral

/-- What the interpreter knows of the characters that are not ASCII. -/
structure CharData where
  isSpace : Char → Bool
  digit : Char → Option (Fin 10)

/-- The most digits that are read, `sys.int_info.default_max_str_digits`. -/
def maxDigits : ℕ := 4300

/-- The blanks among the ASCII characters. -/
def isBlank (c : Char) : Bool := c ∈ [' ', '\t', '\n', '\x0b', '\x0c', '\r']

/-- The value of a numeral. -/
def value (digits : List Char) : ℕ := Nat.ofDigits 10 (digits.map fun c => c.toNat - 48).reverse

/-- A numeral in plain writing. -/
def Plain (text : List Char) : Prop := text ≠ [] ∧ ∀ c ∈ text, c.isDigit = true

variable (U : CharData)

def toAscii (c : Char) : Char :=
  if c.toNat < 127 then c
  else if U.isSpace c then ' '
  else match U.digit c with
    | some d => Char.ofNat (48 + d)
    | none => '?'

def strip (text : List Char) : List Char := (text.dropWhile isBlank).rdropWhile isBlank

/-- Digits with single underscores between them. -/
def unsigned (text : List Char) : Option ℕ :=
  let groups := text.splitOn '_'
  if (∀ group ∈ groups, group ≠ [] ∧ group.all Char.isDigit) ∧ groups.flatten.length ≤ maxDigits then
    some (value groups.flatten)
  else none

/-- `int(text)` -/
def int (text : List Char) : Option ℤ :=
  match strip (text.map (toAscii U)) with
  | '+' :: rest => (unsigned rest).map fun n => n
  | '-' :: rest => (unsigned rest).map fun n => -n
  | rest => (unsigned rest).map fun n => n

theorem isDigit_iff (c : Char) : c.isDigit = true ↔ 48 ≤ c.toNat ∧ c.toNat ≤ 57 := by
  simp only [Char.isDigit, Bool.and_eq_true, decide_eq_true_eq]
  rfl

theorem isBlank_of_digit {c : Char} (h : c.isDigit = true) : isBlank c = false := by
  by_contra hblank
  simp only [isBlank, Bool.not_eq_false, decide_eq_true_eq, List.mem_cons, List.not_mem_nil, or_false] at hblank
  obtain rfl | rfl | rfl | rfl | rfl | rfl := hblank <;> simp at h

theorem toAscii_of_digit {c : Char} (h : c.isDigit = true) : toAscii U c = c := by
  have hrange := (isDigit_iff c).mp h
  exact if_pos (by omega)

variable {text : List Char}

theorem strip_of_not_blank (h : ∀ c ∈ text, isBlank c = false) : strip text = text := by
  have hfront : text.dropWhile isBlank = text := by
    cases text with
    | nil => rfl
    | cons c rest => simp [h c]
  rw [strip, hfront, List.rdropWhile_eq_self_iff]
  intro hne
  simp [h _ (List.getLast_mem hne)]

theorem unsigned_plain (h : Plain text) :
    unsigned text = if text.length ≤ maxDigits then some (value text) else none := by
  obtain ⟨hne, hdigits⟩ := h
  have hsplit : text.splitOn '_' = [text] := by
    apply List.splitOn_eq_singleton
    intro hmem
    exact absurd (hdigits _ hmem) (by decide)
  have hall : (∀ c ∈ text, c.isDigit = true) ↔ True := iff_of_true hdigits trivial
  simp [unsigned, hsplit, hne, hall]

/-- `int` reads a numeral in plain writing, unless it has too many digits. -/
theorem int_plain (h : Plain text) :
    int U text = if text.length ≤ maxDigits then some (value text : ℤ) else none := by
  have hascii : text.map (toAscii U) = text := by
    rw [List.map_congr_left fun c hc => toAscii_of_digit U (h.2 c hc), List.map_id']
  have hstrip := strip_of_not_blank fun c hc => isBlank_of_digit (h.2 c hc)
  have hvalue : (unsigned text).map (fun n => (n : ℤ)) = if text.length ≤ maxDigits then some (value text : ℤ) else none := by
    rw [unsigned_plain h]
    split <;> rfl
  rw [int, hascii, hstrip, ← hvalue]
  split
  · exact absurd (h.2 '+' List.mem_cons_self) (by decide)
  · exact absurd (h.2 '-' List.mem_cons_self) (by decide)
  · rfl

theorem int_plain_iff (h : Plain text) (z : ℤ) :
    int U text = some z ↔ text.length ≤ maxDigits ∧ z = value text := by
  rw [int_plain U h]
  split
  · next hlen => simp [hlen, eq_comm]
  · next hlen => simp [hlen]

end Caips.Logic.IntLiteral
