/-
Caips.Logic.Json — JSON values, the text Python's
`json.dumps(value, sort_keys=True)` writes for them, and how much of a value
its text determines.

A number is an integer or the `repr` of a float; a float's `repr` gives the
float back, so it stands for the value. An object is its list of members in
the order they were inserted, and two values are the SAME when they agree after
all objects are sorted by key (`Json.Same`).

* `dumps_inj` — equal texts come from the same value. The writer is prefix
  free: `write_append_inj` reads one value off a longer text, and it is proved
  by recursion over the value, without a parser.
* `write_after_inj` — a text put after a separator can be found again: a
  character that JSON uses only inside strings cannot be followed by a whole
  JSON text in the middle of another. The reason is the parity of the quotes:
  read from inside a string and from outside of it, no text ends outside in
  both readings (`scan_opposite`).

Nothing in this file knows what is being verified.
-/
import Mathlib.Data.List.Sort
import Mathlib.Tactic.Basic

namespace Caips.Logic

/-! ## Values -/

/-- The characters of numbers and of `null`, `true` and `false`. -/
def isWordChar (c : Char) : Bool := c.isAlphanum || c == '-' || c == '+' || c == '.'

/-- The characters of integers. -/
def isIntChar (c : Char) : Bool := c.isDigit || c == '-'

/-- The text of a float: it starts like a number and does not read as an integer. -/
def isFloatText (text : List Char) : Bool :=
  text.all isWordChar && text.head?.any (fun c => isIntChar c || c == 'N' || c == 'I') &&
    text.any (fun c => !isIntChar c)

/-- A float, by its `repr`. -/
structure FloatText where
  text : List Char
  wf : isFloatText text = true
  deriving DecidableEq

/-- The values without parts, but for strings. -/
inductive Atom where
  | null
  | bool (b : Bool)
  | int (n : Int)
  | float (x : FloatText)
  deriving DecidableEq

/-- A JSON value. -/
inductive Json where
  | atom (a : Atom)
  | str (s : List Char)
  | arr (items : List Json)
  | obj (members : List (List Char × Json))

/-! ## The writer -/

/-- `int.__repr__`. -/
def intText : Int → List Char
  | .ofNat n => Nat.toDigits 10 n
  | .negSucc n => '-' :: Nat.toDigits 10 (n + 1)

def Atom.text : Atom → List Char
  | .null => ['n', 'u', 'l', 'l']
  | .bool true => ['t', 'r', 'u', 'e']
  | .bool false => ['f', 'a', 'l', 's', 'e']
  | .int n => intText n
  | .float x => x.text

/-- `\uXXXX`. -/
def unicodeEscape (n : Nat) : List Char :=
  ['\\', 'u', Nat.digitChar (n / 4096), Nat.digitChar (n / 256 % 16), Nat.digitChar (n / 16 % 16),
    Nat.digitChar (n % 16)]

/-- One character of a string, as `ensure_ascii` writes it. -/
def escapeChar (c : Char) : List Char :=
  if c = '"' then ['\\', '"']
  else if c = '\\' then ['\\', '\\']
  else if c = '\n' then ['\\', 'n']
  else if c = '\r' then ['\\', 'r']
  else if c = '\t' then ['\\', 't']
  else if c.toNat = 12 then ['\\', 'f']
  else if c.toNat = 8 then ['\\', 'b']
  else if 32 ≤ c.toNat ∧ c.toNat ≤ 126 then [c]
  else if c.toNat < 65536 then unicodeEscape c.toNat
  else
    unicodeEscape (0xD800 + (c.toNat - 65536) / 1024) ++
      unicodeEscape (0xDC00 + (c.toNat - 65536) % 1024)

/-- A string between its quotes, up to and with the closing one. -/
def escape : List Char → List Char
  | [] => ['"']
  | c :: s => escapeChar c ++ escape s

mutual

/-- The text of a value. -/
def write : Json → List Char
  | .atom a => a.text
  | .str s => '"' :: escape s
  | .arr [] => ['[', ']']
  | .arr (x :: items) => '[' :: (write x ++ writeItems items)
  | .obj [] => ['{', '}']
  | .obj (m :: members) => '{' :: '"' :: (escape m.1 ++ ':' :: ' ' :: (write m.2 ++ writeMembers members))

/-- The items after the first. -/
def writeItems : List Json → List Char
  | [] => [']']
  | x :: items => ',' :: ' ' :: (write x ++ writeItems items)

/-- The members after the first. -/
def writeMembers : List (List Char × Json) → List Char
  | [] => ['}']
  | m :: members => ',' :: ' ' :: '"' :: (escape m.1 ++ ':' :: ' ' :: (write m.2 ++ writeMembers members))

end

mutual

/-- The text of a value without spaces: `json.dumps(value, separators=(",", ":"))`. -/
def compact : Json → List Char
  | .atom a => a.text
  | .str s => '"' :: escape s
  | .arr [] => ['[', ']']
  | .arr (x :: items) => '[' :: (compact x ++ compactItems items)
  | .obj [] => ['{', '}']
  | .obj (m :: members) => '{' :: '"' :: (escape m.1 ++ ':' :: (compact m.2 ++ compactMembers members))

def compactItems : List Json → List Char
  | [] => [']']
  | x :: items => ',' :: (compact x ++ compactItems items)

def compactMembers : List (List Char × Json) → List Char
  | [] => ['}']
  | m :: members => ',' :: '"' :: (escape m.1 ++ ':' :: (compact m.2 ++ compactMembers members))

end

mutual

/-- Objects sorted by key, at every depth. -/
def Json.sorted : Json → Json
  | .atom a => .atom a
  | .str s => .str s
  | .arr items => .arr (sortedItems items)
  | .obj members => .obj ((sortedMembers members).insertionSort fun m n => m.1 ≤ n.1)

def sortedItems : List Json → List Json
  | [] => []
  | x :: items => x.sorted :: sortedItems items

def sortedMembers : List (List Char × Json) → List (List Char × Json)
  | [] => []
  | m :: members => (m.1, m.2.sorted) :: sortedMembers members

end

/-- Equal but for the order of members. -/
def Json.Same (a b : Json) : Prop := a.sorted = b.sorted

/-- `json.dumps(value, sort_keys=True)`. -/
def dumps (a : Json) : List Char := write a.sorted

/-! ## Words -/

variable {c : Char}

theorem isWordChar_of_isDigit (h : c.isDigit = true) : isWordChar c = true := by
  simp [isWordChar, Char.isAlphanum, h]

theorem intText_isIntChar {n : Int} (h : c ∈ intText n) : isIntChar c = true := by
  unfold isIntChar
  cases n with
  | ofNat n => simp [Nat.isDigit_of_mem_toDigits (by decide) (by decide) h]
  | negSucc n =>
    rcases List.mem_cons.mp h with rfl | h
    · rfl
    · simp [Nat.isDigit_of_mem_toDigits (by decide) (by decide) h]

theorem isWordChar_of_isIntChar (h : isIntChar c = true) : isWordChar c = true := by
  rcases Bool.or_eq_true_iff.mp h with h | h
  · exact isWordChar_of_isDigit h
  · simp [isWordChar, h]

theorem toDigits_inj {m n : Nat} (h : Nat.toDigits 10 m = Nat.toDigits 10 n) : m = n := by
  have hvalue := congrArg (fun l => Nat.ofDigitChars 10 l 0) h
  simpa using hvalue

theorem minus_notMem_toDigits (n : Nat) : '-' ∉ Nat.toDigits 10 n := fun h =>
  absurd (Nat.isDigit_of_mem_toDigits (by decide) (by decide) h) (by decide)

theorem intText_inj {m n : Int} (h : intText m = intText n) : m = n := by
  cases m with
  | ofNat m =>
    cases n with
    | ofNat n => exact congrArg Int.ofNat (toDigits_inj h)
    | negSucc n =>
      have hmem : '-' ∈ intText (.ofNat m) := h ▸ List.mem_cons_self
      exact absurd hmem (minus_notMem_toDigits m)
  | negSucc m =>
    cases n with
    | ofNat n =>
      have hmem : '-' ∈ intText (.ofNat n) := h ▸ List.mem_cons_self
      exact absurd hmem (minus_notMem_toDigits n)
    | negSucc n =>
      have hdigits := toDigits_inj (List.cons.inj h).2
      exact congrArg Int.negSucc (Nat.succ.inj hdigits)

theorem intText_ne_nil (n : Int) : intText n ≠ [] := by
  cases n with
  | ofNat n => exact Nat.toDigits_ne_nil
  | negSucc n => exact List.cons_ne_nil _ _

theorem Atom.text_word (a : Atom) : a.text ≠ [] ∧ ∀ c ∈ a.text, isWordChar c = true := by
  cases a with
  | null => exact ⟨List.cons_ne_nil _ _, List.all_eq_true.mp rfl⟩
  | bool b => cases b <;> exact ⟨List.cons_ne_nil _ _, List.all_eq_true.mp rfl⟩
  | int n => exact ⟨intText_ne_nil n, fun c hc => isWordChar_of_isIntChar (intText_isIntChar hc)⟩
  | float x =>
    have hwf := x.wf
    simp only [isFloatText, Bool.and_eq_true] at hwf
    refine ⟨fun hnil => ?_, List.all_eq_true.mp hwf.1.1⟩
    have hsome := hwf.1.2
    rw [show x.text = [] from hnil] at hsome
    cases hsome

/-- A constant is no number. -/
theorem head_of_number {a : Atom} {l : List Char} (h : a.text = c :: l)
    (hc : c = 'n' ∨ c = 't' ∨ c = 'f') : a = .null ∨ ∃ b, a = .bool b := by
  cases a with
  | null => exact .inl rfl
  | bool b => exact .inr ⟨b, rfl⟩
  | int n =>
    have hint : isIntChar c = true := intText_isIntChar (h ▸ List.mem_cons_self)
    rcases hc with rfl | rfl | rfl <;> exact absurd hint (by decide)
  | float x =>
    have hwf := x.wf
    simp only [isFloatText, Bool.and_eq_true] at hwf
    have hhead := hwf.1.2
    rw [show x.text = c :: l from h] at hhead
    have hstart : (isIntChar c || c == 'N' || c == 'I') = true := hhead
    rcases hc with rfl | rfl | rfl <;> exact absurd hstart (by decide)

theorem Atom.text_inj {a b : Atom} (h : a.text = b.text) : a = b := by
  have hconst : ∀ {a b : Atom}, (a = .null ∨ ∃ x, a = .bool x) → a.text = b.text → a = b := by
    intro a b ha h
    have hb : b = .null ∨ ∃ x, b = .bool x := by
      rcases ha with rfl | ⟨x, rfl⟩
      · exact head_of_number h.symm (by decide)
      · cases x
        · exact head_of_number h.symm (by decide)
        · exact head_of_number h.symm (by decide)
    rcases ha with rfl | ⟨x, rfl⟩ <;> rcases hb with rfl | ⟨y, rfl⟩
    · rfl
    · cases y <;> cases h
    · cases x <;> cases h
    · cases x <;> cases y <;> first | rfl | cases h
  have hmixed : ∀ (n : Int) (x : FloatText), intText n ≠ x.text := by
    intro n x hnx
    have hwf := x.wf
    simp only [isFloatText, Bool.and_eq_true] at hwf
    obtain ⟨c, hc, hnot⟩ := List.any_eq_true.mp hwf.2
    rw [intText_isIntChar (hnx ▸ hc)] at hnot
    cases hnot
  cases a with
  | null => exact hconst (.inl rfl) h
  | bool x => exact hconst (.inr ⟨x, rfl⟩) h
  | int m =>
    cases b with
    | null => exact (hconst (.inl rfl) h.symm).symm
    | bool y => exact (hconst (.inr ⟨y, rfl⟩) h.symm).symm
    | int n => exact congrArg Atom.int (intText_inj h)
    | float y => exact absurd h (hmixed m y)
  | float x =>
    cases b with
    | null => exact (hconst (.inl rfl) h.symm).symm
    | bool y => exact (hconst (.inr ⟨y, rfl⟩) h.symm).symm
    | int n => exact absurd h.symm (hmixed n x)
    | float y =>
      obtain ⟨l, hl⟩ := x
      obtain rfl : l = y.text := h
      rfl

/-! ## Strings -/

/-- What the letter after a backslash stands for. -/
def escaped (e : Char) : Nat :=
  if e = 'n' then 10 else if e = 'r' then 13 else if e = 't' then 9
  else if e = 'f' then 12 else if e = 'b' then 8 else e.toNat

/-- The ways a character is written. -/
theorem escapeChar_cases (c : Char) :
    (∃ e, escapeChar c = ['\\', e] ∧ e ≠ 'u' ∧ c.toNat = escaped e) ∨
    (escapeChar c = [c] ∧ c ≠ '\\' ∧ c ≠ '"') ∨
    (escapeChar c = unicodeEscape c.toNat ∧ c.toNat < 65536) ∨
    (65536 ≤ c.toNat ∧ escapeChar c = unicodeEscape (0xD800 + (c.toNat - 65536) / 1024) ++
      unicodeEscape (0xDC00 + (c.toNat - 65536) % 1024)) := by
  generalize hout : escapeChar c = out
  unfold escapeChar at hout
  split_ifs at hout with h₁ h₂ h₃ h₄ h₅ h₆ h₇ h₈ h₉ <;> subst hout
  · exact .inl ⟨_, rfl, by decide, by rw [h₁]; rfl⟩
  · exact .inl ⟨_, rfl, by decide, by rw [h₂]; rfl⟩
  · exact .inl ⟨_, rfl, by decide, by rw [h₃]; rfl⟩
  · exact .inl ⟨_, rfl, by decide, by rw [h₄]; rfl⟩
  · exact .inl ⟨_, rfl, by decide, by rw [h₅]; rfl⟩
  · exact .inl ⟨_, rfl, by decide, h₆⟩
  · exact .inl ⟨_, rfl, by decide, h₇⟩
  · exact .inr (.inl ⟨rfl, h₂, h₁⟩)
  · exact .inr (.inr (.inl ⟨rfl, h₉⟩))
  · exact .inr (.inr (.inr ⟨not_lt.mp h₉, rfl⟩))

theorem digitChar_inj : ∀ m < 16, ∀ n < 16, Nat.digitChar m = Nat.digitChar n → m = n := by decide

variable {r s : List Char}

theorem unicodeEscape_append_inj {m n : Nat} (hm : m < 65536) (hn : n < 65536)
    (h : unicodeEscape m ++ r = unicodeEscape n ++ s) : m = n ∧ r = s := by
  simp only [unicodeEscape, List.cons_append, List.nil_append, List.cons.injEq, true_and] at h
  obtain ⟨h₁, h₂, h₃, h₄, hrest⟩ := h
  have e₁ := digitChar_inj _ (by omega) _ (by omega) h₁
  have e₂ := digitChar_inj _ (by omega) _ (by omega) h₂
  have e₃ := digitChar_inj _ (by omega) _ (by omega) h₃
  have e₄ := digitChar_inj _ (by omega) _ (by omega) h₄
  exact ⟨by omega, hrest⟩

theorem toNat_valid (c : Char) : c.toNat < 0xD800 ∨ 0xDFFF < c.toNat ∧ c.toNat < 0x110000 := c.valid

theorem escapeChar_append_inj {c d : Char}
    (h : escapeChar c ++ r = escapeChar d ++ s) : c = d ∧ r = s := by
  have hc := toNat_valid c
  have hd := toNat_valid d
  rcases escapeChar_cases c with ⟨e, hce, heu, hcv⟩ | ⟨hce, hcb, -⟩ | ⟨hce, hcn⟩ | ⟨hcn, hce⟩ <;>
    rcases escapeChar_cases d with ⟨f, hdf, hfu, hdv⟩ | ⟨hdf, hdb, -⟩ | ⟨hdf, hdn⟩ | ⟨hdn, hdf⟩ <;>
    rw [hce, hdf] at h
  · -- two escapes with a letter
    simp only [List.cons_append, List.nil_append, List.cons.injEq, true_and] at h
    exact ⟨Char.toNat_inj.mp (by rw [hcv, hdv, h.1]), h.2⟩
  · exact absurd (List.cons.inj h).1.symm hdb
  · exact absurd (List.cons.inj (List.cons.inj h).2).1 heu
  · exact absurd (List.cons.inj (List.cons.inj h).2).1 heu
  · exact absurd (List.cons.inj h).1 hcb
  · exact List.cons.inj h
  · exact absurd (List.cons.inj h).1 hcb
  · exact absurd (List.cons.inj h).1 hcb
  · exact absurd (List.cons.inj (List.cons.inj h).2).1.symm hfu
  · exact absurd (List.cons.inj h).1.symm hdb
  · obtain ⟨hcode, hrest⟩ := unicodeEscape_append_inj hcn hdn h
    exact ⟨Char.toNat_inj.mp hcode, hrest⟩
  · -- no character has the code of a surrogate
    rw [List.append_assoc] at h
    have hcode := (unicodeEscape_append_inj hcn (by omega) h).1
    omega
  · exact absurd (List.cons.inj (List.cons.inj h).2).1.symm hfu
  · exact absurd (List.cons.inj h).1.symm hdb
  · rw [List.append_assoc] at h
    have hcode := (unicodeEscape_append_inj (by omega) hdn h).1
    omega
  · -- two pairs of surrogates
    rw [List.append_assoc, List.append_assoc] at h
    obtain ⟨hhigh, hlow⟩ := unicodeEscape_append_inj (by omega) (by omega) h
    obtain ⟨hlow, hrest⟩ := unicodeEscape_append_inj (by omega) (by omega) hlow
    exact ⟨Char.toNat_inj.mp (by omega), hrest⟩

theorem escapeChar_head (c : Char) : ∃ d l, escapeChar c = d :: l ∧ d ≠ '"' := by
  rcases escapeChar_cases c with ⟨e, h, -, -⟩ | ⟨h, -, hq⟩ | ⟨h, -⟩ | ⟨-, h⟩
  · exact ⟨_, _, h, by decide⟩
  · exact ⟨_, _, h, hq⟩
  · exact ⟨_, _, h, by decide⟩
  · exact ⟨_, _, h, by decide⟩

theorem escape_append_inj : ∀ {s t r u : List Char}, escape s ++ r = escape t ++ u → s = t ∧ r = u
  | [], [], _, _, h => ⟨rfl, (List.cons.inj h).2⟩
  | [], d :: t, _, _, h => by
      obtain ⟨e, l, hd, hq⟩ := escapeChar_head d
      simp only [escape, hd, List.cons_append, List.nil_append, List.cons.injEq] at h
      exact absurd h.1.symm hq
  | c :: s, [], _, _, h => by
      obtain ⟨e, l, hc, hq⟩ := escapeChar_head c
      simp only [escape, hc, List.cons_append, List.nil_append, List.cons.injEq] at h
      exact absurd h.1 hq
  | c :: s, d :: t, _, _, h => by
      simp only [escape, List.append_assoc] at h
      obtain ⟨rfl, hrest⟩ := escapeChar_append_inj h
      obtain ⟨rfl, htail⟩ := escape_append_inj hrest
      exact ⟨rfl, htail⟩

/-! ## The writer is prefix free -/

/-- What follows a value in a longer text: nothing of a word. -/
def Ends (r : List Char) : Prop := ∀ c ∈ r.head?, isWordChar c = false

theorem word_append_inj : ∀ {v w r s : List Char}, (∀ c ∈ v, isWordChar c = true) →
    (∀ c ∈ w, isWordChar c = true) → Ends r → Ends s → v ++ r = w ++ s → v = w ∧ r = s
  | [], [], _, _, _, _, _, _, h => ⟨rfl, h⟩
  | [], c :: w, _, _, _, hw, hr, _, h => by
      subst h
      exact nomatch (hr c rfl).symm.trans (hw c List.mem_cons_self)
  | c :: v, [], _, _, hv, _, _, hs, h => by
      subst h
      exact nomatch (hs c rfl).symm.trans (hv c List.mem_cons_self)
  | c :: v, d :: w, _, _, hv, hw, hr, hs, h => by
      obtain ⟨rfl, hrest⟩ := List.cons.inj h
      obtain ⟨rfl, htail⟩ := word_append_inj (fun x hx => hv x (List.mem_cons_of_mem _ hx))
        (fun x hx => hw x (List.mem_cons_of_mem _ hx)) hr hs hrest
      exact ⟨rfl, htail⟩

/-- How the text of a value begins. -/
def Begins : Json → Char → Prop
  | .atom _, c => isWordChar c = true
  | .str _, c => c = '"'
  | .arr _, c => c = '['
  | .obj _, c => c = '{'

theorem write_head (a : Json) : ∃ c l, write a = c :: l ∧ Begins a c := by
  cases a with
  | atom a =>
    obtain ⟨hne, hword⟩ := a.text_word
    obtain ⟨c, l, hl⟩ := List.exists_cons_of_ne_nil hne
    exact ⟨c, l, hl, hword c (hl ▸ List.mem_cons_self)⟩
  | str s => exact ⟨_, _, rfl, rfl⟩
  | arr items =>
    cases items with
    | nil => exact ⟨_, _, rfl, rfl⟩
    | cons x items => exact ⟨_, _, rfl, rfl⟩
  | obj members =>
    cases members with
    | nil => exact ⟨_, _, rfl, rfl⟩
    | cons m members => exact ⟨_, _, rfl, rfl⟩

theorem ends_writeItems (items : List Json) (r : List Char) : Ends (writeItems items ++ r) := by
  cases items with
  | nil => exact fun c hc => Option.mem_some_iff.mp hc ▸ rfl
  | cons x items => exact fun c hc => Option.mem_some_iff.mp hc ▸ rfl

theorem ends_writeMembers (members : List (List Char × Json)) (r : List Char) :
    Ends (writeMembers members ++ r) := by
  cases members with
  | nil => exact fun c hc => Option.mem_some_iff.mp hc ▸ rfl
  | cons m members => exact fun c hc => Option.mem_some_iff.mp hc ▸ rfl

theorem not_begins_close (a : Json) : ¬Begins a ']' := by
  cases a with
  | atom a => exact (absurd · (by decide : ¬isWordChar ']' = true))
  | str s => exact (absurd · (by decide : ¬ ']' = '"'))
  | arr items => exact (absurd · (by decide : ¬ ']' = '['))
  | obj members => exact (absurd · (by decide : ¬ ']' = '{'))

theorem same_head {a b : Json} (h : write a ++ r = write b ++ s) :
    ∃ c, Begins a c ∧ Begins b c := by
  obtain ⟨c, l, ha, hc⟩ := write_head a
  obtain ⟨d, m, hb, hd⟩ := write_head b
  rw [ha, hb] at h
  obtain rfl : c = d := (List.cons.inj h).1
  exact ⟨c, hc, hd⟩

mutual

/-- One value is read off a text in one way only. -/
theorem write_append_inj : ∀ (a b : Json) {r s : List Char}, Ends r → Ends s →
    write a ++ r = write b ++ s → a = b ∧ r = s
  | .atom a, b, r, s, hr, hs, h => by
      obtain ⟨c, hc, hd⟩ := same_head h
      cases b with
      | atom b =>
        obtain ⟨htext, hrest⟩ := word_append_inj a.text_word.2 b.text_word.2 hr hs h
        exact ⟨congrArg Json.atom (Atom.text_inj htext), hrest⟩
      | str t => exact absurd (hd ▸ hc : isWordChar '"' = true) (by decide)
      | arr items => exact absurd (hd ▸ hc : isWordChar '[' = true) (by decide)
      | obj members => exact absurd (hd ▸ hc : isWordChar '{' = true) (by decide)
  | .str t, b, r, s, hr, hs, h => by
      obtain ⟨c, rfl, hd⟩ := same_head h
      cases b with
      | atom b => exact absurd (show isWordChar '"' = true from hd) (by decide)
      | str u =>
        obtain ⟨rfl, hrest⟩ := escape_append_inj (List.cons.inj h).2
        exact ⟨rfl, hrest⟩
      | arr items => exact absurd (show '"' = '[' from hd) (by decide)
      | obj members => exact absurd (show '"' = '{' from hd) (by decide)
  | .arr items, b, r, s, hr, hs, h => by
      obtain ⟨c, rfl, hd⟩ := same_head h
      cases b with
      | atom b => exact absurd (show isWordChar '[' = true from hd) (by decide)
      | str u => exact absurd (show '[' = '"' from hd) (by decide)
      | obj members => exact absurd (show '[' = '{' from hd) (by decide)
      | arr others =>
        match items, others, h with
        | [], [], h => exact ⟨rfl, (List.cons.inj (List.cons.inj h).2).2⟩
        | [], y :: others, h =>
          obtain ⟨d, l, hy, hd⟩ := write_head y
          simp only [write, hy, List.cons_append, List.append_assoc, List.nil_append,
            List.cons.injEq, true_and] at h
          exact absurd (h.1 ▸ hd) (not_begins_close y)
        | x :: items, [], h =>
          obtain ⟨d, l, hx, hd⟩ := write_head x
          simp only [write, hx, List.cons_append, List.append_assoc, List.nil_append,
            List.cons.injEq, true_and] at h
          exact absurd (h.1 ▸ hd) (not_begins_close x)
        | x :: items, y :: others, h =>
          simp only [write, List.cons_append, List.append_assoc, List.cons.injEq, true_and] at h
          obtain ⟨rfl, hrest⟩ := write_append_inj x y (ends_writeItems _ _) (ends_writeItems _ _) h
          obtain ⟨rfl, htail⟩ := writeItems_append_inj items others hrest
          exact ⟨rfl, htail⟩
  | .obj members, b, r, s, hr, hs, h => by
      obtain ⟨c, rfl, hd⟩ := same_head h
      cases b with
      | atom b => exact absurd (show isWordChar '{' = true from hd) (by decide)
      | str u => exact absurd (show '{' = '"' from hd) (by decide)
      | arr items => exact absurd (show '{' = '[' from hd) (by decide)
      | obj others =>
        match members, others, h with
        | [], [], h => exact ⟨rfl, (List.cons.inj (List.cons.inj h).2).2⟩
        | [], n :: others, h =>
          exact absurd (List.cons.inj (List.cons.inj h).2).1 (by decide)
        | m :: members, [], h =>
          exact absurd (List.cons.inj (List.cons.inj h).2).1 (by decide)
        | (k, x) :: members, (l, y) :: others, h =>
          simp only [write, List.cons_append, List.append_assoc, List.cons.injEq, true_and] at h
          obtain ⟨rfl, hrest⟩ := escape_append_inj h
          simp only [List.cons.injEq, true_and] at hrest
          obtain ⟨rfl, hmembers⟩ :=
            write_append_inj x y (ends_writeMembers _ _) (ends_writeMembers _ _) hrest
          obtain ⟨rfl, htail⟩ := writeMembers_append_inj members others hmembers
          exact ⟨rfl, htail⟩

theorem writeItems_append_inj : ∀ (items others : List Json) {r s : List Char},
    writeItems items ++ r = writeItems others ++ s → items = others ∧ r = s
  | [], [], r, s, h => ⟨rfl, (List.cons.inj h).2⟩
  | [], y :: others, r, s, h => absurd (List.cons.inj h).1 (by decide)
  | x :: items, [], r, s, h => absurd (List.cons.inj h).1 (by decide)
  | x :: items, y :: others, r, s, h => by
      simp only [writeItems, List.cons_append, List.append_assoc, List.cons.injEq, true_and] at h
      obtain ⟨rfl, hrest⟩ := write_append_inj x y (ends_writeItems _ _) (ends_writeItems _ _) h
      obtain ⟨rfl, htail⟩ := writeItems_append_inj items others hrest
      exact ⟨rfl, htail⟩

theorem writeMembers_append_inj : ∀ (members others : List (List Char × Json)) {r s : List Char},
    writeMembers members ++ r = writeMembers others ++ s → members = others ∧ r = s
  | [], [], r, s, h => ⟨rfl, (List.cons.inj h).2⟩
  | [], n :: others, r, s, h => absurd (List.cons.inj h).1 (by decide)
  | m :: members, [], r, s, h => absurd (List.cons.inj h).1 (by decide)
  | (k, x) :: members, (l, y) :: others, r, s, h => by
      simp only [writeMembers, List.cons_append, List.append_assoc, List.cons.injEq, true_and] at h
      obtain ⟨rfl, hrest⟩ := escape_append_inj h
      simp only [List.cons.injEq, true_and] at hrest
      obtain ⟨rfl, hmembers⟩ :=
        write_append_inj x y (ends_writeMembers _ _) (ends_writeMembers _ _) hrest
      obtain ⟨rfl, htail⟩ := writeMembers_append_inj members others hmembers
      exact ⟨rfl, htail⟩

end

/-- **Equal texts come from the same value.** -/
theorem dumps_inj {a b : Json} (h : dumps a = dumps b) : a.Same b := by
  have hends : Ends [] := nofun
  exact (write_append_inj a.sorted b.sorted hends hends (by rw [← dumps, ← dumps, h])).1

/-! ## Texts after a separator -/

/-- The characters that JSON uses outside strings, but for the quote. -/
def isPlain (c : Char) : Bool := isWordChar c || c ∈ [',', ':', ' ', '[', ']', '{', '}']

/-- Where a reader of a text is. -/
inductive Scan where
  | plain
  | quoted
  | escaped
  deriving DecidableEq

/-- Read a text; `none` when it is no JSON at that place. -/
def scan : Scan → List Char → Option Scan
  | s, [] => some s
  | .plain, c :: r => if c = '"' then scan .quoted r else if isPlain c then scan .plain r else none
  | .quoted, c :: r =>
    if c = '"' then scan .plain r else if c = '\\' then scan .escaped r else scan .quoted r
  | .escaped, _ :: r => scan .quoted r

theorem scan_append : ∀ (s : Scan) (l r : List Char), scan s (l ++ r) = (scan s l).bind (scan · r)
  | s, [], r => rfl
  | .plain, c :: l, r => by
      simp only [List.cons_append, scan]
      split_ifs
      · exact scan_append _ l r
      · exact scan_append _ l r
      · rfl
  | .quoted, c :: l, r => by
      simp only [List.cons_append, scan]
      split_ifs <;> exact scan_append _ l r
  | .escaped, c :: l, r => scan_append _ l r

theorem scan_plain_cons (h : isPlain c = true) (r : List Char) :
    scan .plain (c :: r) = scan .plain r := by
  have hquote : c ≠ '"' := by
    rintro rfl
    exact absurd h (by decide)
  simp [scan, hquote, h]

theorem scan_word : ∀ {w : List Char} (r : List Char), (∀ c ∈ w, isWordChar c = true) →
    scan .plain (w ++ r) = scan .plain r
  | [], _, _ => rfl
  | c :: w, r, h => by
      rw [List.cons_append, scan_plain_cons (by simp [isPlain, h c List.mem_cons_self])]
      exact scan_word r fun x hx => h x (List.mem_cons_of_mem _ hx)

theorem scan_quoted_cons (hquote : c ≠ '"') (hback : c ≠ '\\') (r : List Char) :
    scan .quoted (c :: r) = scan .quoted r := by
  simp [scan, hquote, hback]

theorem digitChar_ne : ∀ n < 16, Nat.digitChar n ≠ '"' ∧ Nat.digitChar n ≠ '\\' := by decide

theorem scan_unicodeEscape {n : Nat} (hn : n < 65536) (r : List Char) :
    scan .quoted (unicodeEscape n ++ r) = scan .quoted r := by
  have h₁ := digitChar_ne (n / 4096) (by omega)
  have h₂ := digitChar_ne (n / 256 % 16) (by omega)
  have h₃ := digitChar_ne (n / 16 % 16) (by omega)
  have h₄ := digitChar_ne (n % 16) (by omega)
  show scan .quoted (Nat.digitChar (n / 4096) :: Nat.digitChar (n / 256 % 16) ::
    Nat.digitChar (n / 16 % 16) :: Nat.digitChar (n % 16) :: r) = _
  rw [scan_quoted_cons h₁.1 h₁.2, scan_quoted_cons h₂.1 h₂.2, scan_quoted_cons h₃.1 h₃.2,
    scan_quoted_cons h₄.1 h₄.2]

theorem scan_escapeChar (c : Char) (r : List Char) :
    scan .quoted (escapeChar c ++ r) = scan .quoted r := by
  have hvalid := toNat_valid c
  rcases escapeChar_cases c with ⟨e, h, -, -⟩ | ⟨h, hback, hquote⟩ | ⟨h, hn⟩ | ⟨hn, h⟩
  · rw [h]
    rfl
  · rw [h]
    exact scan_quoted_cons hquote hback r
  · rw [h]
    exact scan_unicodeEscape hn r
  · rw [h, List.append_assoc, scan_unicodeEscape (by omega), scan_unicodeEscape (by omega)]

theorem scan_escape : ∀ (s r : List Char), scan .quoted (escape s ++ r) = scan .plain r
  | [], r => rfl
  | c :: s, r => by
      rw [escape, List.append_assoc, scan_escapeChar]
      exact scan_escape s r

mutual

/-- A written value leaves a reader outside strings. -/
theorem scan_write : ∀ (a : Json) (r : List Char), scan .plain (write a ++ r) = scan .plain r
  | .atom a, r => scan_word r a.text_word.2
  | .str s, r => scan_escape s r
  | .arr [], r => rfl
  | .arr (x :: items), r => by
      rw [write, List.cons_append, List.append_assoc, scan_plain_cons (by decide), scan_write x,
        scan_writeItems items]
  | .obj [], r => rfl
  | .obj ((k, x) :: members), r => by
      rw [write, List.cons_append, List.cons_append, List.append_assoc, scan_plain_cons (by decide)]
      show scan .quoted (escape k ++ (':' :: ' ' :: (write x ++ writeMembers members) ++ r)) = _
      rw [scan_escape, List.cons_append, List.cons_append, List.append_assoc,
        scan_plain_cons (by decide), scan_plain_cons (by decide), scan_write x, scan_writeMembers members]

theorem scan_writeItems : ∀ (items : List Json) (r : List Char),
    scan .plain (writeItems items ++ r) = scan .plain r
  | [], r => rfl
  | x :: items, r => by
      rw [writeItems, List.cons_append, List.cons_append, List.append_assoc,
        scan_plain_cons (by decide), scan_plain_cons (by decide), scan_write x, scan_writeItems items]

theorem scan_writeMembers : ∀ (members : List (List Char × Json)) (r : List Char),
    scan .plain (writeMembers members ++ r) = scan .plain r
  | [], r => rfl
  | (k, x) :: members, r => by
      rw [writeMembers, List.cons_append, List.cons_append, List.cons_append, List.append_assoc,
        scan_plain_cons (by decide), scan_plain_cons (by decide)]
      show scan .quoted (escape k ++ (':' :: ' ' :: (write x ++ writeMembers members) ++ r)) = _
      rw [scan_escape, List.cons_append, List.cons_append, List.append_assoc,
        scan_plain_cons (by decide), scan_plain_cons (by decide), scan_write x, scan_writeMembers members]

end

/-- Read from outside and from inside a string, a text does not end at the same place. -/
theorem scan_opposite {s : Scan} : ∀ {l : List Char}, scan .plain l = some s → scan .quoted l ≠ some s
  | [], hp, hq => by
      have hboth := hp.trans hq.symm
      cases hboth
  | c :: l, hp, hq => by
      by_cases hquote : c = '"'
      · subst hquote
        exact scan_opposite hq hp
      · by_cases hplain : isPlain c = true
        · have hback : c ≠ '\\' := by
            rintro rfl
            exact absurd hplain (by decide)
          rw [scan_plain_cons hplain] at hp
          rw [scan_quoted_cons hquote hback] at hq
          exact scan_opposite hp hq
        · simp [scan, hquote, hplain] at hp

/-- A separator that JSON uses only inside strings. -/
def isSeparator (c : Char) : Bool := !isPlain c && c != '"' && c != '\\'

/-- After a separator in the middle of one text no other text can follow to the end. -/
theorem not_write_after {sep : Char} (hsep : isSeparator sep = true) (a b : Json) (m : List Char) :
    write a ≠ m ++ sep :: write b := by
  intro h
  simp only [isSeparator, Bool.and_eq_true, bne_iff_ne, Bool.not_eq_true'] at hsep
  obtain ⟨⟨hplain, hquote⟩, hback⟩ := hsep
  have ha : scan .plain (write a) = some .plain := by simpa [scan] using scan_write a []
  have hb : scan .plain (write b) = some .plain := by simpa [scan] using scan_write b []
  rw [h, scan_append] at ha
  obtain ⟨s, -, hs⟩ := Option.bind_eq_some_iff.mp ha
  cases s with
  | plain => simp [scan, hquote, hplain] at hs
  | quoted =>
    rw [scan_quoted_cons hquote hback] at hs
    exact scan_opposite hb hs
  | escaped => exact scan_opposite hb hs

/-- **The text after a separator can be found again.** -/
theorem write_after_inj {sep : Char} (hsep : isSeparator sep = true) {a b : Json} {p q : List Char}
    (h : p ++ sep :: write a = q ++ sep :: write b) : p = q ∧ write a = write b := by
  rcases List.append_eq_append_iff.mp h with ⟨m, hq, hrest⟩ | ⟨m, hp, hrest⟩
  · cases m with
    | nil => exact ⟨by simpa using hq.symm, (List.cons.inj hrest).2⟩
    | cons c m => exact absurd (List.cons.inj hrest).2 (not_write_after hsep a b m)
  · cases m with
    | nil => exact ⟨by simpa using hp, (List.cons.inj hrest).2.symm⟩
    | cons c m => exact absurd (List.cons.inj hrest).2 (not_write_after hsep b a m)

end Caips.Logic
