/-
Caips.Logic.Exposition — the text format of metrics, printed and read.

A text is a list of lines. A line that starts with `#` is a comment; any other
one is a sample: a name, labels in braces with their values in quotes, and a
number behind a blank. What would end the value of a label or its line is
escaped, so that any text can be one (`readLabelValue_escape`).

`parse_unlines` is the round trip: lines that are made of names, of any labels
and of numerals are read back as the samples they were made from. The format
also allows more blanks and a time behind the number; read is the form without.

Nothing in this file knows what is being verified.
-/
import Caips.Logic.Decimal

namespace Caips.Logic.Exposition

/-- A name, the values of its labels by their names, and a number. -/
structure Sample where
  name : List Char
  labels : List (List Char × List Char)
  value : ℚ
  deriving DecidableEq

/-! ## Printing -/

def escapeChar (c : Char) : List Char :=
  if c = '\\' then ['\\', '\\'] else if c = '\n' then ['\\', 'n'] else if c = '"' then ['\\', '"'] else [c]

/-- The text without ends of lines, and without quotes and backslashes of its own. -/
def escape (l : List Char) : List Char := l.flatMap escapeChar

/-- A label, with its value in quotes. -/
def labelText (p : List Char × List Char) : List Char := p.1 ++ '=' :: '"' :: escape p.2 ++ ['"']

/-- The labels in braces, if there are any. -/
def labelsText (l : List (List Char × List Char)) : List Char :=
  if l = [] then [] else '{' :: List.intercalate [','] (l.map labelText) ++ ['}']

/-- The lines, each with its end. -/
def unlines (l : List (List Char)) : List Char := List.intercalate ['\n'] l ++ ['\n']

/-! ## Reading -/

/-- The characters of names, and those a name may start with. -/
def isNameStart (c : Char) : Bool := c.isAlpha || c == '_' || c == ':'

def isNameChar (c : Char) : Bool := isNameStart c || c.isDigit

def isName (l : List Char) : Bool := l.all isNameChar && l.head?.any isNameStart

/-- A text up to the quote that ends it, and what comes behind the quote. -/
def readLabelValue : List Char → Option (List Char × List Char)
  | [] => none
  | '"' :: l => some ([], l)
  | '\\' :: '\\' :: l => (readLabelValue l).map fun r => ('\\' :: r.1, r.2)
  | '\\' :: 'n' :: l => (readLabelValue l).map fun r => ('\n' :: r.1, r.2)
  | '\\' :: '"' :: l => (readLabelValue l).map fun r => ('"' :: r.1, r.2)
  | '\\' :: _ => none
  | c :: l => (readLabelValue l).map fun r => (c :: r.1, r.2)

/-- A label, and what comes behind it. -/
def readLabel (l : List Char) : Option ((List Char × List Char) × List Char) :=
  match l.dropWhile isNameChar with
  | '=' :: '"' :: l' =>
    if isName (l.takeWhile isNameChar) then
      (readLabelValue l').map fun r => ((l.takeWhile isNameChar, r.1), r.2)
    else none
  | _ => none

/-- So many labels at most, up to the brace that ends them, and what comes behind it. -/
def readLabels : ℕ → List Char → Option (List (List Char × List Char) × List Char)
  | 0, _ => none
  | n + 1, l => do
      let (label, l) ← readLabel l
      match l with
      | '}' :: l => some ([label], l)
      | ',' :: l => (readLabels n l).map fun r => (label :: r.1, r.2)
      | _ => none

/-- The number behind a blank. -/
def readValue : List Char → Option ℚ
  | ' ' :: l => Decimal.readNumber l
  | _ => none

def readSample (l : List Char) : Option Sample :=
  let name := l.takeWhile isNameChar
  if isName name then
    match l.dropWhile isNameChar with
    | '{' :: l => do
        let (labels, l) ← readLabels l.length l
        (readValue l).map (⟨name, labels, ·⟩)
    | l => (readValue l).map (⟨name, [], ·⟩)
  else none

/-- A line; a comment holds no sample. -/
def readLine : List Char → Option (List Sample)
  | [] => some []
  | '#' :: _ => some []
  | l => (readSample l).map ([·])

/-- The samples of a text, if all its lines can be read. -/
def parse (text : List Char) : Option (List Sample) := ((text.splitOn '\n').mapM readLine).map List.flatten

/-! ## Labels -/

theorem escape_oneLine (l : List Char) : '\n' ∉ escape l := by
  intro h
  obtain ⟨c, -, hc⟩ := List.mem_flatMap.mp h
  unfold escapeChar at hc
  split_ifs at hc with hback hline hquote
  · simp at hc
  · simp at hc
  · simp at hc
  · exact hline (List.mem_singleton.mp hc).symm

/-- **An escaped text is read back.** -/
theorem readLabelValue_escape (l rest : List Char) : readLabelValue (escape l ++ '"' :: rest) = some (l, rest) := by
  induction l with
  | nil => rfl
  | cons c l ih =>
    have hcons : escape (c :: l) ++ '"' :: rest = escapeChar c ++ (escape l ++ '"' :: rest) := by
      rw [escape, List.flatMap_cons, List.append_assoc]
      rfl
    rw [hcons]
    unfold escapeChar
    split_ifs with hback hline hquote
    · rw [List.cons_append, List.singleton_append, readLabelValue, ih, hback]
      rfl
    · rw [List.cons_append, List.singleton_append, readLabelValue, ih, hline]
      rfl
    · rw [List.cons_append, List.singleton_append, readLabelValue, ih, hquote]
      rfl
    · rw [List.singleton_append, readLabelValue.eq_def]
      simp [hback, ih]

theorem takeWhile_name {l rest : List Char} (h : isName l = true) (hrest : ∀ c ∈ rest.head?, isNameChar c = false) :
    (l ++ rest).takeWhile isNameChar = l ∧ (l ++ rest).dropWhile isNameChar = rest := by
  have hall : ∀ c ∈ l, isNameChar c = true := List.all_eq_true.mp (Bool.and_eq_true_iff.mp h).1
  rw [List.takeWhile_append_of_pos hall, List.dropWhile_append_of_pos hall]
  cases rest with
  | nil => simp
  | cons c rest =>
    have hc := hrest c rfl
    simp [hc]

theorem readLabel_labelText {p : List Char × List Char} (h : isName p.1 = true) (rest : List Char) :
    readLabel (labelText p ++ rest) = some (p, rest) := by
  have htext : labelText p ++ rest = p.1 ++ '=' :: '"' :: (escape p.2 ++ '"' :: rest) := by
    simp [labelText]
  obtain ⟨htake, hdrop⟩ := @takeWhile_name p.1 ('=' :: '"' :: (escape p.2 ++ '"' :: rest)) h (by simp; decide)
  have hread : (if isName p.1 then (readLabelValue (escape p.2 ++ '"' :: rest)).map fun r => ((p.1, r.1), r.2)
      else none) = some (p, rest) := by
    rw [if_pos h, readLabelValue_escape]
    rfl
  rw [htext, readLabel, htake, hdrop]
  exact hread

theorem readLabels_text {labels : List (List Char × List Char)} (hne : labels ≠ [])
    (h : ∀ p ∈ labels, isName p.1 = true) (rest : List Char) : ∀ n, labels.length ≤ n →
    readLabels n (List.intercalate [','] (labels.map labelText) ++ '}' :: rest) = some (labels, rest) := by
  induction labels with
  | nil => exact absurd rfl hne
  | cons p labels ih =>
    intro n hn
    obtain ⟨n, rfl⟩ : ∃ k, n = k + 1 := ⟨n - 1, by simp at hn; omega⟩
    have hp : isName p.1 = true := h p List.mem_cons_self
    cases labels with
    | nil =>
      rw [List.map_cons, List.map_nil, List.intercalate_singleton, readLabels, readLabel_labelText hp]
      rfl
    | cons q labels =>
      have hrest := ih (by simp) (fun p hp => h p (List.mem_cons_of_mem _ hp)) n (by simpa using hn)
      rw [List.map_cons, List.map_cons, List.intercalate_cons_cons, List.append_assoc, List.append_assoc,
        readLabels, readLabel_labelText hp, ← List.map_cons]
      change ((readLabels n (List.intercalate [','] ((q :: labels).map labelText) ++ '}' :: rest)).map _) = _
      rw [hrest]
      rfl

/-! ## Lines -/

/-- What a line is made of. -/
inductive Entry where
  | comment (text : List Char)
  | sample (name : List Char) (labels : List (List Char × List Char)) (value : List Char)

namespace Entry

def text : Entry → List Char
  | .comment l => '#' :: l
  | .sample name labels value => name ++ labelsText labels ++ ' ' :: value

/-- The entry fits a line: its names are names, and its number is one. -/
def Ok : Entry → Prop
  | .comment l => '\n' ∉ l
  | .sample name labels value =>
    isName name = true ∧ (∀ p ∈ labels, isName p.1 = true) ∧ '\n' ∉ value ∧ (Decimal.readNumber value).isSome = true

/-- The samples of a line. -/
def samples : Entry → List Sample
  | .comment _ => []
  | .sample name labels value => (Decimal.readNumber value).toList.map (⟨name, labels, ·⟩)

end Entry

theorem isName_oneLine {l : List Char} (h : isName l = true) : '\n' ∉ l := by
  intro hc
  have := List.all_eq_true.mp (Bool.and_eq_true_iff.mp h).1 _ hc
  exact absurd this (by decide)

theorem labelsText_oneLine {labels : List (List Char × List Char)} (h : ∀ p ∈ labels, isName p.1 = true) :
    '\n' ∉ labelsText labels := by
  have hlabel : ∀ p ∈ labels, '\n' ∉ labelText p := by
    intro p hp
    have hname := isName_oneLine (h p hp)
    have hvalue := escape_oneLine p.2
    simp [labelText, hname, hvalue]
  have hall : '\n' ∉ List.intercalate [','] (labels.map labelText) := by
    clear h
    induction labels with
    | nil => simp
    | cons p labels ih =>
      have hrest := ih fun p hp => hlabel p (List.mem_cons_of_mem _ hp)
      have hp := hlabel p List.mem_cons_self
      cases labels with
      | nil => simpa using hp
      | cons q labels =>
        rw [List.map_cons, List.map_cons, List.intercalate_cons_cons, ← List.map_cons]
        simp only [List.mem_append, not_or]
        exact ⟨⟨hp, by decide⟩, hrest⟩
  unfold labelsText
  split
  · exact List.not_mem_nil
  · simpa using hall

theorem Entry.Ok.oneLine {e : Entry} (h : e.Ok) : '\n' ∉ e.text := by
  cases e with
  | comment l =>
    have hl : '\n' ∉ l := h
    simpa [Entry.text] using hl
  | sample name labels value =>
    obtain ⟨hname, hlabels, hvalue, -⟩ := h
    have hname := isName_oneLine hname
    have hlabels := labelsText_oneLine hlabels
    simp [Entry.text, hname, hlabels, hvalue]

theorem readLine_name {name : List Char} (h : isName name = true) (rest : List Char) :
    readLine (name ++ rest) = (readSample (name ++ rest)).map ([·]) := by
  obtain ⟨c, l, rfl⟩ : ∃ c l, name = c :: l := by
    cases name with
    | nil => cases h
    | cons c l => exact ⟨c, l, rfl⟩
  have hc : isNameStart c = true := by simpa using (Bool.and_eq_true_iff.mp h).2
  have hne : c ≠ '#' := by
    rintro rfl
    exact absurd hc (by decide)
  rw [List.cons_append, readLine.eq_def]
  simp [hne]

theorem labels_le (labels : List (List Char × List Char)) (rest : List Char) :
    labels.length ≤ (List.intercalate [','] (labels.map labelText) ++ '}' :: rest).length := by
  induction labels with
  | nil => simp
  | cons p labels ih =>
    cases labels with
    | nil =>
      simp only [List.map_cons, List.map_nil, List.intercalate_singleton, List.length_append, List.length_cons,
        List.length_nil]
      omega
    | cons q labels =>
      rw [List.map_cons, List.map_cons, List.intercalate_cons_cons, ← List.map_cons]
      simp only [List.length_cons, List.length_append] at ih ⊢
      omega

/-- A line is read back. -/
theorem readLine_text {e : Entry} (h : e.Ok) : readLine e.text = some e.samples := by
  cases e with
  | comment l => rfl
  | sample name labels value =>
    obtain ⟨hname, hlabels, -, hvalue⟩ := h
    obtain ⟨v, hv⟩ := Option.isSome_iff_exists.mp hvalue
    have hread : readSample (name ++ (labelsText labels ++ ' ' :: value)) = some ⟨name, labels, v⟩ := by
      unfold labelsText
      split
      · next hnil =>
          obtain ⟨htake, hdrop⟩ := @takeWhile_name name ([] ++ ' ' :: value) hname (by simp; decide)
          rw [readSample, htake, hdrop, hnil]
          dsimp only
          rw [if_pos hname, List.nil_append]
          simp [readValue, hv]
      · next hne =>
          have hlen := labels_le labels (' ' :: value)
          have hlabels := readLabels_text hne hlabels (' ' :: value) _ hlen
          have htext : '{' :: List.intercalate [','] (labels.map labelText) ++ ['}'] ++ ' ' :: value =
              '{' :: (List.intercalate [','] (labels.map labelText) ++ '}' :: ' ' :: value) := by simp
          rw [htext]
          obtain ⟨htake, hdrop⟩ := @takeWhile_name name
            ('{' :: (List.intercalate [','] (labels.map labelText) ++ '}' :: ' ' :: value)) hname (by simp; decide)
          rw [readSample, htake, hdrop]
          dsimp only
          rw [if_pos hname]
          change (readLabels _ _ >>= _) = _
          rw [hlabels]
          simp [readValue, hv]
    rw [Entry.text, List.append_assoc, readLine_name hname, hread, Entry.samples, hv]
    rfl

theorem mapM_readLine {entries : List Entry} (h : ∀ e ∈ entries, e.Ok) :
    (entries.map Entry.text).mapM readLine = some (entries.map Entry.samples) := by
  induction entries with
  | nil => rfl
  | cons e entries ih =>
    rw [List.map_cons, List.mapM_cons, readLine_text (h e List.mem_cons_self),
      ih fun e he => h e (List.mem_cons_of_mem _ he)]
    rfl

theorem unlines_eq {l : List (List Char)} (hne : l ≠ []) : unlines l = List.intercalate ['\n'] (l ++ [[]]) := by
  unfold unlines
  induction l with
  | nil => exact absurd rfl hne
  | cons a l ih =>
    cases l with
    | nil => simp
    | cons b l =>
      have ih := ih (by simp)
      rw [List.cons_append] at ih
      rw [List.intercalate_cons_cons, List.cons_append, List.cons_append, List.intercalate_cons_cons, ← ih]
      simp

/-- **A text of such lines is read back.** -/
theorem parse_unlines {entries : List Entry} (hne : entries ≠ []) (h : ∀ e ∈ entries, e.Ok) :
    parse (unlines (entries.map Entry.text)) = some (entries.flatMap Entry.samples) := by
  have hlines : ∀ l ∈ entries.map Entry.text ++ [[]], '\n' ∉ l := by
    intro l hl
    rcases List.mem_append.mp hl with hl | hl
    · obtain ⟨e, he, rfl⟩ := List.mem_map.mp hl
      exact (h e he).oneLine
    · rw [List.mem_singleton.mp hl]
      exact List.not_mem_nil
  rw [unlines_eq (by simpa using hne), parse, List.splitOn_intercalate _ hlines (by simp), List.mapM_append,
    mapM_readLine h]
  simp [readLine, List.flatMap_def]

end Caips.Logic.Exposition
