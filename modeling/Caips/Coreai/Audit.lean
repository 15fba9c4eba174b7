/-
Caips.Coreai.Audit — the audit log, after `coreai/audit.py`.

`_clean` copies a value under a budget of characters that its parts share:
what is cut depends on all that was visited before. `blank` takes the values
under secret keys out of a value. `clean_blank` says that `_clean` cannot tell
the two apart; it is proved along the recursion, with the budget that is left as
part of the result. From there what differs under secret keys only leaves the
same log, through any number of records.

A mapping is its items, with the `str` of their keys; a value that is neither
container, bool, number nor `None` is its `str`. `str.lower` is a parameter.
-/
import Caips.Logic.Dict
import Caips.Logic.Json
import Mathlib.Algebra.GroupWithZero.Nat
import Mathlib.Algebra.Group.Nat.Defs

namespace Caips.Coreai.Audit

open Caips.Logic

/-! ## Cleaning -/

/-- A value that details hold. -/
inductive Detail where
  | mapping (items : List (String × Detail))
  | sequence (items : List Detail)
  | bool (b : Bool)
  | none
  | int (n : ℤ)
  | float (x : FloatText)
  | text (s : String)

def secretHints : List String := ["key", "token", "secret", "password", "authorization", "credential"]

/-- `hint in text`. -/
def occursIn (hint text : List Char) : Bool := text.tails.any hint.isPrefixOf

/-- The keys whose values are redacted. -/
def secretKey (lower : String → String) (key : String) : Bool :=
  secretHints.any fun h => occursIn h.toList (lower key).toList

/-- `_clip_text`: the clipped text, and the budget left. -/
def clipText (text : List Char) (budget : ℕ) : List Char × ℕ :=
  let size := min 500 budget
  let clipped :=
    if text.length ≤ size then text
    else if 3 ≤ size then text.take (size - 3) ++ ['.', '.', '.'] else text.take size
  (clipped, budget - clipped.length)

/-- A text of the log's own. -/
def mark (s : String) : Json := .str s.toList

/-- `math.isfinite`. -/
def isFinite (x : FloatText) : Bool := x.text ∉ ["NaN".toList, "Infinity".toList, "-Infinity".toList]

variable (lower : String → String)

mutual

/-- `_clean`, with the budget left. -/
def clean (depth : ℕ) : Detail → ℕ → Json × ℕ
  | .mapping items, budget =>
    if budget = 0 then (mark "[truncated]", budget)
    else if 3 ≤ depth then (mark "[nested data truncated]", budget)
    else
      let (members, budget) := cleanMembers (depth + 1) 0 [] items budget
      (.obj members, budget)
  | .sequence items, budget =>
    if budget = 0 then (mark "[truncated]", budget)
    else if 3 ≤ depth then (mark "[nested data truncated]", budget)
    else
      let (cleaned, budget) := cleanItems (depth + 1) 50 items budget
      (.arr (if 50 < items.length ∧ 0 < budget then cleaned ++ [mark "[truncated]"] else cleaned), budget)
  | .bool b, budget => (if budget = 0 then mark "[truncated]" else .atom (.bool b), budget)
  | .none, budget => (if budget = 0 then mark "[truncated]" else .atom .null, budget)
  | .int n, budget =>
    (if budget = 0 then mark "[truncated]"
      else if n.natAbs < 2 ^ 1024 then .atom (.int n) else mark "[number truncated]", budget)
  | .float x, budget =>
    (if budget = 0 then mark "[truncated]" else if isFinite x then .atom (.float x) else .atom .null, budget)
  | .text s, budget =>
    if budget = 0 then (mark "[truncated]", budget)
    else
      let (clipped, budget) := clipText s.toList budget
      (.str clipped, budget)

/-- The loop over a mapping, with the number of its next item and what it has put out. -/
def cleanMembers (depth index : ℕ) (out : List (List Char × Json)) :
    List (String × Detail) → ℕ → List (List Char × Json) × ℕ
  | [], budget => (out, budget)
  | (key, item) :: rest, budget =>
    if 50 ≤ index ∨ budget = 0 then (Dict.assign "_truncated".toList (.atom (.bool true)) out, budget)
    else
      let (safeKey, budget) := clipText key.toList budget
      if secretKey lower key then
        cleanMembers depth (index + 1) (Dict.assign safeKey (mark "[redacted]") out) rest
          (budget - "[redacted]".length)
      else
        let (value, budget) := clean depth item budget
        cleanMembers depth (index + 1) (Dict.assign safeKey value out) rest budget

/-- The items of a sequence, as far as they are looked at. -/
def cleanItems (depth : ℕ) : ℕ → List Detail → ℕ → List Json × ℕ
  | 0, _, budget => ([], budget)
  | _, [], budget => ([], budget)
  | n + 1, item :: rest, budget =>
    let (value, budget) := clean depth item budget
    let (values, budget) := cleanItems depth n rest budget
    (value :: values, budget)

end

/-! ## The log -/

/-- What a caller records. -/
structure Entry where
  action : String
  actor : String
  target : Option String := none
  outcome : String := "ok"
  details : Option (List (String × Detail)) := none

structure Event where
  id : ℕ
  ts : FloatText
  action : Json
  actor : Json
  target : Json
  outcome : Json
  details : Json

def Event.json (e : Event) : Json :=
  .obj [("id".toList, .atom (.int e.id)), ("ts".toList, .atom (.float e.ts)), ("action".toList, e.action),
    ("actor".toList, e.actor), ("target".toList, e.target), ("outcome".toList, e.outcome),
    ("details".toList, e.details)]

/-- The file of the log and its one backup, by their lines. -/
structure AuditFile where
  current : Option (List (List Char)) := none
  backup : Option (List (List Char)) := none

/-- What the file system does with a write. -/
inductive Disk where
  | ok
  | rotationFails
  | writeFails
  deriving DecidableEq, Repr

structure AuditLog where
  file : Option AuditFile := none
  maxEvents : ℕ := 1000
  maxBytes : ℕ := 5000000
  /-- The ring, the oldest event first. -/
  events : List Event := []
  seq : ℕ := 0
  writeErrors : ℕ := 0

/-- `os.path.getsize`. -/
def fileSize (lines : List (List Char)) : ℕ := (lines.map fun l => l.length + 1).sum

/-- `_append_to_file`. -/
def AuditLog.appendToFile (a : AuditLog) (disk : Disk) (e : Event) : AuditLog :=
  match a.file with
  | none => a
  | some f =>
    let rotates := f.current.any fun lines => a.maxBytes ≤ fileSize lines
    if rotates ∧ disk = .rotationFails then { a with writeErrors := a.writeErrors + 1 }
    else
      let f := if rotates then { current := none, backup := f.current : AuditFile } else f
      if disk = .writeFails then { a with file := some f, writeErrors := a.writeErrors + 1 }
      else { a with file := some { f with current := some (f.current.getD [] ++ [compact e.json]) } }

def maxCleanChars : ℕ := 50000

/-- `_clean(text)`. -/
def cleanText (s : String) : Json := (clean lower 0 (.text s) maxCleanChars).1

/-- `AuditLog.record`, at that time. -/
def AuditLog.record (a : AuditLog) (ts : FloatText) (disk : Disk) (entry : Entry) : Event × AuditLog :=
  let a := { a with seq := a.seq + 1 }
  let event : Event :=
    { id := a.seq
      ts
      action := cleanText lower entry.action
      actor := cleanText lower entry.actor
      target := (clean lower 0 (entry.target.elim .none .text) maxCleanChars).1
      outcome := cleanText lower entry.outcome
      details := (clean lower 0 (.mapping (entry.details.getD [])) maxCleanChars).1 }
  let event :=
    if 64000 < (compact event.json).length then
      { event with details := .obj [("_truncated".toList, mark "event exceeded size limit")] }
    else event
  let events := a.events ++ [event]
  (event, { a with events := events.drop (events.length - a.maxEvents) }.appendToFile disk event)

/-- One record after the other: the events, and the log. -/
def AuditLog.recordAll (a : AuditLog) : List (FloatText × Disk × Entry) → List Event × AuditLog
  | [] => ([], a)
  | (ts, disk, entry) :: rest =>
    let (event, a) := a.record lower ts disk entry
    let (events, a) := a.recordAll rest
    (event :: events, a)

/-! ## What is under secret keys -/

mutual

/-- The value, with nothing under its secret keys. -/
def blank : Detail → Detail
  | .mapping items => .mapping (blankMembers items)
  | .sequence items => .sequence (blankItems items)
  | .bool b => .bool b
  | .none => .none
  | .int n => .int n
  | .float x => .float x
  | .text s => .text s

def blankMembers : List (String × Detail) → List (String × Detail)
  | [] => []
  | (key, item) :: rest => (key, if secretKey lower key then .none else blank item) :: blankMembers rest

def blankItems : List Detail → List Detail
  | [] => []
  | item :: rest => blank item :: blankItems rest

end

theorem length_blankItems (items : List Detail) : (blankItems lower items).length = items.length := by
  induction items with
  | nil => rfl
  | cons item rest ih => simp [blankItems, ih]

mutual

theorem clean_blank (depth : ℕ) : ∀ (v : Detail) (budget : ℕ),
    clean lower depth (blank lower v) budget = clean lower depth v budget
  | .mapping items, budget => by simp only [blank, clean, cleanMembers_blank _ _ _ items]
  | .sequence items, budget => by simp only [blank, clean, cleanItems_blank _ _ items, length_blankItems]
  | .bool b, budget => rfl
  | .none, budget => rfl
  | .int n, budget => rfl
  | .float x, budget => rfl
  | .text s, budget => rfl

theorem cleanMembers_blank (depth index : ℕ) (out : List (List Char × Json)) :
    ∀ (items : List (String × Detail)) (budget : ℕ),
      cleanMembers lower depth index out (blankMembers lower items) budget =
        cleanMembers lower depth index out items budget
  | [], budget => rfl
  | (key, item) :: rest, budget => by
      simp only [blankMembers, cleanMembers]
      by_cases hsecret : secretKey lower key = true
      · simp only [if_pos hsecret, cleanMembers_blank _ _ _ rest]
      · simp only [if_neg hsecret, clean_blank _ item, cleanMembers_blank _ _ _ rest]

theorem cleanItems_blank (depth : ℕ) : ∀ (n : ℕ) (items : List Detail) (budget : ℕ),
    cleanItems lower depth n (blankItems lower items) budget = cleanItems lower depth n items budget
  | 0, items, budget => by simp only [cleanItems]
  | n + 1, [], budget => rfl
  | n + 1, item :: rest, budget => by
      simp only [blankItems, cleanItems, clean_blank _ item, cleanItems_blank _ n rest]

end

/-! ## The log tells no secrets -/

/-- The record, with nothing under the secret keys of its details. -/
def Entry.blank (e : Entry) : Entry := { e with details := e.details.map (blankMembers lower) }

theorem record_blank (a : AuditLog) (ts : FloatText) (disk : Disk) (entry : Entry) :
    a.record lower ts disk (entry.blank lower) = a.record lower ts disk entry := by
  have hdetails : clean lower 0 (.mapping ((entry.blank lower).details.getD [])) maxCleanChars =
      clean lower 0 (.mapping (entry.details.getD [])) maxCleanChars := by
    unfold Entry.blank
    cases entry.details with
    | none => rfl
    | some items => exact clean_blank lower 0 (.mapping items) maxCleanChars
  simp only [AuditLog.record, hdetails]
  rfl

/-- Records whose details have nothing under secret keys. -/
def blankCalls (calls : List (FloatText × Disk × Entry)) : List (FloatText × Disk × Entry) :=
  calls.map fun c => (c.1, c.2.1, c.2.2.blank lower)

theorem recordAll_blank (a : AuditLog) (calls : List (FloatText × Disk × Entry)) :
    a.recordAll lower (blankCalls lower calls) = a.recordAll lower calls := by
  induction calls generalizing a with
  | nil => rfl
  | cons c rest ih =>
    obtain ⟨ts, disk, entry⟩ := c
    have hrest := ih (a.record lower ts disk entry).2
    simp only [blankCalls, List.map_cons, AuditLog.recordAll, record_blank] at hrest ⊢
    rw [hrest]

/-- **Records that differ under secret keys only leave the same events**, in the same log. -/
theorem recordAll_noninterference (a : AuditLog) {calls calls' : List (FloatText × Disk × Entry)}
    (h : blankCalls lower calls = blankCalls lower calls') :
    a.recordAll lower calls = a.recordAll lower calls' := by
  rw [← recordAll_blank lower a calls, h, recordAll_blank]

/-- `str.lower`, of a text in ASCII. -/
def asciiLower (s : String) : String := String.ofList (s.toList.map Char.toLower)

/-- The record of a new key. -/
def keyAdded (secret : Detail) : FloatText × Disk × Entry :=
  (⟨"1.5".toList, rfl⟩, .ok,
    { action := "keys.add"
      actor := "admin"
      details := some [("Api_Key", secret), ("models", .sequence [.text "a"])] })

theorem recordAll_noninterference_key :
    AuditLog.recordAll asciiLower { } [keyAdded (.text "sk-1")] =
      AuditLog.recordAll asciiLower { } [keyAdded (.mapping [("a", .int 2)])] :=
  recordAll_noninterference asciiLower { } (by
    have hkey : secretKey asciiLower "Api_Key" = true := by decide
    simp [blankCalls, keyAdded, Entry.blank, blankMembers, hkey])

end Caips.Coreai.Audit
