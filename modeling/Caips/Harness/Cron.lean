/-
Caips.Harness.Cron — five-field cron expressions in UTC, after
`harness/cron.py`.

A `datetime` is kept to the minute, for the years from 1 on; adding to it fails
after the year 9999, with an `OverflowError`. A timestamp is a number of
seconds from the start of 1970 on.
-/
import Caips.Coreai.Keystore
import Caips.Logic.Calendar
import Mathlib.Algebra.Order.Floor.Defs
import Mathlib.Data.Rat.Floor

namespace Caips.Harness

open Caips.Coreai Caips.Logic

/-- What the parser uses of the language: `int` and `repr` of a text. -/
structure CronLib where
  int : String → Option ℤ
  repr : String → String

/-- The exceptions of the module. -/
inductive CronError where
  /-- `ValueError` -/
  | value (message : String)
  /-- `OverflowError` -/
  | overflow (message : String)
  deriving DecidableEq

/-- `Cron`. -/
structure Cron where
  minute : List ℕ
  hour : List ℕ
  dom : List ℕ
  month : List ℕ
  dow : List ℕ
  domAny : Bool
  dowAny : Bool
  expr : String
  deriving DecidableEq

namespace Cron

/-! ## The expression -/

section Parse

variable (L : CronLib)

/-- `int(text)`. -/
def int (text : String) : Except String ℤ :=
  match L.int text with
  | some n => .ok n
  | none => .error s!"invalid literal for int() with base 10: {L.repr text}"

/-- `text.partition(c)`, the text before the character and the one after it. -/
def partition (c : Char) (text : String) : String × String :=
  (String.ofList (text.toList.takeWhile (· ≠ c)), String.ofList ((text.toList.dropWhile (· ≠ c)).drop 1))

/-- The step of a part. -/
def stepOf (step : String) : Except String ℤ := if step = "" then .ok 1 else int L step

/-- The first and the last value of a part. -/
def ends (lo hi : ℕ) (rng step : String) : Except String (ℤ × ℤ) :=
  if rng = "*" then .ok (lo, hi)
  else if '-' ∈ rng.toList then do
    let a ← int L (partition '-' rng).1
    let b ← int L (partition '-' rng).2
    pure (a, b)
  else do
    let a ← int L rng
    pure (a, if step = "" then a else hi)

/-- A part of a field: its first and last value, and its step. -/
def bounds (lo hi : ℕ) (part : String) : Except String (ℕ × ℕ × ℕ) := do
  let (rng, step) := partition '/' part
  let stepN ← stepOf L step
  if stepN < 1 then throw s!"bad step in {L.repr part}"
  let (a, b) ← ends L lo hi rng step
  if ¬(lo ≤ a ∧ a ≤ b ∧ b ≤ hi) then throw s!"{L.repr part} outside {lo}-{hi}"
  pure (a.toNat, b.toNat, stepN.toNat)

/-- `text.split(",")`. -/
def parts (text : String) : List String := (text.toList.splitOn ',').map String.ofList

/-- `_field`. -/
def field (text : String) (lo hi : ℕ) : Except String (List ℕ) := do
  let parts ← (parts text).mapM (bounds L lo hi)
  pure (parts.flatMap fun (a, b, step) => List.range' a ((b - a) / step + 1) step)

/-- `expr.split()`. -/
def words (expr : String) : List String :=
  ((expr.toList.splitOnP Keystore.isSpace).filter (· ≠ [])).map String.ofList

/-- The fields, in the order of `_RANGES`. -/
def fields (minute hour dom month dow : String) : Except String (List ℕ × List ℕ × List ℕ × List ℕ × List ℕ) := do
  let minute ← field L minute 0 59
  let hour ← field L hour 0 23
  let dom ← field L dom 1 31
  let month ← field L month 1 12
  let dow ← field L dow 0 7
  pure (minute, hour, dom, month, dow)

/-- `Cron(expr)`. -/
def init (expr : String) : Except CronError Cron :=
  match words expr with
  | [minute, hour, dom, month, dow] =>
    match fields L minute hour dom month dow with
    | .ok (minutes, hours, doms, months, dows) => .ok {
        minute := minutes, hour := hours, dom := doms, month := months, dow := dows.map (· % 7)
        domAny := dom = "*", dowAny := dow = "*", expr := expr }
    | .error exc => .error (.value s!"bad cron {L.repr expr}: {exc}")
  | _ => .error (.value "cron needs 5 fields: minute hour dom month dow")

end Parse

/-! ## The next match -/

theorem january_le : 1 ≤ 12 := by decide

theorem zero_hour_lt : 0 < 24 := by decide

theorem zero_minute_lt : 0 < 60 := by decide

def epoch : DateTime where
  date := ⟨1970, 1, 1, by decide, by decide, january_le, by decide, by decide⟩
  hour := 0
  minute := 0
  hour_lt := zero_hour_lt
  minute_lt := zero_minute_lt

/-- `d.timestamp()`. -/
def timestamp (d : DateTime) : ℚ := 60 * ((d.number : ℤ) - epoch.number : ℤ)

/-- Rounding to the nearest integer, of two to the even one. -/
def halfEven (q : ℚ) : ℤ :=
  if q - ⌊q⌋ < 1 / 2 ∨ q - ⌊q⌋ = 1 / 2 ∧ ⌊q⌋ % 2 = 0 then ⌊q⌋ else ⌊q⌋ + 1

/-- `datetime.fromtimestamp(ts, timezone.utc).replace(second=0, microsecond=0)`. A
timestamp is rounded to microseconds. -/
def minuteOf (ts : ℚ) : DateTime := epoch.plus (halfEven (ts * 1000000) / 60000000).toNat

/-- `d + timedelta(minutes=minutes)`. -/
def add (d : DateTime) (minutes : ℕ) : Except CronError DateTime :=
  if (d.plus minutes).date.year ≤ 9999 then .ok (d.plus minutes) else .error (.overflow "date value out of range")

variable (c : Cron)

/-- `_day_ok`. -/
def dayOk (d : Date) : Bool :=
  let inDom := c.dom.contains d.day
  let inDow := c.dow.contains (d.isoweekday % 7)
  if c.domAny || c.dowAny then inDom && inDow else inDom || inDow

/-- Where the search goes on from a minute that does not match. -/
def jump (d : DateTime) : Option (Except CronError DateTime) :=
  if d.date.month ∉ c.month then
    some ((add d.startOfMonth (32 * 1440)).map fun e => { e with date := e.date.first })
  else if ¬c.dayOk d.date then some (add d.midnight 1440)
  else if d.hour ∉ c.hour then some (add d.onTheHour 60)
  else if d.minute ∉ c.minute then some (add d 1)
  else none

/-- The loop of `next_after`, for so many rounds. -/
def search (L : CronLib) : ℕ → DateTime → Except CronError DateTime
  | 0, _ => .error (.value s!"cron {L.repr c.expr} never matches")
  | n + 1, d =>
    match c.jump d with
    | none => .ok d
    | some (.ok e) => search L n e
    | some (.error exc) => .error exc

/-- `next_after`. -/
def nextAfter (L : CronLib) (ts : ℚ) : Except CronError ℚ := do
  let d ← add (minuteOf ts) 1
  let d ← c.search L (366 * 24 * 60 * 5) d
  pure (timestamp d)

end Cron

end Caips.Harness
