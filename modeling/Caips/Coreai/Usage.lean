/-
Caips.Coreai.Usage — the usage ledger of `coreai/usage.py`.

Calls are rolled into one row for each hour, subject, provider and model. The
rows stay ordered by hour although the wall clock may go backwards: a new row
that is earlier than the last one is sorted in. After every call the oldest
rows go, as long as the first is older than the retention or there are too
many. `record` reads the clock for the hour and `_prune` reads it again for the
cutoff.

A report regroups the rows. `aggregate` is what it has added up before the cost
is rounded for display.
-/
import Caips.Logic.Rounding
import Caips.Logic.Tally
import Mathlib.Algebra.Order.Field.Rat
import Mathlib.Data.Rat.Floor
import Mathlib.Data.List.Sort
import Mathlib.Data.List.Lex
import Mathlib.Data.Prod.Lex
import Mathlib.Data.String.Basic

namespace Caips.Coreai

open Caips.Logic

/-- `x % m` of floats. -/
def floatMod (x m : ℚ) : ℚ := x - m * ⌊x / m⌋

/-- `_Row`. -/
@[ext]
structure UsageRow where
  requests : ℤ := 0
  inputTokens : ℤ := 0
  outputTokens : ℤ := 0
  costUsd : ℚ := 0
  deriving DecidableEq

namespace UsageRow

instance : Zero UsageRow := ⟨{}⟩

instance : Add UsageRow where
  add a b :=
    { requests := a.requests + b.requests, inputTokens := a.inputTokens + b.inputTokens
      outputTokens := a.outputTokens + b.outputTokens, costUsd := a.costUsd + b.costUsd }

instance : AddCommMonoid UsageRow where
  add_assoc a b c := UsageRow.ext (add_assoc ..) (add_assoc ..) (add_assoc ..) (add_assoc ..)
  zero_add a := UsageRow.ext (zero_add _) (zero_add _) (zero_add _) (zero_add _)
  add_zero a := UsageRow.ext (add_zero _) (add_zero _) (add_zero _) (add_zero _)
  add_comm a b := UsageRow.ext (add_comm ..) (add_comm ..) (add_comm ..) (add_comm ..)
  nsmul := nsmulRec

end UsageRow

/-- The key of a row. -/
structure UsageKey where
  hour : ℚ
  subject : String
  provider : String
  model : String
  deriving DecidableEq

/-- The arguments of `record`, with the two clock readings. -/
structure UsageRecord where
  subject : String
  provider : Option String := some ""
  model : Option String := some ""
  inputTokens : Option ℤ := some 0
  outputTokens : Option ℤ := some 0
  costUsd : Option ℚ := some 0
  requests : ℤ := 1
  now : ℚ
  later : ℚ

namespace UsageRecord

/-- The hour a call belongs to. -/
def hour (c : UsageRecord) : ℚ := c.now - floatMod c.now 3600

/-- The row a call belongs to. -/
def key (c : UsageRecord) : UsageKey := ⟨c.hour, c.subject, c.provider.getD "", c.model.getD ""⟩

/-- What a call adds to its row. A missing or negative count adds nothing. -/
def amount (c : UsageRecord) : UsageRow where
  requests := c.requests
  inputTokens := max 0 (c.inputTokens.getD 0)
  outputTokens := max 0 (c.outputTokens.getD 0)
  costUsd := max 0 (c.costUsd.getD 0)

end UsageRecord

/-- Rows under their keys, oldest first. -/
abbrev UsageRows := Dict UsageKey UsageRow

/-- A `UsageLedger` object. -/
structure UsageLedger where
  retentionSeconds : ℕ
  maxRows : ℕ
  rows : UsageRows := Dict.empty

namespace UsageLedger

/-- `UsageLedger.__init__`. -/
def init (retentionSeconds maxRows : ℤ) : Except String UsageLedger :=
  if retentionSeconds < 1 then .error "retention_seconds must be a positive integer"
  else if maxRows < 1 then .error "max_rows must be a positive integer"
  else .ok { retentionSeconds := retentionSeconds.toNat, maxRows := maxRows.toNat }

/-- `OrderedDict(sorted(items, key=hour))`. -/
def sortedByHour (rows : UsageRows) : UsageRows :=
  ⟨rows.entries.insertionSort fun a b => a.1.hour ≤ b.1.hour,
    ((List.perm_insertionSort _ rows.entries).map Prod.fst).nodup_iff.mpr rows.nodup⟩

/-- The row of a key, created if it is missing: at the end, unless its hour is
before the last one. -/
def ensureRow (rows : UsageRows) (key : UsageKey) : UsageRows :=
  match rows.get? key with
  | some _ => rows
  | none =>
    match rows.entries.getLast? with
    | some last =>
      if key.hour < last.1.hour then sortedByHour (rows.set key 0) else rows.set key 0
    | none => rows.set key 0

/-- The loop of `_prune`, with the rows it pops and the rows it leaves: the first
row goes while it is older than the cutoff, or there are too many. -/
def pruneLoop (cutoff : ℚ) (maxRows : ℕ) : List (UsageKey × UsageRow) →
    List (UsageKey × UsageRow) × List (UsageKey × UsageRow)
  | [] => ([], [])
  | e :: l =>
    if e.1.hour < cutoff ∨ maxRows < (e :: l).length then
      (e :: (pruneLoop cutoff maxRows l).1, (pruneLoop cutoff maxRows l).2)
    else ([], e :: l)

/-- The keys `_prune` pops. -/
def dropped (l : UsageLedger) (now : ℚ) : List UsageKey :=
  (pruneLoop (now - l.retentionSeconds) l.maxRows l.rows.entries).1.map Prod.fst

/-- `_prune`. -/
def prune (l : UsageLedger) (now : ℚ) : UsageLedger :=
  { l with rows := (l.dropped now).foldl Dict.pop l.rows }

/-- `record`, up to its call of `_prune`. -/
def added (l : UsageLedger) (c : UsageRecord) : UsageLedger :=
  { l with rows := (ensureRow l.rows c.key).addAt c.key c.amount }

/-- `record`. -/
def record (l : UsageLedger) (c : UsageRecord) : UsageLedger := (l.added c).prune c.later

end UsageLedger

/-! ## Reports -/

/-- `UsageQueryError`. -/
inductive UsageQueryError where
  | bucket
  | groupBy (bad : List String)
  | order
  | unaligned (label : String)
  deriving DecidableEq

/-- Its message; `repr` writes the offending names as a list. -/
def UsageQueryError.message (repr : List String → String) : UsageQueryError → String
  | .bucket => "bucket must be one of ['day', 'hour']"
  | .groupBy bad => "group_by must be from ['subject', 'provider', 'model']: " ++ repr bad
  | .order => "since must be before until"
  | .unaligned label =>
    label ++ " must be aligned to a whole hour (a multiple of 3600 " ++
      "seconds); usage is recorded in hourly buckets"

/-- `BUCKETS`. -/
def buckets : Dict String ℚ := Dict.ofList [("hour", 3600), ("day", 86400)]

/-- `GROUP_BY`. -/
def groupNames : List String := ["subject", "provider", "model"]

/-- The arguments of `report`. -/
structure UsageQuery where
  subject : Option String := none
  since : Option ℚ := none
  until' : Option ℚ := none
  bucket : String := "day"
  groupBy : List String := []

/-- The period and the values of the dimensions asked for. -/
structure UsageGroup where
  period : ℚ
  dims : List String
  deriving DecidableEq

/-- One line of a report. -/
structure UsageLine where
  periodStart : ℤ
  groups : Dict String String
  requests : ℤ
  inputTokens : ℤ
  outputTokens : ℤ
  costUsd : ℚ

namespace UsageQuery

/-- `BUCKETS[bucket]`, after its check. -/
def checkBucket (q : UsageQuery) : Except UsageQueryError ℚ :=
  match buckets.get? q.bucket with
  | some size => .ok size
  | none => .error .bucket

/-- The check of the dimensions. -/
def checkGroups (q : UsageQuery) : Except UsageQueryError Unit :=
  let bad := q.groupBy.filter fun g => decide (g ∉ groupNames)
  if bad ≠ [] then .error (.groupBy bad) else .ok ()

/-- The check of the two bounds against each other. -/
def checkOrder (q : UsageQuery) : Except UsageQueryError Unit :=
  match q.since, q.until' with
  | some since, some until' => if until' ≤ since then .error .order else .ok ()
  | _, _ => .ok ()

/-- The check of one bound. -/
def checkAligned (label : String) (bound : Option ℚ) : Except UsageQueryError Unit :=
  match bound with
  | some b => if floatMod b 3600 ≠ 0 then .error (.unaligned label) else .ok ()
  | none => .ok ()

/-- The checks of `report`, in its order; the size of a period if they pass. -/
def check (q : UsageQuery) : Except UsageQueryError ℚ := do
  let size ← q.checkBucket
  q.checkGroups
  q.checkOrder
  checkAligned "since" q.since
  checkAligned "until" q.until'
  return size

/-- Whether a row is in the range and of the subject asked for. -/
def selects (q : UsageQuery) (k : UsageKey) : Bool :=
  (q.subject.all fun s => decide (k.subject = s)) && (q.since.all fun s => decide (s ≤ k.hour)) &&
    q.until'.all fun u => decide (k.hour < u)

/-- The value of a row's dimension. -/
def dim (k : UsageKey) (g : String) : String :=
  if g = "subject" then k.subject else if g = "provider" then k.provider else k.model

/-- The group a row belongs to. -/
def groupOf (q : UsageQuery) (size : ℚ) (k : UsageKey) : UsageGroup :=
  ⟨k.hour - floatMod k.hour size, q.groupBy.map (dim k)⟩

/-- What the loop of `report` has added up. -/
def aggregate (q : UsageQuery) (size : ℚ) (rows : UsageRows) : Dict UsageGroup UsageRow :=
  Dict.tally ((rows.entries.filter fun e => q.selects e.1).map fun e => (q.groupOf size e.1, e.2))

/-- One line, with the cost rounded. -/
def line (q : UsageQuery) (e : UsageGroup × UsageRow) : UsageLine where
  periodStart := truncate e.1.period
  groups := Dict.ofList (q.groupBy.zip e.1.dims)
  requests := e.2.requests
  inputTokens := e.2.inputTokens
  outputTokens := e.2.outputTokens
  costUsd := roundTo 6 e.2.costUsd

/-- The order of the lines: by period, then by the dimensions. -/
def before (a b : UsageGroup × UsageRow) : Prop :=
  toLex (a.1.period, a.1.dims) ≤ toLex (b.1.period, b.1.dims)

instance : DecidableRel before := fun a b =>
  inferInstanceAs (Decidable (toLex (a.1.period, a.1.dims) ≤ toLex (b.1.period, b.1.dims)))

end UsageQuery

/-- `report`. -/
def UsageLedger.report (l : UsageLedger) (q : UsageQuery) : Except UsageQueryError (List UsageLine) := do
  let size ← q.check
  return ((q.aggregate size l.rows).entries.insertionSort UsageQuery.before).map q.line

end Caips.Coreai
