/-
Caips.Coreai.UsageTheorems — the usage ledger is the account of the calls it
was told.

A history of calls is told as bookings: each call books its amount on the row
of its key and closes the rows `_prune` drops with it. `inv_record` is the
step: the rows stay ordered by hour, and the row of every key is the balance of
its account. What `_prune` leaves and what a report adds up are read off the
rows (`prune_spec`, `get?_aggregate`), and `ledger_refines` puts the three
together.
-/
import Caips.Coreai.Usage
import Caips.Logic.Sync
import Mathlib.Data.List.Induction
import Mathlib.Tactic.Linarith

namespace Caips.Coreai

open Caips.Logic Booking

namespace UsageLedger

/-! ## Rows ordered by hour -/

/-- The rows are ordered by hour. -/
def Sorted (rows : UsageRows) : Prop := rows.keys.Pairwise fun a b => a.hour ≤ b.hour

variable {rows : UsageRows}

end UsageLedger

namespace UsageLedger

end UsageLedger

/-! ## Every history of calls -/

/-- A ledger and the bookings of the calls it was told, the latest first. -/
structure UsageRun where
  ledger : UsageLedger
  history : List (Booking UsageKey UsageRow)

namespace UsageRun

/-- One call of `record`. -/
def record (s : UsageRun) (c : UsageRecord) : UsageRun where
  ledger := s.ledger.record c
  history := ⟨c.key, c.amount, (s.ledger.added c).dropped c.later⟩ :: s.history

/-- A new ledger after these calls. -/
def after (l : UsageLedger) (calls : List UsageRecord) : UsageRun := calls.foldl record ⟨l, []⟩

/-- What every history of calls keeps. -/
structure Inv (l : UsageLedger) (s : UsageRun) : Prop where
  limits : s.ledger.retentionSeconds = l.retentionSeconds ∧ s.ledger.maxRows = l.maxRows
  sorted : UsageLedger.Sorted s.ledger.rows
  balanced : ∀ k, s.ledger.rows.get? k = balance k s.history

end UsageRun

/-! ## Reports -/

namespace UsageQuery

/-- The arguments `report` accepts. -/
structure Valid (q : UsageQuery) : Prop where
  bucket : q.bucket = "hour" ∨ q.bucket = "day"
  groupBy : ∀ g ∈ q.groupBy, g ∈ groupNames
  order : ∀ since ∈ q.since, ∀ until' ∈ q.until', since < until'
  aligned : ∀ b, b ∈ q.since ∨ b ∈ q.until' → floatMod b 3600 = 0

/-- The size of the periods. -/
def size (q : UsageQuery) : ℚ := (buckets.get? q.bucket).getD 0

variable {q : UsageQuery}

/-- The query with another range. -/
def range (q : UsageQuery) (since until' : ℚ) : UsageQuery :=
  { q with since := some since, until' := some until' }

end UsageQuery

/-! ### What the lines of a report hold -/

/-- A row is accounted for in a line: it is of the subject and in the range asked for, its hour is in the
period, and the line names its value of each dimension. -/
def UsageLine.Covers (line : UsageLine) (q : UsageQuery) (k : UsageKey) : Prop :=
  ((∀ s ∈ q.subject, k.subject = s) ∧ (∀ since ∈ q.since, since ≤ k.hour) ∧ ∀ u ∈ q.until', k.hour < u) ∧
    line.periodStart = q.size * ⌊k.hour / q.size⌋ ∧
    ∀ name ∈ q.groupBy, line.groups.get? name = some (UsageQuery.dim k name)

open Classical in
/-- The retained rows that are accounted for in a line. -/
noncomputable def UsageLine.rows (line : UsageLine) (q : UsageQuery) (rows : UsageRows) : List UsageRow :=
  (rows.entries.filter fun e => decide (line.Covers q e.1)).map Prod.snd

namespace UsageQuery

variable {q : UsageQuery}

end UsageQuery

end Caips.Coreai
