/-
Caips.Harness.RunStream — the stream of the events of a run, after `stream` of
`harness/runner.py` and the table `events` of `harness/store.py`.

A stream is a generator. It runs when its consumer asks for the next event and when
its sleep is over, up to the next `yield` or to the sleep; in between, the
executions of the run and its requests go on. It reads the store and writes
nothing, so one reader stands for all of them. `watched` puts a reader next to
the event loop of the run; its first step may come at any time.
-/
import Caips.Harness.Runner

namespace Caips.Harness

open Caips.Logic

/-! ## The table of events -/

/-- A row of `events`. -/
structure Row where
  seq : ℕ
  event : TraceEvent

/-- The rows that were inserted: each takes the number after the largest one. -/
def rows : List Entry → List Row
  | [] => []
  | .trace e :: J => rows J ++ [⟨((rows J).map (·.seq)).max?.getD 0 + 1, e⟩]
  | _ :: J => rows J

/-- `store.events`. -/
def events (J : List Entry) (after : ℕ) : List Row :=
  ((rows J).filter fun r => after < r.seq).mergeSort fun a b => decide (a.seq ≤ b.seq)

/-! ## The reader -/

/-- Where a reader stands. -/
inductive Position where
  | opened
  /-- At a `yield` of the first or the last loop, with the rows after it. -/
  | yielding (rest : List Row) (last : Bool)
  | asleep
  | finished

/-- The local variables of a `stream`, and what it has yielded. -/
structure Reader where
  seen : ℕ := 0
  position : Position := .opened
  yielded : List Row := []

namespace Reader

/-- The last loop. -/
def drain (r : Reader) : List Row → Reader
  | [] => { r with position := .finished }
  | e :: rest => { r with yielded := r.yielded ++ [e], position := .yielding rest true }

/-- The status is checked. -/
def check (s : HarnessState) (r : Reader) : Reader :=
  if s.run.status ≠ .running then r.drain (events s.journal r.seen) else { r with position := .asleep }

/-- The loop over the events. -/
def feed (s : HarnessState) (r : Reader) : List Row → Reader
  | [] => r.check s
  | e :: rest => { r with seen := e.seq, yielded := r.yielded ++ [e], position := .yielding rest false }

/-- `stream`, to its next `yield`, its next sleep or its end. -/
def next (s : HarnessState) (r : Reader) : Option Reader :=
  match r.position with
  | .opened => some (r.feed s (events s.journal r.seen))
  | .yielding rest false => some (r.feed s rest)
  | .yielding rest true => some (r.drain rest)
  | .asleep => some (r.feed s (events s.journal r.seen))
  | .finished => none

end Reader

/-! ## A reader next to a run -/

namespace HarnessRunner

/-- The event loop of a run, and a reader. -/
structure Watched where
  pool : Pool Γ
  reader : Reader

/-- A step of the event loop, or of the reader. -/
inductive Act where
  | move (m : Move Γ Op)
  | read

variable (R : HarnessRunner)

def watched : Machine Watched Act where
  start w := (R.machine false).start w.pool ∧ w.reader = {}
  step
    | w, .move m, w' => (R.machine false).step w.pool m w'.pool ∧ w'.reader = w.reader
    | w, .read, w' => w'.pool = w.pool ∧ w.reader.next w.pool.state = some w'.reader

end HarnessRunner

end Caips.Harness
