/-
Caips.Utils.Events — budget events, after `watch_budgets` of
`utils/events.py`.

The watcher wraps `record` and `add_usage` of a budget manager: after each call
it reads the subject's `status` and publishes what has not been published in
the window it believes to be in. It knows no windows; it takes a cost below the
one it saw last for a new window.

A state carries, besides the manager and what the watcher remembers, the calls
made so far and the events published, each with the window of its call, so that
what should have been published can be said. `emit` is taken not to raise, as
that of the event bus.
-/
import Caips.Coreai.Budgets
import Caips.Logic.Machine

namespace Caips.Utils

open Caips.Logic Caips.Coreai

inductive AlertKind where
  | warning
  | exceeded
  deriving DecidableEq

/-- The spend at which an event of this kind is due. -/
def threshold (l : BudgetLimits) : AlertKind → Option ℚ
  | .warning => l.warnCostUsd
  | .exceeded => l.maxCostUsd

/-- An entry of `seen`. -/
structure Seen where
  last : ℚ := 0
  fired : List AlertKind := []

/-- A published event, and the window of the call it was published after. -/
structure Published where
  kind : AlertKind
  subject : String
  usedUsd : ℚ
  capUsd : Option ℚ
  window : Int

/-- A call that was counted: what it added to the spend, and its window. -/
structure CountedCall where
  subject : String
  amount : ℚ
  window : Int

/-- The wrapped operations. -/
inductive Operation where
  | record
  | addUsage

/-- A manager under watch. -/
structure WatchedBudgets where
  now : ℚ
  manager : BudgetManager
  seen : Dict String Seen := .empty
  published : List Published := []
  calls : List CountedCall := []

namespace WatchedBudgets

/-- The kinds `check` publishes. -/
def newKinds (st : BudgetStatus) (fired : List AlertKind) : List AlertKind :=
  (if st.warning && !fired.contains .warning then [.warning] else []) ++
    (if st.limitCostUsd.any (· ≤ st.usedCostUsd) && !fired.contains .exceeded then [.exceeded] else [])

/-- `check`. `window` is that of the call. -/
def check (c : WatchedBudgets) (subject : String) (window : Int) (now later : ℚ) : WatchedBudgets :=
  match c.manager.status subject now later with
  | (none, m) => { c with manager := m }
  | (some st, m) =>
    let old := (c.seen.get? subject).getD {}
    -- spend went down: a new window started
    let fired := if st.usedCostUsd < old.last then [] else old.fired
    let kinds := newKinds st fired
    { c with
      manager := m
      seen := c.seen.set subject { last := st.usedCostUsd, fired := fired ++ kinds }
      published := c.published ++ kinds.map fun kind =>
        { kind, subject, usedUsd := st.usedCostUsd, capUsd := st.limitCostUsd, window } }

/-- The wrapped operation itself. -/
def count (c : WatchedBudgets) (op : Operation) (subject : String) (costUsd : ℚ) (tokens : Int) (now : ℚ) :
    WatchedBudgets :=
  { c with
    manager := match op with
      | .record => c.manager.record subject costUsd tokens now
      | .addUsage => c.manager.addUsage subject costUsd tokens now
    calls := match c.manager.limitsFor subject with
      | none => c.calls
      | some l => c.calls ++ [{ subject, amount := max 0 costUsd, window := l.window now }] }

/-- A call of a wrapped operation, `d` after the one before; the clock moves on
by `e` before the status is read, and by `f` until its second reading. -/
structure Event where
  op : Operation
  subject : String
  costUsd : ℚ
  tokens : Int
  d : ℚ
  e : ℚ
  f : ℚ

/-- One call, and the watcher's look at the status. -/
def step (c : WatchedBudgets) (i : Event) : Option WatchedBudgets :=
  if 0 ≤ i.d ∧ 0 ≤ i.e ∧ 0 ≤ i.f then
    let called := c.count i.op i.subject i.costUsd i.tokens (c.now + i.d)
    let window := (c.manager.limitsFor i.subject).elim 0 fun l => l.window (c.now + i.d)
    let checked := called.check i.subject window (c.now + i.d + i.e) (c.now + i.d + i.e + i.f)
    some { checked with now := c.now + i.d + i.e + i.f }
  else none

/-- All runs of a manager that is watched from the start. -/
def machine : Machine WatchedBudgets Event :=
  .ofFun (fun c => c.manager.usage = .empty ∧ c.seen = .empty ∧ c.published = [] ∧ c.calls = []) step

/-! ## What should be published -/

/-- The calls of a subject in a window. -/
def callsIn (c : WatchedBudgets) (subject : String) (window : Int) : List CountedCall :=
  c.calls.filter fun k => k.subject == subject && k.window == window

/-- What a subject has spent in a window. -/
def spend (c : WatchedBudgets) (subject : String) (window : Int) : ℚ :=
  ((c.callsIn subject window).map CountedCall.amount).sum

/-- The spend of a subject, with its calls in a window, has reached the threshold. -/
def Reached (c : WatchedBudgets) (subject : String) (l : BudgetLimits) (kind : AlertKind) (window : Int) :
    Prop :=
  c.callsIn subject window ≠ [] ∧ ∃ x, threshold l kind = some x ∧ x ≤ c.spend subject window

/-- The events of a kind published for a subject in a window. -/
def publishedIn (c : WatchedBudgets) (subject : String) (kind : AlertKind) (window : Int) : Nat :=
  c.published.countP fun p => p.subject == subject && p.kind == kind && p.window == window

end WatchedBudgets

end Caips.Utils
