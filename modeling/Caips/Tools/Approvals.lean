/-
Caips.Tools.Approvals — human approval of destructive tool calls, after
`tools/approvals.py`.

A request opens a pending approval for one call (caller, tool, arguments); an
admin approves or denies it; `consume` spends an approved one. Every operation
first drops what has reached its time to live. Points of the translation:

* the clock is read by the operation, so its readings are arguments; they are exact
  numbers, where the source rounds `now - created_at`;
* `uuid4` is an argument too, and a new identifier is one that is not in the
  store;
* arguments are JSON values, as both callers get them from `json.loads`;
* `on_request` gets a copy and its exceptions are swallowed, so it is left out.
-/
import Caips.Logic.Dict
import Caips.Logic.Json
import Caips.Logic.Machine
import Mathlib.Algebra.Order.Ring.Rat
import Mathlib.Tactic.NormNum

namespace Caips.Tools

open Caips.Logic

inductive Status where
  | pending
  | approved
  | denied
  | used
  deriving DecidableEq

namespace Status

/-- `PENDING` or `APPROVED`: the approval may still be spent. -/
def isOpen (s : Status) : Bool := s == .pending || s == .approved

/-- `DENIED` or `USED`. -/
def isClosed (s : Status) : Bool := s == .denied || s == .used

end Status

/-- `Approval`. -/
structure Approval where
  id : String
  caller : String
  tool : String
  arguments : Json
  created : ℚ
  status : Status := .pending
  decidedBy : Option String := none

/-- `_fingerprint`. -/
def fingerprint (caller tool : String) (arguments : Json) : List Char :=
  caller.toList ++ '|' :: (tool.toList ++ '|' :: dumps arguments)

namespace Approval

def fingerprint (a : Approval) : List Char := Tools.fingerprint a.caller a.tool a.arguments

/-- It has reached its time to live. -/
def expired (a : Approval) (ttl now : ℚ) : Bool := ttl ≤ now - a.created

end Approval

/-- The errors of the store. -/
inductive StoreError where
  | tooMany
  | unknown (id : String)
  | already (status : Status)
  deriving DecidableEq

theorem default_ttl_pos : (0 : ℚ) < 900 := by norm_num

/-- `ApprovalStore`; `__post_init__` refuses other bounds. -/
structure ApprovalStore where
  ttl : ℚ := 900
  maxItems : Nat := 1000
  ttl_pos : 0 < ttl := by first | exact Caips.Tools.default_ttl_pos | norm_num
  maxItems_pos : 1 ≤ maxItems := by decide
  items : Dict String Approval := .empty

namespace ApprovalStore

/-- `_sweep`. -/
def sweep (s : ApprovalStore) (now : ℚ) : ApprovalStore :=
  { s with items := s.items.filter fun a => !a.expired s.ttl now }

/-- Drop denied and used approvals, oldest first, until there is room. -/
def evict (maxItems : Nat) : List (String × Approval) → Dict String Approval → Dict String Approval
  | [], items => items
  | (id, old) :: rest, items =>
    if old.status.isClosed then
      if (items.pop id).size < maxItems then items.pop id else evict maxItems rest (items.pop id)
    else evict maxItems rest items

/-- The items with room made for one more, where that can be done. -/
def makeRoom (s : ApprovalStore) : Dict String Approval :=
  if s.maxItems ≤ s.items.size then evict s.maxItems s.items.entries s.items else s.items

/-- The first item that passes a test. -/
def findFirst (s : ApprovalStore) (p : Approval → Bool) : Option (String × Approval) :=
  s.items.entries.find? fun e => p e.2

/-- `request`: open a pending approval for this call, or reuse one. `created`
is the second reading of the clock. -/
def request (s : ApprovalStore) (caller tool : String) (arguments : Json) (now created : ℚ)
    (id : String) : Except StoreError Approval × ApprovalStore :=
  let s := s.sweep now
  match s.findFirst fun a => a.status.isOpen && a.fingerprint == fingerprint caller tool arguments with
  | some (_, a) => (.ok a, s)
  | none =>
    if s.maxItems ≤ s.makeRoom.size then (.error .tooMany, { s with items := s.makeRoom })
    else
      let a : Approval := { id, caller, tool, arguments, created }
      (.ok a, { s with items := s.makeRoom.set id a })

/-- `get`. -/
def get (s : ApprovalStore) (id : String) (now : ℚ) : Option Approval × ApprovalStore :=
  ((s.sweep now).items.get? id, s.sweep now)

/-- `pending`. -/
def pending (s : ApprovalStore) (now : ℚ) : List Approval × ApprovalStore :=
  ((s.sweep now).items.values.filter fun a => a.status == .pending, s.sweep now)

/-- `decide`. -/
def decide (s : ApprovalStore) (id : String) (approve : Bool) (decidedBy : String) (now : ℚ) :
    Except StoreError Approval × ApprovalStore :=
  match s.get id now with
  | (none, s) => (.error (.unknown id), s)
  | (some a, s) =>
    if a.status ≠ .pending then (.error (.already a.status), s)
    else
      let a := { a with status := if approve then .approved else .denied, decidedBy := some decidedBy }
      (.ok a, { s with items := s.items.set id a })

/-- `consume`: true once if this exact call was approved. -/
def consume (s : ApprovalStore) (caller tool : String) (arguments : Json) (now : ℚ) :
    Bool × ApprovalStore :=
  let s := s.sweep now
  match s.findFirst fun a => a.status == .approved && a.fingerprint == fingerprint caller tool arguments with
  | some (id, a) => (true, { s with items := s.items.set id { a with status := .used } })
  | none => (false, s)

/-! ## Runs -/

/-- The operations, with what they read. -/
inductive Event where
  | request (caller tool : String) (arguments : Json) (now created : ℚ) (id : String)
  | get (id : String) (now : ℚ)
  | pending (now : ℚ)
  | decide (id : String) (approve : Bool) (decidedBy : String) (now : ℚ)
  | consume (caller tool : String) (arguments : Json) (now : ℚ)

def Event.now : Event → ℚ
  | .request _ _ _ now _ _ => now
  | .get _ now => now
  | .pending now => now
  | .decide _ _ _ now => now
  | .consume _ _ _ now => now

/-- One operation. -/
def step (s : ApprovalStore) : Event → Option ApprovalStore
  | .request caller tool arguments now created id =>
    if s.items.get? id = none then some (s.request caller tool arguments now created id).2 else none
  | .get id now => some (s.get id now).2
  | .pending now => some (s.pending now).2
  | .decide id approve decidedBy now => some (s.decide id approve decidedBy now).2
  | .consume caller tool arguments now => some (s.consume caller tool arguments now).2

def machine : Machine ApprovalStore Event := .ofFun (fun s => s.items = .empty) step

end ApprovalStore

end Caips.Tools
