/-
Caips.Coreai.Budgets — spend and usage of each subject over fixed windows,
after `coreai/budgets.py`: what `record`, `add_usage` and `status` of a
`BudgetManager` do.

A window is the interval between two multiples of the subject's window length;
the usage of a subject is kept for one window, under the subject's name, and the
least recently used subjects are dropped. The clock is read by each operation, so
its readings are arguments. The alert hook (`on_alert`) changes no usage and is
left out.
-/
import Caips.Coreai.Explain
import Mathlib.Data.Rat.Floor
import Mathlib.Tactic.Linarith
import Mathlib.Tactic.NormNum
import Mathlib.Tactic.Positivity

namespace Caips.Coreai

open Caips.Logic RouterState

/-- `BudgetLimits`; `__post_init__` refuses other values. -/
structure BudgetLimits where
  maxCostUsd : Option ℚ := none
  warnCostUsd : Option ℚ := none
  maxRequests : Option Nat := none
  maxTokens : Option Nat := none
  windowSeconds : Nat := 86400
  max_nonneg : ∀ x ∈ maxCostUsd, 0 ≤ x := by simp
  warn_nonneg : ∀ x ∈ warnCostUsd, 0 ≤ x := by simp
  warn_le : ∀ x ∈ warnCostUsd, ∀ y ∈ maxCostUsd, x ≤ y := by simp
  window_pos : 1 ≤ windowSeconds := by decide

namespace BudgetLimits

/-- The number of the window a moment is in. -/
def window (l : BudgetLimits) (now : ℚ) : Int := ⌊now / l.windowSeconds⌋

/-- `now - (now % limits.window_seconds)`. -/
def windowStart (l : BudgetLimits) (now : ℚ) : ℚ := l.windowSeconds * l.window now

end BudgetLimits

/-- `_Usage`. -/
structure Usage where
  windowStart : ℚ
  cost : ℚ := 0
  requests : Nat := 0
  tokens : Nat := 0

/-- What `status` answers. -/
structure BudgetStatus where
  windowSeconds : Nat
  resetsInSeconds : ℚ
  usedCostUsd : ℚ
  usedRequests : Nat
  usedTokens : Nat
  limitCostUsd : Option ℚ
  limitRequests : Option Nat
  limitTokens : Option Nat
  warning : Bool

/-- `BudgetManager`. -/
structure BudgetManager where
  default : Option BudgetLimits := none
  subjects : Dict String BudgetLimits := .empty
  maxSubjects : Nat := 10000
  maxSubjects_pos : 1 ≤ maxSubjects := by decide
  usage : Dict String Usage := .empty

namespace BudgetManager

/-- `limits_for`. -/
def limitsFor (m : BudgetManager) (subject : String) : Option BudgetLimits :=
  match m.subjects.get? subject with
  | some l => some l
  | none => m.default

/-- The usage of a subject in the window of `now`: what is kept, or a new one. -/
def usageAt (m : BudgetManager) (subject : String) (l : BudgetLimits) (now : ℚ) : Usage :=
  match m.usage.get? subject with
  | some u => if u.windowStart = l.windowStart now then u else { windowStart := l.windowStart now }
  | none => { windowStart := l.windowStart now }

/-- The usage of a subject goes to the end; the oldest above the bound are dropped. -/
def store (m : BudgetManager) (subject : String) (u : Usage) : BudgetManager :=
  { m with usage := (m.usage.setLast subject u).keepLast m.maxSubjects }

/-- `record`. -/
def record (m : BudgetManager) (subject : String) (costUsd : ℚ) (tokens : Int) (now : ℚ) :
    BudgetManager :=
  match m.limitsFor subject with
  | none => m
  | some l =>
    let u := m.usageAt subject l now
    m.store subject
      { u with
        requests := u.requests + 1
        cost := u.cost + max 0 costUsd
        tokens := u.tokens + tokens.toNat }

/-- `add_usage`. -/
def addUsage (m : BudgetManager) (subject : String) (costUsd : ℚ) (tokens : Int) (now : ℚ) :
    BudgetManager :=
  match m.limitsFor subject with
  | none => m
  | some l =>
    let u := m.usageAt subject l now
    m.store subject { u with cost := u.cost + max 0 costUsd, tokens := u.tokens + tokens.toNat }

/-- `status`; `later` is the second reading of the clock. -/
def status (m : BudgetManager) (subject : String) (now later : ℚ) : Option BudgetStatus × BudgetManager :=
  match m.limitsFor subject with
  | none => (none, m)
  | some l =>
    let u := m.usageAt subject l now
    (some
      { windowSeconds := l.windowSeconds
        resetsInSeconds := roundTo (u.windowStart + l.windowSeconds - later) 1
        usedCostUsd := roundTo u.cost 6
        usedRequests := u.requests
        usedTokens := u.tokens
        limitCostUsd := l.maxCostUsd
        limitRequests := l.maxRequests
        limitTokens := l.maxTokens
        warning := l.warnCostUsd.any (· ≤ u.cost) },
      m.store subject u)

/-! ## What is kept -/

theorem get?_store_self (m : BudgetManager) (subject : String) (u : Usage) :
    (m.store subject u).usage.get? subject = some u :=
  Dict.get?_setLast_keepLast _ _ _ m.maxSubjects_pos

theorem of_get?_store {m : BudgetManager} {subject other : String} {u v : Usage} (h : subject ≠ other)
    (hv : (m.store subject u).usage.get? other = some v) : m.usage.get? other = some v :=
  Dict.of_get?_setLast_keepLast h hv

@[simp] theorem limitsFor_store (m : BudgetManager) (subject other : String) (u : Usage) :
    (m.store subject u).limitsFor other = m.limitsFor other := rfl

theorem windowStart_inj {l : BudgetLimits} {X Y : Int}
    (h : (l.windowSeconds : ℚ) * X = l.windowSeconds * Y) : X = Y := by
  have hpos : (l.windowSeconds : ℚ) ≠ 0 := by
    exact_mod_cast (Nat.pos_of_ne_zero (Nat.ne_of_gt l.window_pos)).ne'
  exact_mod_cast mul_left_cancel₀ hpos h

theorem window_mono (l : BudgetLimits) {s t : ℚ} (h : s ≤ t) : l.window s ≤ l.window t :=
  Int.floor_mono (div_le_div_of_nonneg_right h (Nat.cast_nonneg _))

end BudgetManager

/-! ## Rounding -/

/-- The whole number `round` takes: halves go to the even neighbour. -/
def nearest (y : ℚ) : Int :=
  if y - y.floor < 1 / 2 then y.floor
  else if 1 / 2 < y - y.floor then y.floor + 1
  else if y.floor % 2 = 0 then y.floor else y.floor + 1

theorem roundTo_eq (x : ℚ) (digits : Nat) : roundTo x digits = nearest (x * 10 ^ digits) / 10 ^ digits :=
  rfl

theorem nearest_mono {x y : ℚ} (h : x ≤ y) : nearest x ≤ nearest y := by
  have hlow : ∀ y : ℚ, y.floor ≤ nearest y := by
    intro y
    unfold nearest
    split_ifs <;> omega
  have hhigh : ∀ y : ℚ, nearest y ≤ y.floor + 1 := by
    intro y
    unfold nearest
    split_ifs <;> omega
  rcases (Rat.floor_monotone h).lt_or_eq with hlt | heq
  · exact (hhigh x).trans (hlt.trans_le (hlow y))
  · -- in the same unit interval the rest decides
    have hrest : x - x.floor ≤ y - y.floor := by
      rw [heq]
      linarith
    unfold nearest
    rw [heq] at hrest ⊢
    split_ifs <;> first | omega | linarith

theorem roundTo_mono {x y : ℚ} (digits : Nat) (h : x ≤ y) : roundTo x digits ≤ roundTo y digits := by
  have hpos : (0 : ℚ) < 10 ^ digits := by positivity
  rw [roundTo_eq, roundTo_eq]
  refine div_le_div_of_nonneg_right ?_ hpos.le
  exact_mod_cast nearest_mono (mul_le_mul_of_nonneg_right h hpos.le)

end Caips.Coreai
