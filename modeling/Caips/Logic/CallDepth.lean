/-
Caips.Logic.CallDepth — programs that may run out of stack.

A program is run with a number of calls that may be open at once, and one that needs
more ends in one error, `out`. Its measured twin counts the open calls instead
(`Measured`). `Agrees` says that a program runs out exactly with fewer calls than its
twin counts; its rules follow the program.

Nothing in this file knows what is being verified.
-/
import Mathlib.Order.MinMax
import Mathlib.Data.Nat.Notation
import Mathlib.Tactic.Basic

namespace Caips.Logic

variable {σ ε α β γ δ : Type}

/-- How many calls are open at once, and what the program goes on with if it does
not end in an error. -/
abbrev Measured (σ α : Type) := σ → ℕ × Option (α × σ)

namespace Measured

def pure (a : α) : Measured σ α := fun s => (0, some (a, s))

/-- An error that is not about the calls. -/
def stop : Measured σ α := fun _ => (0, none)

/-- One program after the other needs the room of the larger one. -/
def bind (m : Measured σ α) (f : α → Measured σ β) : Measured σ β := fun s =>
  match m s with
  | (d, none) => (d, none)
  | (d, some (a, r)) => (max d (f a r).1, (f a r).2)

/-- A program in a call of its own. -/
def call (m : Measured σ α) : Measured σ α := fun s => ((m s).1 + 1, (m s).2)

end Measured

/-- A program with at most `limit` calls does what its twin says; `value` is what the
twin keeps of a result. -/
structure Agrees (out : ε) (limit : ℕ) (value : α → γ) (x : ℕ → StateT σ (Except ε) α) (m : Measured σ γ) (s : σ) :
    Prop where
  runsOut : ∀ n ≤ limit, n < (m s).1 → x n s = .error out
  stops : ∀ n ≤ limit, (m s).1 ≤ n → (m s).2 = none → ∃ e, e ≠ out ∧ x n s = .error e
  returns : ∀ n ≤ limit, (m s).1 ≤ n → ∀ c r, (m s).2 = some (c, r) → ∃ a, value a = c ∧ x n s = .ok (a, r)

namespace Agrees

variable {out : ε} {limit : ℕ} {value : α → γ} {value' : β → δ} {x : ℕ → StateT σ (Except ε) α} {m : Measured σ γ} {s : σ}

/-- A program runs out exactly with fewer calls than its twin counts. -/
theorem out_iff (h : Agrees out limit value x m s) {n : ℕ} (hn : n ≤ limit) : x n s = .error out ↔ n < (m s).1 := by
  constructor
  · intro hout
    by_contra hlt
    cases hresult : (m s).2 with
    | none =>
      obtain ⟨e, hne, he⟩ := h.stops n hn (not_lt.mp hlt) hresult
      exact hne (Except.error.inj (he.symm.trans hout))
    | some p =>
      obtain ⟨a, -, ha⟩ := h.returns n hn (not_lt.mp hlt) p.1 p.2 hresult
      exact nomatch ha.symm.trans hout
  · exact h.runsOut n hn

theorem pure (a : α) : Agrees out limit value (fun _ => pure a) (.pure (value a)) s where
  runsOut n _ hlt := absurd hlt (Nat.not_lt_zero n)
  stops n _ _ h := nomatch h
  returns n _ _ c r h := by
    obtain ⟨rfl, rfl⟩ := Prod.mk.inj (Option.some.inj h)
    exact ⟨a, rfl, rfl⟩

theorem stop {e : ε} (hne : e ≠ out) : Agrees out limit value (fun _ => throw e) .stop s where
  runsOut n _ hlt := absurd hlt (Nat.not_lt_zero n)
  stops _ _ _ _ := ⟨e, hne, rfl⟩
  returns _ _ _ _ _ h := nomatch h

theorem bind {f : ℕ → α → StateT σ (Except ε) β} {g : γ → Measured σ δ} (hx : Agrees out limit value x m s)
    (hf : ∀ a r, Agrees out limit value' (fun n => f n a) (g (value a)) r) :
    Agrees out limit value' (fun n => x n >>= f n) (m.bind g) s := by
  have hbind : ∀ n, (x n >>= f n) s = x n s >>= fun p => f n p.1 p.2 := fun _ => rfl
  have herror : ∀ {n e}, x n s = .error e → (x n >>= f n) s = .error e := by
    intro n e h
    rw [hbind, h]
    rfl
  have hok : ∀ {n a r}, x n s = .ok (a, r) → (x n >>= f n) s = f n a r := by
    intro n a r h
    rw [hbind, h]
    rfl
  unfold Measured.bind
  cases hm : m s with
  | mk d result =>
    have hd : (m s).1 = d := by rw [hm]
    have hresult : (m s).2 = result := by rw [hm]
    cases result with
    | none =>
      constructor
      · intro n hn hlt
        simp only [hm] at hlt
        exact herror (hx.runsOut n hn (hd ▸ hlt))
      · intro n hn hle _
        simp only [hm] at hle
        obtain ⟨e, hne, he⟩ := hx.stops n hn (hd ▸ hle) hresult
        exact ⟨e, hne, herror he⟩
      · intro n hn hle c r h
        simp [hm] at h
    | some p =>
      obtain ⟨c, r⟩ := p
      have hreturns := fun n hn hle => hx.returns n hn hle c r hresult
      constructor
      · intro n hn hlt
        simp only [hm] at hlt
        rcases Nat.lt_or_ge n d with hd' | hd'
        · exact herror (hx.runsOut n hn (hd ▸ hd'))
        · obtain ⟨a, rfl, ha⟩ := hreturns n hn (hd ▸ hd')
          rw [hok ha]
          exact (hf a r).runsOut n hn ((lt_max_iff.mp hlt).resolve_left (not_lt.mpr hd'))
      · intro n hn hle h
        simp only [hm] at hle h
        obtain ⟨a, rfl, ha⟩ := hreturns n hn (hd ▸ (le_max_left _ _).trans hle)
        rw [hok ha]
        exact (hf a r).stops n hn ((le_max_right _ _).trans hle) h
      · intro n hn hle c' r' h
        simp only [hm] at hle h
        obtain ⟨a, rfl, ha⟩ := hreturns n hn (hd ▸ (le_max_left _ _).trans hle)
        rw [hok ha]
        exact (hf a r).returns n hn ((le_max_right _ _).trans hle) c' r' h

/-- A call needs one more than what it calls. -/
theorem call {y : ℕ → StateT σ (Except ε) α} (hzero : y 0 s = .error out) (hsucc : ∀ n, y (n + 1) = x n)
    (h : Agrees out limit value x m s) : Agrees out (limit + 1) value y m.call s := by
  constructor
  · intro n hn hlt
    cases n with
    | zero => exact hzero
    | succ k =>
      rw [hsucc]
      exact h.runsOut k (Nat.le_of_succ_le_succ hn) (Nat.lt_of_succ_lt_succ hlt)
  · intro n hn hle hnone
    cases n with
    | zero => exact absurd hle (Nat.not_succ_le_zero _)
    | succ k =>
      rw [hsucc]
      exact h.stops k (Nat.le_of_succ_le_succ hn) (Nat.le_of_succ_le_succ hle) hnone
  · intro n hn hle c r hsome
    cases n with
    | zero => exact absurd hle (Nat.not_succ_le_zero _)
    | succ k =>
      rw [hsucc]
      exact h.returns k (Nat.le_of_succ_le_succ hn) (Nat.le_of_succ_le_succ hle) c r hsome

theorem weaken (h : Agrees out limit value x m s) {limit' : ℕ} (hle : limit' ≤ limit) : Agrees out limit' value x m s :=
  ⟨fun n hn => h.runsOut n (hn.trans hle), fun n hn => h.stops n (hn.trans hle), fun n hn => h.returns n (hn.trans hle)⟩

end Agrees

end Caips.Logic
