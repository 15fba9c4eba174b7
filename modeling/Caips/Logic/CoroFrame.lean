/-
Caips.Logic.CoroFrame — code that leaves the tokens of a contract alone.

Much of a program does nothing a contract is about. If all its actions keep the
invariant with the tokens that its task holds (`Contract.Respects`), and it starts no
child, then it ends with the tokens it began with (`Contract.Holds.of_within`). What
the actions are is a matter of structure (`Coro.Within`), with no assertions in it.
-/
import Caips.Logic.CoroLogic
import Caips.Logic.CoroTrace

namespace Caips.Logic

variable {Γ : Sig} {P : Program Γ} {α : Type}

/-- The await is no await of a child. -/
def Ask.isCall : Ask Γ → Prop
  | .call _ => True
  | _ => False

namespace Contract

/-- Steps that keep the invariant where the task holds tokens of a kind, whatever the others
hold, and the own parts of the others. -/
structure Respects (C : Contract P) (me : Γ.Handle) (φ : Multiset C.Tok → Prop) (N : Γ.State → Γ.State → Prop) : Prop where
  inv : ∀ s u, N s u → ∀ h F, φ h → C.inv s (h + F) → C.inv u (h + F)
  own : ∀ s u, N s u → ∀ j ≠ me.1, C.own j u = C.own j s

variable {C : Contract P} {N : Γ.State → Γ.State → Prop} {me : Γ.Handle} {φ : Multiset C.Tok → Prop}

theorem wp_of_within (hN : C.Respects me φ N) (hasks : ∀ q : Ask Γ, q.isCall → C.asks me q) (hrests : ∀ h, φ h → C.rests h)
    {Q : Except Γ.Exc α → Γ.State → Multiset C.Tok → Multiset C.Tok → List (Event Γ) → Prop} {c : Coro Γ α} :
    ∀ {s h F l}, φ h → c.Within Ask.isCall N → C.inv s (h + F) → (∀ r s F l, Q r s h F l) → C.wp me Q c s h F l := by
  induction c with
  | ret a => intro s h F l _ _ _ hQ; exact hQ _ _ _ _
  | fail e => intro s h F l _ _ _ hQ; exact hQ _ _ _ _
  | act f k ih =>
    intro s h F l hφ hc hs hQ
    have hinv := hN.inv s (f s) (hc s).1 h F hφ hs
    exact ⟨hN.own s (f s) (hc s).1, h, hinv, ih s hφ (hc s).2 hinv hQ⟩
  | await q k ih =>
    intro s h F l hφ hc hs hQ
    exact ⟨⟨hasks q hc.1, hrests h hφ⟩, fun r s' F' hs' _ _ => ih r hφ (hc.2 r) hs' hQ⟩
  | fork d k ih =>
    intro s h F l _ hc _ _
    exact (hc 0).1.elim

/-- **The rule of code that leaves the tokens alone**, with what it says of them. -/
theorem Holds.of_within (hN : C.Respects me φ N) (hasks : ∀ q : Ask Γ, q.isCall → C.asks me q) (hrests : ∀ h, φ h → C.rests h)
    {c : Coro Γ α} (hc : c.Within Ask.isCall N) : C.Holds me (fun _ h _ => φ h) c fun _ _ h _ => φ h :=
  fun _ _ _ _ hs hφ => wp_of_within hN hasks hrests hφ hc hs fun _ _ _ _ => hφ

end Contract

end Caips.Logic
