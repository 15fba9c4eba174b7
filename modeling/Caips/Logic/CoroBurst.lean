/-
Caips.Logic.CoroBurst — the bursts of a program as steps of their own.

Between two awaits nobody else runs, so what a relation `N` says of a burst as a
whole may fail for the actions it is made of. `Bursts N Q c s₀ s` is the weakest
precondition of a coroutine `c` in the state `s`, whose burst began in `s₀`: each
burst is an `N`-step from its first state to its last, whatever the others have
done in between, and `c` ends as `Q` says. `Restores N c` is the case of code that
may run anywhere within a burst, and leaves it an `N`-step.

Where all bodies do so (`Leaping`), every move of the event loop is an `N`-step.
-/
import Caips.Logic.CoroPool

namespace Caips.Logic

variable {Γ : Sig} {α β : Type} {N : Γ.State → Γ.State → Prop}

namespace Coro

/-- In `s`, in a burst that began in `s₀`: from here on `c` makes `N`-steps of its
bursts, and ends in `Q`. -/
def Bursts (N : Γ.State → Γ.State → Prop) (Q : Γ.State → Γ.State → Except Γ.Exc α → Prop) :
    Coro Γ α → Γ.State → Γ.State → Prop
  | ret a, s₀, s => Q s₀ s (.ok a)
  | fail e, s₀, s => Q s₀ s (.error e)
  | act f k, s₀, s => Bursts N Q (k s) s₀ (f s)
  | await _ k, s₀, s => N s₀ s ∧ ∀ r s', Bursts N Q (k r) s' s'
  | fork _ k, s₀, s => ∀ n, Bursts N Q (k n) s₀ s

theorem bursts_ofExcept {Q : Γ.State → Γ.State → Except Γ.Exc β → Prop} {o : Except Γ.Exc β}
    {s₀ s : Γ.State} : (Coro.ofExcept o).Bursts N Q s₀ s ↔ Q s₀ s o := by
  cases o <;> exact Iff.rfl

namespace Bursts

variable {Q Q' : Γ.State → Γ.State → Except Γ.Exc β → Prop} {s₀ s : Γ.State}

theorem mono {c : Coro Γ β} (hQ : ∀ s₀ s o, Q s₀ s o → Q' s₀ s o) :
    ∀ {s₀ s : Γ.State}, c.Bursts N Q s₀ s → c.Bursts N Q' s₀ s := by
  induction c with
  | ret a => exact fun h => hQ _ _ _ h
  | fail e => exact fun h => hQ _ _ _ h
  | act f k ih => exact fun h => ih _ h
  | await q k ih => exact fun h => ⟨h.1, fun r s' => ih r (h.2 r s')⟩
  | fork d k ih => exact fun h n => ih n (h n)

theorem handle {c : Coro Γ α} {k : α → Coro Γ β} {g : Γ.Exc → Coro Γ β} :
    ∀ {s₀ s : Γ.State}, c.Bursts N (fun s₀ s o => match o with
        | .ok a => (k a).Bursts N Q s₀ s
        | .error e => (g e).Bursts N Q s₀ s) s₀ s → (c.handle k g).Bursts N Q s₀ s := by
  induction c with
  | ret a => exact fun h => h
  | fail e => exact fun h => h
  | act f k' ih => exact fun h => ih _ h
  | await q k' ih => exact fun h => ⟨h.1, fun r s' => ih r (h.2 r s')⟩
  | fork d k' ih => exact fun h n => ih n (h n)

end Bursts

/-- Wherever a burst was an `N`-step so far, `c` leaves it one. -/
def Restores (N : Γ.State → Γ.State → Prop) (c : Coro Γ α) : Prop :=
  ∀ s₀ s, N s₀ s → c.Bursts N (fun s₀ s _ => N s₀ s) s₀ s

namespace Restores

theorem ret {a : α} : (Coro.ret a : Coro Γ α).Restores N := fun _ _ h => h

theorem fail {e : Γ.Exc} : (Coro.fail e : Coro Γ α).Restores N := fun _ _ h => h

variable {c : Coro Γ α}

theorem handle {k : α → Coro Γ β} {g : Γ.Exc → Coro Γ β} (hc : c.Restores N)
    (hk : ∀ a, (k a).Restores N) (hg : ∀ e, (g e).Restores N) : (c.handle k g).Restores N := by
  intro s₀ s hs
  refine Bursts.handle ((hc s₀ s hs).mono fun s₀ s o ho => ?_)
  cases o with
  | ok a => exact hk a s₀ s ho
  | error e => exact hg e s₀ s ho

theorem bind {k : α → Coro Γ β} (hc : c.Restores N) (hk : ∀ a, (k a).Restores N) :
    (c >>= k).Restores N := hc.handle hk fun _ => fail

theorem tryCatch {g : Γ.Exc → Coro Γ α} (hc : c.Restores N)
    (hg : ∀ e, (g e).Restores N) : (c.tryCatch g).Restores N := hc.handle (fun _ => ret) hg

theorem tryFinally {f : Coro Γ Unit} (hc : c.Restores N) (hf : f.Restores N) :
    (c.tryFinally f).Restores N :=
  hc.handle (fun _ => hf.handle (fun _ => ret) fun _ => fail)
    fun _ => hf.handle (fun _ => fail) fun _ => fail

theorem sync {m : ExceptT Γ.Exc (StateM Γ.State) α} (hm : ∀ s₀ s, N s₀ s → N s₀ (m s).2) :
    (Coro.sync m).Restores N := fun s₀ s hs => bursts_ofExcept.mpr (hm s₀ s hs)

theorem ask {q : Ask Γ} (hrefl : ∀ s, N s s) : (Coro.ask q).Restores N :=
  fun _ _ hs => ⟨hs, fun _ s' => bursts_ofExcept.mpr (hrefl s')⟩

theorem when {b : Bool} {c : Coro Γ Unit} (hc : c.Restores N) : (Coro.when b c).Restores N := by
  cases b with
  | true => exact hc
  | false => exact ret

end Restores

end Coro

/-! ## Pools -/

namespace Program

open Coro

variable {P : Program Γ} {G : Pool Γ → Move Γ P.Op → Prop} {p p' : Pool Γ}

/-- Every burst of a body and every operation of the outside world is an `N`-step, and the
program does not crash. -/
structure Leaping (P : Program Γ) (N : Γ.State → Γ.State → Prop)
    (G : Pool Γ → Move Γ P.Op → Prop) : Prop where
  refl : ∀ s, N s s
  body : ∀ i c, (P.body i c).Restores N
  enter : ∀ c s s', P.enter c s = some s' → N s s'
  op : ∀ p o s, G p (.op o) → P.op o p.state = some s → N p.state s
  reboot : ∀ s, P.reboot s = none

/-- Each task that waits will make `N`-steps. -/
def Paced (N : Γ.State → Γ.State → Prop) (p : Pool Γ) : Prop :=
  ∀ t ∈ p.tasks, ∀ q k, t.status = .suspended q k →
    ∀ r s, (k r).Bursts N (fun s₀ s _ => N s₀ s) s s

/-- A burst is an `N`-step, and a task that then waits will make others. -/
theorem paced_burst {d : Γ.Child} {c : Coro Γ (Γ.Out d)} :
    ∀ {n : Nat} {s₀ s : Γ.State}, c.Bursts N (fun s₀ s _ => N s₀ s) s₀ s →
      N s₀ (c.burst n s).state ∧ ∀ q k, (c.burst n s).status = .suspended q k →
        ∀ r s, (k r).Bursts N (fun s₀ s _ => N s₀ s) s s := by
  induction c with
  | ret a => exact fun h => ⟨h, fun _ _ hq => nomatch hq⟩
  | fail e => exact fun h => ⟨h, fun _ _ hq => nomatch hq⟩
  | act f k ih => exact fun {n s₀ s} h => ih s h
  | await q k _ =>
    intro n s₀ s h
    refine ⟨h.1, fun q' k' hq => ?_⟩
    obtain ⟨rfl, hk⟩ := Status.suspended.inj hq
    obtain rfl := eq_of_heq hk
    exact h.2
  | fork d k ih => exact fun {n s₀ s} h => ih n (n := n + 1) (h n)

theorem Paced.advance (hp : Paced N p) {i : Nat} {t : Task Γ} {hist : List (Event Γ)}
    {c : Coro Γ (Γ.Out t.child)} (hc : c.Bursts N (fun s₀ s _ => N s₀ s) p.state p.state) :
    N p.state (p.advance i t hist (c.burst p.tasks.length p.state)).state ∧
      Paced N (p.advance i t hist (c.burst p.tasks.length p.state)) := by
  obtain ⟨hstep, hleft⟩ := paced_burst (n := p.tasks.length) hc
  refine ⟨hstep, fun u hu q k hq => ?_⟩
  rcases List.mem_append.mp hu with hold | hnew
  · rcases List.mem_or_eq_of_mem_set hold with hold | rfl
    · exact hp u hold q k hq
    · exact hleft q k hq
  · obtain ⟨d, -, rfl⟩ := List.mem_map.mp hnew
    exact nomatch hq

theorem paced_nil (h : p.tasks = []) : Paced N p := by
  intro t ht
  rw [h] at ht
  exact absurd ht List.not_mem_nil

/-- **The moves of the event loop** are `N`-steps where all bursts are. -/
theorem Leaping.step (hP : P.Leaping N G) (hp : Paced N p) {m : Move Γ P.Op} (hG : G p m)
    (h : P.step p m = some p') : N p.state p'.state ∧ Paced N p' := by
  cases m with
  | spawn c =>
    obtain ⟨s, hs, rfl⟩ := Option.map_eq_some_iff.mp h
    refine ⟨hP.enter c p.state s hs, fun t ht q k hq => ?_⟩
    rcases List.mem_append.mp ht with hold | hnew
    · exact hp t hold q k hq
    · obtain rfl := List.mem_singleton.mp hnew
      cases hq
  | start i =>
    simp only [Program.step] at h
    split at h
    · obtain rfl := Option.some.inj h
      exact hp.advance (hP.body i _ p.state p.state (hP.refl _))
    · cases h
  | resume i a =>
    simp only [Program.step] at h
    split at h
    · rename_i c q k hist hi
      obtain rfl := Option.some.inj h
      exact hp.advance (hp _ (List.mem_of_getElem? hi) q k rfl (a q) p.state)
    · cases h
  | op o =>
    obtain ⟨s, hs, rfl⟩ := Option.map_eq_some_iff.mp h
    exact ⟨hP.op p o s hG hs, hp⟩
  | crash i a n =>
    simp only [Program.step, Option.bind_eq_bind, Option.bind_eq_some_iff] at h
    obtain ⟨_, -, _, -, s, hs, -⟩ := h
    cases (hP.reboot _).symm.trans hs

end Program

end Caips.Logic
