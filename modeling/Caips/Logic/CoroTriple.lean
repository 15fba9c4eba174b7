/-
Caips.Logic.CoroTriple — what a coroutine may await on the way, and how it ends.

`Follows E may Q c s l` is the weakest precondition of a coroutine `c` in the
environment `E`: from the state `s`, with the trail `l` behind it, every await
it comes to is one it may come to in the state and with the trail it then has,
and it ends as `Q` says. The rules go along the program text; `Exec.follows`
carries the result over to every execution.
-/
import Caips.Logic.CoroPool

namespace Caips.Logic

variable {Γ : Sig} {α β : Type}

namespace Coro

/-- From the state `s` and the trail `l` on, `c` awaits what it may, and ends in
`Q`. -/
def Follows (E : Env Γ) (may : Γ.State → Trail Γ → Ask Γ → Prop)
    (Q : Γ.State → Trail Γ → Except Γ.Exc α → Prop) : Coro Γ α → Γ.State → Trail Γ → Prop
  | ret a, s, l => Q s l (.ok a)
  | fail e, s, l => Q s l (.error e)
  | act f k, s, l => Follows E may Q (k s) (f s) l
  | await q k, s, l =>
    may s l q ∧ ∀ r s', E s q r s' → Follows E may Q (k r) s' (.inl ⟨q, r⟩ :: l)
  | fork d k, s, l => ∀ n, Follows E may Q (k n) s (.inr (n, d) :: l)

variable {E : Env Γ} {may : Γ.State → Trail Γ → Ask Γ → Prop}
  {Q : Γ.State → Trail Γ → Except Γ.Exc β → Prop} {s s' : Γ.State} {l l' : Trail Γ}

/-- Executions keep to what their coroutine follows. -/
theorem Exec.follows {c c' : Coro Γ β} (h : Exec E c s l' c' s') :
    ∀ {l : Trail Γ}, c.Follows E may Q s l → c'.Follows E may Q s' (l' ++ l) := by
  induction h with
  | refl => exact fun hc => hc
  | act _ ih => exact fun hc => ih hc
  | await he _ ih =>
    intro l hc
    rw [List.append_assoc]
    exact ih (hc.2 _ _ he)
  | fork _ ih =>
    intro l hc
    rw [List.append_assoc]
    exact ih (hc _)

theorem follows_ofExcept {o : Except Γ.Exc β} :
    (Coro.ofExcept o).Follows E may Q s l ↔ Q s l o := by
  cases o <;> exact Iff.rfl

namespace Follows

variable {c : Coro Γ β} {g : Γ.Exc → Coro Γ β} {k : α → Coro Γ β}

theorem mono {Q' : Γ.State → Trail Γ → Except Γ.Exc β → Prop}
    (hQ : ∀ s l o, Q s l o → Q' s l o) :
    ∀ {s : Γ.State} {l : Trail Γ}, c.Follows E may Q s l → c.Follows E may Q' s l := by
  induction c with
  | ret a => exact fun h => hQ _ _ _ h
  | fail e => exact fun h => hQ _ _ _ h
  | act f k ih => exact fun h => ih _ h
  | await q k ih => exact fun h => ⟨h.1, fun r s' hr => ih r (h.2 r s' hr)⟩
  | fork d k ih => exact fun h n => ih n (h n)

theorem handle {c : Coro Γ α} :
    ∀ {s : Γ.State} {l : Trail Γ},
      c.Follows E may (fun s l o => match o with
        | .ok a => (k a).Follows E may Q s l
        | .error e => (g e).Follows E may Q s l) s l →
      (c.handle k g).Follows E may Q s l := by
  induction c with
  | ret a => exact fun h => h
  | fail e => exact fun h => h
  | act f k' ih => exact fun h => ih _ h
  | await q k' ih => exact fun h => ⟨h.1, fun r s' hr => ih r (h.2 r s' hr)⟩
  | fork d k' ih => exact fun h n => ih n (h n)

theorem bind {c : Coro Γ α}
    (h : c.Follows E may (fun s l o => match o with
      | .ok a => (k a).Follows E may Q s l
      | .error e => Q s l (.error e)) s l) : (c >>= k).Follows E may Q s l :=
  handle (h.mono fun _ _ o ho => by cases o <;> exact ho)

theorem tryCatch (h : c.Follows E may (fun s l o => match o with
      | .ok a => Q s l (.ok a)
      | .error e => (g e).Follows E may Q s l) s l) : (c.tryCatch g).Follows E may Q s l :=
  handle (h.mono fun _ _ o ho => by cases o <;> exact ho)

theorem sync_bind {m : ExceptT Γ.Exc (StateM Γ.State) α}
    (herror : ∀ e, (m s).1 = .error e → Q (m s).2 l (.error e))
    (hok : ∀ a, (m s).1 = .ok a → (k a).Follows E may Q (m s).2 l) :
    (Coro.sync m >>= k).Follows E may Q s l := by
  show ((Coro.ofExcept (m s).1).handle k Coro.fail).Follows E may Q (m s).2 l
  cases hm : (m s).1 with
  | error e => exact herror e hm
  | ok a => exact hok a hm

theorem start_bind {d : Γ.Child} {k : Γ.Handle → Coro Γ β}
    (h : ∀ n, (k (n, d)).Follows E may Q s (.inr (n, d) :: l)) :
    (Coro.start d >>= k).Follows E may Q s l := h

theorem ask_handle {q : Ask Γ} {k : q.Reply → Coro Γ β} (hmay : may s l q)
    (hok : ∀ a s', E s q (.ok a) s' → (k a).Follows E may Q s' (.inl ⟨q, .ok a⟩ :: l))
    (herror : ∀ e s', E s q (.error e) s' → (g e).Follows E may Q s' (.inl ⟨q, .error e⟩ :: l)) :
    ((Coro.ask q).handle k g).Follows E may Q s l := by
  refine ⟨hmay, fun r s' hr => ?_⟩
  cases r with
  | ok a => exact hok a s' hr
  | error e => exact herror e s' hr

theorem ask {q : Ask Γ} {Q : Γ.State → Trail Γ → Except Γ.Exc q.Reply → Prop} (hmay : may s l q)
    (h : ∀ r s', E s q r s' → Q s' (.inl ⟨q, r⟩ :: l) r) : (Coro.ask q).Follows E may Q s l :=
  ⟨hmay, fun r s' hr => follows_ofExcept.mpr (h r s' hr)⟩

/-- Code within bounds keeps what its awaits, its children and its actions keep. -/
theorem within {φ : Ask Γ → Prop} {N : Γ.State → Γ.State → Prop} {I : Γ.State → Trail Γ → Prop}
    (hstep : ∀ s s' l, I s l → N s s' → I s' l)
    (hask : ∀ s l q, I s l → φ q →
      may s l q ∧ ∀ r s', E s q r s' → I s' (.inl ⟨q, r⟩ :: l))
    (hstart : ∀ s l h, I s l → φ (.join h) → I s (.inr h :: l)) :
    ∀ {s : Γ.State} {l : Trail Γ}, c.Within φ N → I s l → c.Follows E may (fun s l _ => I s l) s l := by
  induction c with
  | ret a => exact fun _ h => h
  | fail e => exact fun _ h => h
  | act f k ih => exact fun hc h => ih _ (hc _).2 (hstep _ _ _ h (hc _).1)
  | await q k ih =>
    intro s l hc h
    obtain ⟨hmay, hnext⟩ := hask s l q h hc.1
    exact ⟨hmay, fun r s' hr => ih r (hc.2 r) (hnext r s' hr)⟩
  | fork d k ih => exact fun hc h n => ih n (hc n).2 (hstart _ _ _ h (hc n).1)

theorem silent {N : Γ.State → Γ.State → Prop} (hc : c.Within (fun _ => False) N) :
    c.Follows E may (fun _ l' _ => l' = l) s l :=
  within (I := fun _ l' => l' = l) (fun _ _ _ h _ => h) (fun _ _ _ _ hq => hq.elim)
    (fun _ _ _ _ hq => hq.elim) hc rfl

theorem when {b : Bool} {c : Coro Γ Unit} {Q : Γ.State → Trail Γ → Except Γ.Exc Unit → Prop}
    (htrue : b = true → c.Follows E may Q s l) (hfalse : b = false → Q s l (.ok ())) :
    (Coro.when b c).Follows E may Q s l := by
  cases b with
  | true => exact htrue rfl
  | false => exact hfalse rfl

theorem when_bind {b : Bool} {c : Coro Γ Unit} {k : Unit → Coro Γ β}
    (htrue : b = true → (c >>= k).Follows E may Q s l)
    (hfalse : b = false → (k ()).Follows E may Q s l) : (Coro.when b c >>= k).Follows E may Q s l := by
  cases b with
  | true => exact htrue rfl
  | false => exact hfalse rfl

end Follows

end Coro

/-! ## Tasks -/

namespace Program

open Coro

variable {P : Program Γ} {N : Γ.State → Γ.State → Prop} {i : Nat} {t : Task Γ} {s₀ s : Γ.State}
  {l : Trail Γ} {may : Γ.State → Trail Γ → Ask Γ → Prop}
  {Q : Γ.State → Trail Γ → Except Γ.Exc (Γ.Out t.child) → Prop}

theorem TracedTo.awaits (h : P.TracedTo N i t s₀ l s)
    (hbody : (P.body i t.child).Follows (P.world N) may Q s₀ []) {q : Ask Γ}
    {k : Except Γ.Exc q.Reply → Coro Γ (Γ.Out t.child)} (hq : t.status = .suspended q k) :
    may s l q := by
  obtain ⟨-, c, hc, hexec⟩ := h
  rw [hq] at hc
  obtain rfl := Option.some.inj hc
  have hleft := hexec.follows hbody
  rw [List.append_nil] at hleft
  exact hleft.1

theorem TracedTo.ends (h : P.TracedTo N i t s₀ l s)
    (hbody : (P.body i t.child).Follows (P.world N) may Q s₀ [])
    {o : Except Γ.Exc (Γ.Out t.child)} (ho : t.status = .done o) : Q s l o := by
  obtain ⟨-, c, hc, hexec⟩ := h
  rw [ho] at hc
  obtain rfl := Option.some.inj hc
  have hleft := hexec.follows hbody
  rw [List.append_nil] at hleft
  exact follows_ofExcept.mp hleft

end Program

end Caips.Logic
