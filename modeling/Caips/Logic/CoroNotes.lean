/-
Caips.Logic.CoroNotes — everything a task does, read by an automaton.

The trail of `Caips.Logic.CoroTrace` has the answers a coroutine was given. Its
notes have its actions too, each with the state before and after, so that "this is
done exactly once" can be said of a program that keeps no record of it. What the
notes have to look like is told by an automaton: a relation `R` between accounts
that reads one note at a time (`Accepts`).

`Tracks E R Q c x s` is the weakest precondition of a coroutine `c` that is read
from the account `x` on. Its rules go along the program text, and
`Tame.accepted` carries the result over to a task of a pool: the notes it made in
a run (`Program.notes`) are accepted, and at its end the account is as `Q` says.
-/
import Caips.Logic.CoroPool

namespace Caips.Logic

variable {Γ : Sig} {α β A : Type}

/-! ## Notes -/

/-- One thing a coroutine did. -/
inductive Note (Γ : Sig) where
  | act (s s' : Γ.State)
  | met (e : Event Γ)
  | child (h : Γ.Handle)

/-- The automaton `R` reads the notes from the account `x` to the account `y`. -/
inductive Accepts (R : A → Note Γ → A → Prop) : A → List (Note Γ) → A → Prop
  | nil (x : A) : Accepts R x [] x
  | cons {x y w : A} {n : Note Γ} {l : List (Note Γ)} : R x n y → Accepts R y l w → Accepts R x (n :: l) w

variable {R : A → Note Γ → A → Prop}

theorem Accepts.append {x y w : A} {l l' : List (Note Γ)}
    (h : Accepts R x l y) (h' : Accepts R y l' w) : Accepts R x (l ++ l') w := by
  induction h with
  | nil => exact h'
  | cons hn _ ih => exact .cons hn (ih h')

/-- One of the notes, and no other, is `P`. -/
def Once (P : Note Γ → Prop) (l : List (Note Γ)) : Prop :=
  ∃ l₁ n l₂, l = l₁ ++ n :: l₂ ∧ P n ∧ ∀ m ∈ l₁ ++ l₂, ¬ P m

/-- An automaton that raises a flag at the notes that are `P`, and can do so only
while the flag is down, reads one such note at most. -/
theorem Accepts.once {P : Note Γ → Prop} {f : A → Bool}
    (hR : ∀ x n y, R x n y → (P n ∧ f x = false ∧ f y = true) ∨ (¬ P n ∧ f y = f x)) {x y : A}
    {l : List (Note Γ)} (h : Accepts R x l y) :
    (f y = f x ∧ ∀ n ∈ l, ¬ P n) ∨ (f x = false ∧ f y = true ∧ Once P l) := by
  induction h with
  | nil => exact .inl ⟨rfl, fun n hn => absurd hn List.not_mem_nil⟩
  | @cons x y w n l hn _ ih =>
    rcases hR x n y hn with ⟨hP, hx, hy⟩ | ⟨hP, hy⟩
    · rcases ih with ⟨hw, hl⟩ | ⟨hdown, -, -⟩
      · exact .inr ⟨hx, hw.trans hy, [], n, l, rfl, hP, hl⟩
      · rw [hy] at hdown
        cases hdown
    · rcases ih with ⟨hw, hl⟩ | ⟨hdown, hw, l₁, m, l₂, rfl, hm, hl⟩
      · exact .inl ⟨hw.trans hy, List.forall_mem_cons.mpr ⟨hP, hl⟩⟩
      · exact .inr ⟨hy ▸ hdown, hw, n :: l₁, m, l₂, rfl, hm, List.forall_mem_cons.mpr ⟨hP, hl⟩⟩

theorem Accepts.flag_iff {P : Note Γ → Prop} {f : A → Prop}
    (hR : ∀ x n y, R x n y → (f y ↔ f x ∨ P n)) {x y : A} {l : List (Note Γ)} (h : Accepts R x l y) :
    f y ↔ f x ∨ ∃ n ∈ l, P n := by
  induction h with
  | nil => simp
  | cons hn _ ih => rw [ih, hR _ _ _ hn, or_assoc, List.exists_mem_cons_iff]

namespace Coro

/-- The notes of a burst; the next child gets number `n`. -/
def notes : Nat → Coro Γ α → Γ.State → List (Note Γ)
  | _, ret _, _ => []
  | _, fail _, _ => []
  | n, act f k, s => .act s (f s) :: notes n (k s) (f s)
  | _, await _ _, _ => []
  | n, fork d k, s => .child (n, d) :: notes (n + 1) (k n) s

/-! ## What the notes of a coroutine can be -/

/-- From the account `x` and the state `s` on, the notes of `c` are read, and it
ends in `Q`. -/
def Tracks (E : Env Γ) (R : A → Note Γ → A → Prop) (Q : A → Γ.State → Except Γ.Exc α → Prop) :
    Coro Γ α → A → Γ.State → Prop
  | ret a, x, s => Q x s (.ok a)
  | fail e, x, s => Q x s (.error e)
  | act f k, x, s => ∃ y, R x (.act s (f s)) y ∧ Tracks E R Q (k s) y (f s)
  | await q k, x, s => ∀ r s', E s q r s' → ∃ y, R x (.met ⟨q, r⟩) y ∧ Tracks E R Q (k r) y s'
  | fork d k, x, s => ∀ n, ∃ y, R x (.child (n, d)) y ∧ Tracks E R Q (k n) y s

variable {E : Env Γ} {R : A → Note Γ → A → Prop} {Q : A → Γ.State → Except Γ.Exc β → Prop} {x : A}
  {s s' : Γ.State}

theorem tracks_ofExcept {o : Except Γ.Exc β} : (Coro.ofExcept o).Tracks E R Q x s ↔ Q x s o := by
  cases o <;> exact Iff.rfl

namespace Tracks

/-- The notes of a burst are read, and so will be those of what it leaves. -/
theorem burst {d : Γ.Child} {Q : A → Γ.State → Except Γ.Exc (Γ.Out d) → Prop} {c : Coro Γ (Γ.Out d)} :
    ∀ {n : Nat} {x : A} {s : Γ.State}, c.Tracks E R Q x s →
      ∃ y c', Accepts R x (c.notes n s) y ∧ (c.burst n s).status.left = some c' ∧
        c'.Tracks E R Q y (c.burst n s).state := by
  induction c with
  | ret a => exact fun {n x s} h => ⟨x, _, .nil x, rfl, h⟩
  | fail e => exact fun {n x s} h => ⟨x, _, .nil x, rfl, h⟩
  | act f k ih =>
    intro n x s ⟨y, hy, h⟩
    obtain ⟨w, c', hw, hc', hleft⟩ := ih s h (n := n)
    exact ⟨w, c', .cons hy hw, hc', hleft⟩
  | await q k _ => exact fun {n x s} h => ⟨x, _, .nil x, rfl, h⟩
  | fork d k ih =>
    intro n x s h
    obtain ⟨y, hy, h⟩ := h n
    obtain ⟨w, c', hw, hc', hleft⟩ := ih n h (n := n + 1)
    exact ⟨w, c', .cons hy hw, hc', hleft⟩

variable {c : Coro Γ β} {g : Γ.Exc → Coro Γ β} {k : α → Coro Γ β}

theorem mono {Q' : A → Γ.State → Except Γ.Exc β → Prop}
    (hQ : ∀ x s o, Q x s o → Q' x s o) :
    ∀ {x : A} {s : Γ.State}, c.Tracks E R Q x s → c.Tracks E R Q' x s := by
  induction c with
  | ret a => exact fun h => hQ _ _ _ h
  | fail e => exact fun h => hQ _ _ _ h
  | act f k ih => exact fun ⟨y, hy, h⟩ => ⟨y, hy, ih _ h⟩
  | await q k ih =>
    intro x s h r s' hr
    obtain ⟨y, hy, h⟩ := h r s' hr
    exact ⟨y, hy, ih r h⟩
  | fork d k ih =>
    intro x s h n
    obtain ⟨y, hy, h⟩ := h n
    exact ⟨y, hy, ih n h⟩

/-- `c`, and then `k` or `g` from where it ended. -/
theorem handle {c : Coro Γ α} :
    ∀ {x : A} {s : Γ.State},
      c.Tracks E R (fun x s o => match o with
        | .ok a => (k a).Tracks E R Q x s
        | .error e => (g e).Tracks E R Q x s) x s →
      (c.handle k g).Tracks E R Q x s := by
  induction c with
  | ret a => exact fun h => h
  | fail e => exact fun h => h
  | act f k' ih => exact fun ⟨y, hy, h⟩ => ⟨y, hy, ih _ h⟩
  | await q k' ih =>
    intro x s h r s' hr
    obtain ⟨y, hy, h⟩ := h r s' hr
    exact ⟨y, hy, ih r h⟩
  | fork d k' ih =>
    intro x s h n
    obtain ⟨y, hy, h⟩ := h n
    exact ⟨y, hy, ih n h⟩

theorem then_handle {N : A → Γ.State → Except Γ.Exc α → Prop} {c : Coro Γ α}
    (hc : c.Tracks E R N x s)
    (hk : ∀ a y s', N y s' (.ok a) → (k a).Tracks E R Q y s')
    (hg : ∀ e y s', N y s' (.error e) → (g e).Tracks E R Q y s') :
    (c.handle k g).Tracks E R Q x s :=
  handle (hc.mono fun y s' o ho => by
    cases o with
    | ok a => exact hk a y s' ho
    | error e => exact hg e y s' ho)

theorem bind {N : A → Γ.State → Except Γ.Exc α → Prop} {c : Coro Γ α}
    (hc : c.Tracks E R N x s) (hk : ∀ a y s', N y s' (.ok a) → (k a).Tracks E R Q y s')
    (he : ∀ e y s', N y s' (.error e) → Q y s' (.error e)) : (c >>= k).Tracks E R Q x s :=
  then_handle hc hk he

theorem tryCatch {N : A → Γ.State → Except Γ.Exc β → Prop}
    (hc : c.Tracks E R N x s) (hk : ∀ a y s', N y s' (.ok a) → Q y s' (.ok a))
    (hg : ∀ e y s', N y s' (.error e) → (g e).Tracks E R Q y s') : (c.tryCatch g).Tracks E R Q x s :=
  then_handle hc hk hg

theorem tryFinally {N : A → Γ.State → Except Γ.Exc β → Prop} {f : Coro Γ Unit}
    (hc : c.Tracks E R N x s)
    (hf : ∀ o y s', N y s' o → f.Tracks E R (fun y s o' => match o' with
      | .ok _ => Q y s o
      | .error e => Q y s (.error e)) y s') : (c.tryFinally f).Tracks E R Q x s := by
  refine then_handle hc (fun a y s' ha => ?_) fun e y s' he => ?_
  · exact then_handle (hf _ y s' ha) (fun _ _ _ h => h) fun _ _ _ h => h
  · exact then_handle (hf _ y s' he) (fun _ _ _ h => h) fun _ _ _ h => h

theorem sync_bind {m : ExceptT Γ.Exc (StateM Γ.State) α} {y : A}
    (hact : R x (.act s (m s).2) y) (hok : ∀ a, (m s).1 = .ok a → (k a).Tracks E R Q y (m s).2)
    (herror : ∀ e, (m s).1 = .error e → Q y (m s).2 (.error e)) :
    (Coro.sync m >>= k).Tracks E R Q x s := by
  refine ⟨y, hact, ?_⟩
  show ((Coro.ofExcept (m s).1).handle k Coro.fail).Tracks E R Q y (m s).2
  cases hm : (m s).1 with
  | error e => exact herror e hm
  | ok a => exact hok a hm

theorem sync {m : ExceptT Γ.Exc (StateM Γ.State) β} {y : A} (hact : R x (.act s (m s).2) y)
    (h : Q y (m s).2 (m s).1) : (Coro.sync m).Tracks E R Q x s :=
  ⟨y, hact, tracks_ofExcept.mpr h⟩

theorem ask_handle {q : Ask Γ} {k : q.Reply → Coro Γ β}
    {y : Except Γ.Exc q.Reply → A} (hmet : ∀ r s', E s q r s' → R x (.met ⟨q, r⟩) (y r))
    (hok : ∀ a s', E s q (.ok a) s' → (k a).Tracks E R Q (y (.ok a)) s')
    (herror : ∀ e s', E s q (.error e) s' → (g e).Tracks E R Q (y (.error e)) s') :
    ((Coro.ask q).handle k g).Tracks E R Q x s := by
  intro r s' hr
  refine ⟨y r, hmet r s' hr, ?_⟩
  cases r with
  | ok a => exact hok a s' hr
  | error e => exact herror e s' hr

theorem when_bind {b : Bool} {c : Coro Γ Unit} {k : Unit → Coro Γ β}
    (htrue : b = true → (c >>= k).Tracks E R Q x s)
    (hfalse : b = false → (k ()).Tracks E R Q x s) : (Coro.when b c >>= k).Tracks E R Q x s := by
  cases b with
  | true => exact htrue rfl
  | false => exact hfalse rfl

/-- Code within bounds, at which the automaton goes from accounts of `J` to such
accounts. -/
theorem within_class {φ : Ask Γ → Prop} {N : Γ.State → Γ.State → Prop} {I : Γ.State → Prop} {J : A → Prop}
    (hact : ∀ x s s', J x → I s → N s s' → ∃ y, R x (.act s s') y ∧ J y ∧ I s')
    (hask : ∀ x s q r s', J x → I s → φ q → E s q r s' → ∃ y, R x (.met ⟨q, r⟩) y ∧ J y ∧ I s')
    (hchild : ∀ x h, J x → φ (.join h) → ∃ y, R x (.child h) y ∧ J y) :
    ∀ {x : A} {s : Γ.State}, c.Within φ N → J x → I s → c.Tracks E R (fun y s _ => J y ∧ I s) x s := by
  induction c with
  | ret a => exact fun _ hx h => ⟨hx, h⟩
  | fail e => exact fun _ hx h => ⟨hx, h⟩
  | act f k ih =>
    intro x s hc hx h
    obtain ⟨y, hR, hy, hI⟩ := hact x s (f s) hx h (hc s).1
    exact ⟨y, hR, ih s (hc s).2 hy hI⟩
  | await q k ih =>
    intro x s hc hx h r s' hr
    obtain ⟨y, hR, hy, hI⟩ := hask x s q r s' hx h hc.1 hr
    exact ⟨y, hR, ih r (hc.2 r) hy hI⟩
  | fork d k ih =>
    intro x s hc hx h n
    obtain ⟨y, hR, hy⟩ := hchild x (n, d) hx (hc n).1
    exact ⟨y, hR, ih n (hc n).2 hy h⟩

/-- Code within bounds that the automaton passes over. -/
theorem within {φ : Ask Γ → Prop} {N : Γ.State → Γ.State → Prop} {I : Γ.State → Prop}
    (hact : ∀ s s', I s → N s s' → R x (.act s s') x ∧ I s')
    (hask : ∀ s q r s', I s → φ q → E s q r s' → R x (.met ⟨q, r⟩) x ∧ I s')
    (hchild : ∀ h, φ (.join h) → R x (.child h) x) {s : Γ.State} (hc : c.Within φ N)
    (h : I s) : c.Tracks E R (fun y s _ => y = x ∧ I s) x s := by
  refine within_class (J := fun y => y = x) ?_ ?_ ?_ hc rfl h
  · rintro y s s' rfl h hN
    obtain ⟨hR, hI⟩ := hact s s' h hN
    exact ⟨y, hR, rfl, hI⟩
  · rintro y s q r s' rfl h hq hr
    obtain ⟨hR, hI⟩ := hask s q r s' h hq hr
    exact ⟨y, hR, rfl, hI⟩
  · rintro y h rfl hφ
    exact ⟨y, hchild h hφ, rfl⟩

end Tracks

end Coro

/-- The automaton moves at answers only, and an answer says where to. -/
structure ReadsAnswers (R : A → Note Γ → A → Prop) (f : Event Γ → A → A) : Prop where
  act : ∀ {x y : A} {s s' : Γ.State}, R x (.act s s') y → y = x
  child : ∀ {x y : A} {h : Γ.Handle}, R x (.child h) y → y = x
  met : ∀ {x y : A} {e : Event Γ}, R x (.met e) y → y = f e x

/-- A burst has no answers. -/
theorem ReadsAnswers.burst {R : A → Note Γ → A → Prop} {f : Event Γ → A → A} (hR : ReadsAnswers R f)
    {c : Coro Γ α} : ∀ {n : Nat} {x y : A} {s : Γ.State}, Accepts R x (c.notes n s) y → y = x := by
  induction c with
  | ret a => intro n x y s h; cases h; rfl
  | fail e => intro n x y s h; cases h; rfl
  | act g k ih =>
    intro n x y s h
    cases h with
    | cons hact h => rw [ih s h, hR.act hact]
  | await q k _ => intro n x y s h; cases h; rfl
  | fork d k ih =>
    intro n x y s h
    cases h with
    | cons hchild h => rw [ih n h, hR.child hchild]

/-! ## Tasks -/

namespace Program

open Coro

variable {P : Program Γ}

/-- What task `i` noted in a step. -/
def stepNotes (P : Program Γ) (i : Nat) (e : Machine.Step (Pool Γ) (Move Γ P.Op)) : List (Note Γ) :=
  match e.label with
  | .start j =>
    match e.source.tasks[j]? with
    | some ⟨c, .ready, _⟩ =>
      if j = i then (P.body j c).notes e.source.tasks.length e.source.state else []
    | _ => []
  | .resume j a =>
    match e.source.tasks[j]? with
    | some ⟨_, .suspended q k, _⟩ =>
      if j = i then .met ⟨q, a q⟩ :: (k (a q)).notes e.source.tasks.length e.source.state else []
    | _ => []
  | _ => []

/-- What task `i` noted in these steps. -/
def notes (P : Program Γ) (i : Nat) (z : List (Machine.Step (Pool Γ) (Move Γ P.Op))) : List (Note Γ) :=
  z.flatMap (P.stepNotes i)

theorem stepNotes_other {i : Nat} {e : Machine.Step (Pool Γ) (Move Γ P.Op)} (h : ¬ P.Moves i e.label) :
    P.stepNotes i e = [] := by
  unfold stepNotes
  cases hl : e.label with
  | start j =>
    rw [hl] at h
    dsimp only
    split
    · exact if_neg h
    · rfl
  | resume j a =>
    rw [hl] at h
    dsimp only
    split
    · exact if_neg h
    · rfl
  | _ => rfl

variable {φ : Γ.Child → Ask Γ → Prop} {N : Γ.State → Γ.State → Prop}
  {G : Pool Γ → Move Γ P.Op → Prop} {p p' : Pool Γ} {R : A → Note Γ → A → Prop} {x : A}

/-- A task stands where its notes have led to the account `y`, some `N`-steps
ago. -/
def At (N : Γ.State → Γ.State → Prop) (R : A → Note Γ → A → Prop) (p : Pool Γ) (i : Nat) (c : Γ.Child)
    (Q : A → Γ.State → Except Γ.Exc (Γ.Out c) → Prop) (y : A) : Prop :=
  ∃ st hist d s, p.tasks[i]? = some ⟨c, st, hist⟩ ∧ st.left = some d ∧
    d.Tracks (P.world N) R Q y s ∧ N s p.state

namespace Tame

variable (hP : P.Tame φ N G)

include hP

variable {i : Nat} {c : Γ.Child}

/-- A step of the pool, read by the automaton. -/
theorem at_step (hp : Scoped φ N p) {m : Move Γ P.Op} (h : P.step p m = some p')
    (hadm : P.Admissible p m) (hG : G p m)
    {Q : A → Γ.State → Except Γ.Exc (Γ.Out c) → Prop} (hx : P.At N R p i c Q x) :
    ∃ y, Accepts R x (P.stepNotes i ⟨p, m, p'⟩) y ∧ P.At N R p' i c Q y := by
  obtain ⟨st, hist, d, s, ht, hd, htracks, hs⟩ := hx
  have hN := hP.step hp h hG
  obtain ⟨t', ht', -⟩ := child_step hP.reboot h ht
  cases became hP.reboot h ht' with
  | same hold hm =>
    rw [stepNotes_other hm]
    refine ⟨x, .nil x, st, hist, d, s, ?_, hd, htracks, hP.trans _ _ _ hs hN⟩
    rw [ht', ← hold, ht]
  | new hge => exact absurd (List.getElem?_eq_some_iff.mp ht).1 (Nat.not_lt.mpr hge)
  | started hold =>
    obtain ⟨rfl, rfl, rfl⟩ := Task.mk.inj (Option.some.inj (hold.symm.trans ht))
    cases hd
  | @resumed c' l q k a hold heq =>
    obtain ⟨rfl, hst, rfl⟩ := Task.mk.inj (Option.some.inj (hold.symm.trans ht))
    obtain rfl := eq_of_heq hst
    obtain rfl := Option.some.inj hd
    have hans := hadm _ (by rw [ht]; rfl) q k rfl
    obtain ⟨y, hy, hk⟩ := htracks (a q) p.state (world_of_answers hs hans)
    obtain ⟨w, d', hw, hd', hleft⟩ := hk.burst (n := p.tasks.length)
    subst heq
    refine ⟨w, ?_, _, _, d', _, ht', hd', hleft, hP.refl _⟩
    have hnotes : P.stepNotes i ⟨p, .resume i a, p.advance i ⟨c', .suspended q k, l⟩ (⟨q, a q⟩ :: l)
        ((k (a q)).burst p.tasks.length p.state)⟩ =
          .met ⟨q, a q⟩ :: (k (a q)).notes p.tasks.length p.state := by
      unfold stepNotes
      simp only [ht, if_pos]
    rw [hnotes]
    exact .cons hy hw

/-- The first burst of a task. -/
theorem at_start (hi : p.tasks[i]? = some ⟨c, .ready, []⟩) (h : P.step p (.start i) = some p')
    {Q : A → Γ.State → Except Γ.Exc (Γ.Out c) → Prop}
    (hbody : (P.body i c).Tracks (P.world N) R Q x p.state) :
    ∃ y, Accepts R x (P.stepNotes i ⟨p, .start i, p'⟩) y ∧ P.At N R p' i c Q y := by
  have hstep := h
  simp only [Program.step, hi] at hstep
  obtain rfl := Option.some.inj hstep
  obtain ⟨y, d, hy, hd, hleft⟩ := hbody.burst (n := p.tasks.length)
  have hlt := (List.getElem?_eq_some_iff.mp hi).1
  refine ⟨y, ?_, _, [], d, _, ?_, hd, hleft, hP.refl _⟩
  · unfold stepNotes
    simpa only [hi, if_pos] using hy
  · rw [Pool.advance, List.getElem?_append_left (by simpa using hlt), List.getElem?_set_self hlt]

/-- **What a task notes.** In a run from its start on the notes of a task are read
by the automaton that tracks its body, to an account that tracks what is left. -/
theorem accepted {init : Γ.State → Prop} {p'' : Pool Γ}
    {z : List (Machine.Step (Pool Γ) (Move Γ P.Op))}
    {Q : A → Γ.State → Except Γ.Exc (Γ.Out c) → Prop} (hp : Scoped φ N p)
    (hi : p.tasks[i]? = some ⟨c, .ready, []⟩) (h : P.step p (.start i) = some p')
    (hrun : (P.machine init).Run p' z p'') (hG : ∀ e ∈ z, G e.source e.label)
    (hbody : (P.body i c).Tracks (P.world N) R Q x p.state) :
    ∃ y, Accepts R x (P.notes i (⟨p, .start i, p'⟩ :: z)) y ∧ P.At N R p'' i c Q y := by
  have hfirst := hP.at_start hi h hbody
  have hall : Scoped φ N p'' ∧
      ∃ y, Accepts R x (P.stepNotes i ⟨p, .start i, p'⟩ ++ P.notes i z) y ∧ P.At N R p'' i c Q y := by
    induction hrun with
    | nil =>
      refine ⟨hP.scoped_step hp h, ?_⟩
      unfold notes
      simpa using hfirst
    | @snoc u w z m hrun hstep ih =>
      obtain ⟨hscoped, y, hy, hat⟩ := ih fun e he => hG e (List.mem_append_left _ he)
      have hGm := hG ⟨u, m, w⟩ (List.mem_append_right _ (List.mem_singleton.mpr rfl))
      obtain ⟨y', hy', hat'⟩ := hP.at_step hscoped hstep.1 hstep.2 hGm hat
      refine ⟨hP.scoped_step hscoped hstep.1, y', ?_, hat'⟩
      have hsplit : P.notes i (z ++ [⟨u, m, w⟩]) = P.notes i z ++ P.stepNotes i ⟨u, m, w⟩ := by
        unfold notes
        simp
      rw [hsplit, ← List.append_assoc]
      exact hy.append hy'
  exact hall.2

/-- **What the answers of a task say.** In every pool reached a task has not started
yet, or it stands where the answers it has received have led its account. -/
theorem at_reach {init : Γ.State → Prop} {f : Event Γ → A → A} (hR : ReadsAnswers R f) {I : Γ.State → Prop}
    (hI : ∀ p, (P.machine init).Reach G p → I p.state)
    {Q : (c : Γ.Child) → A → Γ.State → Except Γ.Exc (Γ.Out c) → Prop}
    (hbody : ∀ i c s, I s → (P.body i c).Tracks (P.world N) R (Q c) x s)
    (hp : (P.machine init).Reach G p) {t : Task Γ} (ht : p.tasks[i]? = some t) :
    t.status = .ready ∨ P.At N R p i t.child (Q t.child) (t.hist.foldr f x) := by
  induction hp generalizing i t with
  | start hstart =>
    rw [hstart.2] at ht
    cases ht
  | @step p p' m hp hstep hG ih =>
    have hscoped := hP.scoped_reach hp
    cases became hP.reboot hstep.1 ht with
    | same hold hm =>
      refine (ih hold).imp id fun hat => ?_
      obtain ⟨y, hy, hat'⟩ := hP.at_step hscoped hstep.1 hstep.2 hG hat
      rw [stepNotes_other hm] at hy
      cases hy
      exact hat'
    | new _ hready => exact .inl hready
    | started hold =>
      obtain rfl := hist_of_ready hP.reboot hp _ (List.mem_of_getElem? hold) rfl
      obtain ⟨y, hy, hat⟩ := hP.at_start hold hstep.1 (hbody i _ _ (hI p hp))
      have hnotes := hy
      unfold stepNotes at hnotes
      simp only [hold, if_pos] at hnotes
      rw [hR.burst hnotes] at hat
      exact .inr hat
    | @resumed c l q k a hold =>
      rcases ih hold with hready | hat
      · cases hready
      · obtain ⟨y, hy, hat'⟩ := hP.at_step hscoped hstep.1 hstep.2 hG hat
        have hnotes := hy
        unfold stepNotes at hnotes
        simp only [hold, if_pos] at hnotes
        cases hnotes with
        | cons hmet hrest =>
          rw [hR.burst hrest, hR.met hmet] at hat'
          exact .inr hat'

end Tame

theorem At.left {i : Nat} {t : Task Γ} {Q : A → Γ.State → Except Γ.Exc (Γ.Out t.child) → Prop}
    (h : P.At N R p i t.child Q x) (ht : p.tasks[i]? = some t) :
    ∃ d s, t.status.left = some d ∧ d.Tracks (P.world N) R Q x s ∧ N s p.state := by
  obtain ⟨st, hist, d, s, ht', hd, htracks, hs⟩ := h
  obtain ⟨c, st₀, l⟩ := t
  obtain ⟨-, hst, -⟩ := Task.mk.inj (Option.some.inj (ht.symm.trans ht'))
  obtain rfl := eq_of_heq hst
  exact ⟨d, s, hd, htracks, hs⟩

theorem At.ended {i : Nat} {c : Γ.Child} {Q : A → Γ.State → Except Γ.Exc (Γ.Out c) → Prop}
    (h : P.At N R p i c Q x) {o : Except Γ.Exc (Γ.Out c)} {hist : List (Event Γ)}
    (ht : p.tasks[i]? = some ⟨c, .done o, hist⟩) : ∃ s, Q x s o := by
  obtain ⟨st, hist', d, s, ht', hd, htracks, -⟩ := h
  obtain ⟨-, hst, -⟩ := Task.mk.inj (Option.some.inj (ht'.symm.trans ht))
  obtain rfl := eq_of_heq hst
  obtain rfl := Option.some.inj hd
  exact ⟨s, tracks_ofExcept.mp htracks⟩

end Program

end Caips.Logic
